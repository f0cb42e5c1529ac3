import RuleNetwork.Network.Basic

/-!
# The demonstration grammar

The command line shows the network of a small grammar of statements.

```text
stat : expr ';' | ID '=' expr ';' ;
expr : expr '+' term | term ;
term : (ID | INT) | '(' expr ')' | a predicate, then any symbol ;
```

The rules come first, so that their start and stop states are the states 0 to 5.  Each rule
then has eight further states, the first two of which begin and end its alternatives.
-/

namespace RuleNetwork
namespace CommandLine
namespace StatementGrammar

/-- The names of the symbols 1 to 7. -/
def symbolNames : List (Symbol × String) :=
  [(⟨1⟩, "ID"), (⟨2⟩, "INT"), (⟨3⟩, "'+'"), (⟨4⟩, "'('"), (⟨5⟩, "')'"), (⟨6⟩, "';'"),
    (⟨7⟩, "'='")]

/-- The rules, in order. -/
def ruleNames : List String := ["stat", "expr", "term"]

/-- The states 6 to 29, with the rules that own them. -/
def innerStates : List (RuleId × StateKind) :=
  [⟨0⟩, ⟨1⟩, ⟨2⟩].flatMap fun rule =>
    (rule, .blockStart) :: (rule, .blockEnd) :: List.replicate 6 (rule, .basic)

/-- The transitions, each with its source and its target. -/
def transitions : List (Nat × Nat × TransitionKind) :=
  [(0, 6, .epsilon),
    (6, 8, .epsilon),
    (8, 2, .call ⟨1⟩ (.state 9)),
    (9, 7, .atom ⟨6⟩),
    (6, 10, .epsilon),
    (10, 11, .atom ⟨1⟩),
    (11, 12, .atom ⟨7⟩),
    (12, 2, .call ⟨1⟩ (.state 13)),
    (13, 7, .atom ⟨6⟩),
    (7, 1, .epsilon),
    (2, 14, .epsilon),
    (14, 16, .epsilon),
    (16, 2, .call ⟨1⟩ (.state 17)),
    (17, 18, .atom ⟨3⟩),
    (18, 4, .call ⟨2⟩ (.state 19)),
    (19, 15, .epsilon),
    (14, 20, .epsilon),
    (20, 4, .call ⟨2⟩ (.state 21)),
    (21, 15, .epsilon),
    (15, 3, .epsilon),
    (4, 22, .epsilon),
    (22, 24, .epsilon),
    (24, 23, .set (.between 1 2 (by decide))),
    (22, 25, .epsilon),
    (25, 26, .atom ⟨4⟩),
    (26, 2, .call ⟨1⟩ (.state 27)),
    (27, 23, .atom ⟨5⟩),
    (22, 28, .epsilon),
    (28, 29, .predicate ⟨2⟩ 0 false),
    (29, 23, .wildcard),
    (23, 5, .epsilon)]

/-- The network with the names and the rules, but without further states. -/
def rulesOnly : Network :=
  let named : Network := symbolNames.foldl (fun net p => net.nameSymbol p.1 p.2) (.empty ⟨7⟩)
  ruleNames.foldl (fun net name => (net.addRule name).2) named

/-- Builds the network of the grammar. -/
def build : Except Fault Network := do
  let net ← innerStates.foldlM
    (fun (net : Network) p => Prod.snd <$> net.addState p.1 p.2) rulesOnly
  transitions.foldlM
    (fun (net : Network) t => net.addTransition (.state t.1) (.state t.2.1) t.2.2) net

/-- The network of the grammar. -/
def network : Network :=
  match build with
  | .ok net => net
  | .error _ => .empty ⟨7⟩

end StatementGrammar
end CommandLine
end RuleNetwork
