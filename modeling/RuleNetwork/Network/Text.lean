import RuleNetwork.Network.Basic

/-!
# Printing a network

States and transitions are printed with the names of the rules, and symbols by their
names where they have one.

**Sets.**  A run of codes is listed code by code if one of them has a name; otherwise it is
written by its ends, as in the plain text of a set.
-/

namespace RuleNetwork

/-- The word for a kind of state. -/
def StateKind.text : StateKind → String
  | .basic => "Basic"
  | .ruleStart => "RuleStart"
  | .blockStart => "BlockStart"
  | .blockEnd => "BlockEnd"
  | .ruleStop => "RuleStop"

namespace Network

variable (net : Network)

/-- A symbol by its name, or by its code. -/
def prettySymbol (c : Symbol) : String := (net.symbolName c).getD c.text

/-- What is printed for a run: all its codes if one is named, otherwise its ends. -/
def prettyRun (r : Run) : List String :=
  let symbols := r.codes.map Symbol.mk
  if symbols.any fun c => (net.symbolName c).isSome then symbols.map net.prettySymbol
  else [SymbolSet.runText r]

/-- A set with the names of its members. -/
def prettySet (members : SymbolSet) : String :=
  "\x7b" ++ ", ".intercalate (members.runs.flatMap net.prettyRun) ++ "\x7d"

/-- A kind of transition, in the words of the network. -/
def prettyKind : TransitionKind → Except Fault String
  | .epsilon => return "epsilon"
  | .atom c => return net.prettySymbol c
  | .range lo hi => return net.prettySymbol lo ++ ".." ++ net.prettySymbol hi
  | .set members => return net.prettySet members
  | .notSet members => return "~" ++ net.prettySet members
  | .wildcard => return "."
  | .call rule follow => do
      let called ← net.rule rule
      return s!"call {called.name} (follow {follow.text})"
  | .predicate rule index _ => do
      let owner ← net.rule rule
      return s!"pred {owner.name}:{index}"
  | .precedence level => return s!"prec {level}"
  | .action rule index => do
      let owner ← net.rule rule
      return s!"action {owner.name}:{index}"

/-- A transition with its target. -/
def prettyTransition (t : Transition) : Except Fault String := do
  return (← net.prettyKind t.kind) ++ " -> " ++ t.target.text

/-- A state, followed by its transitions on lines of their own. -/
def prettyState (s : State) : Except Fault String := do
  let rule ← net.rule s.rule
  let lines ← s.transitions.mapM net.prettyTransition
  return s!"{s.id.text} {s.kind.text} ({rule.name})" ++ String.join (lines.map ("\n  " ++ ·))

end Network
end RuleNetwork
