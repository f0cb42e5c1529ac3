import RuleNetwork.Network.Transition

/-!
# Transition networks

A network is a compiled grammar.  Each rule owns states, among them one where it
starts and one where it stops.  States and rules are numbered in the order in which
they were added.

**Construction.**  `addRule` adds a rule with its start and its stop state, `addState` a
further state of a rule, and `addTransition` a transition at the end of a state's list.
An addition to a rule or a state that is not there is refused.

**Names.**  A symbol may have a name; a later name replaces an earlier one.
-/

namespace RuleNetwork

/-- The part that a state plays in its rule. -/
inductive StateKind
  | basic
  | ruleStart
  | blockStart
  | blockEnd
  | ruleStop
  deriving DecidableEq, Inhabited

/-- A state of a network, with its transitions in the order of their addition. -/
structure State where
  id : StateId
  rule : RuleId
  kind : StateKind
  transitions : List Transition
  deriving DecidableEq, Inhabited

/-- Tells whether a state ends its rule. -/
def State.isRuleStop (s : State) : Bool := decide (s.kind = .ruleStop)

/-- A rule of a network. -/
structure Rule where
  name : String
  start : StateId
  stop : StateId
  deriving DecidableEq, Inhabited

/-- A transition network; the newest names come first. -/
structure Network where
  maxSymbol : Symbol
  states : List State
  rules : List Rule
  names : List (Symbol × String)

namespace Network

/-- The network without rules whose symbols end at `maxSymbol`. -/
def empty (maxSymbol : Symbol) : Network := ⟨maxSymbol, [], [], []⟩

section Inspection

variable (net : Network)

/-- The symbols of the grammar. -/
def vocabulary : SymbolSet := vocabularyUpTo net.maxSymbol

/-- The number that the next state gets. -/
def nextState : StateId := .state net.states.length

/-- The state with an identifier, if there is one. -/
def state? (s : StateId) : Option State :=
  match s with
  | .state n => net.states[n]?
  | .bottom => none

/-- The state with an identifier. -/
def state (s : StateId) : Except Fault State :=
  match net.state? s with
  | some state => .ok state
  | none => .error (.unknownState s)

/-- A state is given just if the network has it. -/
theorem state_eq_ok_iff {net : Network} {s : StateId} {state : State} :
    net.state s = .ok state ↔ net.state? s = some state := by
  unfold Network.state
  cases net.state? s <;> simp

/-- A state is refused just if the network does not have it. -/
theorem state_eq_error_iff {net : Network} {s : StateId} {fault : Fault} :
    net.state s = .error fault ↔ net.state? s = none ∧ fault = .unknownState s := by
  unfold Network.state
  cases net.state? s <;> simp [eq_comm]

/-- The rule with an identifier, if there is one. -/
def rule? (r : RuleId) : Option Rule := net.rules[r.index]?

/-- The rule with an identifier. -/
def rule (r : RuleId) : Except Fault Rule := elementAt net.rules r.index

/-- The state that follows the call with which a state begins. -/
def followOfCall (s : StateId) : Except Fault StateId := do
  match (← net.state s).transitions.head? with
  | some ⟨_, .call _ follow⟩ => return follow
  | _ => throw (.notACall s)

/-- The name of a symbol, if it has one. -/
def symbolName (c : Symbol) : Option String := net.names.lookup c

end Inspection

section Construction

/-- Adds a state at the end. -/
def appendState (net : Network) (rule : RuleId) (kind : StateKind) : Network :=
  { net with states := net.states ++ [⟨net.nextState, rule, kind, []⟩] }

/-- Adds a rule together with its start state and its stop state. -/
def addRule (net : Network) (name : String) : RuleId × Network :=
  let r : RuleId := ⟨net.rules.length⟩
  let n := net.states.length
  let rules := net.rules ++ [⟨name, .state n, .state (n + 1)⟩]
  (r, ({ net with rules := rules }.appendState r .ruleStart).appendState r .ruleStop)

/-- Adds a state to a rule. -/
def addState (net : Network) (rule : RuleId) (kind : StateKind) :
    Except Fault (StateId × Network) :=
  if rule.index < net.rules.length then .ok (net.nextState, net.appendState rule kind)
  else .error (.unknownRule rule)

/-- Adds a transition after the other transitions of its source. -/
def addTransition (net : Network) (source target : StateId) (kind : TransitionKind) :
    Except Fault Network :=
  match net.state? source with
  | some _ =>
      .ok { net with
        states := net.states.modify source.index fun s =>
          { s with transitions := s.transitions ++ [⟨target, kind⟩] } }
  | none => .error (.outOfBounds net.states.length source.index)

/-- Adds a call of a rule, which enters it at its start state. -/
def addCall (net : Network) (source : StateId) (rule : RuleId) (follow : StateId) :
    Except Fault Network := do
  let called ← net.rule rule
  net.addTransition source called.start (.call rule follow)

/-- Adds a transition that is guarded by a predicate of its source's rule. -/
def addPredicate (net : Network) (source target : StateId) (index : Nat)
    (ctxDependent : Bool) : Except Fault Network := do
  let s ← net.state source
  net.addTransition source target (.predicate s.rule index ctxDependent)

/-- Names a symbol. -/
def nameSymbol (net : Network) (c : Symbol) (name : String) : Network :=
  { net with names := (c, name) :: net.names }

end Construction

/-- The calls among the transitions of a network. -/
def calls (net : Network) : List (RuleId × StateId) :=
  net.states.flatMap fun s =>
    s.transitions.filterMap fun t =>
      match t.kind with
      | .call rule follow => some (rule, follow)
      | _ => none

end Network
end RuleNetwork
