import RuleNetwork.Network.Basic

/-!
# Defects of a network

The analysis relies on the structure of a network.  `Network.issues` lists each place
where that structure is broken, in the order of the states and of their transitions.

**Rules.**
* A rule's stop state has no transitions.
* Every transition targets a state of the network.
* A call enters an existing rule at its start state and is followed by a state of
  the network.
* Labels hold symbols of the vocabulary only.

Where the target of a transition is unknown, nothing else is said about that transition.
-/

namespace RuleNetwork

/-- A place where the structure of a network is broken. -/
inductive Issue
  | stopHasTransitions (stop : StateId) (count : Nat)
  | unknownTarget (source target : StateId)
  | entersNoRule (source target : StateId) (rule : RuleId)
  | unknownFollow (source follow : StateId)
  | symbolOutside (source : StateId) (c : Symbol)
  | rangeOutside (source : StateId) (lo hi : Symbol)
  | setOutside (source : StateId) (members : SymbolSet)
  deriving DecidableEq

namespace Issue

/-- The words in which a defect is reported. -/
def text : Issue → String
  | stopHasTransitions stop count =>
      s!"rule stop state {stop.text} has {count} outgoing transitions"
  | unknownTarget source target =>
      s!"transition from {source.text} targets unknown state {target.text}"
  | entersNoRule source target rule =>
      s!"rule transition from {source.text} to {target.text} does not enter rule {rule.text}"
  | unknownFollow source follow =>
      s!"rule transition from {source.text} follows unknown state {follow.text}"
  | symbolOutside source c =>
      s!"transition from {source.text} matches {c.text} outside the vocabulary"
  | rangeOutside source lo hi =>
      s!"transition from {source.text} matches {lo.text}..{hi.text} outside the vocabulary"
  | setOutside source members =>
      s!"transition from {source.text} matches {members.text} outside the vocabulary"

end Issue

namespace Network

variable (net : Network)

/-- Tells whether a state is part of the network. -/
def hasState (s : StateId) : Bool := (net.state? s).isSome

/-- Tells whether a symbol belongs to the grammar. -/
def hasSymbol (c : Symbol) : Bool :=
  decide (Symbol.firstUser.code ≤ c.code ∧ c.code ≤ net.maxSymbol.code)

/-- Tells whether all members of a set belong to the grammar. -/
def hasSymbols (members : SymbolSet) : Bool :=
  members.runs.all fun r => net.hasSymbol ⟨r.lo⟩ && net.hasSymbol ⟨r.hi⟩

/-- Tells whether a state is where a rule starts. -/
def startsRule (rule : RuleId) (s : StateId) : Bool :=
  match net.rule? rule with
  | some r => decide (r.start = s)
  | none => false

/-- The defects of a transition's kind. -/
def kindIssues (source target : StateId) : TransitionKind → List Issue
  | .call rule follow =>
      (if net.startsRule rule target then [] else [.entersNoRule source target rule]) ++
        (if net.hasState follow then [] else [.unknownFollow source follow])
  | .atom c => if net.hasSymbol c then [] else [.symbolOutside source c]
  | .range lo hi =>
      if net.hasSymbol lo && net.hasSymbol hi then [] else [.rangeOutside source lo hi]
  | .set members | .notSet members =>
      if net.hasSymbols members then [] else [.setOutside source members]
  | _ => []

/-- The defects of a transition. -/
def transitionIssues (source : StateId) (t : Transition) : List Issue :=
  if net.hasState t.target then net.kindIssues source t.target t.kind
  else [.unknownTarget source t.target]

/-- The defects of a state and of its transitions. -/
def stateIssues (s : State) : List Issue :=
  (if s.isRuleStop && !s.transitions.isEmpty then
    [.stopHasTransitions s.id s.transitions.length] else []) ++
    s.transitions.flatMap (net.transitionIssues s.id)

/-- All defects of the network. -/
def issues : List Issue := net.states.flatMap net.stateIssues

end Network
end RuleNetwork
