import RuleNetwork.Lookahead.Registers
import RuleNetwork.Traced

/-!
# Walking a network without consuming a symbol

The closure of a state in a context collects the symbols that may come next.  It walks
through the network depth first, along the transitions that consume nothing.

**Rules.**
* A pair of a state and a context that has been visited is not looked at again.
* The walk may end at the stop state of a rule, and at the state that the query names as its
  stop.  It ends there with `Symbol.epsilon` if nothing is known about the caller, and with
  `Symbol.endOfInput` if there is no caller and the end of the input is to be marked.
* At the stop state of a rule the walk otherwise continues at each return point, while the
  rule is not active.  A bottom point yields `Symbol.endOfInput` if that is to be marked.
* From any other state the walk takes the transitions in their order.  A label yields its
  symbols; a call of an active rule is passed over, and any other call is followed while its
  rule is active; a predicate is passed or yields `Symbol.predicate`.

**Depth.**  `walk` takes a bound on its depth.  `closure` gives it a bound that is larger than
the number of pairs which a walk from the given context can visit: a call adds one to the
height of the context and makes one more rule active, and a return takes one from the height.
-/

namespace RuleNetwork

/-- What a walk does at predicates and at the end of the input. -/
structure Policy where
  /-- Predicates are taken to hold; otherwise they are marked and not passed. -/
  passPredicates : Bool
  /-- The end of the input is marked where there is no caller. -/
  markEnd : Bool
  deriving DecidableEq, Inhabited

namespace Policy

/-- Sees through predicates and marks the end of the input. -/
def standard : Policy := ⟨true, true⟩

/-- Marks predicates, and not the end of the input. -/
def decision : Policy := ⟨false, false⟩

end Policy

/-- A network, a state to stop at, and what a walk does on its way. -/
structure Query where
  net : Network
  stop : Option StateId
  policy : Policy

/-- A walk from a state in a context. -/
abbrev Walk := StateId → Context → Registers → Traced Registers

namespace Query

variable (q : Query)

/-- Tells whether a walk may end at a state. -/
def isBoundary (s : StateId) (state : State) : Bool :=
  decide (q.stop = some s) || state.isRuleStop

/-- The marker with which a walk ends at a state in a context, if it does. -/
def endMarker (s : StateId) (state : State) (c : Context) : Option SymbolSet :=
  if q.isBoundary s state then
    if c.isAnyCaller then some (.single .epsilon (by decide))
    else if c.isEmpty && q.policy.markEnd then some (.single .endOfInput (by decide))
    else none
  else none

/-- Continues at a return point. -/
def resume (walk : Walk) (s : StateId) (regs : Registers) :
    StateId × Context → Traced Registers
  | (.bottom, _) =>
      return if q.policy.markEnd then regs.emit (.single .endOfInput (by decide)) else regs
  | (next, parent) => do
      .report (.pop s next)
      walk next parent regs

/-- Leaves a rule for each of its return points; the rule is not active meanwhile. -/
def leaveRule (walk : Walk) (s : StateId) (rule : RuleId) (c : Context) (regs : Registers) :
    Traced Registers := do
  let left ← c.points.foldlM (q.resume walk s) (regs.leave rule)
  return if rule ∈ regs.active then left.enter rule else left

/-- Takes a transition. -/
def follow (walk : Walk) (c : Context) (regs : Registers) (t : Transition) :
    Traced Registers :=
  match t.kind with
  | .call rule next =>
      if rule ∈ regs.active then return regs
      else do
        let inside ← walk t.target (c.push next) (regs.enter rule)
        return inside.leave rule
  | .predicate _ _ _ | .precedence _ =>
      if q.policy.passPredicates then walk t.target c regs
      else return regs.emit (.single .predicate (by decide))
  | .epsilon | .action _ _ => walk t.target c regs
  | label => do
      let symbols ← .quietly (label.symbols q.net.maxSymbol)
      return regs.emit symbols

/-- Goes on from a state that has not been looked at in this context. -/
def expand (walk : Walk) (s : StateId) (state : State) (c : Context) (regs : Registers) :
    Traced Registers :=
  match q.endMarker s state c with
  | some marker => return regs.emit marker
  | none =>
      if state.isRuleStop then q.leaveRule walk s state.rule c regs
      else state.transitions.foldlM (q.follow walk c) regs

/-- Looks at a state in a context, unless that has been done. -/
def look (walk : Walk) (s : StateId) (c : Context) (regs : Registers) : Traced Registers :=
  if regs.visited.contains s c then return regs
  else do
    .report (.look s c)
    let state ← .quietly (q.net.state s)
    q.expand walk s state c (regs.visit s c)

/-- Walks on to a bounded depth. -/
def walk : Nat → Walk
  | 0 => fun _ _ _ => .refuse .cutOff
  | depth + 1 => q.look (walk depth)

/-- More than the number of pairs that a walk from the context can visit. -/
def depthBound (c : Context) : Nat :=
  let calls := q.net.calls.length
  q.net.states.length * (c.nodeCount * Nat.pow (calls + 1) (c.height + calls)) + 1

/-- Adds the symbols that may come next at a state in a context to the registers. -/
def closure : Walk := fun s c regs => q.walk (q.depthBound c) s c regs

end Query
end RuleNetwork
