import RuleNetwork.Context.Basic
import RuleNetwork.Symbol.Basic

/-!
# Why an operation is refused

An operation on a network, a context or a set of symbols is refused for one of the
reasons listed here.  A refused operation changes nothing.
-/

namespace RuleNetwork

/-- The reasons for which an operation is refused. -/
inductive Fault
  /-- The network has no such state. -/
  | unknownState (s : StateId)
  /-- A state was to be added to a rule that the network does not have. -/
  | unknownRule (r : RuleId)
  /-- The code is smaller than any that a set may hold. -/
  | reservedSymbol (c : Symbol)
  /-- The context has no return point at this index. -/
  | noReturnState (index : Nat) (c : Context)
  /-- The context has no parent at this index. -/
  | noParent (index : Nat) (c : Context)
  /-- The state does not begin with a call. -/
  | notACall (s : StateId)
  /-- A list of this size has no such index. -/
  | outOfBounds (size index : Nat)
  /-- A walk was cut off before it came to its end. -/
  | cutOff
  deriving DecidableEq

namespace Fault

/-- The words in which a refusal is reported. -/
def message : Fault → String
  | unknownState s => s!"state {s.text} is not part of the network"
  | unknownRule r => s!"add_state() called for unknown rule {r.text}"
  | reservedSymbol c => s!"symbol {c.text} is below the reserved range"
  | noReturnState index c => s!"return_state({index}) called on context {c.text}"
  | noParent index c => s!"parent({index}) called on context {c.text}"
  | notACall s => s!"invoking state {s.text} does not call a rule"
  | outOfBounds size index =>
      s!"index out of bounds: the len is {size} but the index is {index}"
  | cutOff => "the walk was cut off"

end Fault

/-- The element at an index, or a refusal that names the size and the index. -/
def elementAt {α : Type} (xs : List α) (i : Nat) : Except Fault α :=
  match xs[i]? with
  | some x => .ok x
  | none => .error (.outOfBounds xs.length i)

section Sequence

variable {α β : Type} {x : Except Fault α} {b : β}

/-- Two operations in sequence succeed just if both of them do. -/
theorem bind_eq_ok_iff {f : α → Except Fault β} :
    x >>= f = .ok b ↔ ∃ a, x = .ok a ∧ f a = .ok b := by
  cases x with
  | error fault => exact ⟨nofun, nofun⟩
  | ok a =>
    constructor
    · intro h
      exact ⟨a, rfl, h⟩
    · rintro ⟨a', ha, h⟩
      cases ha
      exact h

theorem map_eq_ok_iff {f : α → β} :
    f <$> x = .ok b ↔ ∃ a, x = .ok a ∧ f a = b := by
  cases x with
  | error fault => exact ⟨nofun, nofun⟩
  | ok a =>
    constructor
    · intro h
      exact ⟨a, rfl, Except.ok.inj h⟩
    · rintro ⟨a', ha, h⟩
      cases ha
      exact congrArg Except.ok h

/-- To change the value of an operation changes nothing about its refusal. -/
theorem map_eq_error_iff {f : α → β} {fault : Fault} :
    f <$> x = .error fault ↔ x = .error fault := by
  cases x with
  | error fault' =>
    change Except.error fault' = .error fault ↔ _
    simp
  | ok a => exact ⟨nofun, nofun⟩

end Sequence

end RuleNetwork
