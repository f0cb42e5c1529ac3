/-!
# Identifiers of states and rules

A state of a network is known by its number, and so is a rule.  A return point of
a context names the state where a finished rule continues.  One further value,
the *bottom*, stands there for a path that has already left the outermost rule.

**Order.**  Numbered states come in the order of their numbers, and the bottom
comes after all of them.  The return points of a context are kept in this order.
-/

namespace RuleNetwork

/-- A numbered state, or the bottom of the call chain. -/
inductive StateId
  | state (n : Nat)
  | bottom
  deriving DecidableEq, Hashable, Inhabited

namespace StateId

/-- The number under which the bottom is reported: the largest 64-bit number. -/
def bottomIndex : Nat := 18446744073709551615

/-- The position that an identifier asks for in a list of states. -/
def index : StateId → Nat
  | state n => n
  | bottom => bottomIndex

/-- Numbered states come by their numbers, and the bottom comes last. -/
def before : StateId → StateId → Bool
  | state m, state n => decide (m < n)
  | state _, bottom => true
  | bottom, _ => false

instance : LT StateId := ⟨fun s t => s.before t = true⟩

instance (s t : StateId) : Decidable (s < t) :=
  inferInstanceAs (Decidable (s.before t = true))

/-- The written form of an identifier. -/
def text (s : StateId) : String := s!"s{s.index}"

@[simp] theorem state_lt_state {m n : Nat} : state m < state n ↔ m < n :=
  decide_eq_true_iff

@[simp] theorem state_lt_bottom (m : Nat) : state m < bottom := rfl

@[simp] theorem not_bottom_lt (s : StateId) : ¬ bottom < s :=
  Bool.false_ne_true

theorem lt_irrefl (s : StateId) : ¬ s < s := by
  cases s with
  | state n => simp
  | bottom => simp

theorem lt_trans {s t u : StateId} (hst : s < t) (htu : t < u) : s < u := by
  cases s <;> cases t <;> cases u <;> simp_all
  omega

/-- Two different identifiers are in order one way or the other. -/
theorem lt_or_eq_or_gt (s t : StateId) : s < t ∨ s = t ∨ t < s := by
  cases s <;> cases t <;> simp
  omega

end StateId

/-- A rule is known by its number. -/
@[ext] structure RuleId where
  index : Nat
  deriving DecidableEq, Hashable, Inhabited

/-- The written form of a rule's identifier. -/
def RuleId.text (r : RuleId) : String := s!"r{r.index}"

end RuleNetwork
