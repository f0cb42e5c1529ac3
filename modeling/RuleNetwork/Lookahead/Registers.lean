import RuleNetwork.Lookahead.Visited
import RuleNetwork.Symbol.Set

/-!
# What a walk remembers

A walk through a network keeps three registers:

* the symbols found so far;
* the *visited* pairs of a state and a context, none of which is looked at twice;
* the *active* rules, which were entered by a call and have not been left; none of
  them is entered again, which keeps left recursion from going on for ever.
-/

namespace RuleNetwork

/-- Inserts a number into an ascending list, once. -/
def insertAscending (n : Nat) : List Nat → List Nat
  | [] => [n]
  | m :: ms => if n < m then n :: m :: ms else if n = m then m :: ms else m :: insertAscending n ms

theorem mem_insertAscending {k n : Nat} {ms : List Nat} :
    k ∈ insertAscending n ms ↔ k = n ∨ k ∈ ms := by
  induction ms with
  | nil => simp [insertAscending]
  | cons m ms ih =>
    unfold insertAscending
    split
    · simp
    · split
      · next h =>
        subst h
        simp
      · simp only [List.mem_cons, ih]
        exact or_left_comm

theorem pairwise_insertAscending {n : Nat} {ms : List Nat} (h : ms.Pairwise (· < ·)) :
    (insertAscending n ms).Pairwise (· < ·) := by
  induction ms with
  | nil => simp [insertAscending]
  | cons m ms ih =>
    have ⟨hm, hms⟩ := List.pairwise_cons.mp h
    unfold insertAscending
    split
    · next hlt =>
      refine List.pairwise_cons.mpr ⟨?_, h⟩
      intro k hk
      rcases List.mem_cons.mp hk with rfl | hk
      · exact hlt
      · exact Nat.lt_trans hlt (hm k hk)
    · split
      · exact h
      · refine List.pairwise_cons.mpr ⟨?_, ih hms⟩
        intro k hk
        rcases mem_insertAscending.mp hk with rfl | hk
        · omega
        · exact hm k hk

/-- A strictly ascending list is determined by its members. -/
theorem eq_of_ascending {ms ns : List Nat} (hms : ms.Pairwise (· < ·))
    (hns : ns.Pairwise (· < ·)) (h : ∀ k, k ∈ ms ↔ k ∈ ns) : ms = ns := by
  induction ms generalizing ns with
  | nil =>
    cases ns with
    | nil => rfl
    | cons n ns => exact absurd ((h n).mpr (by simp)) List.not_mem_nil
  | cons m ms ih =>
    cases ns with
    | nil => exact absurd ((h m).mp (by simp)) List.not_mem_nil
    | cons n ns =>
      have ⟨hm, hmtail⟩ := List.pairwise_cons.mp hms
      have ⟨hn, hntail⟩ := List.pairwise_cons.mp hns
      obtain rfl : m = n := by
        have h₁ := (h m).mp (by simp)
        have h₂ := (h n).mpr (by simp)
        rcases List.mem_cons.mp h₁ with h₁ | h₁
        · exact h₁
        · rcases List.mem_cons.mp h₂ with h₂ | h₂
          · exact h₂.symm
          · exact absurd (Nat.lt_trans (hn m h₁) (hm n h₂)) (Nat.lt_irrefl n)
      refine congrArg (m :: ·) (ih hmtail hntail fun k => ?_)
      constructor
      · intro hk
        rcases List.mem_cons.mp ((h k).mp (List.mem_cons_of_mem m hk)) with rfl | hk'
        · exact absurd (hm k hk) (Nat.lt_irrefl k)
        · exact hk'
      · intro hk
        rcases List.mem_cons.mp ((h k).mpr (List.mem_cons_of_mem m hk)) with rfl | hk'
        · exact absurd (hn k hk) (Nat.lt_irrefl k)
        · exact hk'

/-- The rules that have been entered and not left, by their ascending numbers. -/
structure ActiveRules where
  indices : List Nat
  ascending : indices.Pairwise (· < ·)

namespace ActiveRules

instance : Membership RuleId ActiveRules := ⟨fun a r => r.index ∈ a.indices⟩

instance (r : RuleId) (a : ActiveRules) : Decidable (r ∈ a) :=
  inferInstanceAs (Decidable (r.index ∈ a.indices))

/-- A set of rules is determined by its members. -/
@[ext] theorem ext {a b : ActiveRules} (h : ∀ r : RuleId, r ∈ a ↔ r ∈ b) : a = b := by
  obtain ⟨ms, hms⟩ := a
  obtain ⟨ns, hns⟩ := b
  obtain rfl : ms = ns := eq_of_ascending hms hns fun k => h ⟨k⟩
  rfl

/-- No rule is active. -/
def empty : ActiveRules := ⟨[], .nil⟩

/-- The set together with a rule. -/
def activate (a : ActiveRules) (r : RuleId) : ActiveRules :=
  ⟨insertAscending r.index a.indices, pairwise_insertAscending a.ascending⟩

/-- The set without a rule. -/
def deactivate (a : ActiveRules) (r : RuleId) : ActiveRules :=
  ⟨a.indices.filter (· ≠ r.index), a.ascending.filter _⟩

/-- Marks a rule as active and tells whether it was not. -/
def insert (a : ActiveRules) (r : RuleId) : Bool × ActiveRules :=
  (!decide (r ∈ a), a.activate r)

/-- Marks a rule as inactive and tells whether it was active. -/
def remove (a : ActiveRules) (r : RuleId) : Bool × ActiveRules :=
  (decide (r ∈ a), a.deactivate r)

@[simp] theorem not_mem_empty (r : RuleId) : r ∉ empty := List.not_mem_nil

@[simp] theorem mem_activate {a : ActiveRules} {r k : RuleId} :
    k ∈ a.activate r ↔ k = r ∨ k ∈ a := by
  rw [RuleId.ext_iff]
  exact mem_insertAscending

@[simp] theorem mem_deactivate {a : ActiveRules} {r k : RuleId} :
    k ∈ a.deactivate r ↔ k ≠ r ∧ k ∈ a := by
  rw [ne_eq, RuleId.ext_iff]
  change k.index ∈ a.indices.filter (· ≠ r.index) ↔ _ ∧ k.index ∈ a.indices
  simp [and_comm]

end ActiveRules

/-- What a walk remembers. -/
structure Registers where
  found : SymbolSet
  visited : Visited
  active : ActiveRules

namespace Registers

/-- The registers of a walk that has not begun. -/
def fresh : Registers := ⟨∅, .empty, .empty⟩

/-- Adds symbols to those found. -/
def emit (regs : Registers) (symbols : SymbolSet) : Registers :=
  { regs with found := regs.found ∪ symbols }

/-- Remembers a visited pair. -/
def visit (regs : Registers) (s : StateId) (c : Context) : Registers :=
  { regs with visited := (regs.visited.insert s c).2 }

/-- Marks a rule as active. -/
def enter (regs : Registers) (r : RuleId) : Registers :=
  { regs with active := regs.active.activate r }

/-- Marks a rule as inactive. -/
def leave (regs : Registers) (r : RuleId) : Registers :=
  { regs with active := regs.active.deactivate r }

section Fields

variable {regs : Registers} {symbols : SymbolSet} {s : StateId} {c : Context} {r : RuleId}

@[simp] theorem found_emit : (regs.emit symbols).found = regs.found ∪ symbols := rfl

@[simp] theorem visited_emit : (regs.emit symbols).visited = regs.visited := rfl

@[simp] theorem active_emit : (regs.emit symbols).active = regs.active := rfl

@[simp] theorem found_visit : (regs.visit s c).found = regs.found := rfl

@[simp] theorem active_visit : (regs.visit s c).active = regs.active := rfl

@[simp] theorem found_enter : (regs.enter r).found = regs.found := rfl

@[simp] theorem visited_enter : (regs.enter r).visited = regs.visited := rfl

@[simp] theorem active_enter : (regs.enter r).active = regs.active.activate r := rfl

@[simp] theorem found_leave : (regs.leave r).found = regs.found := rfl

@[simp] theorem visited_leave : (regs.leave r).visited = regs.visited := rfl

@[simp] theorem active_leave : (regs.leave r).active = regs.active.deactivate r := rfl

/-- The visited pairs are the former ones and the pair that is visited now. -/
@[simp] theorem mem_visited_visit {p : StateId × Context} :
    p ∈ (regs.visit s c).visited.pairs ↔ p = (s, c) ∨ p ∈ regs.visited.pairs := by
  change p ∈ (regs.visited.insert s c).2.pairs ↔ _
  rw [Visited.pairs_insert]
  split
  · next h =>
    constructor
    · exact Or.inr
    · rintro (rfl | hp)
      · exact h
      · exact hp
  · exact List.mem_cons

end Fields

end Registers
end RuleNetwork
