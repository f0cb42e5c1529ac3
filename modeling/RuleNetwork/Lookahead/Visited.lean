import RuleNetwork.Context.Basic
import Std.Data.TreeMap

/-!
# Visited pairs

A walk looks at a state in a context only once.  It remembers the pairs of a state and a
context that it has looked at, the latest one first, each of them once.

A table finds a pair by a code.  The pairs of one code stand together in the table; that the
table holds just the pairs of the list is part of the type.

**Results.**
* `contains_iff`: a pair is found just if it is among the pairs.
* `pairs_insert`: a new pair comes in front of the others, and a known one changes nothing.
-/

namespace RuleNetwork

/-- The code under which a state in a context is found. -/
def visitCode (s : StateId) (c : Context) : UInt64 := mixCodes (.ofNat s.index) c.hashCode

/-- The pairs that have been looked at, the latest one first. -/
structure Visited where
  pairs : List (StateId × Context)
  table : Std.TreeMap UInt64 (List (StateId × Context))
  nodup : pairs.Nodup
  mem_table : ∀ s c, (s, c) ∈ table.getD (visitCode s c) [] ↔ (s, c) ∈ pairs

namespace Visited

/-- No pair has been looked at. -/
def empty : Visited := ⟨[], ∅, .nil, fun _ _ => by simp⟩

instance : Inhabited Visited := ⟨empty⟩

/-- Tells whether a pair has been looked at. -/
def contains (v : Visited) (s : StateId) (c : Context) : Bool :=
  decide ((s, c) ∈ v.table.getD (visitCode s c) [])

theorem contains_iff {v : Visited} {s : StateId} {c : Context} :
    v.contains s c = true ↔ (s, c) ∈ v.pairs :=
  decide_eq_true_iff.trans (v.mem_table s c)

/-- A table finds an added pair and all pairs that it found before. -/
theorem mem_getD_insert {table : Std.TreeMap UInt64 (List (StateId × Context))}
    {s t : StateId} {c d : Context} :
    (t, d) ∈ (table.insert (visitCode s c)
        ((s, c) :: table.getD (visitCode s c) [])).getD (visitCode t d) [] ↔
      (t, d) = (s, c) ∨ (t, d) ∈ table.getD (visitCode t d) [] := by
  simp only [Std.TreeMap.getD_insert, Std.LawfulEqCmp.compare_eq_iff_eq]
  by_cases h : visitCode s c = visitCode t d
  · rw [if_pos h, List.mem_cons, h]
  · rw [if_neg h, or_iff_right]
    intro e
    obtain ⟨rfl, rfl⟩ := Prod.mk.inj e
    exact h rfl

/-- Remembers a pair and tells whether it is new. -/
def insert (v : Visited) (s : StateId) (c : Context) : Bool × Visited :=
  if h : v.contains s c = true then (false, v)
  else
    let found := v.table.getD (visitCode s c) []
    (true,
      { pairs := (s, c) :: v.pairs
        table := v.table.insert (visitCode s c) ((s, c) :: found)
        nodup := List.nodup_cons.mpr ⟨fun hm => h (contains_iff.mpr hm), v.nodup⟩
        mem_table := fun t d => by rw [mem_getD_insert, v.mem_table, List.mem_cons] })

theorem fst_insert (v : Visited) (s : StateId) (c : Context) :
    (v.insert s c).1 = !v.contains s c := by
  unfold insert
  split <;> simp_all

theorem pairs_insert (v : Visited) (s : StateId) (c : Context) :
    (v.insert s c).2.pairs = if (s, c) ∈ v.pairs then v.pairs else (s, c) :: v.pairs := by
  simp only [insert, ← contains_iff]
  split <;> rfl

/-- The number of pairs. -/
def size (v : Visited) : Nat := v.pairs.length

end Visited
end RuleNetwork
