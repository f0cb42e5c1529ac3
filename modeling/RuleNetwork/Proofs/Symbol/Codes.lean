import Mathlib.Data.Finset.Card
import Mathlib.Data.Finset.Image
import Mathlib.Data.Finset.Range
import RuleNetwork.Symbol.Set

/-!
# Sets of symbols as finite sets of codes

A set of symbols is kept as runs of consecutive codes.  What it stands for is the finite set of the
codes of its members, `SymbolSet.codes`.  Each operation on the runs does to the codes what its
name says, and whatever can be asked of a set can be answered from its codes.

**Results.**
* `ascending_toList`, `length_toList`: the members are listed in order, each of them once.
* `codes_injective`: sets with the same codes are the same.
* `codes_union`, `codes_diff`, `codes_between`, `codes_single`: operations and codes.
* `represents_codes`: what can be asked of a set, answered from its codes.
-/

namespace RuleNetwork

theorem Run.length_codes (r : Run) : r.codes.length = r.size := by
  simp [Run.codes]

theorem Run.ascending_codes (r : Run) : r.codes.Pairwise (· < ·) := by
  unfold Run.codes
  rw [List.pairwise_map]
  refine List.pairwise_lt_range.imp ?_
  intro i j hij
  omega

/-- The finite set of the codes from `lo` to `hi`. -/
def codesBetween (lo hi : Int) : Finset Int :=
  (Finset.range (hi + 1 - lo).toNat).image fun (i : Nat) => lo + (i : Int)

@[simp] theorem mem_codesBetween
    {lo hi k : Int} :
    k ∈ codesBetween lo hi ↔ lo ≤ k ∧ k ≤ hi := by
  simp only [codesBetween, Finset.mem_image, Finset.mem_range]
  constructor
  · rintro ⟨i, hi, rfl⟩
    omega
  · rintro ⟨hlo, hhi⟩
    exact ⟨(k - lo).toNat, by omega, by omega⟩

theorem codesBetween_eq_empty
    {lo hi : Int}
    (h : hi < lo) :
    codesBetween lo hi = ∅ := by
  ext k
  simp only [mem_codesBetween, Finset.notMem_empty, iff_false]
  omega

namespace SymbolSet

variable {S T : SymbolSet} {c : Symbol} {k : Int}

/-- The members are listed in ascending order. -/
theorem ascending_toList (S : SymbolSet) : S.toList.Pairwise (·.code < ·.code) := by
  unfold toList
  rw [List.pairwise_flatMap]
  refine ⟨?_, ?_⟩
  · intro r _
    rw [List.pairwise_map]
    exact r.ascending_codes
  · refine S.canonical.apart.imp ?_
    intro r s hrs c hc d hd
    obtain ⟨i, hi, rfl⟩ := List.mem_map.mp hc
    obtain ⟨j, hj, rfl⟩ := List.mem_map.mp hd
    have hi' : i ≤ r.hi := (Run.mem_codes.mp hi).2
    have hj' : s.lo ≤ j := (Run.mem_codes.mp hj).1
    have hgap : r.hi + 1 < s.lo := hrs
    change i < j
    omega

theorem nodup_toList (S : SymbolSet) : S.toList.Nodup :=
  S.ascending_toList.imp fun hlt he => Int.ne_of_lt hlt (congrArg Symbol.code he)

theorem length_toList (S : SymbolSet) : S.toList.length = S.size := by
  unfold toList size
  induction S.runs with
  | nil => rfl
  | cons r rs ih => simp [ih, Run.length_codes]

/-- The codes of the members. -/
def codes (S : SymbolSet) : Finset Int := (S.toList.map Symbol.code).toFinset

@[simp] theorem mem_codes : k ∈ S.codes ↔ ⟨k⟩ ∈ S := by
  unfold codes
  rw [List.mem_toFinset, List.mem_map]
  constructor
  · rintro ⟨c, hc, rfl⟩
    exact mem_toList.mp hc
  · intro hk
    exact ⟨⟨k⟩, mem_toList.mpr hk, rfl⟩

theorem code_mem_codes : c.code ∈ S.codes ↔ c ∈ S := mem_codes

/-- Sets with the same codes are the same. -/
theorem codes_injective : Function.Injective codes := by
  intro S T h
  ext c
  rw [← code_mem_codes, h, code_mem_codes]

/-- Sets that are listed alike are the same. -/
theorem toList_eq_iff : S.toList = T.toList ↔ S.codes = T.codes := by
  constructor
  · intro h
    unfold codes
    rw [h]
  · intro h
    rw [codes_injective h]

theorem card_codes (S : SymbolSet) : S.codes.card = S.size := by
  have hnodup : (S.toList.map Symbol.code).Nodup := by
    refine List.Pairwise.map _ ?_ S.ascending_toList
    intro c d hcd
    omega
  unfold codes
  rw [List.toFinset_card_of_nodup hnodup, List.length_map, length_toList]

theorem leastCode_le_of_mem_codes
    (h : k ∈ S.codes) :
    Symbol.leastCode ≤ k :=
  le_code_of_mem (mem_codes.mp h)

theorem isEmpty_iff (S : SymbolSet) : S.isEmpty = true ↔ S.codes = ∅ := by
  unfold isEmpty
  rw [List.isEmpty_iff]
  constructor
  · intro h
    have hnil : S.toList = [] := by simp [toList, h]
    simp [codes, hnil]
  · intro h
    by_contra hne
    obtain ⟨r, hr⟩ := List.exists_mem_of_ne_nil S.runs hne
    have hlo : ⟨r.lo⟩ ∈ S := ⟨r, hr, Int.le_refl r.lo, S.canonical.nonempty r hr⟩
    rw [← mem_codes, h] at hlo
    simp at hlo

section Operations

@[simp] theorem codes_empty : (∅ : SymbolSet).codes = ∅ := rfl

@[simp] theorem codes_union : (S ∪ T).codes = S.codes ∪ T.codes := by
  ext k
  simp

@[simp] theorem codes_diff : (S \ T).codes = S.codes \ T.codes := by
  ext k
  simp

@[simp] theorem codes_between
    {lo hi : Int} {h : Symbol.leastCode ≤ lo} :
    (between lo hi h).codes = codesBetween lo hi := by
  ext k
  simp

@[simp] theorem codes_single
    {h : Symbol.leastCode ≤ c.code} :
    (single c h).codes = {c.code} := by
  ext k
  simp [Symbol.ext_iff]

end Operations

/-- What can be asked of a set is answered from a finite set of codes. -/
structure Represents (S : SymbolSet) (V : Finset Int) : Prop where
  contains : ∀ c, S.contains c = decide (c.code ∈ V)
  storable : ∀ k ∈ V, Symbol.leastCode ≤ k
  ascending : S.toList.Pairwise (·.code < ·.code)
  members : ∀ c, c ∈ S.toList ↔ c.code ∈ V
  size : S.size = V.card
  isEmpty : S.isEmpty = true ↔ V = ∅

/-- What can be asked of a set is answered from its codes. -/
theorem represents_codes (S : SymbolSet) : S.Represents S.codes := by
  refine ⟨?_, ?_, S.ascending_toList, ?_, S.card_codes.symm, S.isEmpty_iff⟩
  · intro c
    rw [Bool.eq_iff_iff, contains_iff, decide_eq_true_iff, code_mem_codes]
  · intro k hk
    exact leastCode_le_of_mem_codes hk
  · intro c
    rw [mem_toList, code_mem_codes]

end SymbolSet
end RuleNetwork
