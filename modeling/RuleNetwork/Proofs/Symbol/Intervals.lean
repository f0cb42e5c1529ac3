import Mathlib.Data.List.Chain
import RuleNetwork.Proofs.Symbol.Programs
import RuleNetwork.Symbol.Intervals

/-!
# The maximal runs of a set of symbols

The maximal runs of a finite set of codes are not empty, stand in ascending order with at least one
code missing between two neighbours, and hold the codes of the set and no others.  There is just
one such list of runs for a set.

It is gathered from the members of a set in one pass, along which the runs so far are the maximal
runs of the members read so far.  The code after a run is computed when a later member has been
read, so it is not larger than that member, and there is such a code.  The set can be put together
again from its runs, whatever their order.

**Results.**
* `MaximalRuns.eq`: a finite set of codes has one list of maximal runs.
* `exists_gather`, `exists_foldlM_gather`: what one member and several members do to the runs.
* `intervals_eq_runs`: what is gathered is how the set is kept.
* `insertRuns_of_perm`: a set is put together from its runs.
* `intervals_exact`: all of this for any set.
-/

namespace RuleNetwork

/-- Ascending runs, none of them empty and none next to another, that hold the codes of `V`. -/
structure MaximalRuns (V : Finset Int) (rs : List Run) : Prop where
  nonempty : ∀ r ∈ rs, r.lo ≤ r.hi
  apart : rs.IsChain Run.Apart
  covers : ∀ k, k ∈ V ↔ InRuns k rs

/-- What lies between neighbours lies between any two runs. -/
theorem pairwise_apart
    {rs : List Run}
    (hne : ∀ r ∈ rs, r.lo ≤ r.hi)
    (hchain : rs.IsChain Run.Apart) :
    rs.Pairwise Run.Apart := by
  induction rs with
  | nil => exact .nil
  | cons r rs ih =>
      obtain ⟨hhead, htail⟩ := List.isChain_cons.mp hchain
      have hpair := ih (fun s hs => hne s (List.mem_cons_of_mem r hs)) htail
      refine List.pairwise_cons.mpr ⟨?_, hpair⟩
      intro u hu
      cases rs with
      | nil => cases hu
      | cons s rs =>
          have hrs : r.Apart s := hhead s rfl
          rcases List.mem_cons.mp hu with rfl | hu
          · exact hrs
          · have hs : s.lo ≤ s.hi := hne s (by simp)
            have hsu : s.Apart u := List.rel_of_pairwise_cons hpair hu
            unfold Run.Apart at *
            omega

theorem inRuns_concat
    {rs : List Run} {r : Run} {k : Int} :
    InRuns k (rs ++ [r]) ↔ InRuns k rs ∨ k ∈ r := by
  simp [InRuns, or_and_right, exists_or]

namespace MaximalRuns

variable {V : Finset Int} {rs ts : List Run} {r : Run} {k : Int}

theorem lo_mem
    (h : MaximalRuns V rs)
    (hr : r ∈ rs) :
    r.lo ∈ V :=
  (h.covers r.lo).mpr ⟨r, hr, Int.le_refl r.lo, h.nonempty r hr⟩

theorem hi_mem
    (h : MaximalRuns V rs)
    (hr : r ∈ rs) :
    r.hi ∈ V :=
  (h.covers r.hi).mpr ⟨r, hr, h.nonempty r hr, Int.le_refl r.hi⟩

theorem canonical
    (h : MaximalRuns V rs)
    (hV : ∀ k ∈ V, Symbol.leastCode ≤ k) :
    Canonical rs :=
  ⟨fun r hr => hV r.lo (h.lo_mem hr), h.nonempty, pairwise_apart h.nonempty h.apart⟩

/-- A finite set of codes has one list of maximal runs. -/
theorem eq
    (hV : ∀ k ∈ V, Symbol.leastCode ≤ k)
    (hrs : MaximalRuns V rs)
    (hts : MaximalRuns V ts) :
    rs = ts :=
  (hrs.canonical hV).ext (hts.canonical hV) fun k => (hrs.covers k).symm.trans (hts.covers k)

/-- A run behind others, from which the last of them is apart. -/
theorem of_concat
    (hne : ∀ s ∈ rs, s.lo ≤ s.hi)
    (hr : r.lo ≤ r.hi)
    (hchain : rs.IsChain Run.Apart)
    (hlast : ∀ s ∈ rs.getLast?, s.Apart r)
    (hcovers : ∀ k, k ∈ V ↔ InRuns k rs ∨ k ∈ r) :
    MaximalRuns V (rs ++ [r]) := by
  refine ⟨?_, List.isChain_append.mpr ⟨hchain, .singleton r, ?_⟩, ?_⟩
  · intro s hs
    rcases List.mem_append.mp hs with hs | hs
    · exact hne s hs
    · cases List.mem_singleton.mp hs
      exact hr
  · intro s hs t ht
    cases ht
    exact hlast s hs
  · intro k
    rw [hcovers, inRuns_concat]

/-- The code after the last run makes that run longer. -/
theorem insert_next
    (h : MaximalRuns V (rs ++ [r]))
    (hk : r.hi + 1 = k) :
    MaximalRuns (insert k V) (rs ++ [⟨r.lo, k⟩]) := by
  obtain ⟨hchain, _, hlast⟩ := List.isChain_append.mp h.apart
  have hr : r.lo ≤ r.hi := h.nonempty r (by simp)
  have hlo : r.lo ≤ k := by omega
  refine of_concat (fun s hs => h.nonempty s (List.mem_append_left _ hs)) hlo hchain ?_ ?_
  · intro s hs
    exact hlast s hs r rfl
  · intro j
    have hlonger : j = k ∨ j ∈ r ↔ j ∈ Run.mk r.lo k := by
      simp only [Run.mem_def]
      omega
    rw [Finset.mem_insert, h.covers j, inRuns_concat, or_left_comm, hlonger]

/-- A code further away begins a run of its own. -/
theorem insert_apart
    (h : MaximalRuns V rs)
    (hk : ∀ s ∈ rs.getLast?, s.hi + 1 < k) :
    MaximalRuns (insert k V) (rs ++ [⟨k, k⟩]) := by
  refine of_concat h.nonempty (Int.le_refl k) h.apart hk ?_
  intro j
  have hsingle : j = k ↔ j ∈ Run.mk k k := by
    simp only [Run.mem_def]
    omega
  rw [Finset.mem_insert, h.covers j, or_comm, hsingle]

end MaximalRuns

namespace SymbolSet

variable {S : SymbolSet} {largest : Int} {V : Finset Int} {rs : List Run} {c : Symbol}

/-- A set is kept as its maximal runs. -/
theorem maximalRuns_runs (S : SymbolSet) : MaximalRuns S.codes S.runs :=
  ⟨S.canonical.nonempty, S.canonical.apart.isChain, fun _ => mem_codes⟩

section Gathering

/-- A member that is larger than those before it is gathered, and the runs stay maximal. -/
theorem exists_gather
    (h : MaximalRuns V rs.reverse)
    (hc : ∀ k ∈ V, k < c.code)
    (hlargest : c.code ≤ largest) :
    ∃ rs', gather largest rs c = some rs' ∧ MaximalRuns (Insert.insert c.code V) rs'.reverse := by
  cases rs with
  | nil => exact ⟨[⟨c.code, c.code⟩], rfl, h.insert_apart nofun⟩
  | cons latest earlier =>
      rw [List.reverse_cons] at h
      -- The latest run ends at a member read before, so there is a code after it.
      have hlt : latest.hi < c.code := hc _ (h.hi_mem (by simp))
      have hafter : codeAfter largest latest.hi = some (latest.hi + 1) :=
        if_pos (Int.lt_of_lt_of_le hlt hlargest)
      by_cases hnext : latest.hi + 1 = c.code
      · refine ⟨⟨latest.lo, c.code⟩ :: earlier, ?_, ?_⟩
        · simp [gather, hafter, hnext]
        · rw [List.reverse_cons]
          exact h.insert_next hnext
      · refine ⟨⟨c.code, c.code⟩ :: latest :: earlier, ?_, ?_⟩
        · simp [gather, hafter, hnext]
        · rw [List.reverse_cons, List.reverse_cons]
          refine h.insert_apart ?_
          intro r hr
          rw [List.getLast?_concat] at hr
          cases hr
          omega

/-- The code after the largest one is not there to compare with. -/
example : gather 5 [⟨3, 5⟩] ⟨6⟩ = none := rfl

/-- The runs stay maximal along any members in ascending order. -/
theorem exists_foldlM_gather
    {cs : List Symbol}
    (h : MaximalRuns V rs.reverse)
    (hascending : cs.Pairwise (·.code < ·.code))
    (hc : ∀ c ∈ cs, ∀ k ∈ V, k < c.code)
    (hlargest : ∀ c ∈ cs, c.code ≤ largest) :
    ∃ rs', cs.foldlM (gather largest) rs = some rs' ∧
      MaximalRuns (V ∪ (cs.map Symbol.code).toFinset) rs'.reverse := by
  induction cs generalizing V rs with
  | nil => exact ⟨rs, rfl, by simpa using h⟩
  | cons c cs ih =>
      obtain ⟨hfirst, hrest⟩ := List.pairwise_cons.mp hascending
      obtain ⟨hcV, hcsV⟩ := List.forall_mem_cons.mp hc
      obtain ⟨hcle, hcsle⟩ := List.forall_mem_cons.mp hlargest
      obtain ⟨rs₁, hgather, hrs₁⟩ := exists_gather h hcV hcle
      have hlater : ∀ d ∈ cs, ∀ k ∈ Insert.insert c.code V, k < d.code := by
        intro d hd k hk
        rcases Finset.mem_insert.mp hk with rfl | hk
        · exact hfirst d hd
        · exact hcsV d hd k hk
      obtain ⟨rs₂, hfold, hrs₂⟩ := ih hrs₁ hrest hlater hcsle
      have hcodes : V ∪ ((c :: cs).map Symbol.code).toFinset =
          Insert.insert c.code V ∪ (cs.map Symbol.code).toFinset := by
        simp
      refine ⟨rs₂, ?_, ?_⟩
      · rw [List.foldlM_cons, hgather]
        exact hfold
      · rw [hcodes]
        exact hrs₂

/-- What is gathered from the members is how the set is kept. -/
theorem intervals_eq_runs
    (h : ∀ k ∈ S.codes, k ≤ largest) :
    S.intervals largest = some S.runs := by
  have hnone : MaximalRuns ∅ [].reverse := ⟨nofun, .nil, fun k => by simp⟩
  have hle : ∀ c ∈ S.toList, c.code ≤ largest := fun c hc =>
    h c.code (code_mem_codes.mpr (mem_toList.mp hc))
  obtain ⟨rs, hfold, hrs⟩ := exists_foldlM_gather hnone S.ascending_toList nofun hle
  rw [Finset.empty_union] at hrs
  have hruns : rs.reverse = S.runs :=
    hrs.eq (fun k => leastCode_le_of_mem_codes) S.maximalRuns_runs
  unfold intervals
  rw [hfold, ← hruns]
  rfl

end Gathering

section Rebuilding

/-- The set to which runs are added one after the other. -/
def insertRuns (S : SymbolSet) (rs : List Run) : Except Fault SymbolSet :=
  rs.foldlM (fun T r => T.insertRange ⟨r.lo⟩ ⟨r.hi⟩) S

/-- Runs of storable codes are added without a refusal. -/
theorem exists_insertRuns
    (h : ∀ r ∈ rs, Symbol.leastCode ≤ r.lo) :
    ∃ T, S.insertRuns rs = .ok T ∧ ∀ k, k ∈ T.codes ↔ k ∈ S.codes ∨ InRuns k rs := by
  unfold insertRuns
  induction rs generalizing S with
  | nil => exact ⟨S, rfl, by simp⟩
  | cons r rs ih =>
      obtain ⟨hr, hrs⟩ := List.forall_mem_cons.mp h
      have hends : firstReserved (rangeEnds ⟨r.lo⟩ ⟨r.hi⟩) = none := firstReserved_rangeEnds hr
      obtain ⟨T₁, hinsert, hT₁⟩ := insertRange_checks.done hends
      obtain ⟨T₂, hrest, hT₂⟩ := ih (S := T₁) hrs
      refine ⟨T₂, ?_, ?_⟩
      · rw [List.foldlM_cons, hinsert]
        exact hrest
      · intro k
        rw [hT₂, hT₁, Finset.mem_union, mem_codesBetween, inRuns_cons, Run.mem_def, or_assoc]

/-- A set is put together from its runs, in any order. -/
theorem insertRuns_of_perm
    (h : rs.Perm S.runs) :
    insertRuns ∅ rs = .ok S := by
  have hstorable : ∀ r ∈ rs, Symbol.leastCode ≤ r.lo := fun r hr =>
    S.canonical.storable r (h.mem_iff.mp hr)
  obtain ⟨T, hT, hcodes⟩ := exists_insertRuns (S := ∅) hstorable
  have hsame : T = S := by
    refine codes_injective ?_
    ext k
    rw [hcodes, S.maximalRuns_runs.covers]
    simp [InRuns, h.mem_iff]
  rw [hT, hsame]

end Rebuilding

/-- **The runs of a set.**  Let no member of a set be larger than the largest code.  Then the members
are gathered into runs, and never is a code asked for that comes after the largest one.  What is
gathered is how the set is kept.  No run is empty, after each of them at least one code is missing
before the next one begins, and they hold the codes of the set and no others.  No other list of
runs is like that.  The runs, added to the empty set in any order, give the set back. -/
theorem intervals_exact
    (S : SymbolSet) (largest : Int)
    (h : ∀ k ∈ S.codes, k ≤ largest) :
    S.intervals largest = some S.runs ∧
    MaximalRuns S.codes S.runs ∧
    (∀ rs, MaximalRuns S.codes rs → rs = S.runs) ∧
    ∀ rs, rs.Perm S.runs → insertRuns ∅ rs = .ok S := by
  refine ⟨intervals_eq_runs h, S.maximalRuns_runs, ?_, fun rs => insertRuns_of_perm⟩
  intro rs hrs
  exact hrs.eq (fun k => leastCode_le_of_mem_codes) S.maximalRuns_runs

theorem canonical_outerRuns :
    Canonical [⟨-2, 0⟩, ⟨5, 5⟩, ⟨2147483646, 2147483647⟩] :=
  ⟨by decide, by decide, by decide⟩

/-- The markers, a symbol by itself, and the two largest codes of 32 bits. -/
def outerCodes : SymbolSet := ⟨_, canonical_outerRuns⟩

theorem intervals_exact_outerCodes :
    outerCodes.toList = [⟨-2⟩, ⟨-1⟩, ⟨0⟩, ⟨5⟩, ⟨2147483646⟩, ⟨2147483647⟩] ∧
    (∀ k ∈ outerCodes.codes, k ≤ 2147483647) ∧
    outerCodes.intervals 2147483647 =
      some [⟨-2, 0⟩, ⟨5, 5⟩, ⟨2147483646, 2147483647⟩] ∧
    (∀ rs, MaximalRuns outerCodes.codes rs → rs = outerCodes.runs) ∧
    insertRuns ∅ [⟨2147483646, 2147483647⟩, ⟨-2, 0⟩, ⟨5, 5⟩] = .ok outerCodes := by
  have hle : ∀ k ∈ outerCodes.codes, k ≤ 2147483647 := by decide
  obtain ⟨hgathered, -, hunique, hrebuilt⟩ := intervals_exact outerCodes 2147483647 hle
  exact ⟨by decide, hle, hgathered, hunique, hrebuilt _ (by decide)⟩

end SymbolSet
end RuleNetwork
