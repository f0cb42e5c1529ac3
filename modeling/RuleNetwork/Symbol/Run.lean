import RuleNetwork.Symbol.Basic

/-!
# Runs of consecutive codes

A run stands for all codes from its `lo` to its `hi`.  A set of symbols is kept
as its *canonical* list of runs: ascending, no run empty, and at least one code
missing between two neighbours.

**Operations.**
* `insertRun r` adds the codes of one run and glues the runs that it touches.
* `eraseRun r` takes the codes of one run out and cuts the runs that it meets.

**Results.**
* `mem_insertRun`, `mem_eraseRun`: both do to the members what they say.
* `Canonical.insertRun`, `Canonical.eraseRun`: both keep a list canonical.
* `Canonical.ext`: a canonical list is determined by its members.
-/

namespace RuleNetwork

/-- All codes from `lo` to `hi`, none if `hi < lo`. -/
structure Run where
  lo : Int
  hi : Int
  deriving DecidableEq, Hashable

namespace Run

instance : Membership Int Run := ⟨fun r c => r.lo ≤ c ∧ c ≤ r.hi⟩

theorem mem_def {r : Run} {c : Int} : c ∈ r ↔ r.lo ≤ c ∧ c ≤ r.hi := Iff.rfl

instance (c : Int) (r : Run) : Decidable (c ∈ r) :=
  inferInstanceAs (Decidable (_ ∧ _))

/-- At least one code lies between the two runs, the first of which is smaller. -/
def Apart (r s : Run) : Prop := r.hi + 1 < s.lo

instance (r s : Run) : Decidable (r.Apart s) := inferInstanceAs (Decidable (_ < _))

/-- How many codes a run holds. -/
def size (r : Run) : Nat := (r.hi + 1 - r.lo).toNat

/-- The codes of a run, in ascending order. -/
def codes (r : Run) : List Int :=
  (List.range r.size).map fun (i : Nat) => r.lo + (i : Int)

/-- The least run that covers both. -/
def hull (r s : Run) : Run := ⟨min r.lo s.lo, max r.hi s.hi⟩

/-- What is left of `t` once the codes of `r` are gone: a part below, a part above. -/
def cut (r t : Run) : List Run :=
  (if t.lo ≤ min t.hi (r.lo - 1) then [⟨t.lo, min t.hi (r.lo - 1)⟩] else []) ++
    (if max t.lo (r.hi + 1) ≤ t.hi then [⟨max t.lo (r.hi + 1), t.hi⟩] else [])

theorem mem_codes {r : Run} {c : Int} : c ∈ r.codes ↔ c ∈ r := by
  simp only [codes, size, List.mem_map, List.mem_range, mem_def]
  constructor
  · rintro ⟨i, hi, rfl⟩
    omega
  · rintro ⟨hlo, hhi⟩
    exact ⟨(c - r.lo).toNat, by omega, by omega⟩

end Run

/-- Adds the codes of `r` to a list of runs, gluing the runs that it touches. -/
def insertRun (r : Run) : List Run → List Run
  | [] => [r]
  | t :: ts =>
      if r.Apart t then r :: t :: ts
      else if t.Apart r then t :: insertRun r ts
      else insertRun (r.hull t) ts

/-- Takes the codes of `r` out of a list of runs. -/
def eraseRun (r : Run) (rs : List Run) : List Run := rs.flatMap r.cut

/-- Ascending, separated, non-empty runs of codes that a set may hold. -/
structure Canonical (rs : List Run) : Prop where
  storable : ∀ r ∈ rs, Symbol.leastCode ≤ r.lo
  nonempty : ∀ r ∈ rs, r.lo ≤ r.hi
  apart : rs.Pairwise Run.Apart

/-- A code is in one of the runs. -/
def InRuns (c : Int) (rs : List Run) : Prop := ∃ r ∈ rs, c ∈ r

section Members

variable {c : Int} {r t : Run} {rs ts : List Run}

@[simp] theorem not_inRuns_nil : ¬ InRuns c [] := by
  simp [InRuns]

@[simp] theorem inRuns_cons : InRuns c (t :: ts) ↔ c ∈ t ∨ InRuns c ts := by
  simp [InRuns]

/-- Runs that are not apart, either way, leave no gap under their hull. -/
theorem Run.mem_hull (hrt : ¬ r.Apart t) (htr : ¬ t.Apart r) :
    c ∈ r.hull t ↔ c ∈ r ∨ c ∈ t := by
  simp only [Run.Apart, Run.mem_def, Run.hull] at *
  omega

theorem mem_insertRun (hr : r.lo ≤ r.hi) (hne : ∀ t ∈ rs, t.lo ≤ t.hi) :
    InRuns c (insertRun r rs) ↔ c ∈ r ∨ InRuns c rs := by
  induction rs generalizing r with
  | nil => simp [insertRun]
  | cons t ts ih =>
    have ht : t.lo ≤ t.hi := hne t (by simp)
    have hts : ∀ u ∈ ts, u.lo ≤ u.hi := fun u hu => hne u (by simp [hu])
    unfold insertRun
    split
    · simp
    · split
      · simp only [inRuns_cons, ih hr hts]
        exact or_left_comm
      · next hrt htr =>
        have hhull : (r.hull t).lo ≤ (r.hull t).hi := by
          simp only [Run.hull]
          omega
        rw [ih hhull hts, Run.mem_hull hrt htr, inRuns_cons, or_assoc]

theorem Run.mem_cut : (∃ u ∈ r.cut t, c ∈ u) ↔ c ∈ t ∧ c ∉ r := by
  simp only [Run.cut, List.mem_append, Run.mem_def]
  constructor
  · rintro ⟨u, hu | hu, hc⟩
    · split at hu
      · obtain rfl := List.mem_singleton.mp hu
        simp only at hc
        omega
      · simp at hu
    · split at hu
      · obtain rfl := List.mem_singleton.mp hu
        simp only at hc
        omega
      · simp at hu
  · rintro ⟨⟨hlo, hhi⟩, hr⟩
    by_cases hbelow : c < r.lo
    · refine ⟨⟨t.lo, min t.hi (r.lo - 1)⟩, Or.inl ?_, hlo, by simp only; omega⟩
      rw [if_pos (by omega)]
      exact List.mem_singleton.mpr rfl
    · refine ⟨⟨max t.lo (r.hi + 1), t.hi⟩, Or.inr ?_, by simp only; omega, hhi⟩
      rw [if_pos (by omega)]
      exact List.mem_singleton.mpr rfl

theorem mem_eraseRun : InRuns c (eraseRun r rs) ↔ InRuns c rs ∧ c ∉ r := by
  induction rs with
  | nil => simp [eraseRun]
  | cons t ts ih =>
    have hcons : InRuns c (eraseRun r (t :: ts)) ↔
        (∃ u ∈ r.cut t, c ∈ u) ∨ InRuns c (eraseRun r ts) := by
      simp only [InRuns, eraseRun, List.flatMap_cons, List.mem_append, or_and_right, exists_or]
    rw [hcons, Run.mem_cut, ih, inRuns_cons, or_and_right]

end Members

namespace Canonical

variable {r t : Run} {rs ss ts : List Run}

theorem nil : Canonical [] :=
  ⟨by simp, by simp, List.Pairwise.nil⟩

theorem tail (h : Canonical (t :: ts)) : Canonical ts :=
  ⟨fun r hr => h.storable r (by simp [hr]), fun r hr => h.nonempty r (by simp [hr]),
    h.apart.tail⟩

/-- The members of the later runs leave a gap after the first run. -/
theorem gap (h : Canonical (t :: ts)) {c : Int} (hc : InRuns c ts) : t.hi + 1 < c := by
  obtain ⟨u, hu, hcu⟩ := hc
  have hap : t.Apart u := List.rel_of_pairwise_cons h.apart hu
  simp only [Run.Apart, Run.mem_def] at hap hcu
  omega

theorem cons (hlo : Symbol.leastCode ≤ t.lo) (hne : t.lo ≤ t.hi)
    (hap : ∀ u ∈ ts, t.Apart u) (h : Canonical ts) : Canonical (t :: ts) :=
  ⟨by simpa using ⟨hlo, h.storable⟩, by simpa using ⟨hne, h.nonempty⟩,
    List.pairwise_cons.mpr ⟨hap, h.apart⟩⟩

/-- A bound below the run and below all other runs stays below what an insertion gives. -/
theorem apart_insertRun (hr : t.Apart r) (hts : ∀ u ∈ ts, t.Apart u) :
    ∀ u ∈ insertRun r ts, t.Apart u := by
  induction ts generalizing r with
  | nil => simpa [insertRun] using hr
  | cons v vs ih =>
    have hv : t.Apart v := hts v (by simp)
    have hvs : ∀ u ∈ vs, t.Apart u := fun u hu => hts u (by simp [hu])
    unfold insertRun
    split
    · simpa using ⟨hr, hv, hvs⟩
    · split
      · simpa using ⟨hv, ih hr hvs⟩
      · refine ih ?_ hvs
        simp only [Run.Apart, Run.hull] at *
        omega

theorem insertRun (hlo : Symbol.leastCode ≤ r.lo) (hne : r.lo ≤ r.hi) (h : Canonical rs) :
    Canonical (insertRun r rs) := by
  induction rs generalizing r with
  | nil => exact cons hlo hne (by simp) nil
  | cons t ts ih =>
    have htlo := h.storable t (by simp)
    have htne := h.nonempty t (by simp)
    have htap : ∀ u ∈ ts, t.Apart u := fun u hu => List.rel_of_pairwise_cons h.apart hu
    unfold RuleNetwork.insertRun
    split
    · next hrt =>
      refine cons hlo hne ?_ h
      intro u hu
      rcases List.mem_cons.mp hu with rfl | hu
      · exact hrt
      · have := htap u hu
        simp only [Run.Apart] at *
        omega
    · split
      · next htr => exact cons htlo htne (apart_insertRun htr htap) (ih hlo hne h.tail)
      · refine ih ?_ ?_ h.tail
        · simp only [Run.hull]
          omega
        · simp only [Run.hull]
          omega

/-- The parts that a cut leaves are a canonical list within the run that was cut. -/
theorem cut (hlo : Symbol.leastCode ≤ t.lo) (r : Run) (hr : r.lo ≤ r.hi) :
    Canonical (r.cut t) ∧ ∀ u ∈ r.cut t, t.lo ≤ u.lo ∧ u.hi ≤ t.hi := by
  unfold Run.cut
  refine ⟨⟨?_, ?_, ?_⟩, ?_⟩
  all_goals split <;> split <;> simp [Run.Apart] <;> omega

theorem eraseRun (hr : r.lo ≤ r.hi) (h : Canonical rs) : Canonical (eraseRun r rs) := by
  induction rs with
  | nil => exact nil
  | cons t ts ih =>
    have ⟨hcut, hin⟩ := cut (h.storable t (by simp)) r hr
    have hrest := ih h.tail
    have hsplit : RuleNetwork.eraseRun r (t :: ts) = r.cut t ++ RuleNetwork.eraseRun r ts := by
      simp [RuleNetwork.eraseRun]
    rw [hsplit]
    refine ⟨?_, ?_, List.pairwise_append.mpr ⟨hcut.apart, hrest.apart, ?_⟩⟩
    · intro u hu
      exact (List.mem_append.mp hu).elim (hcut.storable u) (hrest.storable u)
    · intro u hu
      exact (List.mem_append.mp hu).elim (hcut.nonempty u) (hrest.nonempty u)
    · intro u hu v hv
      have hvlo : InRuns v.lo (RuleNetwork.eraseRun r ts) :=
        ⟨v, hv, Int.le_refl _, hrest.nonempty v hv⟩
      have := h.gap (mem_eraseRun.mp hvlo).1
      have := (hin u hu).2
      simp only [Run.Apart]
      omega

/-- The first run of a canonical list is bounded by the first run of another with the
same members. -/
theorem head_le (hrs : Canonical (r :: rs)) (hts : Canonical (t :: ts))
    (hmem : ∀ c, InRuns c (r :: rs) → InRuns c (t :: ts)) (hlo : r.lo = t.lo) :
    r.hi ≤ t.hi := by
  have hne := hrs.nonempty r (by simp)
  have htne := hts.nonempty t (by simp)
  by_cases hle : r.hi ≤ t.hi
  · exact hle
  · have hnext : InRuns (t.hi + 1) (r :: rs) :=
      inRuns_cons.mpr (Or.inl ⟨by omega, by omega⟩)
    rcases inRuns_cons.mp (hmem _ hnext) with h | h
    · exact absurd h.2 (by omega)
    · exact absurd (hts.gap h) (by omega)

/-- The first code of a canonical list is not smaller than that of a list with more members. -/
theorem head_ge (hrs : Canonical (r :: rs)) (hts : Canonical (t :: ts))
    (hmem : ∀ c, InRuns c (r :: rs) → InRuns c (t :: ts)) : t.lo ≤ r.lo := by
  have hne := hrs.nonempty r (by simp)
  have hfirst : InRuns r.lo (r :: rs) := inRuns_cons.mpr (Or.inl ⟨Int.le_refl _, hne⟩)
  have htne := hts.nonempty t (by simp)
  rcases inRuns_cons.mp (hmem _ hfirst) with h | h
  · exact h.1
  · have := hts.gap h
    omega

/-- A canonical list of runs is determined by its members. -/
theorem ext (hrs : Canonical rs) (hts : Canonical ts)
    (hmem : ∀ c, InRuns c rs ↔ InRuns c ts) : rs = ts := by
  induction rs generalizing ts with
  | nil =>
    cases ts with
    | nil => rfl
    | cons t ts =>
      have hne := hts.nonempty t (by simp)
      exact absurd ((hmem t.lo).mpr (inRuns_cons.mpr (Or.inl ⟨Int.le_refl _, hne⟩)))
        not_inRuns_nil
  | cons r rs ih =>
    cases ts with
    | nil =>
      have hne := hrs.nonempty r (by simp)
      exact absurd ((hmem r.lo).mp (inRuns_cons.mpr (Or.inl ⟨Int.le_refl _, hne⟩)))
        not_inRuns_nil
    | cons t ts =>
      have hlo : r.lo = t.lo := Int.le_antisymm
        (hts.head_ge hrs fun c => (hmem c).mpr) (hrs.head_ge hts fun c => (hmem c).mp)
      have hhi : r.hi = t.hi := Int.le_antisymm
        (hrs.head_le hts (fun c => (hmem c).mp) hlo)
        (hts.head_le hrs (fun c => (hmem c).mpr) hlo.symm)
      obtain rfl : r = t := by
        cases r
        cases t
        simp_all
      refine congrArg (r :: ·) (ih hrs.tail hts.tail fun c => ?_)
      constructor
      · intro hc
        have := hrs.gap hc
        rcases inRuns_cons.mp ((hmem c).mp (inRuns_cons.mpr (Or.inr hc))) with h | h
        · exact absurd h.2 (by omega)
        · exact h
      · intro hc
        have := hts.gap hc
        rcases inRuns_cons.mp ((hmem c).mpr (inRuns_cons.mpr (Or.inr hc))) with h | h
        · exact absurd h.2 (by omega)
        · exact h

end Canonical
end RuleNetwork
