import Mathlib.Logic.Function.Basic
import RuleNetwork.Proofs.Symbol.Codes

/-!
# Programs on sets of symbols

A program holds any number of sets of symbols, each under a number, and makes one call after the
other.  A call puts a new set in the place of one of them, and tells something about the former
one if it has to.

Beside it runs the same program on finite sets of codes, where every operation is the obvious one.
There a call is refused if it has to store a code that no set may hold, and then nothing changes.
The two programs answer every call alike, and at their ends the sets of the one stand for the sets
of the other.

**Results.**
* `Checks.bind`: the checks of two operations in sequence come one after the other.
* `ofList_checks`, `insertRange_checks` and so on: each operation on runs and its codes.
* `insertRange_eq_insertEach`: a range is added code by code.
* `runOnCodes_codesOf`: one call on both sides.
* `refused_iff`: which calls are refused.
* `programs_agree`: all of this after any calls.
-/

namespace RuleNetwork

/-- The first of some symbols that no set may hold. -/
def firstReserved (cs : List Symbol) : Option Symbol :=
  cs.find? fun c => decide (c.code < Symbol.leastCode)

/-- The operation is refused for the first symbol that no set may hold.  If there is none, it
gives a value that meets `V`. -/
structure Checks {α : Type} (cs : List Symbol) (V : α → Prop) (x : Except Fault α) : Prop where
  refused : ∀ c, firstReserved cs = some c → x = .error (.reservedSymbol c)
  done : firstReserved cs = none → ∃ a, x = .ok a ∧ V a

namespace Checks

variable {α β : Type} {cs ds : List Symbol} {V : α → Prop} {W : β → Prop} {x : Except Fault α}

theorem of_ok
    {a : α}
    (ha : V a) :
    Checks [] V (.ok a) :=
  ⟨nofun, fun _ => ⟨a, rfl, ha⟩⟩

theorem of_refused
    {c : Symbol}
    (h : firstReserved cs = some c) :
    Checks cs V (.error (.reservedSymbol c)) := by
  refine ⟨?_, ?_⟩
  · intro d hd
    cases h.symm.trans hd
    rfl
  · intro hnone
    cases h.symm.trans hnone

/-- A symbol that is checked before the others. -/
theorem cons
    {c : Symbol}
    (hbad : c.code < Symbol.leastCode → x = .error (.reservedSymbol c))
    (hgood : Symbol.leastCode ≤ c.code → Checks cs V x) :
    Checks (c :: cs) V x := by
  by_cases hc : c.code < Symbol.leastCode
  · rw [hbad hc]
    exact of_refused (List.find?_cons_of_pos (by simpa using hc))
  · have hfirst : firstReserved (c :: cs) = firstReserved cs :=
      List.find?_cons_of_neg (by simpa using hc)
    have hx := hgood (Int.not_lt.mp hc)
    exact ⟨fun d hd => hx.refused d (hfirst ▸ hd), fun hd => hx.done (hfirst ▸ hd)⟩

/-- The checks of two operations in sequence come one after the other. -/
theorem bind
    {f : α → Except Fault β}
    (hx : Checks cs V x)
    (hf : ∀ a, V a → Checks ds W (f a)) :
    Checks (cs ++ ds) W (x >>= f) := by
  have hfirst : firstReserved (cs ++ ds) = (firstReserved cs).or (firstReserved ds) :=
    List.find?_append
  cases h : firstReserved cs with
  | some c =>
      rw [h, Option.some_or] at hfirst
      rw [hx.refused c h]
      exact of_refused hfirst
  | none =>
      rw [h, Option.none_or] at hfirst
      obtain ⟨a, rfl, ha⟩ := hx.done h
      exact ⟨fun d hd => (hf a ha).refused d (hfirst ▸ hd), fun hd => (hf a ha).done (hfirst ▸ hd)⟩

theorem map
    {f : α → β}
    (hx : Checks cs V x)
    (hf : ∀ a, V a → W (f a)) :
    Checks cs W (f <$> x) := by
  have h := hx.bind fun a ha => of_ok (hf a ha)
  rw [List.append_nil] at h
  exact h

end Checks

namespace SymbolSet

/-- The ends of a range in the order in which they are checked, if the range is not empty. -/
def rangeEnds (lo hi : Symbol) : List Symbol := if hi.code < lo.code then [] else [hi, lo]

variable {S : SymbolSet} {c lo hi : Symbol} {cs : List Symbol}

theorem of_checks : Checks [c] (fun S => S.codes = {c.code}) (SymbolSet.of c) := by
  refine .cons ?_ ?_
  · intro hc
    exact dif_neg (Int.not_le.mpr hc)
  · intro hc
    rw [show SymbolSet.of c = .ok (single c hc) from dif_pos hc]
    exact .of_ok codes_single

theorem range_checks :
    Checks (rangeEnds lo hi) (fun S => S.codes = codesBetween lo.code hi.code)
      (SymbolSet.range lo hi) := by
  unfold SymbolSet.range rangeEnds
  split
  · next hempty => exact .of_ok (codesBetween_eq_empty hempty).symm
  · refine .cons ?_ ?_
    · intro hhi
      exact if_pos hhi
    · intro hhi
      rw [if_neg (Int.not_lt.mpr hhi)]
      refine .cons ?_ ?_
      · intro hlo
        exact dif_neg (Int.not_le.mpr hlo)
      · intro hlo
        rw [dif_pos hlo]
        exact .of_ok codes_between

theorem insert_checks :
    Checks [c] (fun r => r.1 = decide (c.code ∉ S.codes) ∧ r.2.codes = Insert.insert c.code S.codes)
      (S.insert c) := by
  refine of_checks.map (f := fun added => (!S.contains c, S ∪ added)) ?_
  intro added hadded
  refine ⟨?_, ?_⟩
  · rw [(represents_codes S).contains c, decide_not]
  · rw [codes_union, hadded, Finset.union_singleton]

theorem insertRange_checks :
    Checks (rangeEnds lo hi) (fun T => T.codes = S.codes ∪ codesBetween lo.code hi.code)
      (S.insertRange lo hi) := by
  refine range_checks.map (f := fun added => S ∪ added) ?_
  intro added hadded
  rw [codes_union, hadded]

theorem complement_checks :
    Checks (rangeEnds lo hi) (fun T => T.codes = codesBetween lo.code hi.code \ S.codes)
      (S.complement lo hi) := by
  refine range_checks.map (f := fun all => all \ S) ?_
  intro all hall
  rw [codes_diff, hall]

/-- The set to which symbols are added one after the other. -/
def insertEach (S : SymbolSet) (cs : List Symbol) : Except Fault SymbolSet :=
  cs.foldlM (fun T c => return (← T.insert c).2) S

theorem insertEach_checks :
    Checks cs (fun T => T.codes = S.codes ∪ (cs.map Symbol.code).toFinset) (S.insertEach cs) := by
  unfold insertEach
  induction cs generalizing S with
  | nil => exact .of_ok (by simp)
  | cons c cs ih =>
      rw [List.foldlM_cons]
      have hround : Checks [c] (fun T => T.codes = Insert.insert c.code S.codes)
          (Prod.snd <$> S.insert c) :=
        insert_checks.map fun r hr => hr.2
      refine hround.bind ?_
      intro T hT
      have hcodes : S.codes ∪ ((c :: cs).map Symbol.code).toFinset =
          T.codes ∪ (cs.map Symbol.code).toFinset := by
        simp [hT]
      rw [hcodes]
      exact ih

theorem ofList_checks :
    Checks cs (fun S => S.codes = (cs.map Symbol.code).toFinset) (SymbolSet.ofList cs) := by
  have h : Checks cs _ (SymbolSet.ofList cs) := insertEach_checks (S := ∅)
  rw [codes_empty] at h
  simpa only [Finset.empty_union] using h

/-- Where the lower end of a range may be stored, so may the upper end, or the range is empty. -/
theorem firstReserved_rangeEnds
    (hlo : Symbol.leastCode ≤ lo.code) :
    firstReserved (rangeEnds lo hi) = none := by
  unfold firstReserved rangeEnds
  split
  · rfl
  · simp
    omega

/-- Where the lower end of a range may be stored, its codes can be added one after the other: none
of them is refused when others have been added already. -/
theorem insertRange_eq_insertEach
    (hlo : Symbol.leastCode ≤ lo.code) :
    S.insertRange lo hi = S.insertEach ((Run.mk lo.code hi.code).codes.map Symbol.mk) := by
  have hends : firstReserved (rangeEnds lo hi) = none := firstReserved_rangeEnds hlo
  have heach : firstReserved ((Run.mk lo.code hi.code).codes.map Symbol.mk) = none := by
    unfold firstReserved
    simp only [List.find?_eq_none, List.mem_map, Run.mem_codes, Run.mem_def]
    rintro c ⟨k, ⟨hk, _⟩, rfl⟩
    simp
    omega
  obtain ⟨T, hT, hcodes⟩ := (insertRange_checks (S := S)).done hends
  obtain ⟨T', hT', hcodes'⟩ := (insertEach_checks (S := S)).done heach
  have hsame : T = T' := by
    refine codes_injective ?_
    rw [hcodes, hcodes']
    ext k
    simp [Run.mem_codes, Run.mem_def]
  rw [hT, hT', hsame]

theorem remove_eq (S : SymbolSet) (c : Symbol) :
    (S.remove c).1 = decide (c.code ∈ S.codes) ∧ (S.remove c).2.codes = S.codes.erase c.code := by
  unfold SymbolSet.remove
  split
  · refine ⟨(represents_codes S).contains c, ?_⟩
    rw [codes_diff, codes_single, Finset.sdiff_singleton_eq_erase]
  · next hc =>
    have hmem : c.code ∉ S.codes := fun h => hc (leastCode_le_of_mem_codes h)
    simp [hmem]

theorem remove_of_lt
    (hc : c.code < Symbol.leastCode) :
    S.remove c = (false, S) :=
  dif_neg (Int.not_le.mpr hc)

theorem contains_of_lt
    (hc : c.code < Symbol.leastCode) :
    S.contains c = false := by
  rw [Bool.eq_false_iff, ne_eq, contains_iff]
  intro hmem
  exact absurd (le_code_of_mem hmem) (Int.not_le.mpr hc)

end SymbolSet

/-- An operation on a set of symbols.  The other set of a union or a complement is known by its
number. -/
inductive SetOp
  | new
  | of (c : Symbol)
  | range (lo hi : Symbol)
  | collect (cs : List Symbol)
  | insert (c : Symbol)
  | insertRange (lo hi : Symbol)
  | remove (c : Symbol)
  | union (other : Nat)
  | complement (other : Nat) (lo hi : Symbol)

namespace SetOp

/-- What an operation tells, and the set that it puts in the place of `S`. -/
def onSet (sets : Nat → SymbolSet) (S : SymbolSet) :
    SetOp → Except Fault (Option Bool × SymbolSet)
  | new => return (none, ∅)
  | of c => Prod.mk none <$> SymbolSet.of c
  | range lo hi => Prod.mk none <$> SymbolSet.range lo hi
  | collect cs => Prod.mk none <$> SymbolSet.ofList cs
  | insert c => Prod.map some id <$> S.insert c
  | insertRange lo hi => Prod.mk none <$> S.insertRange lo hi
  | remove c => return (S.remove c).map some id
  | union other => return (none, S ∪ sets other)
  | complement other lo hi => Prod.mk none <$> (sets other).complement lo hi

/-- What an operation tells, and what it puts in the place of `V`, if sets are finite sets of
codes. -/
def onCodes (codes : Nat → Finset Int) (V : Finset Int) : SetOp → Option Bool × Finset Int
  | new => (none, ∅)
  | of c => (none, {c.code})
  | range lo hi => (none, codesBetween lo.code hi.code)
  | collect cs => (none, (cs.map Symbol.code).toFinset)
  | insert c => (some (decide (c.code ∉ V)), Insert.insert c.code V)
  | insertRange lo hi => (none, V ∪ codesBetween lo.code hi.code)
  | remove c => (some (decide (c.code ∈ V)), V.erase c.code)
  | union other => (none, V ∪ codes other)
  | complement other lo hi => (none, codesBetween lo.code hi.code \ codes other)

/-- The finite sets of codes for which the sets stand. -/
def codesOf (sets : Nat → SymbolSet) : Nat → Finset Int := SymbolSet.codes ∘ sets

/-- The symbols that an operation checks, in their order. -/
def checked : SetOp → List Symbol
  | of c | insert c => [c]
  | collect cs => cs
  | range lo hi | insertRange lo hi | complement _ lo hi => SymbolSet.rangeEnds lo hi
  | new | remove _ | union _ => []

/-- The codes that an operation has to store. -/
def stored : SetOp → Finset Int
  | of c | insert c => {c.code}
  | collect cs => (cs.map Symbol.code).toFinset
  | range lo hi | insertRange lo hi | complement _ lo hi => codesBetween lo.code hi.code
  | new | remove _ | union _ => ∅

/-- Each operation does to the codes of the sets what it should. -/
theorem onSet_checks
    (op : SetOp) (sets : Nat → SymbolSet) (S : SymbolSet) :
    Checks op.checked
      (fun r => (r.1, r.2.codes) = op.onCodes (codesOf sets) S.codes)
      (op.onSet sets S) := by
  cases op with
  | new => exact .of_ok rfl
  | of c => exact SymbolSet.of_checks.map fun T hT => congrArg (Prod.mk none) hT
  | range lo hi => exact SymbolSet.range_checks.map fun T hT => congrArg (Prod.mk none) hT
  | collect cs => exact SymbolSet.ofList_checks.map fun T hT => congrArg (Prod.mk none) hT
  | insert c =>
      refine SymbolSet.insert_checks.map ?_
      intro r hr
      exact Prod.ext (congrArg some hr.1) hr.2
  | insertRange lo hi =>
      exact SymbolSet.insertRange_checks.map fun T hT => congrArg (Prod.mk none) hT
  | remove c =>
      obtain ⟨htold, hcodes⟩ := S.remove_eq c
      exact .of_ok (Prod.ext (congrArg some htold) hcodes)
  | union other => exact .of_ok (congrArg (Prod.mk none) SymbolSet.codes_union)
  | complement other lo hi =>
      exact SymbolSet.complement_checks.map fun T hT => congrArg (Prod.mk none) hT

/-- An operation checks a symbol that no set may hold just if it has to store such a code. -/
theorem exists_firstReserved_iff
    (op : SetOp) :
    (∃ c, firstReserved op.checked = some c) ↔ ∃ k ∈ op.stored, k < Symbol.leastCode := by
  have hfirst : (∃ c, firstReserved op.checked = some c) ↔
      ∃ c ∈ op.checked, c.code < Symbol.leastCode := by
    rw [← Option.isSome_iff_exists]
    unfold firstReserved
    simp
  rw [hfirst]
  have hrange : ∀ lo hi : Symbol, (∃ c ∈ SymbolSet.rangeEnds lo hi, c.code < Symbol.leastCode) ↔
      ∃ k ∈ codesBetween lo.code hi.code, k < Symbol.leastCode := by
    intro lo hi
    unfold SymbolSet.rangeEnds
    split
    · next hempty => simp [codesBetween_eq_empty hempty]
    · next hne =>
      simp only [List.mem_cons, List.not_mem_nil, or_false, mem_codesBetween]
      constructor
      · rintro ⟨c, rfl | rfl, hc⟩
        · exact ⟨c.code, ⟨by omega, by omega⟩, hc⟩
        · exact ⟨c.code, ⟨by omega, by omega⟩, hc⟩
      · rintro ⟨k, ⟨hlo, hhi⟩, hk⟩
        exact ⟨lo, Or.inr rfl, by omega⟩
  cases op with
  | range lo hi => exact hrange lo hi
  | insertRange lo hi => exact hrange lo hi
  | complement other lo hi => exact hrange lo hi
  | _ => simp [checked, stored]

end SetOp

/-- An operation on the set of some number. -/
structure SetCall where
  target : Nat
  op : SetOp

namespace SetCall

open SetOp (codesOf)

/-- What a call tells, and the sets after it.  A refused call leaves them as they were. -/
def run (call : SetCall) (sets : Nat → SymbolSet) :
    Except Fault (Option Bool) × (Nat → SymbolSet) :=
  match call.op.onSet sets (sets call.target) with
  | .ok (told, S) => (.ok told, Function.update sets call.target S)
  | .error fault => (.error fault, sets)

/-- The same call if sets are finite sets of codes. -/
def runOnCodes (call : SetCall) (codes : Nat → Finset Int) :
    Except Fault (Option Bool) × (Nat → Finset Int) :=
  match firstReserved call.op.checked with
  | some c => (.error (.reservedSymbol c), codes)
  | none =>
      let (told, V) := call.op.onCodes codes (codes call.target)
      (.ok told, Function.update codes call.target V)

/-- One call after the other: all that they tell, and what is there in the end. -/
def runAll {σ τ : Type} (step : SetCall → σ → τ × σ) : List SetCall → σ → List τ × σ
  | [], s => ([], s)
  | call :: calls, s =>
      let (told, s) := step call s
      let (rest, s) := runAll step calls s
      (told :: rest, s)

/-- A call does the same on both sides. -/
theorem runOnCodes_codesOf
    (call : SetCall) (sets : Nat → SymbolSet) :
    call.runOnCodes (codesOf sets) = ((call.run sets).1, codesOf (call.run sets).2) := by
  have hchecks := call.op.onSet_checks sets (sets call.target)
  cases h : firstReserved call.op.checked with
  | some c => simp only [runOnCodes, run, h, hchecks.refused c h]
  | none =>
      obtain ⟨⟨told, S⟩, hdone, hcodes⟩ := hchecks.done h
      have hsame : call.op.onCodes (codesOf sets) (codesOf sets call.target) = (told, S.codes) :=
        hcodes.symm
      have hupdate : codesOf (Function.update sets call.target S) =
          Function.update (codesOf sets) call.target S.codes :=
        Function.comp_update ..
      simp only [runOnCodes, run, h, hdone, hsame, hupdate]

/-- So does a program. -/
theorem runAll_codesOf
    (calls : List SetCall) (sets : Nat → SymbolSet) :
    runAll runOnCodes calls (codesOf sets) =
      ((runAll run calls sets).1, codesOf (runAll run calls sets).2) := by
  induction calls generalizing sets with
  | nil => rfl
  | cons call calls ih => simp only [runAll, runOnCodes_codesOf, ih]

/-- A call is refused just if it has to store a code that no set may hold. -/
theorem refused_iff
    {call : SetCall} {sets : Nat → SymbolSet} :
    (∃ fault, (call.run sets).1 = .error fault) ↔
      ∃ k ∈ call.op.stored, k < Symbol.leastCode := by
  have hsame : (call.runOnCodes (codesOf sets)).1 = (call.run sets).1 :=
    congrArg Prod.fst (call.runOnCodes_codesOf sets)
  rw [← call.op.exists_firstReserved_iff, ← hsame]
  unfold runOnCodes
  cases firstReserved call.op.checked with
  | some c => simp
  | none => simp

theorem run_of_refused
    {call : SetCall} {sets : Nat → SymbolSet} {fault : Fault}
    (h : (call.run sets).1 = .error fault) :
    (call.run sets).2 = sets := by
  unfold run at h ⊢
  split
  · next hdone =>
    rw [hdone] at h
    cases h
  · rfl

/-- **Sets of symbols are finite sets of codes.**  Any number of sets are empty at first, and any
calls are made on them, with any codes.  Then all calls tell what they tell on finite sets of
codes, refusals included, and at the end each set stands for its finite set of codes: that set
answers whatever can be asked of the former.  Two sets are the same, and are listed alike, just if
their codes are the same.  A code that no set may hold is in none of them, and to take it out
changes nothing.  A further call is refused just if it has to store such a code, and then it leaves
all sets as they were; a range with no such code is added code by code, without a refusal in the
midst of it. -/
theorem programs_agree (calls : List SetCall) :
    let sets := (runAll run calls fun _ => ∅).2
    let codes := (runAll runOnCodes calls fun _ => ∅).2
    (runAll run calls fun _ => ∅).1 = (runAll runOnCodes calls fun _ => ∅).1 ∧
    (∀ x, (sets x).Represents (codes x)) ∧
    (∀ x y, (sets x = sets y ↔ codes x = codes y) ∧
      ((sets x).toList = (sets y).toList ↔ codes x = codes y)) ∧
    (∀ x c, c.code < Symbol.leastCode →
      (sets x).contains c = false ∧ (sets x).remove c = (false, sets x)) ∧
    (∀ call : SetCall,
      ((∃ fault, (call.run sets).1 = .error fault) ↔
        ∃ k ∈ call.op.stored, k < Symbol.leastCode) ∧
      ∀ fault, (call.run sets).1 = .error fault → (call.run sets).2 = sets) ∧
    ∀ x lo hi, Symbol.leastCode ≤ lo.code →
      (sets x).insertRange lo hi =
        (sets x).insertEach ((Run.mk lo.code hi.code).codes.map Symbol.mk) := by
  intro sets codes
  have hrun : runAll runOnCodes calls (fun _ => ∅) =
      ((runAll run calls fun _ => ∅).1, codesOf sets) :=
    runAll_codesOf calls fun _ => ∅
  have hcodes : ∀ x, codes x = (sets x).codes := fun x => congrFun (congrArg Prod.snd hrun) x
  refine ⟨(congrArg Prod.fst hrun).symm, ?_, ?_, ?_, ?_, ?_⟩
  · intro x
    rw [hcodes]
    exact (sets x).represents_codes
  · intro x y
    rw [hcodes, hcodes]
    exact ⟨SymbolSet.codes_injective.eq_iff.symm, SymbolSet.toList_eq_iff⟩
  · intro x c hc
    exact ⟨SymbolSet.contains_of_lt hc, SymbolSet.remove_of_lt hc⟩
  · intro call
    exact ⟨refused_iff, fun _ => run_of_refused⟩
  · intro x lo hi hlo
    exact SymbolSet.insertRange_eq_insertEach hlo

/-- A set that has lost its larger codes is the one that never had them, and a refused range
changes nothing about that. -/
example :
    let sets := (runAll run [⟨0, .range ⟨1⟩ ⟨3⟩⟩, ⟨0, .remove ⟨3⟩⟩, ⟨0, .remove ⟨2⟩⟩,
      ⟨0, .insertRange ⟨-3⟩ ⟨9⟩⟩, ⟨1, .of ⟨1⟩⟩] fun _ => ∅).2
    sets 0 = sets 1 := by
  decide

end SetCall
end RuleNetwork
