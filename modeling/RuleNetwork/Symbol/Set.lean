import RuleNetwork.Fault
import RuleNetwork.Symbol.Run

/-!
# Sets of symbols

A set of symbols is a canonical list of runs, so two sets with the same members
are the same set (`SymbolSet.ext`).

**Operations.**
* `single`, `between` build sets of codes that a set may hold; `of`, `range`, `ofList`
  build them from any codes and refuse the reserved ones.
* `union`, `diff`, `complement` combine sets.
* `insert`, `insertRange`, `remove` change one set by a symbol or a range.

**Results.**  One membership lemma per operation: `mem_single`, `mem_between`,
`mem_union`, `mem_diff`, `mem_toList`.
-/

namespace RuleNetwork

/-- A set of symbols, kept as its canonical list of runs. -/
structure SymbolSet where
  runs : List Run
  canonical : Canonical runs

namespace SymbolSet

instance : Membership Symbol SymbolSet := ⟨fun S c => InRuns c.code S.runs⟩

theorem mem_def {S : SymbolSet} {c : Symbol} : c ∈ S ↔ InRuns c.code S.runs := Iff.rfl

/-- Tells whether a symbol is in the set. -/
def contains (S : SymbolSet) (c : Symbol) : Bool := S.runs.any fun r => decide (c.code ∈ r)

@[simp] theorem contains_iff {S : SymbolSet} {c : Symbol} : S.contains c = true ↔ c ∈ S := by
  simp [contains, mem_def, InRuns]

instance (c : Symbol) (S : SymbolSet) : Decidable (c ∈ S) :=
  decidable_of_iff _ contains_iff

/-- A set is determined by its members. -/
@[ext] theorem ext {S T : SymbolSet} (h : ∀ c : Symbol, c ∈ S ↔ c ∈ T) : S = T := by
  obtain ⟨rs, hrs⟩ := S
  obtain ⟨ts, hts⟩ := T
  obtain rfl : rs = ts := hrs.ext hts fun c => h ⟨c⟩
  rfl

instance : DecidableEq SymbolSet := fun S T =>
  decidable_of_iff (S.runs = T.runs)
    ⟨fun h => by cases S; cases T; simp_all, fun h => by rw [h]⟩

instance : Hashable SymbolSet := ⟨fun S => hash S.runs⟩

/-- The set without members. -/
def empty : SymbolSet := ⟨[], .nil⟩

instance : EmptyCollection SymbolSet := ⟨empty⟩

instance : Inhabited SymbolSet := ⟨empty⟩

/-- Tells whether the set has no members. -/
def isEmpty (S : SymbolSet) : Bool := S.runs.isEmpty

/-- The codes from `lo` to `hi`, all of which a set may hold. -/
def between (lo hi : Int) (h : Symbol.leastCode ≤ lo) : SymbolSet :=
  if hne : lo ≤ hi then ⟨[⟨lo, hi⟩], .cons h hne (by simp) .nil⟩ else empty

/-- The set with one member. -/
def single (c : Symbol) (h : Symbol.leastCode ≤ c.code) : SymbolSet := between c.code c.code h

/-- Adds the codes of canonical runs to a set. -/
def addRuns (S : SymbolSet) : (rs : List Run) → Canonical rs → SymbolSet
  | [], _ => S
  | r :: rs, h =>
      addRuns ⟨insertRun r S.runs,
        S.canonical.insertRun (h.storable r (by simp)) (h.nonempty r (by simp))⟩ rs h.tail

/-- The members of either set. -/
def union (S T : SymbolSet) : SymbolSet := S.addRuns T.runs T.canonical

instance : Union SymbolSet := ⟨union⟩

/-- Takes the codes of canonical runs out of a set. -/
def dropRuns (S : SymbolSet) : (rs : List Run) → Canonical rs → SymbolSet
  | [], _ => S
  | r :: rs, h =>
      dropRuns ⟨eraseRun r S.runs, S.canonical.eraseRun (h.nonempty r (by simp))⟩ rs h.tail

/-- The members of the first set that are not in the second. -/
def diff (S T : SymbolSet) : SymbolSet := S.dropRuns T.runs T.canonical

instance : SDiff SymbolSet := ⟨diff⟩

/-- The set with one member, unless its code is reserved. -/
def of (c : Symbol) : Except Fault SymbolSet :=
  if h : Symbol.leastCode ≤ c.code then .ok (single c h) else .error (.reservedSymbol c)

/-- The codes from `lo` to `hi`; the upper end is checked first, and not at all if
there is nothing between the ends. -/
def range (lo hi : Symbol) : Except Fault SymbolSet :=
  if hi.code < lo.code then .ok ∅
  else if hi.code < Symbol.leastCode then .error (.reservedSymbol hi)
  else if h : Symbol.leastCode ≤ lo.code then .ok (between lo.code hi.code h)
  else .error (.reservedSymbol lo)

/-- Adds a symbol and tells whether it is new. -/
def insert (S : SymbolSet) (c : Symbol) : Except Fault (Bool × SymbolSet) := do
  let added ← of c
  return (!S.contains c, S ∪ added)

/-- Adds the codes from `lo` to `hi`. -/
def insertRange (S : SymbolSet) (lo hi : Symbol) : Except Fault SymbolSet := do
  let added ← range lo hi
  return S ∪ added

/-- Takes a symbol out and tells whether it was there. -/
def remove (S : SymbolSet) (c : Symbol) : Bool × SymbolSet :=
  if h : Symbol.leastCode ≤ c.code then (S.contains c, S \ single c h) else (false, S)

/-- The codes from `lo` to `hi` that are not in the set. -/
def complement (S : SymbolSet) (lo hi : Symbol) : Except Fault SymbolSet := do
  let all ← range lo hi
  return all \ S

/-- The set of the listed symbols. -/
def ofList (cs : List Symbol) : Except Fault SymbolSet :=
  cs.foldlM (fun S c => return (← S.insert c).2) ∅

/-- The members in ascending order. -/
def toList (S : SymbolSet) : List Symbol :=
  S.runs.flatMap fun r => r.codes.map Symbol.mk

/-- The number of members. -/
def size (S : SymbolSet) : Nat := S.runs.foldr (fun r n => r.size + n) 0

/-- The written form of a run: one code plainly, several by their ends. -/
def runText (r : Run) : String :=
  if r.lo = r.hi then (Symbol.mk r.lo).text
  else (Symbol.mk r.lo).text ++ ".." ++ (Symbol.mk r.hi).text

/-- The written form of a set: its runs between braces. -/
def text (S : SymbolSet) : String :=
  "\x7b" ++ ", ".intercalate (S.runs.map runText) ++ "\x7d"

section Members

variable {S T : SymbolSet} {c d : Symbol}

@[simp] theorem not_mem_empty : c ∉ (∅ : SymbolSet) := not_inRuns_nil

/-- No set holds a code below the least one. -/
theorem le_code_of_mem (h : c ∈ S) : Symbol.leastCode ≤ c.code := by
  obtain ⟨r, hr, hc⟩ := h
  exact Int.le_trans (S.canonical.storable r hr) hc.1

@[simp] theorem mem_between {lo hi : Int} {h : Symbol.leastCode ≤ lo} :
    c ∈ between lo hi h ↔ lo ≤ c.code ∧ c.code ≤ hi := by
  unfold between
  split
  · simp [mem_def, Run.mem_def]
  · have : c ∉ empty := not_inRuns_nil
    simp only [this, false_iff]
    omega

@[simp] theorem mem_single {h : Symbol.leastCode ≤ c.code} : d ∈ single c h ↔ d = c := by
  simp only [single, mem_between, Symbol.ext_iff]
  omega

theorem mem_addRuns {rs : List Run} {h : Canonical rs} :
    c ∈ S.addRuns rs h ↔ c ∈ S ∨ InRuns c.code rs := by
  induction rs generalizing S with
  | nil => simp [addRuns]
  | cons r rs ih =>
    rw [addRuns, ih, inRuns_cons, ← or_assoc, mem_def,
      mem_insertRun (h.nonempty r (by simp)) S.canonical.nonempty, mem_def]
    rw [or_comm (a := c.code ∈ r)]

@[simp] theorem mem_union : c ∈ S ∪ T ↔ c ∈ S ∨ c ∈ T := mem_addRuns

theorem union_assoc (S T U : SymbolSet) : S ∪ T ∪ U = S ∪ (T ∪ U) := by
  ext c
  simp [or_assoc]

theorem union_empty (S : SymbolSet) : S ∪ ∅ = S := by
  ext c
  simp

theorem empty_union (S : SymbolSet) : ∅ ∪ S = S := by
  ext c
  simp

theorem mem_dropRuns {rs : List Run} {h : Canonical rs} :
    c ∈ S.dropRuns rs h ↔ c ∈ S ∧ ¬ InRuns c.code rs := by
  induction rs generalizing S with
  | nil => simp [dropRuns]
  | cons r rs ih =>
    rw [dropRuns, ih, inRuns_cons, not_or, ← and_assoc, mem_def, mem_eraseRun, mem_def]

@[simp] theorem mem_diff : c ∈ S \ T ↔ c ∈ S ∧ c ∉ T := mem_dropRuns

@[simp] theorem mem_toList : c ∈ S.toList ↔ c ∈ S := by
  simp only [toList, List.mem_flatMap, List.mem_map, Run.mem_codes, mem_def, InRuns]
  constructor
  · rintro ⟨r, hr, code, hcode, rfl⟩
    exact ⟨r, hr, hcode⟩
  · rintro ⟨r, hr, hc⟩
    exact ⟨r, hr, c.code, hc, rfl⟩

end Members

end SymbolSet
end RuleNetwork
