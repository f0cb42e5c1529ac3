import RuleNetwork.Network.Text
import RuleNetwork.Proofs.Symbol.Codes

/-!
# The items of a printed set

A network prints a set of symbols as items between braces.  An item is a single symbol, by its name
where it has one, or a run of several symbols without names, by its ends.  A run in which a symbol
has a name is taken apart into its symbols.

The items stand for the members of the set in their order, each member once.  So the names only
change how the members are written, and without names the set is written as it is anywhere else.

**Results.**
* `prettySet_eq_intercalate`: a printed set is the texts of its items between braces.
* `flatMap_symbols_setItems`: the items stand for the members, in their order.
* `symbolName_of_run_mem`, `symbol_mem_setItems`: names and the items of a set.
* `prettySet_items`: printing loses and repeats nothing.
-/

namespace RuleNetwork

/-- An item of a printed set. -/
inductive PrintedItem
  | symbol (c : Symbol)
  | run (r : Run)

/-- The symbols for which an item stands, in ascending order. -/
def PrintedItem.symbols : PrintedItem → List Symbol
  | .symbol c => [c]
  | .run r => r.codes.map Symbol.mk

theorem Run.codes_of_lo_eq_hi
    {r : Run}
    (h : r.lo = r.hi) :
    r.codes = [r.lo] := by
  have hsize : r.size = 1 := by
    unfold Run.size
    omega
  simp [Run.codes, hsize]

namespace Network

variable (net : Network)

/-- One of the symbols of a run has a name. -/
def hasNamed (r : Run) : Bool := (r.codes.map Symbol.mk).any fun c => (net.symbolName c).isSome

/-- The text of an item. -/
def itemText : PrintedItem → String
  | .symbol c => net.prettySymbol c
  | .run r => (Symbol.mk r.lo).text ++ ".." ++ (Symbol.mk r.hi).text

/-- The items of a run: each of its symbols if one has a name, and if there is no other. -/
def runItems (r : Run) : List PrintedItem :=
  if net.hasNamed r = true ∨ r.lo = r.hi then (r.codes.map Symbol.mk).map .symbol else [.run r]

/-- The items of a set. -/
def setItems (S : SymbolSet) : List PrintedItem := S.runs.flatMap net.runItems

variable {net} {S : SymbolSet} {r : Run} {c : Symbol}

theorem hasNamed_eq_false_iff :
    net.hasNamed r = false ↔ ∀ c : Symbol, c.code ∈ r → net.symbolName c = none := by
  simp only [hasNamed, List.any_eq_false, List.mem_map, Run.mem_codes, Option.not_isSome_iff_eq_none]
  constructor
  · intro h c hc
    exact h c ⟨c.code, hc, rfl⟩
  · rintro h _ ⟨code, hcode, rfl⟩
    exact h ⟨code⟩ hcode

theorem prettySymbol_of_unnamed
    (h : net.symbolName c = none) :
    net.prettySymbol c = c.text := by
  simp [prettySymbol, h]

theorem prettyRun_of_unnamed
    (h : net.hasNamed r = false) :
    net.prettyRun r = [SymbolSet.runText r] := by
  unfold hasNamed at h
  simp [prettyRun, h]

/-- What is printed for a run is the texts of its items. -/
theorem prettyRun_eq_map_itemText (r : Run) :
    net.prettyRun r = (net.runItems r).map net.itemText := by
  by_cases hnamed : net.hasNamed r = true
  · rw [runItems, if_pos (Or.inl hnamed), List.map_map]
    unfold hasNamed at hnamed
    simp only [prettyRun, hnamed, if_true]
    rfl
  · have hunnamed : net.hasNamed r = false := by simpa using hnamed
    rw [prettyRun_of_unnamed hunnamed, SymbolSet.runText]
    by_cases hsingle : r.lo = r.hi
    · have hlo : net.symbolName ⟨r.lo⟩ = none :=
        hasNamed_eq_false_iff.mp hunnamed ⟨r.lo⟩ ⟨Int.le_refl _, Int.le_of_eq hsingle⟩
      rw [runItems, if_pos (Or.inr hsingle), if_pos hsingle, Run.codes_of_lo_eq_hi hsingle]
      simp [itemText, prettySymbol_of_unnamed hlo]
    · rw [runItems, if_neg (not_or.mpr ⟨hnamed, hsingle⟩), if_neg hsingle]
      rfl

/-- A printed set is the texts of its items between braces. -/
theorem prettySet_eq_intercalate (S : SymbolSet) :
    net.prettySet S =
      "\x7b" ++ ", ".intercalate ((net.setItems S).map net.itemText) ++ "\x7d" := by
  have hruns : S.runs.flatMap net.prettyRun = (net.setItems S).map net.itemText := by
    simp only [setItems, List.map_flatMap, ← prettyRun_eq_map_itemText]
  rw [prettySet, hruns]

theorem flatMap_symbols_runItems (r : Run) :
    (net.runItems r).flatMap PrintedItem.symbols = r.codes.map Symbol.mk := by
  unfold runItems
  split
  · simp [PrintedItem.symbols, List.flatMap_map, ← List.map_eq_flatMap]
  · simp [PrintedItem.symbols]

variable (net S) in
/-- The items stand for the members, in their order. -/
theorem flatMap_symbols_setItems :
    (net.setItems S).flatMap PrintedItem.symbols = S.toList := by
  simp only [setItems, List.flatMap_assoc, flatMap_symbols_runItems, SymbolSet.toList]

/-- A run that is printed has several symbols, and none of them has a name. -/
theorem symbolName_of_run_mem
    (h : .run r ∈ net.setItems S) :
    r.lo < r.hi ∧ ∀ c : Symbol, c.code ∈ r → net.symbolName c = none := by
  obtain ⟨r', hr', hmem⟩ := List.mem_flatMap.mp h
  unfold runItems at hmem
  split at hmem
  · simp at hmem
  · next hcond =>
    obtain ⟨hnamed, hends⟩ := not_or.mp hcond
    cases List.mem_singleton.mp hmem
    have hle : r.lo ≤ r.hi := S.canonical.nonempty r hr'
    exact ⟨by omega, hasNamed_eq_false_iff.mp (by simpa using hnamed)⟩

/-- A member with a name is printed by itself. -/
theorem symbol_mem_setItems
    {name : String}
    (hc : c ∈ S)
    (hname : net.symbolName c = some name) :
    .symbol c ∈ net.setItems S := by
  rw [← SymbolSet.mem_toList, ← flatMap_symbols_setItems net] at hc
  obtain ⟨item, hitem, hmem⟩ := List.mem_flatMap.mp hc
  cases item with
  | symbol d => exact List.mem_singleton.mp hmem ▸ hitem
  | run r =>
      obtain ⟨code, hcode, rfl⟩ := List.mem_map.mp hmem
      have hnone := (symbolName_of_run_mem hitem).2 ⟨code⟩ (Run.mem_codes.mp hcode)
      rw [hnone] at hname
      cases hname

/-- Without names, a set is printed as it is written. -/
theorem prettySet_of_unnamed
    (h : ∀ c ∈ S, net.symbolName c = none) :
    net.prettySet S = S.text := by
  have hrun : ∀ r ∈ S.runs, net.prettyRun r = [SymbolSet.runText r] := fun r hr =>
    prettyRun_of_unnamed (hasNamed_eq_false_iff.mpr fun c hc => h c ⟨r, hr, hc⟩)
  rw [prettySet, List.flatMap_congr hrun, ← List.map_eq_flatMap, SymbolSet.text]

/-- **Printing a set loses and repeats nothing.**  What a network prints for a set is a list of items
between braces.  The items are in ascending order.  Together they stand for each member of the set
once and for nothing else.  A run among them has several symbols, none of which has a name; a member
with a name is an item of its own, written by its name.  Without names for the members, what is
printed is the text of the set. -/
theorem prettySet_items (net : Network) (S : SymbolSet) :
    net.prettySet S =
      "\x7b" ++ ", ".intercalate ((net.setItems S).map net.itemText) ++ "\x7d" ∧
    (net.setItems S).Pairwise (fun x y =>
      ∀ c ∈ x.symbols, ∀ d ∈ y.symbols, c.code < d.code) ∧
    (∀ c, ((net.setItems S).flatMap PrintedItem.symbols).count c = if c ∈ S then 1 else 0) ∧
    (∀ r, .run r ∈ net.setItems S →
      r.lo < r.hi ∧ ∀ c : Symbol, c.code ∈ r → net.symbolName c = none) ∧
    (∀ c ∈ S, ∀ name, net.symbolName c = some name →
      .symbol c ∈ net.setItems S ∧ net.itemText (.symbol c) = name) ∧
    ((∀ c ∈ S, net.symbolName c = none) → net.prettySet S = S.text) := by
  have hascending := S.ascending_toList
  rw [← flatMap_symbols_setItems net] at hascending
  refine ⟨prettySet_eq_intercalate S, (List.pairwise_flatMap.mp hascending).2, ?_,
    fun r => symbolName_of_run_mem, ?_, prettySet_of_unnamed⟩
  · intro c
    rw [flatMap_symbols_setItems, S.nodup_toList.count]
    simp
  · intro c hc name hname
    exact ⟨symbol_mem_setItems hc hname, by simp [itemText, prettySymbol, hname]⟩

end Network
end RuleNetwork
