import Mathlib.Tactic.SplitIfs
import Std.Data.String.ToInt
import RuleNetwork.Symbol.Set

/-!
# Reading the text of a set of symbols

The text of a set lists its runs between braces.  A run of one symbol is written by that symbol,
a longer one by its ends with two dots between them.  A marker is written by its name wherever it
stands, also as an end of a run.

To read such a text is to take it apart at the commas, to take each item apart at its dots, and to
read the names of the markers and the numbers.  Nothing that is written for a symbol holds a comma,
a dot or a blank, so what is taken apart is what was put together.

**Results.**
* `Symbol.ofText?_text`: the text of a symbol is read back.
* `Run.ofItem?_runText`: so is the text of a run.
* `items_intercalate`: a list of items is taken apart where it was put together.
-/

namespace RuleNetwork

/-- The symbol that is written so: a marker by its name, any other by its code. -/
def Symbol.ofText? (t : String) : Option Symbol :=
  if t = "<epsilon>" then some epsilon
  else if t = "<eof>" then some endOfInput
  else if t = "<pred>" then some predicate
  else t.toInt?.map Symbol.mk

/-- The run that is written so: a symbol, or two ends with two dots between them. -/
def Run.ofItem? (item : List Char) : Option Run :=
  match item.splitOn '.' with
  | [c] => do
      let c ← Symbol.ofText? (.ofList c)
      return ⟨c.code, c.code⟩
  | [lo, [], hi] => do
      let lo ← Symbol.ofText? (.ofList lo)
      let hi ← Symbol.ofText? (.ofList hi)
      return ⟨lo.code, hi.code⟩
  | _ => none

/-- The items between the commas, without the blanks before them. -/
def items (body : List Char) : List (List Char) :=
  if body = [] then [] else (body.splitOn ',').map (List.dropWhile (· == ' '))

/-- The symbols that a text between braces lists, one after the other. -/
def SymbolSet.membersOfText? (t : String) : Option (List Symbol) :=
  match t.toList with
  | '\x7b' :: rest =>
      if rest.getLast? = some '\x7d' then do
        let runs ← (items rest.dropLast).mapM Run.ofItem?
        return runs.flatMap fun r => r.codes.map Symbol.mk
      else none
  | _ => none

section Symbols

/-- A number is written with digits and a sign. -/
theorem isDigit_or_eq_minus_of_mem_toString
    {n : Int} {ch : Char}
    (h : ch ∈ (toString n).toList) :
    ch.isDigit = true ∨ ch = '-' := by
  have hdigit : ∀ m : Nat, ch ∈ m.repr.toList → ch.isDigit = true := by
    intro m hm
    rw [Nat.toList_repr] at hm
    exact Nat.isDigit_of_mem_toDigits (by decide) (by decide) hm
  cases n with
  | ofNat m => exact Or.inl (hdigit m h)
  | negSucc m =>
      change ch ∈ ("-" ++ m.succ.repr).toList at h
      rw [String.toList_append, List.mem_append] at h
      rcases h with h | h
      · exact Or.inr (by simpa using h)
      · exact Or.inl (hdigit _ h)

/-- A number is not written like a name in angle brackets. -/
theorem toString_ne_of_mem
    {t : String}
    (n : Int)
    (ht : '<' ∈ t.toList) :
    toString n ≠ t := by
  rintro rfl
  rcases isDigit_or_eq_minus_of_mem_toString ht with h | h
  · cases h
  · cases h

theorem Symbol.ofText?_text (c : Symbol) : ofText? c.text = some c := by
  unfold text
  split_ifs with hepsilon hend hpredicate
  · exact congrArg some hepsilon.symm
  · exact congrArg some hend.symm
  · exact congrArg some hpredicate.symm
  · unfold ofText?
    rw [if_neg (toString_ne_of_mem _ (by decide)), if_neg (toString_ne_of_mem _ (by decide)),
      if_neg (toString_ne_of_mem _ (by decide))]
    change Option.map Symbol.mk c.code.repr.toInt? = some c
    rw [Int.toInt?_repr]
    rfl

/-- The characters that keep symbols apart. -/
def Separates (ch : Char) : Prop := ch = ',' ∨ ch = '.' ∨ ch = ' '

/-- What is written for a symbol holds nothing that keeps symbols apart. -/
theorem Symbol.not_separates
    {c : Symbol} {ch : Char}
    (h : ch ∈ c.text.toList) :
    ¬ Separates ch := by
  have hnames : ∀ t ∈ ["<epsilon>", "<eof>", "<pred>"], ∀ ch ∈ t.toList, ¬ Separates ch := by
    simp [Separates]
  unfold text at h
  split_ifs at h
  · exact hnames _ (by simp) ch h
  · exact hnames _ (by simp) ch h
  · exact hnames _ (by simp) ch h
  · rintro (rfl | rfl | rfl)
    all_goals
      rcases isDigit_or_eq_minus_of_mem_toString h with h | h
      · cases h
      · cases h

theorem Symbol.text_ne_nil (c : Symbol) : c.text.toList ≠ [] := by
  unfold text
  split_ifs
  · decide
  · decide
  · decide
  · cases c.code with
    | ofNat m => exact fun h => Nat.repr_ne_empty (String.toList_eq_nil_iff.mp h)
    | negSucc m =>
        change ("-" ++ m.succ.repr).toList ≠ []
        simp

end Symbols

section Runs

/-- The text of a run is that of its symbol, or it is put together from its ends. -/
theorem toList_runText (r : Run) :
    (SymbolSet.runText r).toList =
      ['.'].intercalate
        (if r.lo = r.hi then [(Symbol.mk r.lo).text.toList]
        else [(Symbol.mk r.lo).text.toList, [], (Symbol.mk r.hi).text.toList]) := by
  unfold SymbolSet.runText
  split
  · simp
  · simp [List.intercalate]

theorem Run.ofItem?_runText (r : Run) : ofItem? (SymbolSet.runText r).toList = some r := by
  have hdot : ∀ c : Symbol, '.' ∉ c.text.toList :=
    fun c h => Symbol.not_separates h (Or.inr (Or.inl rfl))
  unfold ofItem?
  rw [toList_runText]
  split_ifs with hsame
  · rw [List.splitOn_intercalate _ (by simp [hdot]) (List.cons_ne_nil _ _)]
    obtain ⟨lo, hi⟩ := r
    cases hsame
    simp [Symbol.ofText?_text]
  · rw [List.splitOn_intercalate _ (by simp [hdot]) (List.cons_ne_nil _ _)]
    simp [Symbol.ofText?_text]

/-- An item that can be found again in a list: it holds no comma, and no blank. -/
structure IsItem (item : List Char) : Prop where
  nonempty : item ≠ []
  comma : ',' ∉ item
  blank : ' ' ∉ item

theorem isItem_runText (r : Run) : IsItem (SymbolSet.runText r).toList := by
  have hcomma : ∀ c : Symbol, ',' ∉ c.text.toList :=
    fun c h => Symbol.not_separates h (Or.inl rfl)
  have hblank : ∀ c : Symbol, ' ' ∉ c.text.toList :=
    fun c h => Symbol.not_separates h (Or.inr (Or.inr rfl))
  unfold SymbolSet.runText
  split
  · exact ⟨Symbol.text_ne_nil _, hcomma _, hblank _⟩
  · constructor
    · simp
    · simp [hcomma]
    · simp [hblank]

end Runs

section Items

variable {xs : List (List Char)}

/-- Between items that are parted by commas and blanks, a blank may be counted to the next item. -/
theorem intercalate_comma_blank
    (x : List Char) (xs : List (List Char)) :
    [',', ' '].intercalate (x :: xs) = [','].intercalate (x :: xs.map (' ' :: ·)) := by
  induction xs generalizing x with
  | nil => simp
  | cons y ys ih =>
      rw [List.intercalate_cons_cons, ih, List.map_cons, List.intercalate_cons_cons]
      cases ys with
      | nil => simp
      | cons z zs => simp [List.intercalate_cons_cons]

theorem IsItem.dropWhile_blank
    {x : List Char}
    (h : IsItem x) :
    x.dropWhile (· == ' ') = x := by
  cases x with
  | nil => rfl
  | cons ch rest =>
      have hne : ch ≠ ' ' := fun he => h.blank (he ▸ List.mem_cons_self ..)
      simp [hne]

/-- A list of items is taken apart where it was put together. -/
theorem items_intercalate
    (h : ∀ x ∈ xs, IsItem x) :
    items ([',', ' '].intercalate xs) = xs := by
  cases xs with
  | nil => rfl
  | cons x xs =>
      obtain ⟨hx, hxs⟩ := List.forall_mem_cons.mp h
      have hne : [','].intercalate (x :: xs.map (' ' :: ·)) ≠ [] := by
        cases xs <;> simp [List.intercalate_cons_cons, hx.nonempty]
      have hcomma : ∀ item ∈ x :: xs.map (' ' :: ·), ',' ∉ item := by
        simpa [hx.comma] using fun item hitem => (hxs item hitem).comma
      have hblank : xs.map (List.dropWhile (· == ' ') ∘ (' ' :: ·)) = xs := by
        refine (List.map_congr_left fun item hitem => ?_).trans (List.map_id xs)
        simpa using (hxs item hitem).dropWhile_blank
      unfold items
      rw [intercalate_comma_blank, if_neg hne,
        List.splitOn_intercalate _ hcomma (List.cons_ne_nil _ _), List.map_cons, List.map_map,
        hx.dropWhile_blank, hblank]

/-- Items that are read back one by one are read back together. -/
theorem mapM_map_eq_some
    {α β : Type} {f : α → β} {g : β → Option α}
    (h : ∀ a, g (f a) = some a)
    (as : List α) :
    (as.map f).mapM g = some as := by
  induction as with
  | nil => rfl
  | cons a as ih => simp [h, ih]

end Items

namespace SymbolSet

/-- The text of a set is its items between braces. -/
theorem toList_text (S : SymbolSet) :
    S.text.toList =
      '\x7b' :: ([',', ' '].intercalate (S.runs.map fun r => (runText r).toList) ++ ['\x7d']) := by
  unfold text
  simp [String.toList_intercalate, Function.comp_def]

theorem membersOfText?_text (S : SymbolSet) : membersOfText? S.text = some S.toList := by
  have hitems : ∀ x ∈ S.runs.map fun r => (runText r).toList, IsItem x :=
    List.forall_mem_map.mpr fun r _ => isItem_runText r
  have hruns : (S.runs.map fun r => (runText r).toList).mapM Run.ofItem? = some S.runs :=
    mapM_map_eq_some Run.ofItem?_runText S.runs
  simp [membersOfText?, toList_text, items_intercalate hitems, hruns, toList]

/-- **The text of a set identifies it.**  Sets are the same just if their texts are.  What is
written for a set, read back run by run, lists its members in their order. -/
theorem text_eq_iff (S T : SymbolSet) :
    (S.text = T.text ↔ S = T) ∧
    membersOfText? S.text = some S.toList ∧ ∀ c, c ∈ S.toList ↔ c ∈ S := by
  refine ⟨⟨?_, congrArg text⟩, S.membersOfText?_text, fun c => mem_toList⟩
  intro h
  have hlist : S.toList = T.toList := by
    have hread := S.membersOfText?_text
    rw [h, T.membersOfText?_text] at hread
    exact (Option.some.inj hread).symm
  ext c
  rw [← mem_toList, hlist, mem_toList]

end SymbolSet
end RuleNetwork
