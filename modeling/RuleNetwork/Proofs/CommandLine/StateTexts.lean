import Mathlib.Data.List.Forall2
import Mathlib.Data.List.TakeWhile
import Mathlib.Data.Nat.Digits.Defs
import RuleNetwork.CommandLine.StateArgument

/-!
# Texts that name states

On the command line a state is named by letters `s`, an optional plus sign and decimal digits,
whose value is a number below the number of states.  There may be any number of letters and of
digits, leading zeros among them.

**Bounded numbers.**  A reader whose numbers cannot be larger than a limit has to refuse a text as
soon as the digits read so far, together with the next one, pass the limit.  It never refuses a
number within the limit, and never takes a larger number for another one.  As long as all states
are numbered within the limit, it names the same states.

**Results.**
* `readState_eq_some_iff`: which texts name which states.
* `readStateWithin_eq`: a limit on the numbers makes no difference.
* `forall₂_of_readStates_eq_ok`, `first_of_readStates_eq_error`: several texts name their states one
  by one, or the first of them that names none is found.
-/

namespace RuleNetwork
namespace CommandLine

/-- The value of a decimal digit. -/
def digitValue (digit : Char) : Nat := digit.toNat - '0'.toNat

/-- A number with a further digit at its end. -/
def appendDigit (n : Nat) (digit : Char) : Nat := 10 * n + digitValue digit

/-- The number with the given decimal digits, of which the last one counts ones. -/
def decimalValue (digits : List Char) : Nat := Nat.ofDigits 10 (digits.reverse.map digitValue)

/-- Letters `s`, an optional plus sign, and decimal digits of the given value. -/
def IsStateText (text : String) (n : Nat) : Prop :=
  ∃ (letters : Nat) (sign digits : List Char),
    text.toList = List.replicate letters 's' ++ (sign ++ digits) ∧
    (sign = [] ∨ sign = ['+']) ∧
    digits ≠ [] ∧
    (∀ digit ∈ digits, digit.isDigit = true) ∧
    decimalValue digits = n

/-- The text is that of a number below the number of states. -/
def NamesState (net : Network) (text : String) : Prop :=
  ∃ n, IsStateText text n ∧ n < net.states.length

section Digits

variable {digits : List Char} {n : Nat}

/-- A number is read from the left. -/
theorem foldl_appendDigit (digits : List Char) :
    digits.foldl appendDigit 0 = decimalValue digits := by
  unfold decimalValue
  rw [Nat.ofDigits_eq_foldr, List.foldr_map, List.foldr_reverse]
  refine congrArg (digits.foldl · 0) ?_
  funext n digit
  simp [appendDigit, Nat.add_comm]

theorem readDigits_of_isDigit
    (hne : digits ≠ [])
    (h : ∀ digit ∈ digits, digit.isDigit = true) :
    readDigits digits = some (decimalValue digits) := by
  obtain ⟨digit, digits, rfl⟩ := List.exists_cons_of_ne_nil hne
  rw [← foldl_appendDigit]
  exact if_pos (List.all_eq_true.mpr h)

theorem readDigits_of_not_isDigit
    (h : ¬ ∀ digit ∈ digits, digit.isDigit = true) :
    readDigits digits = none := by
  cases digits with
  | nil => rfl
  | cons digit digits => exact if_neg fun hall => h (List.all_eq_true.mp hall)

theorem readDigits_eq_some_iff :
    readDigits digits = some n ↔
      digits ≠ [] ∧ (∀ digit ∈ digits, digit.isDigit = true) ∧ decimalValue digits = n := by
  by_cases hne : digits = []
  · simp [hne, readDigits]
  · by_cases h : ∀ digit ∈ digits, digit.isDigit = true
    · rw [readDigits_of_isDigit hne h, Option.some_inj]
      exact ⟨fun hn => ⟨hne, h, hn⟩, fun hn => hn.2.2⟩
    · rw [readDigits_of_not_isDigit h]
      simp [h]

theorem readNumber_of_ne_plus
    (h : ∀ rest, digits ≠ '+' :: rest) :
    readNumber digits = readDigits digits := by
  unfold readNumber
  split
  · next rest => exact absurd rfl (h rest)
  · rfl

/-- A plus sign is not a digit. -/
theorem ne_plus_of_isDigit
    (h : ∀ digit ∈ digits, digit.isDigit = true)
    (rest : List Char) :
    digits ≠ '+' :: rest := by
  rintro rfl
  have hplus := h '+' (List.mem_cons_self ..)
  simp [Char.isDigit] at hplus

theorem readNumber_eq_some_iff
    {text : List Char} :
    readNumber text = some n ↔
      ∃ sign digits, text = sign ++ digits ∧ (sign = [] ∨ sign = ['+']) ∧
        digits ≠ [] ∧ (∀ digit ∈ digits, digit.isDigit = true) ∧ decimalValue digits = n := by
  constructor
  · intro h
    unfold readNumber at h
    split at h
    · next digits => exact ⟨['+'], digits, rfl, Or.inr rfl, readDigits_eq_some_iff.mp h⟩
    · exact ⟨[], text, rfl, Or.inl rfl, readDigits_eq_some_iff.mp h⟩
  · rintro ⟨sign, digits, rfl, rfl | rfl, hdigits⟩
    · rw [List.nil_append, readNumber_of_ne_plus (ne_plus_of_isDigit hdigits.2.1)]
      exact readDigits_eq_some_iff.mpr hdigits
    · exact readDigits_eq_some_iff.mpr hdigits

end Digits

section States

variable {net : Network} {text : String} {n : Nat}

/-- Neither a plus sign nor a digit is a letter `s`. -/
theorem dropWhile_letters
    {letters : Nat} {sign digits : List Char}
    (hsign : sign = [] ∨ sign = ['+'])
    (hne : digits ≠ [])
    (hdigits : ∀ digit ∈ digits, digit.isDigit = true) :
    (List.replicate letters 's' ++ (sign ++ digits)).dropWhile (· = 's') = sign ++ digits := by
  rw [List.dropWhile_append_of_pos (by simp)]
  obtain ⟨digit, digits, rfl⟩ := List.exists_cons_of_ne_nil hne
  have hdigit : digit ≠ 's' := by
    rintro rfl
    have hs := hdigits 's' (List.mem_cons_self ..)
    simp [Char.isDigit] at hs
  rcases hsign with rfl | rfl
  · exact List.dropWhile_cons_of_neg (by simpa using hdigit)
  · exact List.dropWhile_cons_of_neg (by simp)

/-- The text behind its letters `s` is a number just if the text is a state's. -/
theorem readNumber_dropWhile_eq_some_iff :
    readNumber (text.toList.dropWhile (· = 's')) = some n ↔ IsStateText text n := by
  constructor
  · intro h
    obtain ⟨sign, digits, hrest, hnumber⟩ := readNumber_eq_some_iff.mp h
    have hletters : text.toList.takeWhile (· = 's') =
        List.replicate (text.toList.takeWhile (· = 's')).length 's' := by
      refine List.eq_replicate_of_mem fun c hc => ?_
      simpa using List.mem_takeWhile_imp hc
    refine ⟨(text.toList.takeWhile (· = 's')).length, sign, digits, ?_, hnumber⟩
    rw [← hrest, ← hletters, List.takeWhile_append_dropWhile]
  · rintro ⟨letters, sign, digits, htext, hsign, hne, hdigits, hvalue⟩
    rw [htext, dropWhile_letters hsign hne hdigits]
    exact readNumber_eq_some_iff.mpr ⟨sign, digits, rfl, hsign, hne, hdigits, hvalue⟩

/-- A text names a state just if it is that of its number. -/
theorem readState_eq_some_iff
    {s : StateId} :
    readState net text = some s ↔
      ∃ n, IsStateText text n ∧ n < net.states.length ∧ s = .state n := by
  unfold readState
  constructor
  · intro h
    split at h
    · next n hn =>
      split at h
      · next hlt =>
        cases h
        exact ⟨n, readNumber_dropWhile_eq_some_iff.mp hn, hlt, rfl⟩
      · cases h
    · cases h
  · rintro ⟨n, htext, hlt, rfl⟩
    rw [readNumber_dropWhile_eq_some_iff.mpr htext]
    simp [hlt]

theorem readState_eq_none_iff : readState net text = none ↔ ¬ NamesState net text := by
  rw [Option.eq_none_iff_forall_ne_some]
  constructor
  · rintro h ⟨n, htext, hlt⟩
    exact h (.state n) (readState_eq_some_iff.mpr ⟨n, htext, hlt, rfl⟩)
  · intro h s hs
    obtain ⟨n, htext, hlt, _⟩ := readState_eq_some_iff.mp hs
    exact h ⟨n, htext, hlt⟩

end States

section Limit

/-- Reads a further digit, unless the number becomes larger than the limit. -/
def nextWithin (limit n : Nat) (digit : Char) : Option Nat :=
  if digit.isDigit = true ∧ appendDigit n digit ≤ limit then some (appendDigit n digit) else none

/-- The value of a non-empty text of decimal digits, none of whose beginnings passes the limit. -/
def readDigitsWithin (limit : Nat) : List Char → Option Nat
  | [] => none
  | digits => digits.foldlM (nextWithin limit) 0

/-- The value of a number within the limit, with a plus sign in front or without. -/
def readNumberWithin (limit : Nat) : List Char → Option Nat
  | '+' :: digits => readDigitsWithin limit digits
  | digits => readDigitsWithin limit digits

/-- The state of the network that a text names, read with numbers up to the limit. -/
def readStateWithin (limit : Nat) (net : Network) (text : String) : Option StateId :=
  match readNumberWithin limit (text.toList.dropWhile (· = 's')) with
  | some n => if n < net.states.length then some (.state n) else none
  | none => none

variable {limit : Nat}

/-- The beginnings of a number are not larger than the number. -/
theorem le_foldl_appendDigit (digits : List Char) (n : Nat) :
    n ≤ digits.foldl appendDigit n := by
  induction digits generalizing n with
  | nil => exact Nat.le_refl n
  | cons digit digits ih =>
      have hle : n ≤ appendDigit n digit := by
        unfold appendDigit
        omega
      exact hle.trans (ih _)

theorem foldlM_nextWithin
    {n : Nat}
    (hn : n ≤ limit)
    (digits : List Char) :
    digits.foldlM (nextWithin limit) n =
      if digits.all Char.isDigit = true ∧ digits.foldl appendDigit n ≤ limit then
        some (digits.foldl appendDigit n)
      else none := by
  induction digits generalizing n with
  | nil => simp [hn]
  | cons digit digits ih =>
      rw [List.foldlM_cons, List.foldl_cons]
      have hle := le_foldl_appendDigit digits (appendDigit n digit)
      by_cases hnext : digit.isDigit = true ∧ appendDigit n digit ≤ limit
      · rw [nextWithin, if_pos hnext, Option.bind_eq_bind, Option.bind_some, ih hnext.2]
        simp [hnext.1]
      · rw [nextWithin, if_neg hnext, if_neg]
        · rfl
        · rintro ⟨hdigits, hlimit⟩
          have hdigit : digit.isDigit = true :=
            List.all_eq_true.mp hdigits digit (List.mem_cons_self ..)
          exact hnext ⟨hdigit, hle.trans hlimit⟩

/-- With a limit, just the larger numbers are refused. -/
theorem readDigitsWithin_eq_filter (digits : List Char) :
    readDigitsWithin limit digits = (readDigits digits).filter (· ≤ limit) := by
  by_cases hne : digits = []
  · subst hne
    rfl
  · have hread : readDigitsWithin limit digits = digits.foldlM (nextWithin limit) 0 := by
      unfold readDigitsWithin
      split
      · exact absurd rfl hne
      · rfl
    rw [hread, foldlM_nextWithin (Nat.zero_le limit), foldl_appendDigit]
    by_cases h : ∀ digit ∈ digits, digit.isDigit = true
    · rw [readDigits_of_isDigit hne h]
      simp [Option.filter, and_iff_right h]
    · rw [readDigits_of_not_isDigit h]
      simp [h]

theorem readNumberWithin_eq_filter (text : List Char) :
    readNumberWithin limit text = (readNumber text).filter (· ≤ limit) := by
  unfold readNumberWithin
  split
  · next digits => exact readDigitsWithin_eq_filter digits
  · next hplus =>
    rw [readNumber_of_ne_plus hplus]
    exact readDigitsWithin_eq_filter text

/-- If all states are numbered within the limit, a text names the same state with the limit and
without. -/
theorem readStateWithin_eq
    {net : Network}
    (h : net.states.length ≤ limit)
    (text : String) :
    readStateWithin limit net text = readState net text := by
  unfold readStateWithin readState
  rw [readNumberWithin_eq_filter]
  cases hn : readNumber (text.toList.dropWhile (· = 's')) with
  | none => rfl
  | some n =>
      by_cases hle : n ≤ limit
      · simp [Option.filter, hle]
      · have hlt : ¬ n < net.states.length := by omega
        simp [Option.filter, hle, hlt]

end Limit

section Several

variable {net : Network}

/-- If a list of texts is read, each of them names its state. -/
theorem forall₂_of_readStates_eq_ok
    {texts : List String} {states : List StateId}
    (h : readStates net texts = .ok states) :
    List.Forall₂ (fun text s => readState net text = some s) texts states := by
  induction texts generalizing states with
  | nil =>
      cases h
      exact .nil
  | cons text texts ih =>
      unfold readStates at h
      split at h
      · next s hs =>
        cases hrest : readStates net texts with
        | error first =>
            rw [hrest] at h
            cases h
        | ok rest =>
            rw [hrest] at h
            cases h
            exact .cons hs (ih hrest)
      · cases h

/-- If a list of texts is refused, it is for the first text that names no state. -/
theorem first_of_readStates_eq_error
    {texts : List String} {text : String}
    (h : readStates net texts = .error text) :
    ∃ before after, texts = before ++ text :: after ∧
      (∀ known ∈ before, NamesState net known) ∧ ¬ NamesState net text := by
  induction texts with
  | nil => cases h
  | cons first texts ih =>
      unfold readStates at h
      split at h
      · next s hs =>
        cases hrest : readStates net texts with
        | error refused =>
            rw [hrest] at h
            cases h
            obtain ⟨before, after, rfl, hbefore, htext⟩ := ih hrest
            have hfirst : NamesState net first := by
              obtain ⟨n, hn, hlt, _⟩ := readState_eq_some_iff.mp hs
              exact ⟨n, hn, hlt⟩
            exact ⟨first :: before, after, rfl, List.forall_mem_cons.mpr ⟨hfirst, hbefore⟩, htext⟩
        | ok rest =>
            rw [hrest] at h
            cases h
      · next hnone =>
        cases h
        exact ⟨[], texts, rfl, List.forall_mem_nil _, readState_eq_none_iff.mp hnone⟩

end Several

end CommandLine
end RuleNetwork
