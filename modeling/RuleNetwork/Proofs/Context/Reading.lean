import RuleNetwork.Proofs.Context.Chains

/-!
# Reading the text of a context

The text of a context lists its return points between brackets.  A point is written by its state
and, behind a blank, the text of its parent, which may be a list again.  A bottom point is written
without its parent.

A text is read from the left to the right, one character after the other.  Lists may be open one
inside the other, and the reader remembers of each of them the points that it has read and the
state whose parent it is about to read.  What it expects next is told by the innermost list alone,
so that the text of a context is read in the same way wherever it stands.

The parent of a bottom point cannot be read.  In normal form it is `noCaller`, and there is no
list without points.

**Results.**
* `Reader.read_number`: the number of a state is read up to the blank behind it.
* `Reader.read_points`: points that are read one by one are read together.
* `Throughout.read_text`: the text of a context in normal form is read to its end, inside any lists.
* `text_identifies`: a text belongs to one context, which can be read from it.
-/

namespace RuleNetwork
namespace Context

/-- A list that is open while the parent of one of its points is read: the points before this one,
the last of them first, and the number of its state. -/
structure OpenList where
  points : List (StateId × Context)
  number : Nat

/-- What is expected next of a text.  The points that have been read of a list stand with the last
one first, and so do the lists that are open around it, with the innermost one first. -/
inductive Reader
  | context (around : List OpenList)
  | point (points : List (StateId × Context)) (around : List OpenList)
  | number (n : Nat) (points : List (StateId × Context)) (around : List OpenList)
  | pointEnd (points : List (StateId × Context)) (around : List OpenList)
  | blank (points : List (StateId × Context)) (around : List OpenList)
  | textEnd (c : Context)
  | refused

namespace Reader

/-- A context has been read: it is the parent of a point, or the whole text. -/
def deliver (c : Context) : List OpenList → Reader
  | [] => textEnd c
  | list :: around => pointEnd ((.state list.number, c) :: list.points) around

/-- Reads one character. -/
def step : Reader → Char → Reader
  | context around, '*' => deliver .anyCaller around
  | context around, '$' => deliver .noCaller around
  | context around, '[' => point [] around
  | point points around, '$' => pointEnd ((.bottom, .noCaller) :: points) around
  | point points around, 's' => number 0 points around
  | number n points around, ' ' => context (⟨points, n⟩ :: around)
  | number n points around, ch =>
      if ch.isDigit then number (10 * n + (ch.toNat - '0'.toNat)) points around else refused
  | pointEnd points around, ',' => blank points around
  | pointEnd points around, ']' => deliver (returns (.ofList points.reverse)) around
  | blank points around, ' ' => point points around
  | _, _ => refused

/-- Reads some characters one after the other. -/
def read (r : Reader) (chars : List Char) : Reader := chars.foldl step r

@[simp] theorem read_nil (r : Reader) : r.read [] = r := rfl

@[simp] theorem read_cons (r : Reader) (ch : Char) (chars : List Char) :
    r.read (ch :: chars) = (r.step ch).read chars := rfl

@[simp] theorem read_append (r : Reader) (xs ys : List Char) :
    r.read (xs ++ ys) = (r.read xs).read ys :=
  List.foldl_append

end Reader

/-- The context that is written so. -/
def ofText? (t : String) : Option Context :=
  match (Reader.context []).read t.toList with
  | .textEnd c => some c
  | _ => none

/-- The written form of a return point. -/
def pointText (point : StateId × Context) : String :=
  if point.1 = .bottom then "$" else point.1.text ++ " " ++ point.2.text

theorem pointTexts_eq : (points : ReturnPoints) →
    pointTexts points = points.toList.map pointText
  | .nil => by simp [pointTexts]
  | .cons s p points => by simp [pointTexts, pointText, pointTexts_eq points]

theorem toList_text_returns (points : ReturnPoints) :
    (returns points).text.toList =
      '[' :: ([',', ' '].intercalate (points.toList.map fun e => (pointText e).toList) ++ [']']) := by
  simp [text, pointTexts_eq, String.toList_intercalate, Function.comp_def]

namespace Reader

variable {s : StateId} {p c : Context} {points rest : List (StateId × Context)}
  {around : List OpenList}

/-- Digits are added to the number before them. -/
theorem read_digits
    {digits : List Char}
    (h : ∀ ch ∈ digits, ch.isDigit = true)
    (m : Nat) :
    (number m points around).read digits =
      number (Nat.ofDigitChars 10 digits m) points around := by
  induction digits generalizing m with
  | nil => rfl
  | cons ch digits ih =>
      obtain ⟨hch, hdigits⟩ := List.forall_mem_cons.mp h
      have hstep : (number m points around).step ch =
          number (10 * m + (ch.toNat - '0'.toNat)) points around := by
        have hblank : ch ≠ ' ' := by
          rintro rfl
          cases hch
        simp [step, hch]
      rw [read_cons, hstep, ih hdigits, Nat.ofDigitChars_cons]

/-- The number of a state is read back from its digits. -/
theorem read_number (n : Nat) :
    (number 0 points around).read n.repr.toList = number n points around := by
  rw [Nat.toList_repr, read_digits fun _ => Nat.isDigit_of_mem_toDigits (by decide) (by decide),
    Nat.ofDigitChars_ten_toDigits]

/-- A point is read back if its parent is, wherever it stands. -/
theorem read_pointText
    (hparent : ∀ around, (context around).read p.text.toList = deliver p around)
    (hbottom : s = .bottom → p = .noCaller) :
    (point points around).read (pointText (s, p)).toList = pointEnd ((s, p) :: points) around := by
  cases s with
  | bottom =>
      rw [hbottom rfl]
      rfl
  | state n =>
      have htext : (pointText (.state n, p)).toList =
          's' :: (n.repr.toList ++ ' ' :: p.text.toList) := by
        have hs : (toString "s").toList = ['s'] := rfl
        simp [pointText, StateId.text, StateId.index, hs]
      rw [htext, read_cons, read_append]
      change ((number 0 points around).read _).read _ = _
      rw [read_number, read_cons]
      exact hparent _

/-- Points that are read one by one are read together, up to the end of the last one. -/
theorem read_points
    (hne : rest ≠ [])
    (h : ∀ e ∈ rest, ∀ points,
      (point points around).read (pointText e).toList = pointEnd (e :: points) around)
    (points : List (StateId × Context)) :
    (point points around).read
        ([',', ' '].intercalate (rest.map fun e => (pointText e).toList)) =
      pointEnd (rest.reverse ++ points) around := by
  induction rest generalizing points with
  | nil => exact absurd rfl hne
  | cons e rest ih =>
      obtain ⟨he, hrest⟩ := List.forall_mem_cons.mp h
      cases rest with
      | nil => simpa using he points
      | cons e' rest =>
          have hcomma : ((pointEnd (e :: points) around).step ',').step ' ' =
              point (e :: points) around := rfl
          have hrest := ih (List.cons_ne_nil _ _) hrest (e :: points)
          rw [List.map_cons] at hrest
          rw [List.map_cons, List.map_cons, List.intercalate_cons_cons, read_append, read_append,
            he, read_cons, read_cons, read_nil, hcomma, hrest, List.reverse_cons (a := e),
            List.append_assoc]
          rfl

end Reader

section Normal

variable {a b c : Context}

/-- **The text of a context in normal form is read to its end**, whatever lists are open around
it. -/
theorem Throughout.read_text
    (h : c.Throughout Normal)
    (around : List OpenList) :
    (Reader.context around).read c.text.toList = Reader.deliver c around := by
  induction h generalizing around with
  | anyCaller => simp [text, Reader.step]
  | noCaller => simp [text, Reader.step]
  | @returns points hpoints _ ih =>
      have heach : ∀ e ∈ points.toList, ∀ before,
          (Reader.point before around).read (pointText e).toList =
            Reader.pointEnd (e :: before) around := by
        rintro ⟨s, p⟩ hmem before
        refine Reader.read_pointText (ih s p hmem) ?_
        rintro rfl
        exact hpoints.bottom_parent p hmem
      have hopen : (Reader.context around).step '[' = Reader.point [] around := rfl
      have hclose : (Reader.pointEnd points.toList.reverse around).step ']' =
          Reader.deliver (.returns points) around := by
        simp [Reader.step]
      rw [toList_text_returns, Reader.read_cons, hopen, Reader.read_append,
        Reader.read_points hpoints.nonempty heach, List.append_nil, Reader.read_cons, hclose,
        Reader.read_nil]

theorem Throughout.ofText?_text
    (h : c.Throughout Normal) :
    ofText? c.text = some c := by
  unfold ofText?
  rw [h.read_text]
  rfl

/-- **The text of a context identifies it.**  For contexts that pushes and merges make of the two
leaves, without a push of the bottom, equal texts belong to equal contexts; and the context is read
back from its text. -/
theorem text_identifies
    (ha : a.Composed IsLeaf (· ≠ .bottom))
    (hb : b.Composed IsLeaf (· ≠ .bottom)) :
    (a.text = b.text ↔ a = b) ∧ ofText? a.text = some a := by
  have hreada := (ha.normal fun _ => id).ofText?_text
  have hreadb := (hb.normal fun _ => id).ofText?_text
  refine ⟨⟨fun h => ?_, congrArg text⟩, hreada⟩
  rw [h, hreadb] at hreada
  exact (Option.some.inj hreada).symm

theorem text_identifies_term :
    (termOfStatement.merge termOfExpression).Composed IsLeaf (· ≠ .bottom) ∧
    termOfAny.Composed IsLeaf (· ≠ .bottom) ∧
    (termOfStatement.merge termOfExpression).text = "[s21 [s9 $, s17 $, $]]" ∧
    ((termOfStatement.merge termOfExpression).text = termOfAny.text ↔
      termOfStatement.merge termOfExpression = termOfAny) ∧
    ofText? (termOfStatement.merge termOfExpression).text =
      some (termOfStatement.merge termOfExpression) := by
  have hstatement : termOfStatement.Composed IsLeaf (· ≠ .bottom) :=
    .push (.push (.leaf (Or.inr rfl)) nofun) nofun
  have hexpression : termOfExpression.Composed IsLeaf (· ≠ .bottom) :=
    .push (.merge (.leaf (Or.inr rfl)) (.push (.leaf (Or.inr rfl)) nofun)) nofun
  have hany : termOfAny.Composed IsLeaf (· ≠ .bottom) :=
    .push (.leaf (Or.inl rfl)) nofun
  exact ⟨hstatement.merge hexpression, hany, by decide +kernel,
    text_identifies (hstatement.merge hexpression) hany⟩

/-- A push of the bottom is written without its caller, which cannot be read back. -/
example : (Context.anyCaller.push .bottom).text = (Context.noCaller.push .bottom).text := rfl

end Normal

end Context
end RuleNetwork
