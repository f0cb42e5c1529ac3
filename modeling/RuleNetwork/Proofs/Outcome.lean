import Mathlib.Data.List.Forall2
import RuleNetwork.Traced

/-!
# What every outcome of an operation meets

An operation reports events, and then yields a value or is refused.  `Meets E F V` says of an
operation that all its events meet `E`, that a refusal meets `F`, and that a value meets `V`.

**Results.**
* `Meets.bind`: what an operation meets follows from what its two parts meet.
* `Meets.foldlM`: an invariant that every round keeps is kept by the whole loop.
* `mapM_eq_ok`, `forall₂_of_mapM_eq_ok`: a loop yields the list of the values that its rounds yield.
-/

namespace RuleNetwork

/-- In lists that are related element by element, each element of the one has its counterpart. -/
theorem exists_getElem?_of_forall₂
    {α β : Type} {R : α → β → Prop} {xs : List α} {ys : List β} {n : Nat} {x : α}
    (h : List.Forall₂ R xs ys)
    (hx : xs[n]? = some x) :
    ∃ y, ys[n]? = some y ∧ R x y := by
  induction h generalizing n with
  | nil => cases hx
  | cons hr _ ih =>
      cases n with
      | zero =>
          cases hx
          exact ⟨_, rfl, hr⟩
      | succ n => exact ih hx

theorem exists_mem_of_forall₂
    {α β : Type} {R : α → β → Prop} {xs : List α} {ys : List β} {x : α}
    (h : List.Forall₂ R xs ys)
    (hx : x ∈ xs) :
    ∃ y ∈ ys, R x y := by
  obtain ⟨n, hn⟩ := List.getElem?_of_mem hx
  obtain ⟨y, hy, hr⟩ := exists_getElem?_of_forall₂ h hn
  exact ⟨y, List.mem_of_getElem? hy, hr⟩

namespace Traced

variable {α β : Type}

/-- All events meet `E`, a refusal meets `F`, and a value meets `V`. -/
structure Meets
    (E : Event → Prop) (F : Fault → Prop) (V : α → Prop)
    (x : Traced α) : Prop where
  events : ∀ e, e ∈ x.events → E e
  refusal : ∀ fault, x.result = .error fault → F fault
  value : ∀ a, x.result = .ok a → V a

section Meets

variable {E : Event → Prop} {F : Fault → Prop} {V : α → Prop} {W : β → Prop}

theorem Meets.pure
    {a : α}
    (ha : V a) :
    Meets E F V (pure a) := by
  refine ⟨?_, ?_, ?_⟩
  · intro e he
    exact absurd he List.not_mem_nil
  · intro fault h
    cases h
  · intro b h
    cases h
    exact ha

theorem Meets.report
    {e : Event} {V : Unit → Prop}
    (he : E e) (hv : V ()) :
    Meets E F V (report e) := by
  refine ⟨?_, ?_, ?_⟩
  · intro e' he'
    rw [List.mem_singleton.mp he']
    exact he
  · intro fault h
    cases h
  · intro b h
    exact hv

theorem Meets.quietly
    {result : Except Fault α}
    (hf : ∀ fault, result = .error fault → F fault)
    (hv : ∀ a, result = .ok a → V a) :
    Meets E F V (quietly result) :=
  ⟨fun _ he => absurd he List.not_mem_nil, hf, hv⟩

theorem Meets.mono
    {V' : α → Prop} {x : Traced α}
    (h : Meets E F V x)
    (hv : ∀ a, V a → V' a) :
    Meets E F V' x :=
  ⟨h.events, h.refusal, fun a ha => hv a (h.value a ha)⟩

/-- An operation in sequence meets what its two parts meet. -/
theorem Meets.bind
    {x : Traced α} {f : α → Traced β}
    (hx : Meets E F V x)
    (hf : ∀ a, V a → Meets E F W (f a)) :
    Meets E F W (x >>= f) := by
  cases h : x.result with
  | error fault =>
      rw [bind_of_error h]
      refine ⟨hx.events, ?_, ?_⟩
      · intro fault' h'
        cases h'
        exact hx.refusal fault h
      · intro b h'
        cases h'
  | ok a =>
      have hfa := hf a (hx.value a h)
      refine ⟨?_, ?_, ?_⟩
      · intro e he
        rw [events_bind_of_ok h] at he
        rcases List.mem_append.mp he with he | he
        · exact hx.events e he
        · exact hfa.events e he
      · intro fault h'
        rw [bind_of_ok h] at h'
        exact hfa.refusal fault h'
      · intro b h'
        rw [bind_of_ok h] at h'
        exact hfa.value b h'

/-- An invariant that every round keeps is kept by the loop. -/
theorem Meets.foldlM
    {I : β → Prop} {f : β → α → Traced β} {xs : List α}
    (hf : ∀ x, x ∈ xs → ∀ b, I b → Meets E F I (f b x))
    {b : β} (hb : I b) :
    Meets E F I (xs.foldlM f b) := by
  induction xs generalizing b with
  | nil =>
      exact Meets.pure hb
  | cons x xs ih =>
      rw [List.foldlM_cons]
      refine Meets.bind (hf x (by simp) b hb) ?_
      intro b' hb'
      exact ih (fun y hy => hf y (List.mem_cons_of_mem x hy)) hb'

end Meets

/-- Operations on the elements of a list that all yield values yield them in the same order. -/
theorem mapM_eq_ok
    {f : α → Traced β} {P : α → β → Prop} {xs : List α}
    (h : ∀ x, x ∈ xs → ∃ y, (f x).result = .ok y ∧ P x y) :
    ∃ ys, (xs.mapM f).result = .ok ys ∧
      ∀ (n : Nat) x, xs[n]? = some x → ∃ y, ys[n]? = some y ∧ P x y := by
  induction xs with
  | nil =>
      refine ⟨[], rfl, ?_⟩
      intro n x hx
      cases hx
  | cons x xs ih =>
      obtain ⟨y, hy, hp⟩ := h x (List.mem_cons_self ..)
      obtain ⟨ys, hys, hall⟩ := ih fun x' hx' => h x' (List.mem_cons_of_mem x hx')
      refine ⟨y :: ys, ?_, ?_⟩
      · rw [List.mapM_cons]
        exact result_bind_eq_ok.mpr ⟨y, hy, result_bind_eq_ok.mpr ⟨ys, hys, rfl⟩⟩
      · intro n x' hx'
        cases n with
        | zero =>
            cases hx'
            exact ⟨y, rfl, hp⟩
        | succ n => exact hall n x' hx'

theorem exists_mapM_eq_ok
    {f : α → Traced β} {xs : List α}
    (h : ∀ x ∈ xs, ∃ y, (f x).result = .ok y) :
    ∃ ys, (xs.mapM f).result = .ok ys := by
  have hyields : ∀ x, x ∈ xs → ∃ y, (f x).result = .ok y ∧ True := by
    intro x hx
    obtain ⟨y, hy⟩ := h x hx
    exact ⟨y, hy, trivial⟩
  obtain ⟨ys, hys, _⟩ := mapM_eq_ok hyields
  exact ⟨ys, hys⟩

/-- Operations on the elements of a list that have yielded a list have yielded its elements. -/
theorem forall₂_of_mapM_eq_ok
    {f : α → Traced β} {xs : List α} {ys : List β}
    (h : (xs.mapM f).result = .ok ys) :
    List.Forall₂ (fun x y => (f x).result = .ok y) xs ys := by
  induction xs generalizing ys with
  | nil =>
      cases h
      exact .nil
  | cons first xs ih =>
      rw [List.mapM_cons] at h
      obtain ⟨y, hy, h⟩ := result_bind_eq_ok.mp h
      obtain ⟨rest, hrest, h⟩ := result_bind_eq_ok.mp h
      cases h
      exact .cons hy (ih hrest)

theorem of_mapM_eq_ok
    {f : α → Traced β} {xs : List α} {ys : List β} {n : Nat} {x : α}
    (h : (xs.mapM f).result = .ok ys)
    (hx : xs[n]? = some x) :
    ∃ y, ys[n]? = some y ∧ (f x).result = .ok y :=
  exists_getElem?_of_forall₂ (forall₂_of_mapM_eq_ok h) hx

end Traced
end RuleNetwork
