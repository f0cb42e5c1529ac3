import RuleNetwork.Trace

/-!
# Operations that report events

A traced operation yields a value or is refused, and in both cases has reported some
events before.  Operations are run one after the other: the events are appended, and a
refusal ends the run and keeps the events up to that point.
-/

namespace RuleNetwork

/-- The events of an operation, and its value or the reason why it was refused. -/
structure Traced (α : Type) where
  trace : Trace
  result : Except Fault α

namespace Traced

variable {α β γ : Type}

/-- The events that an operation reports. -/
def events (x : Traced α) : List Event := x.trace.toList

@[ext] theorem ext {x y : Traced α} (he : x.events = y.events) (hr : x.result = y.result) :
    x = y := by
  cases x
  cases y
  cases Trace.ext he
  cases hr
  rfl

/-- A value, without events. -/
protected def pure (a : α) : Traced α := ⟨.empty, .ok a⟩

/-- Goes on with the value of an operation. -/
protected def bind (x : Traced α) (f : α → Traced β) : Traced β :=
  match x.result with
  | .ok a =>
      let y := f a
      ⟨x.trace ++ y.trace, y.result⟩
  | .error fault => ⟨x.trace, .error fault⟩

instance : Monad Traced where
  pure := Traced.pure
  bind := Traced.bind

/-- Reports an event. -/
def report (e : Event) : Traced Unit := ⟨.single e, .ok ()⟩

/-- A refusal. -/
def refuse (fault : Fault) : Traced α := ⟨.empty, .error fault⟩

/-- An operation that reports nothing. -/
def quietly (result : Except Fault α) : Traced α := ⟨.empty, result⟩

theorem bind_of_ok {x : Traced α} {a : α} (h : x.result = .ok a) (f : α → Traced β) :
    x >>= f = ⟨x.trace ++ (f a).trace, (f a).result⟩ := by
  simp [Bind.bind, Traced.bind, h]

theorem bind_of_error {x : Traced α} {fault : Fault} (h : x.result = .error fault)
    (f : α → Traced β) : x >>= f = ⟨x.trace, .error fault⟩ := by
  simp [Bind.bind, Traced.bind, h]

@[simp] theorem events_pure (a : α) : (pure a : Traced α).events = [] := rfl

@[simp] theorem result_pure (a : α) : (pure a : Traced α).result = .ok a := rfl

/-- The events of two operations in sequence. -/
theorem events_bind_of_ok {x : Traced α} {a : α} (h : x.result = .ok a) (f : α → Traced β) :
    (x >>= f).events = x.events ++ (f a).events := by
  rw [bind_of_ok h]
  exact Trace.toList_append _ _

/-- An operation in sequence yields a value just if both of its parts do. -/
theorem result_bind_eq_ok {x : Traced α} {f : α → Traced β} {b : β} :
    (x >>= f).result = .ok b ↔ ∃ a, x.result = .ok a ∧ (f a).result = .ok b := by
  cases h : x.result with
  | ok a => simp [bind_of_ok h]
  | error fault => simp [bind_of_error h]

instance : LawfulMonad Traced := LawfulMonad.mk' Traced
  (by
    intro α x
    change Traced.bind x _ = x
    obtain ⟨trace, result⟩ := x
    cases result <;> rfl)
  (by
    intro α β a f
    rfl)
  (by
    intro α β γ x f g
    change Traced.bind (Traced.bind x f) g = Traced.bind x fun a => Traced.bind (f a) g
    obtain ⟨trace, result⟩ := x
    cases result with
    | error fault => rfl
    | ok a =>
      simp only [Traced.bind]
      cases (f a).result <;> rfl)

end Traced
end RuleNetwork
