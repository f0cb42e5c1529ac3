import RuleNetwork.Event

/-!
# Traces

A trace is a list of events that is put together from parts.  To join two traces takes no
time, however long they are; the list is written out once, at the end.

**Results.**
* `ext`: a trace is determined by its list of events.
* `toList_append`: the list of two joined traces is the one list behind the other.
-/

namespace RuleNetwork

/-- A list of events, as the function that puts it in front of further ones. -/
structure Trace where
  before : List Event → List Event
  before_eq : ∀ rest, before rest = before [] ++ rest

namespace Trace

/-- The events of a trace. -/
def toList (t : Trace) : List Event := t.before []

@[ext] theorem ext {t u : Trace} (h : t.toList = u.toList) : t = u := by
  have : t.before = u.before := funext fun rest => by
    rw [t.before_eq, u.before_eq]
    exact congrArg (· ++ rest) h
  cases t
  cases u
  cases this
  rfl

/-- The trace of some events. -/
def ofList (events : List Event) : Trace := ⟨(events ++ ·), fun rest => by simp⟩

/-- The trace without events. -/
def empty : Trace := ⟨id, fun _ => rfl⟩

/-- The trace of one event. -/
def single (e : Event) : Trace := ⟨(e :: ·), fun _ => rfl⟩

/-- The events of the first trace, and then those of the second. -/
protected def append (t u : Trace) : Trace :=
  ⟨fun rest => t.before (u.before rest), fun rest => by
    rw [t.before_eq, u.before_eq, t.before_eq (u.before []), List.append_assoc]⟩

instance : Append Trace := ⟨Trace.append⟩

@[simp] theorem toList_ofList (events : List Event) : (ofList events).toList = events :=
  List.append_nil events

@[simp] theorem toList_empty : empty.toList = [] := rfl

@[simp] theorem toList_single (e : Event) : (single e).toList = [e] := rfl

@[simp] theorem toList_append (t u : Trace) : (t ++ u).toList = t.toList ++ u.toList :=
  t.before_eq (u.before [])

@[simp] theorem empty_append (t : Trace) : empty ++ t = t := rfl

@[simp] theorem append_empty (t : Trace) : t ++ empty = t := rfl

theorem append_assoc (t u v : Trace) : t ++ u ++ v = t ++ (u ++ v) := rfl

end Trace
end RuleNetwork
