import RuleNetwork.Network.Issue

/-!
# Events

An operation reports what it does as a list of events.  Each event has a level and a
written form; a reader chooses the level up to which events are shown.
-/

namespace RuleNetwork

/-- How much is shown, from nothing to everything. -/
inductive Level
  | off
  | error
  | warn
  | info
  | debug
  | trace
  deriving DecidableEq, Inhabited

namespace Level

/-- The place of a level, from the quietest on. -/
def rank : Level → Nat
  | off => 0
  | error => 1
  | warn => 2
  | info => 3
  | debug => 4
  | trace => 5

/-- The name of a level in front of a message. -/
def text : Level → String
  | off => "OFF"
  | error => "ERROR"
  | warn => "WARN"
  | info => "INFO"
  | debug => "DEBUG"
  | trace => "TRACE"

end Level

/-- What an operation reports. -/
inductive Event
  /-- A state is looked at in a context for the first time. -/
  | look (s : StateId) (c : Context)
  /-- A rule was left at its stop state, and its caller is continued. -/
  | pop (stop next : StateId)
  /-- The symbols that were found for an alternative of a decision. -/
  | alternative (s : StateId) (number : Nat) (found : SymbolSet)
  /-- A table of next symbols was computed. -/
  | tableComputed (size : Nat)
  /-- A network has a defect. -/
  | defect (issue : Issue)
  deriving DecidableEq

namespace Event

/-- The level at which an event is shown. -/
def level : Event → Level
  | look _ _ | pop _ _ => .trace
  | alternative _ _ _ | tableComputed _ => .debug
  | defect _ => .warn

/-- The words in which an event is reported. -/
def text : Event → String
  | look s c => s!"look {s.text} in {c.text}"
  | pop stop next => s!"pop {stop.text} to {next.text}"
  | alternative s number found => s!"lookahead of {s.text} alt {number}: {found.text}"
  | tableComputed size => s!"computed next symbols of {size} states"
  | defect issue => issue.text

/-- Tells whether an event is shown when everything up to a level is. -/
def shownAt (shown : Level) (e : Event) : Bool := decide (e.level.rank ≤ shown.rank)

/-- The lines that are shown of some events, with a separator after the level. -/
def lines (shown : Level) (separator : String) (events : List Event) : List String :=
  (events.filter (shownAt shown)).map fun e => e.level.text ++ separator ++ e.text

end Event
end RuleNetwork
