/-
MarkCompact/Report/Log.lean

The log of a collector.

A log that is enabled passes every event on to the observer of the program, keeps those
that matter enough, and prints what it keeps if it has a console. A log that is disabled
does nothing at all.

Main results: `record_of_disabled` and `size_events_record` (what is kept).
-/
import MarkCompact.Report.Event

namespace MarkCompact

/-- The settings of a log. -/
structure LogSettings where
  /-- The level of what matters least among what is kept. -/
  level : LogLevel := .info
  /-- Whether kept events are printed. -/
  console : Bool := false
  /-- Whether they are printed as JSON. -/
  json : Bool := false
  /-- Whether the time precedes what is printed. -/
  timestamps : Bool := true
  deriving Repr, Inhabited

/-- A log. -/
structure Log where
  settings : LogSettings
  enabled : Bool
  /-- What has been kept, the first event first. -/
  events : Array Event
  deriving Inhabited

namespace Log

/-- An enabled log in which nothing has been kept. -/
def new (settings : LogSettings) : Log := ⟨settings, true, #[]⟩

/-- Whether an event is kept. -/
def keeps (l : Log) (e : Event) : Bool := l.enabled && e.level.rank ≤ l.settings.level.rank

/-- The log after an event. -/
def record (l : Log) (e : Event) : Log :=
  if l.keeps e then { l with events := l.events.push e } else l

/-- What an observer of the program is told of an event. -/
def observed (l : Log) (e : Event) : Option (LogLevel × String) :=
  if l.enabled then some (e.level, e.text) else none

/-- The line that is printed for an event, the time apart. -/
def printed (l : Log) (e : Event) : Option String :=
  if l.keeps e && l.settings.console then some (if l.settings.json then e.json else e.text)
  else none

/-- The log without what has been kept. -/
def clear (l : Log) : Log := { l with events := #[] }

theorem record_of_disabled {l : Log} (h : l.enabled = false) (e : Event) : l.record e = l := by
  simp [record, keeps, h]

theorem size_events_record (l : Log) (e : Event) :
    (l.record e).events.size = l.events.size + if l.keeps e then 1 else 0 := by
  unfold record
  split <;> simp_all

end Log

end MarkCompact
