/-
MarkCompact/Report/CycleStats.lean

The figures of one collection.

`CycleStats` counts what a collection did and how long its phases took. The times are
kept in the order in which the phases were first recorded, and add up if a phase is
recorded again.

Main result: `time?_record_of_ne` (recording the time of one phase leaves the others).
-/
import MarkCompact.Report.Event

namespace MarkCompact

/-- The nanoseconds of a second. -/
def nanosPerSecond : UInt32 := 1000000000

/-- The milliseconds of a duration. Nanoseconds that make up a second count as one. -/
def milliseconds (seconds : UInt64) (nanoseconds : UInt32) : Float :=
  let whole := seconds + (nanoseconds / nanosPerSecond).toUInt64
  (whole.toFloat + (nanoseconds % nanosPerSecond).toFloat / nanosPerSecond.toFloat) * 1000.0

/-- What a collection did. -/
structure CycleStats where
  /-- Its number, the first one being 1. -/
  cycle : Nat
  style : String
  forwarding : String
  /-- The milliseconds of each phase, in the order in which they were first recorded. -/
  times : List (Phase × Float)
  /-- The milliseconds of all of it. -/
  total : Float
  liveObjects : Nat
  liveWords : Nat
  /-- Objects that were given a new address. -/
  forwardedObjects : Nat
  /-- Objects whose address changed. -/
  movedObjects : Nat
  /-- The words of moved objects, after the move. -/
  movedWords : Nat
  /-- Objects that took a hash word along. -/
  grownObjects : Nat
  humongousMoved : Nat
  /-- Marks that were kept aside. -/
  preservedMarks : Nat
  /-- Copies that waited for their destination. -/
  shadowRegions : Nat
  /-- Leading regions that were left alone. -/
  densePrefixRegions : Nat
  /-- Regions that were in use before and are free after. -/
  freedRegions : Nat
  forwardingEntries : Nat
  maxScan : Nat
  deriving Inhabited

namespace CycleStats

/-- The figures of a collection in which nothing has happened yet. -/
def new (cycle : Nat) (style forwarding : String) : CycleStats :=
  { cycle, style, forwarding
    times := [], total := 0.0
    liveObjects := 0, liveWords := 0, forwardedObjects := 0, movedObjects := 0, movedWords := 0
    grownObjects := 0, humongousMoved := 0, preservedMarks := 0, shadowRegions := 0
    densePrefixRegions := 0, freedRegions := 0, forwardingEntries := 0, maxScan := 0 }

/-- The time of a phase, if it has been recorded. -/
def time? (s : CycleStats) (phase : Phase) : Option Float := s.times.lookup phase

/-- Adds to the time of a phase, a new one at the end. -/
def addTime (phase : Phase) (time : Float) : List (Phase × Float) → List (Phase × Float)
  | [] => [(phase, 0.0 + time)]
  | (p, t) :: rest => if p = phase then (p, t + time) :: rest else (p, t) :: addTime phase time rest

/-- The figures with the time of a phase added. -/
def record (s : CycleStats) (phase : Phase) (time : Float) : CycleStats :=
  { s with times := addTime phase time s.times }

/-- The members of the figures in a JSON document, with the texts of their values. -/
def members (s : CycleStats) : List (String × String) :=
  [("cycle", toString s.cycle), ("style", quoteJson s.style),
    ("forwarding", quoteJson s.forwarding),
    ("phase_ms", jsonObject (s.times.map fun (p, t) => (p.name, floatText jsonStyle t))),
    ("total_ms", floatText jsonStyle s.total), ("live_objects", toString s.liveObjects),
    ("live_words", toString s.liveWords), ("forwarded_objects", toString s.forwardedObjects),
    ("moved_objects", toString s.movedObjects), ("moved_words", toString s.movedWords),
    ("grown_objects", toString s.grownObjects), ("humongous_moved", toString s.humongousMoved),
    ("preserved_marks", toString s.preservedMarks), ("shadow_regions", toString s.shadowRegions),
    ("dense_prefix_regions", toString s.densePrefixRegions),
    ("freed_regions", toString s.freedRegions),
    ("forwarding_entries", toString s.forwardingEntries), ("max_scan", toString s.maxScan)]

/-- The figures as an object of a JSON document. -/
def json (s : CycleStats) : String := jsonObject s.members

theorem lookup_addTime_of_ne {phase other : Phase} (h : phase ≠ other) (time : Float)
    (times : List (Phase × Float)) :
    (addTime phase time times).lookup other = times.lookup other := by
  have differs : (other == phase) = false := by simpa using h.symm
  induction times with
  | nil => simp [addTime, List.lookup_cons, differs]
  | cons entry rest ih =>
    obtain ⟨p, t⟩ := entry
    unfold addTime
    split
    · rename_i here
      subst here
      simp [List.lookup_cons, differs]
    · simp [List.lookup_cons, ih]

/-- Recording the time of one phase leaves those of the others. -/
theorem time?_record_of_ne (s : CycleStats) {phase other : Phase} (h : phase ≠ other)
    (time : Float) : (s.record phase time).time? other = s.time? other :=
  lookup_addTime_of_ne h time s.times

end CycleStats

end MarkCompact
