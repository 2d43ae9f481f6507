/-
MarkCompact/Report/Event.lean

What happens in a collection, as events, and two ways of writing them.

* `Event` is what happened, `Event.level` how much it matters;
* `Event.text` is a line for a reader;
* `Event.json` is an object of a JSON document, its members in the order of their names.

Main result: `Event.level_eq_warn_iff` (only a shadow copy is a warning).
-/
import MarkCompact.Decimal.Style
import MarkCompact.Text.Quoted

namespace MarkCompact

/-- How much a message matters, what matters most first. -/
inductive LogLevel where
  | error
  | warn
  | info
  | debug
  | trace
  deriving DecidableEq, Repr, Inhabited

namespace LogLevel

/-- The place of a level among all. -/
def rank : LogLevel → Nat
  | .error => 0
  | .warn => 1
  | .info => 2
  | .debug => 3
  | .trace => 4

/-- The name of a level as records show it. -/
def name : LogLevel → String
  | .error => "ERROR"
  | .warn => "WARN"
  | .info => "INFO"
  | .debug => "DEBUG"
  | .trace => "TRACE"

end LogLevel

/-- The phases of a collection, in their order. -/
inductive Phase where
  | mark
  | plan
  | forward
  | adjust
  | compact
  deriving DecidableEq, Repr, Inhabited

/-- The name of a phase. -/
def Phase.name : Phase → String
  | .mark => "mark"
  | .plan => "plan"
  | .forward => "forward"
  | .adjust => "adjust"
  | .compact => "compact"

/-- Something that happens in a collection. Times are in milliseconds. -/
inductive Event where
  | cycleStart (cycle : Nat) (style forwarding : String)
  | phaseStart (phase : Phase) (cycle : Nat)
  | phaseEnd (phase : Phase) (milliseconds : Float) (cycle : Nat)
  | cycleEnd (cycle : Nat) (milliseconds : Float) (liveWords freedRegions : Nat)
  | densePrefix (cycle regions : Nat)
  | forwardingStats (encoding : String) (entries maxScan grows : Nat)
  | compactionStats (objects words humongous preserved : Nat)
  | shadowFallback (source target words : Nat)
  deriving Inhabited

namespace Event

/-- How much an event matters. -/
def level : Event → LogLevel
  | .shadowFallback .. => .warn
  | .cycleStart .. | .cycleEnd .. => .info
  | .phaseStart .. | .phaseEnd .. | .densePrefix .. => .debug
  | .forwardingStats .. | .compactionStats .. => .trace

/-- The kind of an event. -/
def kind : Event → String
  | .cycleStart .. => "cycle_start"
  | .phaseStart .. => "phase_start"
  | .phaseEnd .. => "phase_end"
  | .cycleEnd .. => "cycle_end"
  | .densePrefix .. => "dense_prefix"
  | .forwardingStats .. => "forwarding_stats"
  | .compactionStats .. => "compaction_stats"
  | .shadowFallback .. => "shadow_fallback"

/-- The places after the point of a time in a line for a reader. -/
def timePlaces : Nat := 2

/-- What stands after the opening of a line for a reader. -/
def report : Event → String
  | .cycleStart cycle style forwarding =>
    s!"Compaction {cycle} started ({style} style, {forwarding} forwarding)"
  | .phaseStart phase cycle => s!"Compaction {cycle}: {phase.name} phase started"
  | .phaseEnd phase milliseconds cycle =>
    s!"Compaction {cycle}: {phase.name} phase completed " ++
      s!"({fixedText timePlaces milliseconds}ms)"
  | .cycleEnd cycle milliseconds liveWords freedRegions =>
    s!"Compaction {cycle} completed ({fixedText timePlaces milliseconds}ms, " ++
      s!"{liveWords} live words, {freedRegions} regions freed)"
  | .densePrefix cycle regions => s!"Compaction {cycle}: dense prefix of {regions} regions"
  | .forwardingStats encoding entries maxScan grows =>
    s!"Forwarding ({encoding}): {entries} entries, max scan {maxScan}, {grows} grows"
  | .compactionStats objects words humongous preserved =>
    s!"Moved {objects} objects ({words} words), {humongous} humongous, " ++
      s!"{preserved} preserved marks"
  | .shadowFallback source target words =>
    s!"Region {source} -> {target} copied through a shadow buffer ({words} words)"

/-- An event as a line for a reader. -/
def text (e : Event) : String := "[GC] " ++ e.report

/-! ### JSON -/

/-- The members of an event in a JSON document, with the texts of their values, in the
order of their names. -/
def members : Event → List (String × String)
  | e@(.cycleStart cycle style forwarding) =>
    [("cycle", toString cycle), ("forwarding", quoteJson forwarding), ("style", quoteJson style),
      ("type", quoteJson e.kind)]
  | e@(.phaseStart phase cycle) =>
    [("cycle", toString cycle), ("phase", quoteJson phase.name), ("type", quoteJson e.kind)]
  | e@(.phaseEnd phase milliseconds cycle) =>
    [("cycle", toString cycle), ("duration_ms", floatText jsonStyle milliseconds),
      ("phase", quoteJson phase.name), ("type", quoteJson e.kind)]
  | e@(.cycleEnd cycle milliseconds liveWords freedRegions) =>
    [("cycle", toString cycle), ("duration_ms", floatText jsonStyle milliseconds),
      ("freed_regions", toString freedRegions), ("live_words", toString liveWords),
      ("type", quoteJson e.kind)]
  | e@(.densePrefix cycle regions) =>
    [("cycle", toString cycle), ("regions", toString regions), ("type", quoteJson e.kind)]
  | e@(.forwardingStats encoding entries maxScan grows) =>
    [("entries", toString entries), ("grows", toString grows), ("max_scan", toString maxScan),
      ("mode", quoteJson encoding), ("type", quoteJson e.kind)]
  | e@(.compactionStats objects words humongous preserved) =>
    [("humongous_moved", toString humongous), ("moved_objects", toString objects),
      ("moved_words", toString words), ("preserved_marks", toString preserved),
      ("type", quoteJson e.kind)]
  | e@(.shadowFallback source target words) =>
    [("dest_region", toString target), ("source_region", toString source),
      ("type", quoteJson e.kind), ("words", toString words)]

end Event

/-- A JSON object from its members and the texts of their values. -/
def jsonObject (members : List (String × String)) : String :=
  let texts := members.map fun (name, value) => quoteJson name ++ ":" ++ value
  "\x7b" ++ String.intercalate "," texts ++ "\x7d"

/-- An event as an object of a JSON document. -/
def Event.json (e : Event) : String := jsonObject e.members

theorem Event.level_eq_warn_iff (e : Event) :
    e.level = .warn ↔ ∃ source target words, e = .shadowFallback source target words := by
  cases e <;> simp [level]

end MarkCompact
