/-
MarkCompact/Collection/Cycle.lean

A collector, and one whole collection.

* `Collector.new` accepts a configuration that is valid and describes the heap;
* `Collector.collect` marks what can be reached from the roots and then runs the phases of
  the style one after the other: plan, forward, adjust, compact;
* `Collector.diagnostics` tells what the collector is and has done.

A collection begins and ends in the log, and so does each of its phases. How long they
take is given from outside. Between two collections a collector keeps its log, the count
of its collections and the tables of its encoding, which may have grown. Its bitmap and the
marks it keeps aside are for the length of a collection.

Main result: `new_refuses` (an invalid configuration gets no collector).
-/
import MarkCompact.Collection.Parallel
import MarkCompact.Collection.Serial
import MarkCompact.Liveness.Trace
import MarkCompact.Report.CycleStats

namespace MarkCompact

/-- A collector of one heap. -/
structure Collector where
  config : Config
  forwarding : Forwarding
  /-- The objects that a collection has found live. -/
  bitmap : Bitmap
  /-- The marks that a collection keeps aside. -/
  saved : SavedMarks
  log : Log
  /-- The number of collections. -/
  cycles : Nat

/-- How long a collection and its phases take, in milliseconds. -/
structure Durations where
  phase : Phase → Float
  total : Float

/-- What a collection works on. -/
structure Collected where
  heap : Heap
  roots : Roots
  collector : Collector
  stats : CycleStats

/-- What a collection comes to. -/
structure Collection where
  /-- The references outside the heap that have been passed over. -/
  outside : List Address
  outcome : Except Fault Collected

/-- The name of serial collections where others name their encoding. -/
def blockOffsetName : String := "block-offset"

namespace Collected

/-- Tells the log of an event. -/
def report (s : Collected) (e : Event) : Collected :=
  { s with collector := { s.collector with log := s.collector.log.record e } }

/-- Tells the log that a phase begins. -/
def beginPhase (s : Collected) (phase : Phase) : Collected :=
  s.report (.phaseStart phase s.stats.cycle)

/-- Records how long a phase has taken and tells the log that it ends. -/
def endPhase (s : Collected) (times : Durations) (phase : Phase) : Collected :=
  { s with stats := s.stats.record phase (times.phase phase) }.report
    (.phaseEnd phase (times.phase phase) s.stats.cycle)

/-- Meets a request of the encoding to grow. -/
def growIfRequested (s : Collected) : Collected :=
  { s with collector :=
    { s.collector with forwarding := s.collector.forwarding.growIfRequested.2 } }

/-- Begins a phase of the parallel style on what the collection works on. -/
def resume (s : Collected) (c : ParallelCycle) (phase : Phase) : ParallelCycle :=
  { c with
    state := { c.state with heap := s.heap, forwarding := s.collector.forwarding }
    log := (s.beginPhase phase).collector.log }

/-- Ends a phase of the parallel style. -/
def suspend (s : Collected) (times : Durations) (c : ParallelCycle) (phase : Phase) : Collected :=
  { s with
    heap := c.state.heap
    collector := { s.collector with
      forwarding := c.state.forwarding
      bitmap := c.bitmap
      saved := c.state.saved
      log := c.log } }.endPhase times phase

end Collected

namespace Collector

/-! ### Making a collector -/

/-- Why a configuration does not fit a heap, if it does not. -/
def refusal (config : Config) (h : Heap) : Option ConfigError :=
  if h.layout.regionShift ≠ config.regionShift ∨ h.layout.numRegions ≠ config.numRegions.toNat then
    some (.otherRegions h.layout.numRegions h.layout.regionShift config.numRegions.toNat
      config.regionShift)
  else if h.compactHeaders ≠ config.compactHeaders then
    some (.otherHeaders h.compactHeaders config.compactHeaders)
  else none

/-- A collector of a heap. -/
def new (config : Config) (h : Heap) : Except Fault (Except CompactError Collector) :=
  match config.validate with
  | .error cause => .ok (.error (.configuration cause))
  | .ok () =>
    match refusal config h with
    | some cause => .ok (.error (.configuration cause))
    | none => do
      let forwarding ← Forwarding.select config h.layout
      let log := Log.new { level := .trace, console := config.verbose }
      return .ok ⟨config, forwarding, .ofLayout h.layout, #[], log, 0⟩

/-! ### A collection in the parallel style -/

/-- Runs the phases after marking in the parallel style. -/
def collectParallel (times : Durations) (t : ClassTable) (bitmap : Bitmap) (freeBefore : Nat)
    (s : Collected) : Except Fault Collected := do
  let config := s.collector.config
  let c : ParallelCycle := {
    classes := t
    settings := ⟨config.regionsPerClaim, config.shadowRegions, config.releaseFreeRegions⟩
    bitmap := bitmap
    state := { heap := s.heap, forwarding := s.collector.forwarding, saved := s.collector.saved }
    log := s.collector.log
    copied := ⟨0, 0, 0⟩
    shadows := 0 }
  let (p, c) ← (s.resume c .plan).plan
  let s := (s.suspend times c .plan).report (.densePrefix s.stats.cycle p.densePrefix)
  let s := s.growIfRequested
  let (forwarded, c) ← (s.resume c .forward).forward p
  let s := (s.suspend times c .forward).growIfRequested
  let preserved := c.state.saved.size
  let (_, roots, c) ← (s.resume c .adjust).adjust s.roots
  let s := { s with roots := roots }.suspend times c .adjust
  let c ← (s.resume c .compact).compact p.compacting
  let kept := c.state.forwarding.stats
  let (outcome, c) ← c.finish p forwarded.humongous freeBefore
  let s := s.suspend times c .compact
  let s := s.report
    (.forwardingStats s.collector.forwarding.encoding.name kept.entries kept.maxScan.toNat
      kept.grows)
  return { s with stats := { s.stats with
    forwardedObjects := forwarded.count.forwarded + forwarded.humongous.length
    movedObjects := outcome.movedObjects
    movedWords := outcome.movedWords
    grownObjects := outcome.grownObjects
    humongousMoved := forwarded.humongous.length
    preservedMarks := preserved
    shadowRegions := outcome.shadowRegions
    densePrefixRegions := p.densePrefix
    freedRegions := outcome.freedRegions
    forwardingEntries := kept.entries
    maxScan := kept.maxScan.toNat } }

/-! ### A collection in the serial style -/

/-- Runs the phases after marking in the serial style. -/
def collectSerial (times : Durations) (t : ClassTable) (bitmap : Bitmap) (freeBefore : Nat)
    (s : Collected) : Except Fault Collected := do
  let c ← SerialCycle.new s.heap t bitmap s.collector.config.blockShift
  let s := s.beginPhase .plan
  let (p, c) := c.plan
  let s := (s.endPhase times .plan).report (.densePrefix s.stats.cycle p.densePrefix)
  let s := s.beginPhase .forward
  let (_, c) ← c.forward
  let s := (s.endPhase times .forward).beginPhase .adjust
  let (_, roots, saved, c) ← c.adjust s.roots s.collector.saved
  let s := (s.endPhase times .adjust).beginPhase .compact
  let (outcome, c) ← c.compact
  let (_, c) := c.finish s.collector.config.releaseFreeRegions
  let s := { s with
    heap := c.heap
    roots := roots
    collector := { s.collector with bitmap := c.bitmap, saved := saved } }.endPhase times .compact
  return { s with stats := { s.stats with
    forwardedObjects := outcome.movedObjects
    movedObjects := outcome.movedObjects
    movedWords := outcome.movedWords
    densePrefixRegions := p.densePrefix
    freedRegions := s.heap.freeRegionCount - freeBefore } }

/-! ### A collection -/

/-- The name under which the addresses of a collection are reported. -/
def forwardingName (c : Collector) : String :=
  match c.config.style with
  | .parallel => c.forwarding.encoding.name
  | .serial => blockOffsetName

/-- Runs the phases after marking in the style of the collector. -/
def collectMarked (times : Durations) (t : ClassTable) (bitmap : Bitmap) (freeBefore : Nat)
    (s : Collected) : Except Fault Collected :=
  match s.collector.config.style with
  | .parallel => collectParallel times t bitmap freeBefore s
  | .serial => collectSerial times t bitmap freeBefore s

/-- Tells the log what a collection has done and that it ends. -/
def conclude (times : Durations) (s : Collected) : Collected :=
  let s := { s with stats := { s.stats with total := times.total } }
  let s := s.report
    (.compactionStats s.stats.movedObjects s.stats.movedWords s.stats.humongousMoved
      s.stats.preservedMarks)
  s.report (.cycleEnd s.stats.cycle times.total s.stats.liveWords s.stats.freedRegions)

/-- Runs one collection. -/
def collect (c : Collector) (times : Durations) (h : Heap) (t : ClassTable) (roots : Roots) :
    Collection :=
  let stats := CycleStats.new (c.cycles + 1) c.config.style.name c.forwardingName
  let s : Collected := ⟨h, roots, { c with cycles := c.cycles + 1 }, stats⟩
  let s := s.report (.cycleStart stats.cycle stats.style stats.forwarding)
  let s := s.beginPhase .mark
  let marked := h.trace t roots c.bitmap.clear
  let outcome : Except Fault Collected :=
    match marked.fault with
    | some fault => .error fault
    | none => do
      let s := s.endPhase times .mark
      let s := { s with stats := { s.stats with
        liveObjects := marked.liveObjects, liveWords := marked.liveWords.toNat } }
      return conclude times (← collectMarked times t marked.bitmap h.freeRegionCount s)
  ⟨marked.outside, outcome⟩

/-- What the collector is and has done, by name. -/
def diagnostics (c : Collector) : List (String × String) :=
  [("cycles", toString c.cycles),
    ("style", c.config.style.name),
    ("forwarding", c.forwarding.encoding.name),
    ("workers", toString (c.config.workers.getD 1)),
    ("shadow_regions", toString c.config.shadowRegions),
    ("logged_events", toString c.log.events.size)]

/-- An invalid configuration gets no collector. -/
theorem new_refuses {config : Config} {h : Heap} {cause : ConfigError}
    (invalid : config.validate = .error cause) :
    new config h = .ok (.error (.configuration cause)) := by
  simp [new, invalid]

end Collector

end MarkCompact
