/-
MarkCompact/Collection/Parallel.lean

The phases of a collection in the parallel style.

* `plan` decides which regions take part and announces what will be recorded;
* `forward` gives every live object that moves its new address: the regions are claimed in
  chunks and their objects are placed one by one, then the humongous ones;
* `adjust` lets all references follow;
* `compact` moves the objects, region by region;
* `finish` sets the tops, frees what is empty, moves humongous objects, writes saved marks
  back and drops all that belongs to the collection.

A region whose objects are moved first has all its moves planned, while its contents are
intact, and then makes them in groups, one for each destination. A group for another
region that is still occupied goes into a shadow.

With one worker everything happens in the order given here.
-/
import MarkCompact.Placement.Humongous
import MarkCompact.Placement.Plan
import MarkCompact.Move.References
import MarkCompact.Report.Log
import MarkCompact.Work.Claim

namespace MarkCompact

/-- The settings of a collection in the parallel style. -/
structure ParallelSettings where
  regionsPerClaim : UInt64
  /-- Whether objects may wait in a shadow. -/
  shadowRegions : Bool
  /-- Whether the memory of free regions is given back. -/
  releaseFreeRegions : Bool
  deriving DecidableEq, Repr, Inhabited

/-- What the forward phase has done. -/
structure ForwardOutcome where
  count : PlacementCount
  humongous : List HumongousMove
  deriving Repr, Inhabited

/-- What moving and finishing have done. -/
structure CompactOutcome where
  movedObjects : Nat
  movedWords : Nat
  grownObjects : Nat
  shadowRegions : Nat
  humongousWords : Nat
  freedRegions : Nat
  releasedBytes : UInt64
  deriving DecidableEq, Repr, Inhabited

/-- A collection in the parallel style. -/
structure ParallelCycle where
  classes : ClassTable
  settings : ParallelSettings
  bitmap : Bitmap
  /-- The heap, the new addresses and the marks that have been kept aside. -/
  state : Relocation
  log : Log
  copied : CopyCount
  /-- The number of shadows that have been made. -/
  shadows : Nat

namespace ParallelCycle

/-- The cycle with another heap. -/
def withHeap (c : ParallelCycle) (h : Heap) : ParallelCycle :=
  { c with state := { c.state with heap := h } }

/-! ### Plan -/

/-- Makes a region a source and a destination, and announces its objects. -/
def enlist (p : Plan) (s : Relocation) (index : Nat) : Except Fault Relocation := do
  let r := s.heap.region index
  let h := s.heap.modifyRegion index Region.beginCompaction
  let h := { h with starts := h.starts.clearRange r.bottom r.stop }
  let forwarding ← s.forwarding.beginRegion index (p.summary index).liveObjects
  return { s with heap := h, forwarding := forwarding }

/-- Decides which regions take part, and makes room for what will be recorded. -/
def plan (c : ParallelCycle) : Except Fault (Plan × ParallelCycle) := do
  let (p, h) := Plan.build c.state.heap c.bitmap
  let forwarding := c.state.forwarding.start.reserve p.liveObjects
  let s ← p.compacting.foldlM (enlist p) { c.state with heap := h, forwarding := forwarding }
  return (p, { c with state := s })

/-! ### Forward -/

/-- Places one live object. -/
def placeObject (t : ClassTable) (ps : CompactionPoint × Relocation) (object : Address) :
    Except Fault (CompactionPoint × Relocation) := do
  let size ← ps.2.heap.size t object
  let (_, p, s) ← ps.1.place ps.2 t object size
  return (p, s)

/-- Adds a region to a compaction point and places its live objects. -/
def placeRegion (t : ClassTable) (b : Bitmap) (ps : CompactionPoint × Relocation) (index : Nat) :
    Except Fault (CompactionPoint × Relocation) :=
  let (p, s) := ps
  let r := s.heap.region index
  (b.markedIn r.bottom r.top).foldlM (placeObject t) (p.add s.heap index, s)

/-- Gives every live object that moves its new address. -/
def forward (c : ParallelCycle) (p : Plan) : Except Fault (ForwardOutcome × ParallelCycle) := do
  let claimed := (Claimer.new p.compacting c.settings.regionsPerClaim).all
  let (point, s) ← claimed.foldlM (placeRegion c.classes c.bitmap) (.empty, c.state)
  let (point, h) := point.finish s.heap
  let (moves, s) ← { s with heap := h }.placeAllHumongous c.classes p.humongous
  return (⟨point.count, moves⟩, { c with state := s })

/-! ### Adjust -/

/-- Lets all references follow, and counts the fields that change. -/
def adjust (c : ParallelCycle) (roots : Roots) : Except Fault (Nat × Roots × ParallelCycle) := do
  let forwardee : Forwardee := fun h a => c.state.forwarding.forwardee h.memory a
  let (changed, h) ← c.state.heap.adjustAll c.classes c.bitmap forwardee
  let (roots, saved) ← h.adjustOwners roots c.state.saved forwardee
  return (changed, roots, { c with state := { c.state with heap := h, saved := saved } })

/-! ### Compact -/

/-- Plans the move of a live object, if it moves. -/
def recordOf (s : Relocation) (t : ClassTable) (object : Address) :
    Except Fault (Option MoveRecord) := do
  match ← s.forwarding.forwardee s.heap.memory object with
  | none => return none
  | some target =>
    let mark := s.heap.memory.loadMark object
    let size ← s.heap.size t object
    let copySize ← s.heap.copySize t object mark true
    return some
      ⟨object, target, size, copySize,
        relocatedMark mark s.heap.compactHeaders (size < copySize) (!s.forwarding.overwritesMarks)⟩

/-- Splits moves into groups of neighbours that go to the same region. -/
def groupsByTarget (l : Layout) (records : List MoveRecord) : List (List MoveRecord) :=
  records.splitBy fun a b => l.indexOf a.target == l.indexOf b.target

/-- Makes moves in place. -/
def copyGroup (c : ParallelCycle) (group : List MoveRecord) : Except Fault ParallelCycle := do
  let m ← MoveRecord.copyAll group c.state.heap.memory
  return { c.withHeap (c.state.heap.withMemory m) with
    copied := MoveRecord.countAll group c.copied }

/-- Makes moves into a shadow and offers it to their destination. -/
def shadowGroup (c : ParallelCycle) (source target : Nat) (start : Address)
    (group : List MoveRecord) : Except Fault ParallelCycle := do
  let shadow : Shadow := ⟨target, start, MoveRecord.images group c.state.heap.memory⟩
  let (returned, r) := (c.state.heap.region target).offer shadow
  let h := c.state.heap.modifyRegion target fun _ => r
  let m ← Shadow.flushAll returned.toList h.memory
  return { c.withHeap (h.withMemory m) with
    copied := MoveRecord.countAll group c.copied
    shadows := c.shadows + 1
    log := c.log.record (.shadowFallback source target shadow.words.length) }

/-- Makes the moves of one group from a region. -/
def moveGroup (source : Nat) (c : ParallelCycle) :
    List MoveRecord → Except Fault ParallelCycle
  | [] => .ok c
  | first :: rest =>
    let target := c.state.heap.layout.indexOf first.target
    if target = source || (c.state.heap.region target).ready then c.copyGroup (first :: rest)
    else if c.settings.shadowRegions then c.shadowGroup source target first.target (first :: rest)
    else .error (.neverVacated target)

/-- Moves the objects of a region, and puts the shadows that wait for it in place. -/
def compactRegion (c : ParallelCycle) (source : Nat) : Except Fault ParallelCycle := do
  let r := c.state.heap.region source
  let records ← (c.bitmap.markedIn r.bottom r.top).filterMapM (recordOf c.state c.classes)
  let c ← (groupsByTarget c.state.heap.layout records).foldlM (moveGroup source) c
  let (waiting, r) := (c.state.heap.region source).markReady
  let h := c.state.heap.modifyRegion source fun _ => r
  let m ← Shadow.flushAll waiting h.memory
  return c.withHeap (h.withMemory m)

/-- Moves the objects of the given regions. -/
def compact (c : ParallelCycle) (regions : List Nat) : Except Fault ParallelCycle := do
  let (c, _) ← (TaskQueue.ofList regions).run compactRegion c
  return c

/-! ### Finish -/

/-- Sets the top of a region to what has been placed in it, or frees it. -/
def settleTop (h : Heap) (index : Nat) : Heap :=
  let r := h.region index
  if r.compactionTop = r.bottom then h.freeRegion index
  else h.modifyRegion index fun r => { r with top := r.compactionTop }

/-- Gives back the memory of a region: how many bytes so far, and the memory after. -/
def releaseRegion (s : UInt64 × Memory) (r : Region) : UInt64 × Memory :=
  let (bytes, m) := s.2.release r.bottom (r.stop - r.bottom)
  (s.1 + bytes, m)

/-- Ends the collection. `freeBefore` is the number of regions that were free before it. -/
def finish (c : ParallelCycle) (p : Plan) (moves : List HumongousMove) (freeBefore : Nat) :
    Except Fault (CompactOutcome × ParallelCycle) := do
  let h := p.compacting.foldl settleTop c.state.heap
  let (humongousWords, h) ← applyHumongousMoves h moves (!c.state.forwarding.overwritesMarks)
  let m := c.state.saved.restore h.memory
  let (released, m) :=
    if c.settings.releaseFreeRegions then
      (h.regions.toList.filter Region.isFree).foldl releaseRegion (0, m)
    else (0, m)
  let h :=
    { h with
      memory := m
      regions := h.regions.map fun (r : Region) => if r.compacting then r.endCompaction else r }
  let outcome : CompactOutcome :=
    { movedObjects := c.copied.objects + moves.length
      movedWords := c.copied.words.toNat + humongousWords
      grownObjects := c.copied.grown + moves.countP HumongousMove.grown
      shadowRegions := c.shadows
      humongousWords := humongousWords
      freedRegions := h.freeRegionCount - freeBefore
      releasedBytes := released }
  return (outcome,
    { c with
      bitmap := c.bitmap.clear
      state := { heap := h, forwarding := c.state.forwarding.finish, saved := #[] } })

end ParallelCycle

end MarkCompact
