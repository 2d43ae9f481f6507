/-
MarkCompact/Collection/Serial.lean

The phases of a collection in the serial style.

No new address is written anywhere: they are computed from the bitmap, so that all
headers stay as they are. Every region after the dense prefix that holds no humongous
object is a source and a destination, in the order of the regions. Humongous objects
stay. Objects must not grow, which compact headers could make them do.
-/
import MarkCompact.Placement.BlockOffset
import MarkCompact.Placement.Plan
import MarkCompact.Move.References

namespace MarkCompact

/-- What a collection in the serial style has done. -/
structure SerialOutcome where
  movedObjects : Nat
  movedWords : Nat
  freedRegions : Nat
  releasedBytes : UInt64
  deriving DecidableEq, Repr, Inhabited

/-- A collection in the serial style. -/
structure SerialCycle where
  classes : ClassTable
  bitmap : Bitmap
  heap : Heap
  table : BlockOffsets
  /-- The regions that are sources and destinations. -/
  regions : List Nat
  /-- What is placed in each of them. -/
  spaces : Array Space

namespace SerialCycle

/-- A collection with blocks of a given size. -/
def new (h : Heap) (t : ClassTable) (b : Bitmap) (blockShift : UInt32) :
    Except Fault SerialCycle :=
  if h.compactHeaders then .error .compactHeaders
  else
    .ok
      { classes := t, bitmap := b, heap := h
        table := .new h.layout.base h.layout.heapWords blockShift
        regions := [], spaces := #[] }

/-! ### Plan and forward -/

/-- Decides which regions take part. -/
def plan (c : SerialCycle) : Plan × SerialCycle :=
  let (p, h) := Plan.build c.heap c.bitmap
  let part := (h.regions.toList.drop p.densePrefix).filter (!·.isHumongous)
  (p,
    { c with
      heap := h
      regions := part.map Region.index
      spaces := (part.map fun r => Space.new r.bottom r.stop).toArray })

/-- Fills the table of new addresses: how many regions will hold objects. -/
def forward (c : SerialCycle) : Except Fault (Nat × SerialCycle) :=
  let table := c.table.clear
  if c.spaces.isEmpty then .ok (0, { c with table := table })
  else do
    let sources := c.regions.map fun i => ((c.heap.region i).bottom, (c.heap.region i).top)
    let f ← table.build c.bitmap sources c.spaces
    return (f.spaces.toList.countP (0 < ·.usedWords),
      { c with table := f.table, spaces := f.spaces })

/-! ### Adjust -/

/-- The new address of a live object, if it moves. -/
def forwardee (c : SerialCycle) (h : Heap) (object : Address) : Option Address :=
  let r := h.regionOf object
  if r.isHumongous || c.regions.head?.all (r.index < ·) then none
  else
    let target := c.table.forwardee c.bitmap object
    if target = object then none else some target

/-- Lets all references follow, and counts the fields that change. -/
def adjust (c : SerialCycle) (roots : Roots) (saved : SavedMarks) :
    Except Fault (Nat × Roots × SavedMarks × SerialCycle) := do
  let forwardee : Forwardee := fun h a => .ok (c.forwardee h a)
  let (changed, h) ← c.heap.adjustAll c.classes c.bitmap forwardee
  let (roots, saved) ← h.adjustOwners roots saved forwardee
  return (changed, roots, saved, { c with heap := h })

/-! ### Compact -/

/-- Moves one live object, if it moves. -/
def moveObject (c : SerialCycle) (s : SerialOutcome × Heap) (object : Address) :
    Except Fault (SerialOutcome × Heap) := do
  let (o, h) := s
  let size ← h.size c.classes object
  let target := c.table.forwardee c.bitmap object
  if target = object then return (o, h.recordStart target)
  let m ← h.memory.copyWords object target size
  let o := { o with movedObjects := o.movedObjects + 1, movedWords := o.movedWords + size.toNat }
  return (o, (h.withMemory m).recordStart target)

/-- Forgets the objects that begin in a region. -/
def clearStarts (h : Heap) (index : Nat) : Heap :=
  { h with starts := h.starts.clearRange (h.region index).bottom (h.region index).stop }

/-- Moves every live object, in the order of their addresses. -/
def compact (c : SerialCycle) : Except Fault (SerialOutcome × SerialCycle) := do
  let h := c.regions.foldl clearStarts c.heap
  let (o, h) ← c.regions.foldlM
    (fun s index =>
      let r := s.2.region index
      (c.bitmap.markedIn r.bottom r.top).foldlM c.moveObject s)
    ((⟨0, 0, 0, 0⟩, h) : SerialOutcome × Heap)
  return (o, { c with heap := h })

/-! ### Finish -/

/-- Sets the top of a region to what has been placed in it, or frees it. -/
def settle (release : Bool) (s : SerialOutcome × Heap) (part : Nat × Space) :
    SerialOutcome × Heap :=
  let (o, h) := s
  let (index, space) := part
  let r := h.region index
  if space.usedWords = 0 then
    let o := if r.isFree then o else { o with freedRegions := o.freedRegions + 1 }
    let h := h.freeRegion index
    if release then
      let (bytes, m) := h.memory.release r.bottom (r.stop - r.bottom)
      ({ o with releasedBytes := o.releasedBytes + bytes }, h.withMemory m)
    else (o, h)
  else (o, h.modifyRegion index fun r => { r with kind := .regular, top := space.top })

/-- Ends the collection. -/
def finish (c : SerialCycle) (release : Bool) : SerialOutcome × SerialCycle :=
  let (o, h) := (c.regions.zip c.spaces.toList).foldl (settle release) (⟨0, 0, 0, 0⟩, c.heap)
  (o, { c with heap := h, bitmap := c.bitmap.clear })

end SerialCycle

end MarkCompact
