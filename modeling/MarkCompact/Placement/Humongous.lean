/-
MarkCompact/Placement/Humongous.lean

Objects that are larger than a region.

A humongous object begins at the bottom of a region and has a run of regions to itself.
It is placed after all other objects, by one pass over the regions in ascending order:
free regions, and compacted ones in which nothing has been placed, are collected, and
every live humongous object gets the first run of them below it that is long enough.
The regions it leaves are collected in turn. It stays if its hash word would need another
region.

The moves are made once all other objects have been moved.

Main result: `HumongousMove.grown_iff` (an object has grown exactly if it takes more words
than before).
-/
import MarkCompact.Placement.Cursor
import MarkCompact.Move.Copy

namespace MarkCompact

/-- A planned move of a humongous object. -/
structure HumongousMove where
  /-- Its first region before the move. -/
  source : Nat
  /-- Its first region after the move. -/
  target : Nat
  size : WordCount
  copySize : WordCount
  /-- Its mark before it was given a new address. -/
  mark : Mark
  deriving DecidableEq, Repr, Inhabited

/-- Whether the object takes its hash along in a word of its own. -/
def HumongousMove.grown (v : HumongousMove) : Bool := v.size < v.copySize

theorem HumongousMove.grown_iff (v : HumongousMove) : v.grown ↔ v.size < v.copySize := by
  simp [grown]

/-! ### Planning -/

/-- The words of the humongous object that begins in a region. -/
def Heap.humongousSize (h : Heap) (t : ClassTable) (first : Nat) : Except Fault WordCount :=
  h.size t (h.region first).bottom

/-- Whether a region can take part of a humongous object. -/
def Region.isRoom (r : Region) : Bool :=
  match r.kind with
  | .free => true
  | .regular => r.compacting && r.compactionTop == r.bottom
  | _ => false

namespace Relocation

/-- Gives the humongous object that begins in a region a new place, if there is one. -/
def placeHumongous (s : Relocation) (t : ClassTable) (room : CompactionPoint) (first : Nat) :
    Except Fault (Option HumongousMove × CompactionPoint × Relocation) := do
  let object := (s.heap.region first).bottom
  let size ← s.heap.size t object
  let regions := (s.heap.layout.regionsFor size).toNat
  let mark := s.heap.memory.loadMark object
  let copySize ← s.heap.copySize t object mark true
  if (s.heap.layout.regionsFor copySize).toNat ≠ regions then return (none, room, s)
  match room.findRun first regions with
  | none => return (none, room, s)
  | some start =>
    let target := room.regionAt start
    let saved :=
      if s.forwarding.overwritesMarks then
        s.saved.save object mark s.heap.compactHeaders (size < copySize)
      else s.saved
    let forwarding ← s.forwarding.beginRegion first 1
    let (forwarding, memory) ←
      forwarding.forwardTo s.heap.memory object (s.heap.region target).bottom
    let heap := s.heap.withMemory memory
    let room := (room.addRun heap first regions).removeRange start regions
    let heap := (List.range' target regions).foldl
      (fun h i => h.modifyRegion i fun r => { r with compacting := true }) heap
    return (some ⟨first, target, size, copySize, mark⟩, room,
      { heap := heap, forwarding := forwarding, saved := saved })

/-- Goes over the regions from `index` on, of which there are at most `fuel`. -/
def placeAllFrom (t : ClassTable) : Nat → Nat → List Nat → CompactionPoint → Relocation →
    Except Fault (List HumongousMove × Relocation)
  | 0, _, _, _, s => .ok ([], s)
  | fuel + 1, index, pending, room, s =>
    if index < s.heap.regions.size then
      if pending.head? = some index then do
        let size ← s.heap.humongousSize t index
        let (move, room, s) ← s.placeHumongous t room index
        let (moves, s) ← placeAllFrom t fuel (index + (s.heap.layout.regionsFor size).toNat)
          pending.tail room s
        return (move.toList ++ moves, s)
      else
        let room := if (s.heap.region index).isRoom then room.add s.heap index else room
        placeAllFrom t fuel (index + 1) pending room s
    else .ok ([], s)

/-- Gives the live humongous objects, of which the first regions are given in ascending
order, new places where there are such. -/
def placeAllHumongous (s : Relocation) (t : ClassTable) (live : List Nat) :
    Except Fault (List HumongousMove × Relocation) :=
  placeAllFrom t s.heap.regions.size 0 live .empty s

end Relocation

/-! ### Moving -/

/-- Moves a humongous object, and frees the regions it leaves. -/
def HumongousMove.apply (v : HumongousMove) (h : Heap) (headerIntact : Bool) :
    Except Fault Heap := do
  let source := (h.region v.source).bottom
  let target := (h.region v.target).bottom
  let regions := (h.layout.regionsFor v.size).toNat
  let record : MoveRecord :=
    ⟨source, target, v.size, v.copySize, relocatedMark v.mark h.compactHeaders v.grown headerIntact⟩
  let h := h.withMemory (← record.copy h.memory)
  let left := (List.range' v.source regions).filter (v.target + regions ≤ ·)
  let h := left.foldl Heap.freeRegion h
  let h :=
    { h with starts := h.starts.clearRange source (h.region (v.source + regions - 1)).stop }
  return h.installHumongous v.target v.copySize

/-- Moves humongous objects, one after the other: how many words, and the heap after. -/
def applyHumongousMoves (h : Heap) (moves : List HumongousMove) (headerIntact : Bool) :
    Except Fault (Nat × Heap) := do
  let h ← moves.foldlM (fun h v => v.apply h headerIntact) h
  return ((moves.map (·.copySize.toNat)).foldr (· + ·) 0, h)

end MarkCompact
