/-
MarkCompact/Placement/Cursor.lean

A compaction point: the place where the next live object goes.

A compaction point holds a sequence of regions and a cursor in one of them. Live objects
are offered to it in the order of their addresses. Each is placed at the cursor, or in
the next region of the sequence if it does not fit there. An object that already lies at
the cursor stays and is given no new address.

An encoding may limit the number of regions to which the objects of one region go. Once a
region has used them up its other objects stay where they are, and the cursor goes to
them; what is left of the regions in between stays empty.

The same sequence serves to find room for a humongous object: `findRun` looks for
adjacent regions in it.

Main results: `findRun_empty` and `findRun_one` (the two ends of the search for room).
-/
import MarkCompact.Object
import MarkCompact.Object.SavedMarks
import MarkCompact.Forwarding

namespace MarkCompact

/-- A heap whose objects are being given new addresses. -/
structure Relocation where
  heap : Heap
  forwarding : Forwarding
  saved : SavedMarks

/-- Where an object goes. -/
structure PlacedObject where
  target : Address
  /-- The words it takes there. -/
  words : WordCount
  moved : Bool
  deriving DecidableEq, Repr, Inhabited

/-- What a compaction point has done. -/
structure PlacementCount where
  placed : Nat
  forwarded : Nat
  grown : Nat
  preserved : Nat
  /-- Objects that stay because their region has no destination left. -/
  keptInPlace : Nat
  deriving DecidableEq, Repr, Inhabited

/-- A sequence of regions and the place in them where the next object goes. -/
structure CompactionPoint where
  regions : Array Nat
  /-- The place in the sequence of the open region. -/
  current : Nat
  /-- The place of the next object. -/
  top : Address
  stage : Stage
  count : PlacementCount
  /-- The region of the object that was placed last. -/
  source : Option Nat
  /-- The regions to which objects of that region have gone. -/
  targets : List Nat
  deriving Repr, Inhabited

namespace CompactionPoint

/-- A compaction point without regions. -/
def empty : CompactionPoint :=
  { regions := #[], current := 0, top := 0, stage := .waiting, count := ⟨0, 0, 0, 0, 0⟩
    source := none, targets := [] }

/-! ### The sequence -/

/-- A region of the sequence. -/
def regionAt (p : CompactionPoint) (position : Nat) : Nat := p.regions[position]?.getD 0

/-- The open region. -/
def openRegion (p : CompactionPoint) : Nat := p.regionAt p.current

/-- The open region, if one has been opened. -/
def currentRegion (p : CompactionPoint) : Option Nat :=
  match p.stage with
  | .waiting => none
  | _ => p.regions[p.current]?

/-- Opens a region of the sequence where objects were last placed in it. -/
def resumeAt (p : CompactionPoint) (h : Heap) (position : Nat) : CompactionPoint :=
  { p with
    current := position
    top := (h.region (p.regionAt position)).compactionTop
    stage := .active }

/-- Adds a region to the sequence, and opens it if it is the first. -/
def add (p : CompactionPoint) (h : Heap) (region : Nat) : CompactionPoint :=
  let p' := { p with regions := p.regions.push region }
  if p.stage = .waiting then p'.resumeAt h p.regions.size else p'

/-- Leaves in the open region how far objects have been placed in it. -/
def saveTop (p : CompactionPoint) (h : Heap) : Heap :=
  h.modifyRegion p.openRegion fun r => { r with compactionTop := p.top }

/-- Opens the next region of the sequence. -/
def switchRegion (p : CompactionPoint) (h : Heap) : Except Fault (CompactionPoint × Heap) :=
  let h := p.saveTop h
  if p.current + 1 < p.regions.size then .ok (p.resumeAt h (p.current + 1), h)
  else .error (.outOfRegions p.openRegion)

/-- Closes the open region. -/
def finish (p : CompactionPoint) (h : Heap) : CompactionPoint × Heap :=
  ({ p with stage := .done }, if p.stage = .active then p.saveTop h else h)

/-! ### Placing objects -/

/-- Whether so many words are left in the open region. -/
def fits (p : CompactionPoint) (h : Heap) (words : WordCount) : Bool :=
  words ≤ p.top.wordsTo (h.region p.openRegion).stop

/-- The words an object takes at an address: it grows only if it moves. -/
def wordsAt (object : Address) (size copySize : WordCount) (a : Address) : WordCount :=
  if a = object then size else copySize

/-- Opens regions until the object fits. -/
def makeRoom (p : CompactionPoint) (h : Heap) (object : Address) (size copySize : WordCount) :
    Except Fault (CompactionPoint × Heap) :=
  if p.fits h (wordsAt object size copySize p.top) then .ok (p, h)
  else if p.current + 1 < p.regions.size then
    makeRoom (p.resumeAt (p.saveTop h) (p.current + 1)) (p.saveTop h) object size copySize
  else .error (.outOfRegions p.openRegion)
termination_by p.regions.size - p.current
decreasing_by
  simp only [resumeAt]
  omega

/-- Whether objects of the present source region may go to a region. -/
def mayEnter (p : CompactionPoint) (f : Forwarding) (region : Nat) : Bool :=
  match f.targetsPerRegion with
  | some limit => p.targets.length < limit || p.targets.contains region
  | none => true

/-- Puts the cursor on an object of the region `source`. The regions in between stay as
they are. -/
def keepInPlace (p : CompactionPoint) (h : Heap) (source : Nat) (object : Address) :
    Except Fault (CompactionPoint × Heap) :=
  if p.openRegion = source then .ok ({ p with top := object }, h)
  else
    match (p.regions.toList.drop p.current).findIdx? (· == source) with
    | some steps => .ok ({ p with current := p.current + steps, top := object }, p.saveTop h)
    | none => .error (.foreignRegion source)

/-- The compaction point, ready for objects of a region. -/
def enterSource (p : CompactionPoint) (source : Nat) : CompactionPoint :=
  if p.source = some source then p else { p with source := some source, targets := [] }

/-- The place of an object: the cursor, unless the encoding allows no further region. -/
def choose (p : CompactionPoint) (s : Relocation) (source : Nat) (object : Address) :
    Except Fault (CompactionPoint × Heap) :=
  if p.top ≠ object && !p.mayEnter s.forwarding (s.heap.layout.indexOf p.top) then do
    let (p, h) ← p.keepInPlace s.heap source object
    return ({ p with count := { p.count with keptInPlace := p.count.keptInPlace + 1 } }, h)
  else .ok (p, s.heap)

/-- Records the new address of an object, the cursor, and saves its mark if need be. -/
def moveToTop (p : CompactionPoint) (s : Relocation) (object : Address) (mark : Mark)
    (grown : Bool) : Except Fault (CompactionPoint × Relocation) := do
  let region := s.heap.layout.indexOf p.top
  let targets := if p.targets.contains region then p.targets else p.targets ++ [region]
  let saves := s.forwarding.overwritesMarks && mark.mustPreserve s.heap.compactHeaders
  let saved :=
    if s.forwarding.overwritesMarks then s.saved.save object mark s.heap.compactHeaders grown
    else s.saved
  let (forwarding, memory) ← s.forwarding.forwardTo s.heap.memory object p.top
  let count :=
    { p.count with
      preserved := p.count.preserved + if saves then 1 else 0
      forwarded := p.count.forwarded + 1
      grown := p.count.grown + if grown then 1 else 0 }
  return ({ p with targets := targets, count := count },
    { heap := s.heap.withMemory memory, forwarding := forwarding, saved := saved })

/-- Places an object of so many words. -/
def place (p : CompactionPoint) (s : Relocation) (t : ClassTable) (object : Address)
    (size : WordCount) : Except Fault (PlacedObject × CompactionPoint × Relocation) := do
  if p.stage ≠ .active then throw (.notActive p.stage)
  let mark := s.heap.memory.loadMark object
  let copySize ← s.heap.copySize t object mark true
  let source := s.heap.layout.indexOf object
  let (p, heap) ← (p.enterSource source).makeRoom s.heap object size copySize
  let (p, heap) ← p.choose { s with heap := heap } source object
  let moved := p.top ≠ object
  let words := wordsAt object size copySize p.top
  let (p, s) ←
    if moved then p.moveToTop { s with heap := heap } object mark (size < words)
    else pure (p, { s with heap := heap })
  let target := p.top
  let p :=
    { p with
      top := target.offset words
      count := { p.count with placed := p.count.placed + 1 } }
  return (⟨target, words, moved⟩, p, { s with heap := s.heap.recordStart target })

/-! ### Room for humongous objects -/

/-- Follows a run of adjacent regions, of which `run` end just before `last`, through the
rest of the sequence until it has `wanted` regions: the length of the run and its last
region, and how far the sequence was followed. -/
def followRun (wanted : Nat) : Nat → Nat → Nat → List Nat → Nat × Nat × Nat
  | run, last, stop, [] => (run, last, stop)
  | run, last, stop, next :: rest =>
    if run = wanted then (run, last, stop)
    else followRun wanted (if next - last = 1 then run + 1 else 1) next (stop + 1) rest

/-- The position of the first run of so many adjacent regions. At the end of the sequence a
shorter run will do if the regions from `source` on continue it. -/
def findRun (p : CompactionPoint) (source wanted : Nat) : Option Nat :=
  match p.regions.toList with
  | [] => none
  | first :: rest =>
    if wanted = 1 then some 0
    else
      let (run, last, stop) := followRun wanted 1 first 1 rest
      if run < wanted && source - last != 1 then none else some (stop - run)

/-- Adds the regions of a humongous object. -/
def addRun (p : CompactionPoint) (h : Heap) (first regions : Nat) : CompactionPoint :=
  (List.range' first regions).foldl (fun p i => p.add h i) p

/-- Drops regions from the sequence. -/
def removeRange (p : CompactionPoint) (start regions : Nat) : CompactionPoint :=
  let stop := min (start + regions) p.regions.size
  let left := p.regions.extract 0 start ++ p.regions.extract stop p.regions.size
  { p with
    regions := left
    current := if left.size ≤ p.current then left.size - 1 else p.current }

/-- Whether the sequence has regions. -/
def hasRegions (p : CompactionPoint) : Bool := !p.regions.isEmpty

@[simp] theorem findRun_empty (source wanted : Nat) : empty.findRun source wanted = none := rfl

theorem findRun_one {p : CompactionPoint} (h : p.hasRegions) (source : Nat) :
    p.findRun source 1 = some 0 := by
  unfold findRun
  split
  · rename_i none
    simp [hasRegions, Array.toList_eq_nil_iff] at h none
    exact absurd none h
  · rfl

end CompactionPoint

end MarkCompact
