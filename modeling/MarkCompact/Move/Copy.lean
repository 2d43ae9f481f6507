/-
MarkCompact/Move/Copy.lean

Moving one object.

A move is planned completely before anything is written: where the object goes, how
large it is here and there, and the mark it gets. If it is larger there, by one word,
that word is the hash of its old address.

* `relocatedMark` is the mark at the destination;
* `MoveRecord.copy` moves an object in memory, `MoveRecord.image` is what would then
  stand at the destination, for a shadow;
* `CopyCount` counts what has been moved. Its word count wraps at 64 bits.

Main result: `length_image` (the image has as many words as the destination).
-/
import MarkCompact.Heap.Memory

namespace MarkCompact

/-- The mark of a moved object. A mark that forwarding has left alone stays, and only
notes that the object has `grown`; any other one is made anew. -/
def relocatedMark (mark : Mark) (compact grown headerIntact : Bool) : Mark :=
  if headerIntact then (if grown then mark.withExpanded else mark)
  else mark.relocated compact grown

/-- A planned move. -/
structure MoveRecord where
  source : Address
  target : Address
  /-- The words of the object before the move. -/
  size : WordCount
  /-- The words of the object after the move. -/
  copySize : WordCount
  /-- The mark of the object after the move. -/
  mark : Mark
  deriving DecidableEq, Repr, Inhabited

/-- What has been moved. -/
structure CopyCount where
  objects : Nat
  words : WordCount
  grown : Nat
  deriving DecidableEq, Repr, Inhabited

/-- Nothing has been moved. -/
def CopyCount.zero : CopyCount := ⟨0, 0, 0⟩

namespace MoveRecord

/-- Whether the object takes its hash along in a word of its own. -/
def grown (r : MoveRecord) : Bool := r.size < r.copySize

/-- Moves the object. -/
def copy (r : MoveRecord) (m : Memory) : Except Fault Memory := do
  let m ← m.copyWords r.source r.target r.size
  let m :=
    if r.grown then m.store (r.target.offset r.size) r.source.identityHash.toUInt64 else m
  return m.storeMark r.target r.mark

/-- Moves several objects, one after the other. -/
def copyAll (rs : List MoveRecord) (m : Memory) : Except Fault Memory :=
  rs.foldlM (fun m r => r.copy m) m

/-- The words of the object at its destination. -/
def image (r : MoveRecord) (m : Memory) : List Word :=
  let words := m.readWords r.source r.size.toNat ++
    (if r.grown then [r.source.identityHash.toUInt64] else [])
  words.set 0 r.mark.raw

/-- The words of several objects at their destinations, without gaps. -/
def images (rs : List MoveRecord) (m : Memory) : List Word :=
  rs.flatMap (·.image m)

/-- Counts a move. -/
def count (r : MoveRecord) (c : CopyCount) : CopyCount :=
  ⟨c.objects + 1, c.words + r.copySize, c.grown + if r.grown then 1 else 0⟩

/-- Counts several moves. -/
def countAll (rs : List MoveRecord) (c : CopyCount) : CopyCount :=
  rs.foldl (fun c r => r.count c) c

theorem length_image (r : MoveRecord) (m : Memory) :
    (r.image m).length = r.size.toNat + if r.grown then 1 else 0 := by
  unfold image
  cases r.grown <;> simp [Memory.readWords]

end MoveRecord

end MarkCompact
