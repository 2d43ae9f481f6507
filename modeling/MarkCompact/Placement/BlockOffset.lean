/-
MarkCompact/Placement/BlockOffset.lean

New addresses computed from the bitmap.

The heap is cut into blocks of equal size. All objects that begin in one block go, packed,
to one destination space; so one address for each block is enough, and the new address of
an object is that address plus the live words between the start of the block and the
object. An object that began in an earlier block and reaches into this one counts among
those words, and the entry of the block is lowered by its words there to make up for it.
An entry that comes out as the greatest address is none; addresses counted from it are the
same, since a missing entry is counted from there too.

* `build` goes over the blocks of the sources in order and fills the spaces in order;
* `forwardee` is the new address of a live object;
* `referencePass` says the same without a table: it assigns the addresses object by
  object.

Main result: `entry_clear` (a cleared table has no entries).
-/
import MarkCompact.Error
import MarkCompact.Liveness.Bitmap

namespace MarkCompact

/-- A space that is filled with objects. -/
structure Space where
  bottom : Address
  /-- The address after the space. -/
  stop : Address
  /-- The address after the objects in it. -/
  top : Address
  deriving DecidableEq, Repr, Inhabited

namespace Space

/-- A space without objects. -/
def new (bottom stop : Address) : Space := ⟨bottom, stop, bottom⟩

def freeWords (s : Space) : WordCount := s.top.wordsTo s.stop

def usedWords (s : Space) : WordCount := s.bottom.wordsTo s.top

end Space

/-- For each block, the new address of what begins in it. -/
structure BlockOffsets where
  base : Address
  /-- The words of a block, as a power of two. -/
  blockShift : UInt32
  /-- The entry of each block in which an object begins. -/
  entries : Array (Option Address)
  deriving Repr, Inhabited

namespace BlockOffsets

/-- The words of a block of a given size. -/
def wordsOf (blockShift : UInt32) : WordCount := 1 <<< blockShift.toUInt64

/-- A table without entries, over so many words. -/
def new (base : Address) (words : WordCount) (blockShift : UInt32) : BlockOffsets :=
  let block := (wordsOf blockShift).toNat
  ⟨base, blockShift, Array.replicate ((words.toNat + (block - 1)) / block) none⟩

/-- The words of a block. -/
def blockWords (t : BlockOffsets) : WordCount := wordsOf t.blockShift

/-- The bytes of a block. -/
def blockBytes (t : BlockOffsets) : UInt64 := t.blockWords <<< wordShift

/-- The block of an address. -/
def blockOf (t : BlockOffsets) (a : Address) : Nat :=
  ((a - t.base) >>> (t.blockShift + 3).toUInt64).toNat

/-- The first address of a block. -/
def blockStart (t : BlockOffsets) (block : Nat) : Address :=
  t.base + (block.toUInt64 <<< (t.blockShift + 3).toUInt64)

/-- The entry of a block, if an object begins in it. -/
def entry (t : BlockOffsets) (block : Nat) : Option Address := (t.entries[block]?).join

/-- Drops all entries. -/
def clear (t : BlockOffsets) : BlockOffsets :=
  { t with entries := Array.replicate t.entries.size none }

/-- The new address of a live object. In a block without an entry it is counted from the
greatest address. -/
def forwardee (t : BlockOffsets) (b : Bitmap) (object : Address) : Address :=
  let block := t.blockOf object
  let before := (b.countWords (t.blockStart block) object).toUInt64
  (t.entry block).getD Address.greatest + before * wordBytes

/-! ### Filling the table -/

/-- The table on its way, and the spaces. -/
structure Filling where
  table : BlockOffsets
  spaces : Array Space
  /-- The space that is being filled. -/
  space : Nat
  deriving Inhabited

namespace Filling

/-- The space that is being filled. -/
def target (f : Filling) : Space := f.spaces[f.space]?.getD default

/-- Goes on to the first space in which so many words fit. -/
def makeRoom (f : Filling) (words : WordCount) (block : Nat) : Except Fault Filling :=
  if words ≤ f.target.freeWords then .ok f
  else if f.space + 1 < f.spaces.size then makeRoom { f with space := f.space + 1 } words block
  else .error (.outOfSpaces words block)
termination_by f.spaces.size - f.space

/-- Fills in the entry of the block that begins at `start`, in a source that ends at `top`. -/
def addBlock (b : Bitmap) (top : Address) (f : Filling) (start : Address) :
    Except Fault Filling := do
  let stop := min (start + f.table.blockBytes) top
  let block := f.table.blockOf start
  let first := b.nextMarked start stop
  if stop ≤ first then
    return { f with table := { f.table with entries := f.table.entries.setIfInBounds block none } }
  let tail := (b.countWords start first).toUInt64
  let next := b.nextMarked stop top
  let words := (b.countWords first next).toUInt64
  let f ← f.makeRoom words block
  let target := f.target.top
  return { f with
    table :=
      { f.table with
        entries := f.table.entries.setIfInBounds block (target - tail * wordBytes).asEntry }
    spaces := f.spaces.modify f.space fun s => { s with top := target.offset words } }

end Filling

/-- The first addresses of the blocks from `bottom` up to `top`. -/
def blockStarts (t : BlockOffsets) (bottom top : Address) : List Address :=
  if bottom < top then
    let bytes := t.blockBytes.toNat
    (List.range (((top - bottom).toNat + (bytes - 1)) / bytes)).map fun i =>
      bottom + i.toUInt64 * t.blockBytes
  else []

/-- Fills in the entries of all blocks of the sources, each from its bottom to its top. The
answer is the table, the filled spaces and the last space that has been filled. -/
def build (t : BlockOffsets) (b : Bitmap) (sources : List (Address × Address))
    (spaces : Array Space) : Except Fault Filling :=
  sources.foldlM
    (fun f (bottom, top) => (f.table.blockStarts bottom top).foldlM (Filling.addBlock b top) f)
    ⟨t, spaces, 0⟩

@[simp] theorem entry_clear (t : BlockOffsets) (block : Nat) : t.clear.entry block = none := by
  unfold entry clear
  rw [Array.getElem?_replicate]
  split <;> rfl

/-! ### Without a table -/

/-- The words from an object up to the next live object or `top`, as far as they are
live. -/
def liveExtent (b : Bitmap) (top object : Address) : WordCount :=
  (b.countWords object (b.nextMarked (object + wordBytes) top)).toUInt64

/-- Lays objects out one after the other from `target` on. -/
def layOut (b : Bitmap) (top : Address) : Address → List Address → List (Address × Address)
  | _, [] => []
  | target, object :: rest =>
    (object, target) :: layOut b top (target.offset (liveExtent b top object)) rest

/-- Goes on to the first space in which so many words fit. The spaces before it are left. -/
def firstFitting (words : WordCount) : List Space → Option (Space × List Space)
  | [] => none
  | s :: rest => if words ≤ s.freeWords then some (s, rest) else firstFitting words rest

/-- The new addresses of all objects, source by source and in each source group by group; a
group is what begins in one block. -/
def referencePass (b : Bitmap) :
    List (Address × List Address) → List Space → Option (List (Address × Address))
  | [], _ => some []
  | (_, []) :: groups, spaces => referencePass b groups spaces
  | (top, object :: rest) :: groups, spaces => do
    let words := ((object :: rest).map (liveExtent b top)).foldr (· + ·) 0
    let (s, left) ← firstFitting words spaces
    let later ← referencePass b groups ({ s with top := s.top.offset words } :: left)
    return layOut b top s.top (object :: rest) ++ later

end BlockOffsets

end MarkCompact
