/-
MarkCompact/Heap/StartTable.lean

Where objects begin, as far as one address for each block of words can tell.

The table keeps, for every block, the lowest object start recorded in it. The object
that covers an address begins at or after the nearest recorded start before the address,
so a walk from there, object by object, finds it.

Main results: `getElem?_record_self` (a record lowers the entry of its block to the
recorded start) and `getElem?_record_of_ne` (and no other).
-/
import MarkCompact.Heap.Layout

namespace MarkCompact

/-- The words of a block, as a power of two, in regions that are no smaller. -/
def startBlockShift : UInt32 := 6

/-- The lowest object start of each block. -/
structure StartTable where
  /-- The first address of block 0. -/
  base : Address
  /-- The bytes of a block, as a power of two. -/
  byteShift : UInt32
  entries : Array (Option Address)

namespace StartTable

/-- An empty table over a grid of regions. Blocks are no larger than regions. -/
def new (l : Layout) : StartTable :=
  let shift := min startBlockShift l.regionShift
  { base := l.base
    byteShift := shift + 3
    entries := Array.replicate (l.heapWords >>> shift.toUInt64).toNat none }

/-- The block of an address. -/
def blockOf (t : StartTable) (a : Address) : Nat := ((a - t.base) >>> t.byteShift.toUInt64).toNat

/-- The lowest start recorded in a block. -/
def entry (t : StartTable) (block : Nat) : Option Address := (t.entries[block]?).join

/-- The lower of a recorded start, if there is one, and a new one. -/
def lower (present : Option Address) (a : Address) : Address := present.elim a (min a)

/-- Records that an object begins at `a`. No object begins at the greatest address. -/
def record (t : StartTable) (a : Address) : StartTable :=
  { t with entries := t.entries.modify (t.blockOf a) fun present => (lower present a).asEntry }

/-- Forgets the starts in the blocks of a range. -/
def clearRange (t : StartTable) (start stop : Address) : StartTable :=
  if stop ≤ start then t
  else
    let first := t.blockOf start
    let last := t.blockOf (stop - 1)
    { t with
      entries := (List.range' first (last + 1 - first)).foldl
        (fun es b => es.modify b fun _ => none)
        t.entries }

/-- The lowest start recorded in the block of an address. -/
def startInBlock (t : StartTable) (a : Address) : Option Address := t.entry (t.blockOf a)

/-- The nearest recorded start up to `a`, looked for from a block down to another. -/
def nearest (t : StartTable) (a : Address) (floor : Nat) : Nat → Option Address
  | 0 => (t.entry 0).filter (· ≤ a)
  | block + 1 =>
    match (t.entry (block + 1)).filter (· ≤ a) with
    | some start => some start
    | none => if block + 1 = floor then none else nearest t a floor block

/-- The nearest recorded start up to `a`, not looked for below the block of `floor`. -/
def startBefore (t : StartTable) (a floor : Address) : Option Address :=
  t.nearest a (t.blockOf floor) (t.blockOf a)

@[simp] theorem blockOf_record (t : StartTable) (a b : Address) :
    (t.record a).blockOf b = t.blockOf b := rfl

theorem getElem?_record_self (t : StartTable) (a : Address) :
    (t.record a).entries[t.blockOf a]? =
      (t.entries[t.blockOf a]?).map fun present => (lower present a).asEntry := by
  simp [record, Array.getElem?_modify]

theorem getElem?_record_of_ne (t : StartTable) (a : Address) {block : Nat}
    (h : t.blockOf a ≠ block) : (t.record a).entries[block]? = t.entries[block]? := by
  simp [record, Array.getElem?_modify, h]

end StartTable

end MarkCompact
