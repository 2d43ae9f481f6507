/-
MarkCompact/Forwarding/Dense.lean

New addresses in one table for each region.

A region's table is made for an announced number of moving objects and never grows. The
slot that an object is looked for first is the place of the object in the region, scaled
to the table; from there slot after slot is tried, around the end of the table. Zero is
no address of an object, and stands for a vacant slot.

Objects mostly come in the order of their addresses. The table remembers the greatest
address that came in order and its slot. As the scaled places ascend with the addresses,
all slots from the scaled place of that address up to its slot are taken by objects
below it; a greater address may therefore start right behind.

* `RegionTable` is the table of one region, with `lookup` and `insert`;
* `insertPlain` inserts without the short cut;
* `Dense` is the tables of all regions.

An object too many is a fault, and so is one without a table.

Main results: `expected_lt_capacityFor` (a vacant slot is always left) and
`isPowerOfTwo_capacityFor` (the slots are a power of two).
-/
import MarkCompact.Heap.Layout
import MarkCompact.Error
import MarkCompact.Forwarding.Capacity

namespace MarkCompact

/-! ### One region -/

/-- An entry of a table. A zero source stands for a vacant slot. -/
structure DenseSlot where
  source : Address
  target : Address
  deriving DecidableEq, Repr, Inhabited

/-- The new addresses of the objects of one region. -/
structure RegionTable where
  bottom : Address
  regionWords : WordCount
  /-- The announced number of objects. -/
  expected : Nat
  slots : Array DenseSlot
  entries : Nat
  /-- The greatest address that came in order, zero before the first. -/
  lastAddress : Address
  /-- Its slot. -/
  lastSlot : UInt64
  /-- The most slots that one insertion has tried. -/
  maxScan : UInt64
  deriving Repr, Inhabited

namespace RegionTable

/-- The least whole number that is no less than a quotient. -/
def roundedUp (quotient : Float) : Nat :=
  let whole := quotient.toUInt64
  if whole.toFloat < quotient then whole.toNat + 1 else whole.toNat

/-- The slots of a table for so many objects: a power of two that leaves one slot vacant,
and fills no more of the table than the load factor allows. -/
def capacityFor (expected : Nat) (loadFactor : Float) : Nat :=
  powerOfTwoFrom (max (roundedUp (expected.toUInt64.toFloat / loadFactor)) (expected + 1))

/-- An empty table. -/
def new (bottom : Address) (regionWords : WordCount) (expected : Nat) (loadFactor : Float) :
    RegionTable :=
  { bottom, regionWords, expected
    slots := Array.replicate (capacityFor expected loadFactor) ⟨0, 0⟩
    entries := 0, lastAddress := 0, lastSlot := 0, maxScan := 0 }

/-- The number of slots. -/
def capacity (t : RegionTable) : Nat := t.slots.size

/-- The number of slots less one, which cuts a number off to a slot. -/
def mask (t : RegionTable) : UInt64 := t.capacity.toUInt64 - 1

/-- The slot that an address is looked for first, the end of the table not yet considered. -/
def home (t : RegionTable) (a : Address) : UInt64 :=
  t.bottom.wordsTo a * t.capacity.toUInt64 / t.regionWords

/-- A slot. -/
def slot (t : RegionTable) (index : UInt64) : DenseSlot := t.slots[index.toNat]?.getD default

/-- The first of some slots from `index` on, around the end of the table, that holds a
source or is vacant. -/
def probe (t : RegionTable) (source : Address) : Nat → UInt64 → Option UInt64
  | 0, _ => none
  | steps + 1, index =>
    let here := index &&& t.mask
    if (t.slot here).source = source || (t.slot here).source = 0 then some here
    else t.probe source steps (index + 1)

/-- The target of an address, if it has one. -/
def lookup (t : RegionTable) (source : Address) : Option Address :=
  match t.probe source t.capacity (t.home source) with
  | some index =>
    if (t.slot index).source = 0 then none else some (t.slot index).target
  | none => none

/-- Whether an address is greater than all that came in order. -/
def isInOrder (t : RegionTable) (source : Address) : Bool :=
  t.lastAddress == 0 || t.lastAddress < source

/-- The slot from which an insertion tries. -/
def insertionStart (t : RegionTable) (source : Address) : UInt64 :=
  if t.lastAddress != 0 && t.lastAddress < source && t.home source ≤ t.lastSlot then t.lastSlot + 1
  else t.home source

/-- The table with another entry in a slot. -/
def setSlot (t : RegionTable) (index : UInt64) (entry : DenseSlot) : RegionTable :=
  { t with slots := t.slots.setIfInBounds index.toNat entry }

/-- Inserts an entry, trying slots from `start` on. An address that has an entry gets the
new target. -/
def insertFrom (t : RegionTable) (start : UInt64) (source target : Address) :
    Except Fault RegionTable :=
  match t.probe source t.capacity start with
  | none => .error (.tableFull t.bottom t.capacity)
  | some index =>
    if (t.slot index).source = source then .ok (t.setSlot index ⟨source, target⟩)
    else if t.entries < t.expected then
      let scan := ((index - t.home source) &&& t.mask) + 1
      let t' := t.setSlot index ⟨source, target⟩
      .ok
        { t' with
          entries := t.entries + 1
          maxScan := max t.maxScan scan
          lastAddress := if t.isInOrder source then source else t.lastAddress
          lastSlot := if t.isInOrder source then index else t.lastSlot }
    else .error (.tableOverflow t.bottom t.expected)

/-- Inserts an entry. -/
def insert (t : RegionTable) (source target : Address) : Except Fault RegionTable :=
  t.insertFrom (t.insertionStart source) source target

theorem expected_lt_capacityFor (expected : Nat) (loadFactor : Float) :
    expected < capacityFor expected loadFactor := by
  have enough := le_powerOfTwoFrom
    (max (roundedUp (expected.toUInt64.toFloat / loadFactor)) (expected + 1))
  have := Nat.le_max_right (roundedUp (expected.toUInt64.toFloat / loadFactor)) (expected + 1)
  unfold capacityFor
  omega

theorem isPowerOfTwo_capacityFor (expected : Nat) (loadFactor : Float) :
    (capacityFor expected loadFactor).isPowerOfTwo :=
  isPowerOfTwo_powerOfTwoFrom _

end RegionTable

/-! ### All regions -/

/-- The tables of the regions of a heap. -/
structure Dense where
  layout : Layout
  loadFactor : Float
  /-- The table of each region that has one. -/
  tables : Array (Option RegionTable)
  deriving Inhabited

namespace Dense

/-- No region has a table. -/
def new (l : Layout) (loadFactor : Float) : Dense :=
  ⟨l, loadFactor, Array.replicate l.numRegions none⟩

/-- Drops all tables. -/
def clear (d : Dense) : Dense := new d.layout d.loadFactor

/-- The table of a region. -/
def table (d : Dense) (region : Nat) : Option RegionTable := (d.tables[region]?).join

/-- Makes the table of a region for so many objects. -/
def beginRegion (d : Dense) (region expected : Nat) : Except Fault Dense :=
  match d.table region with
  | some _ => .error (.secondTable region)
  | none =>
    .ok
      { d with
        tables := d.tables.setIfInBounds region
          (some (.new (d.layout.bottom region) d.layout.regionWords expected d.loadFactor)) }

/-- The new address of an object, if it has one. -/
def forwardee (d : Dense) (object : Address) : Option Address :=
  (d.table (d.layout.indexOf object)).bind (·.lookup object)

/-- Gives an object a new address. -/
def forwardTo (d : Dense) (object target : Address) : Except Fault Dense :=
  let region := d.layout.indexOf object
  match d.table region with
  | some t => do
    return { d with tables := d.tables.setIfInBounds region (← t.insert object target) }
  | none => .error (.noTable object region)

/-- Gives an object a new address unless it has one: then that one is the answer. -/
def claim (d : Dense) (object target : Address) : Except Fault (Option Address × Dense) :=
  match d.forwardee object with
  | some existing => .ok (some existing, d)
  | none => (d.forwardTo object target).map fun d => (none, d)

/-- The entries of all tables. -/
def entries (d : Dense) : Nat :=
  ((d.tables.toList.filterMap id).map RegionTable.entries).foldr (· + ·) 0

/-- The most slots that one insertion into any table has tried. -/
def maxScan (d : Dense) : UInt64 :=
  ((d.tables.toList.filterMap id).map RegionTable.maxScan).foldl max 0

end Dense

end MarkCompact
