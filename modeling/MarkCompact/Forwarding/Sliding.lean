/-
MarkCompact/Forwarding/Sliding.lean

New addresses as offsets from one of two bases.

In a sliding compaction the objects of one region go to at most two regions: the rest of
the one that is being filled, and the next one. So a region remembers the bases of two
targets, and the mark of an object needs only a bit that selects one of them and the
offset from it, in words. The class and the hash state of a compact mark lie outside the
bits used, and stay.

* `claimBase` finds the slot of a base, and remembers the base if a slot is left;
* `encode` gives the bits of a new address, `decode` reads them;
* the other operations are those of every encoding, over marks that hold such bits.

A third target for one region is a fault, and so is a mark that selects a slot in which
no base was ever remembered.

Main results: `claimBase_known` (a remembered base takes up no further slot) and
`decode_of_unused` (which slot a faulty mark selects).
-/
import MarkCompact.Forwarding.Header
import MarkCompact.Heap.Layout

namespace MarkCompact

/-- The number of targets that the objects of one region may have. -/
def basesPerRegion : Nat := 2

/-- The bits of an offset. -/
def offsetMask : Word := 0xfffffe00

/-- The bit that selects the second base. -/
def secondBaseBit : Word := 0b1000

/-- All bits of a mark that hold an encoded address, a lock or an age. -/
def encodedMask : Word := 0b1111111 ||| offsetMask

/-- The bases of the targets of every region. -/
structure Sliding where
  layout : Layout
  /-- The slots of all regions, those of region 0 first. -/
  bases : Array (Option Address)
  deriving Repr, Inhabited

namespace Sliding

/-- Room for the bases of every region of a grid, none remembered. -/
def new (l : Layout) : Except Fault Sliding :=
  if l.regionShift ≤ greatestRegionShift then
    .ok ⟨l, Array.replicate (l.numRegions * basesPerRegion) none⟩
  else .error (.regionTooWide l.regionShift)

/-- Forgets all bases. -/
def clear (s : Sliding) : Sliding := { s with bases := Array.replicate s.bases.size none }

/-- The number of bases that are remembered. -/
def claimed (s : Sliding) : Nat := s.bases.toList.countP Option.isSome

/-- What a slot of a region remembers. -/
def base (s : Sliding) (region slot : Nat) : Option Address :=
  (s.bases[region * basesPerRegion + slot]?).join

/-- Remembers a base in a slot of a region. The greatest address leaves the slot unused. -/
def setBase (s : Sliding) (region slot : Nat) (target : Address) : Sliding :=
  { s with bases := s.bases.setIfInBounds (region * basesPerRegion + slot) target.asEntry }

/-- The slot of a region that holds a base. The first unused one takes the base if no slot
before it has it. -/
def claimBase (s : Sliding) (region : Nat) (target : Address) : Except Fault (Nat × Sliding) :=
  match s.base region 0 with
  | none => .ok (0, s.setBase region 0 target)
  | some first =>
    if first = target then .ok (0, s)
    else
      match s.base region 1 with
      | none => .ok (1, s.setBase region 1 target)
      | some second =>
        if second = target then .ok (1, s)
        else .error (.thirdTarget region first second target)

/-! ### Encoded addresses -/

/-- The bits of a mark that stand for the new address of an object. -/
def encode (s : Sliding) (object target : Address) : Except Fault (Word × Sliding) := do
  let base := s.layout.baseOf target
  let (slot, s) ← s.claimBase (s.layout.indexOf object) base
  let offset := base.wordsTo target
  return ((offset <<< 9) ||| (if slot = 1 then secondBaseBit else 0) ||| 0b11, s)

/-- The new address that the bits of a mark stand for. -/
def decode (s : Sliding) (object : Address) (bits : Word) : Except Fault Address :=
  let slot := if bits &&& secondBaseBit != 0 then 1 else 0
  match s.base (s.layout.indexOf object) slot with
  | some base => .ok (base.offset ((bits &&& offsetMask) >>> 9))
  | none => .error (.unclaimedTarget object slot.toUInt64)

/-- A mark with a new address in it. -/
def merge (s : Sliding) (mark : Mark) (object target : Address) :
    Except Fault (Mark × Sliding) := do
  let (bits, s) ← s.encode object target
  return (⟨(mark.raw &&& ~~~encodedMask) ||| bits⟩, s)

/-- The target that the mark of an object holds, if it is forwarded. -/
def target (s : Sliding) (mark : Mark) (object : Address) : Except Fault (Option Address) :=
  if !mark.isForwarded then .ok none
  else if mark.isSelfForwarded then .ok (some object)
  else (s.decode object mark.raw).map some

/-! ### Objects -/

/-- The new address of an object, if it has one. -/
def forwardee (s : Sliding) (m : Memory) (object : Address) : Except Fault (Option Address) :=
  s.target (m.loadMark object) object

/-- Gives an object a new address. -/
def forwardTo (s : Sliding) (m : Memory) (object target : Address) :
    Except Fault (Sliding × Memory) := do
  let (mark, s) ← s.merge (m.loadMark object) object target
  return (s, m.storeMark object mark)

/-- Gives an object a new address unless it has one: then that one is the answer. The base
of the target is remembered in either case. -/
def claim (s : Sliding) (m : Memory) (object target : Address) (expected : Mark) :
    Except Fault (Option Address × Sliding × Memory) := do
  let (mark, s) ← s.merge expected object target
  let (other, m) ← settle m object expected mark fun found => s.target found object
  return (other, s, m)

/-- Keeps an object where it is unless it has a new address: then that one is the answer. -/
def claimSelf (s : Sliding) (m : Memory) (object : Address) (expected : Mark) :
    Except Fault (Option Address × Memory) :=
  settle m object expected expected.selfForwarded fun found => s.target found object

theorem claimBase_known {s : Sliding} {region : Nat} {target : Address}
    (h : s.base region 0 = some target) : s.claimBase region target = .ok (0, s) := by
  simp [claimBase, h]

theorem decode_of_unused {s : Sliding} {object : Address} {bits : Word}
    (second : bits &&& secondBaseBit = 0) (h : s.base (s.layout.indexOf object) 0 = none) :
    s.decode object bits = .error (.unclaimedTarget object 0) := by
  simp [decode, second, h]

end Sliding

end MarkCompact
