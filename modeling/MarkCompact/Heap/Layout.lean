/-
MarkCompact/Heap/Layout.lean

The grid of regions: which region an address lies in, and where each region begins.

All regions have the same size, a power of two of words, so the grid is a base, a shift
and a count. Arithmetic wraps at 64 bits.

Main results: region 0 begins at the base (`bottom_zero`), a region ends where the next
one begins (`regionStop_eq_bottom_succ`), and the last one where the grid does
(`bottom_numRegions`).
-/
import MarkCompact.Address

namespace MarkCompact

/-- A grid of regions. -/
structure Layout where
  /-- The first address of region 0. -/
  base : Address
  /-- The words of a region, as a power of two. -/
  regionShift : UInt32
  numRegions : Nat
  deriving DecidableEq, Repr, Inhabited

namespace Layout

/-- The bytes of a region, as a power of two. -/
def byteShift (l : Layout) : UInt32 := l.regionShift + 3

/-- The words of a region. -/
def regionWords (l : Layout) : WordCount := 1 <<< l.regionShift.toUInt64

/-- The bytes of a region. -/
def regionBytes (l : Layout) : UInt64 := 1 <<< l.byteShift.toUInt64

/-- The words of all regions. -/
def heapWords (l : Layout) : WordCount := l.numRegions.toUInt64 <<< l.regionShift.toUInt64

/-- The address after the last region. -/
def stop (l : Layout) : Address := l.base + (l.numRegions.toUInt64 <<< l.byteShift.toUInt64)

/-- Whether an address lies in a region. -/
def contains (l : Layout) (a : Address) : Bool := l.base ≤ a && a < l.stop

/-- The region of an address. -/
def indexOf (l : Layout) (a : Address) : Nat := ((a - l.base) >>> l.byteShift.toUInt64).toNat

/-- The first address of a region. -/
def bottom (l : Layout) (index : Nat) : Address :=
  l.base + (index.toUInt64 <<< l.byteShift.toUInt64)

/-- The address after a region. -/
def regionStop (l : Layout) (index : Nat) : Address := l.bottom (index + 1)

/-- The first address of the region of an address. -/
def baseOf (l : Layout) (a : Address) : Address := l.bottom (l.indexOf a)

/-- The number of regions that hold so many words. -/
def regionsFor (l : Layout) (words : WordCount) : UInt64 :=
  (words + l.regionWords - 1) >>> l.regionShift.toUInt64

@[simp] theorem bottom_zero (l : Layout) : l.bottom 0 = l.base := by
  simp [bottom]

theorem regionStop_eq_bottom_succ (l : Layout) (index : Nat) :
    l.regionStop index = l.bottom (index + 1) := rfl

theorem bottom_numRegions (l : Layout) : l.bottom l.numRegions = l.stop := rfl

end Layout

end MarkCompact
