/-
MarkCompact/Liveness/Bitmap.lean

Which words of a range are live, and which of them begin an object.

One bit per word, in two planes: `starts` for the first word of every live object and
`live` for all its words. Both are kept in chunks of 64 bits, and every question about a
range is answered chunk by chunk: a mask for the part of a chunk that lies in the range,
a population count, or the position of the lowest bit that is set.

* `mark` marks an object, `clearRange` and `clear` unmark;
* `isMarked` and `isLive` ask about one word;
* `countWords` and `countObjects` count in a range, `nextMarked` finds the first object
  in a range and `markedIn` lists them all.

Main results: `Plane.next_bounds` (what is found lies in the range, and so the list of all
objects of a range ends) and `Plane.pairwise_bitsFrom` (it ascends).
-/
import MarkCompact.Heap.Layout

namespace MarkCompact

/-! ### Bits of a chunk -/

/-- The bits of a chunk. -/
def chunkBits : Nat := 64

/-- Whether a bit of a chunk is set. -/
def bitSet (chunk : UInt64) (i : Nat) : Bool := chunk.toNat.testBit i

/-- The number of bits set. -/
def popCount (chunk : UInt64) : Nat :=
  if chunk = 0 then 0 else (List.range chunkBits).countP (bitSet chunk)

/-- The lowest bit set. -/
def lowestBit? (chunk : UInt64) : Option Nat :=
  if chunk = 0 then none else (List.range chunkBits).find? (bitSet chunk)

/-- The bits from `first` on, `length` of them. -/
def bitMask (first length : Nat) : UInt64 :=
  if length = chunkBits then ~~~0
  else (((1 : UInt64) <<< length.toUInt64) - 1) <<< first.toUInt64

/-- The chunks that a range of bits meets, each with a mask of the bits in the range. -/
def chunkMasks (first stop : Nat) : List (Nat × UInt64) :=
  if first < stop then
    let low := first / chunkBits
    (List.range' low ((stop - 1) / chunkBits + 1 - low)).map fun chunk =>
      let lo := max first (chunk * chunkBits)
      let hi := min stop ((chunk + 1) * chunkBits)
      (chunk, bitMask (lo % chunkBits) (hi - lo))
  else []

/-! ### Planes -/

/-- A plane of bits, in chunks. -/
abbrev Plane := Array UInt64

namespace Plane

/-- A plane of so many chunks, no bit set. -/
def blank (chunks : Nat) : Plane := Array.replicate chunks 0

/-- The plane with the bits of a range set. -/
def setRange (p : Plane) (first stop : Nat) : Plane :=
  (chunkMasks first stop).foldl (fun p (chunk, mask) => p.modify chunk (· ||| mask)) p

/-- The plane with the bits of a range cleared. -/
def clearRange (p : Plane) (first stop : Nat) : Plane :=
  (chunkMasks first stop).foldl (fun p (chunk, mask) => p.modify chunk (· &&& ~~~mask)) p

/-- A chunk of a plane. -/
def chunk (p : Plane) (index : Nat) : UInt64 := p[index]?.getD 0

/-- Whether a bit of a plane is set. -/
def get (p : Plane) (bit : Nat) : Bool := bitSet (p.chunk (bit / chunkBits)) (bit % chunkBits)

/-- The number of bits set in a range. -/
def count (p : Plane) (first stop : Nat) : Nat :=
  ((chunkMasks first stop).map fun (chunk, mask) => popCount (p.chunk chunk &&& mask)).foldr
    (· + ·) 0

/-- The number of bits set. -/
def total (p : Plane) : Nat := (p.toList.map popCount).foldr (· + ·) 0

/-- The lowest bit set in a range. -/
def next (p : Plane) (bit stop : Nat) : Option Nat :=
  if bit < stop then
    match lowestBit? (p.chunk (bit / chunkBits) >>> (bit % chunkBits).toUInt64) with
    | some i => if bit + i < stop then some (bit + i) else none
    | none => p.next ((bit / chunkBits + 1) * chunkBits) stop
  else none
termination_by stop - bit
decreasing_by
  have : bit < (bit / chunkBits + 1) * chunkBits := by
    simp only [chunkBits]
    omega
  omega

theorem next_bounds {p : Plane} {bit stop found : Nat} (h : p.next bit stop = some found) :
    bit ≤ found ∧ found < stop := by
  fun_induction next p bit stop with
  | case1 bit inside i hi fits =>
    simp only [Option.some.injEq] at h
    omega
  | case2 => simp at h
  | case3 bit inside none ih =>
    have := ih h
    have : bit < (bit / chunkBits + 1) * chunkBits := by
      simp only [chunkBits]
      omega
    omega
  | case4 => simp at h

/-- The bits set in a range, in ascending order. -/
def bitsFrom (p : Plane) (bit stop : Nat) : List Nat :=
  match _found : p.next bit stop with
  | some i => i :: p.bitsFrom (i + 1) stop
  | none => []
termination_by stop - bit
decreasing_by
  have := next_bounds _found
  omega

theorem bitsFrom_bounds (p : Plane) (bit stop : Nat) :
    ∀ i ∈ p.bitsFrom bit stop, bit ≤ i ∧ i < stop := by
  fun_induction bitsFrom p bit stop with
  | case1 bit i found ih =>
    have here := next_bounds found
    intro j hj
    rcases List.mem_cons.1 hj with rfl | later
    · exact here
    · have := ih j later
      omega
  | case2 => simp

theorem pairwise_bitsFrom (p : Plane) (bit stop : Nat) :
    (p.bitsFrom bit stop).Pairwise (· < ·) := by
  fun_induction bitsFrom p bit stop with
  | case1 bit i found ih =>
    refine List.pairwise_cons.2 ⟨fun j hj => ?_, ih⟩
    have := bitsFrom_bounds p (i + 1) stop j hj
    omega
  | case2 => exact List.Pairwise.nil

end Plane

/-! ### Bitmaps -/

/-- The live words of a range. -/
structure Bitmap where
  /-- The address of bit 0. -/
  base : Address
  /-- The number of words of the range. -/
  covered : WordCount
  /-- The first words of live objects. -/
  starts : Plane
  /-- All words of live objects. -/
  live : Plane
  deriving Repr, Inhabited

namespace Bitmap

/-- A bitmap over a range, nothing in it live. -/
def new (base : Address) (covered : WordCount) : Bitmap :=
  let chunks := (covered.toNat + (chunkBits - 1)) / chunkBits
  ⟨base, covered, Plane.blank chunks, Plane.blank chunks⟩

/-- A bitmap over all regions of a grid. -/
def ofLayout (l : Layout) : Bitmap := new l.base l.heapWords

/-- The address after the range. -/
def stop (b : Bitmap) : Address := b.base.offset b.covered

/-- The bit of the word at an address. -/
def bitOf (b : Bitmap) (a : Address) : Nat := (b.base.wordsTo a).toNat

/-- The address of the word of a bit. -/
def addressOf (b : Bitmap) (bit : Nat) : Address := b.base.offset bit.toUInt64

/-- Marks an object of so many words, and says whether it was unmarked before. -/
def mark (b : Bitmap) (object : Address) (words : WordCount) : Bool × Bitmap :=
  let bit := b.bitOf object
  if b.starts.get bit then (false, b)
  else
    (true,
      { b with
        starts := b.starts.setRange bit (bit + 1)
        live := b.live.setRange bit (bit + words.toNat) })

/-- Whether a live object begins at an address. -/
def isMarked (b : Bitmap) (a : Address) : Bool := b.starts.get (b.bitOf a)

/-- Whether the word at an address belongs to a live object. -/
def isLive (b : Bitmap) (a : Address) : Bool := b.live.get (b.bitOf a)

/-- The first live object from `first` on and before `limit`, else `limit`. -/
def nextMarked (b : Bitmap) (first limit : Address) : Address :=
  match b.starts.next (b.bitOf first) (b.bitOf limit) with
  | some bit => b.addressOf bit
  | none => limit

/-- The live words of a range. -/
def countWords (b : Bitmap) (first stop : Address) : Nat :=
  if stop ≤ first then 0 else b.live.count (b.bitOf first) (b.bitOf stop)

/-- The live objects that begin in a range. -/
def countObjects (b : Bitmap) (first stop : Address) : Nat :=
  if stop ≤ first then 0 else b.starts.count (b.bitOf first) (b.bitOf stop)

/-- Unmarks all words of a range. -/
def clearRange (b : Bitmap) (first stop : Address) : Bitmap :=
  if stop ≤ first then b
  else
    { b with
      starts := b.starts.clearRange (b.bitOf first) (b.bitOf stop)
      live := b.live.clearRange (b.bitOf first) (b.bitOf stop) }

/-- Unmarks everything. -/
def clear (b : Bitmap) : Bitmap :=
  { b with starts := Plane.blank b.starts.size, live := Plane.blank b.live.size }

/-- All live objects. -/
def markedObjects (b : Bitmap) : Nat := b.starts.total

/-- All live words. -/
def markedWords (b : Bitmap) : Nat := b.live.total

/-- The live objects that begin in a range, in the order of their addresses. -/
def markedIn (b : Bitmap) (first limit : Address) : List Address :=
  if first < limit then (b.starts.bitsFrom (b.bitOf first) (b.bitOf limit)).map b.addressOf else []

end Bitmap

end MarkCompact
