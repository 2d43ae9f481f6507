/-
MarkCompact/Address.lean

Addresses and words of a 64-bit memory.

Both are 64-bit values, and so are the word counts that move between them: the
arithmetic of the collector wraps at 64 bits, and the types say so.

* `wordBytes` is the size of a word, `Address.offset a n` the address `n` words
  past `a`, and `Address.wordsTo a b` the whole words from `a` to `b`;
* `Address.alignUp` and `Address.alignDown` round to a multiple of a power of two;
* `Address.asEntry` reads the greatest address as no address, as tables do that keep one
  word for each entry;
* `mix` scatters a word over all 64 bits, and `Address.identityHash` derives the
  hash of an object that has not yet been asked for one from where it lies.

Main results: `Address.getD_asEntry` (nothing is lost by reading a word as an entry);
`Address.identityHash_ne_zero` and `Address.identityHash_toNat_lt` say that an identity
hash is a non-zero value of 31 bits.
-/

namespace MarkCompact

/-- A position in memory, counted in bytes. -/
abbrev Address := UInt64

/-- The contents of one memory cell, eight bytes wide. -/
abbrev Word := UInt64

/-- A number of words. -/
abbrev WordCount := UInt64

/-- The size of a word in bytes. -/
def wordBytes : UInt64 := 8

/-- The size of a word in bytes, as a power of two. -/
def wordShift : UInt64 := 3

namespace Address

/-- The address `words` words past `a`. -/
def offset (a : Address) (words : WordCount) : Address :=
  a + (words <<< wordShift)

/-- The whole words between `a` and `b`. -/
def wordsTo (a b : Address) : WordCount :=
  (b - a) >>> wordShift

/-- Whether `a` is the first byte of a word. -/
def isAligned (a : Address) : Bool :=
  a &&& (wordBytes - 1) == 0

/-- The least multiple of `alignment`, a power of two, from `a` on. -/
def alignUp (a : Address) (alignment : UInt64) : Address :=
  (a + alignment - 1) &&& ~~~(alignment - 1)

/-- The greatest multiple of `alignment`, a power of two, up to `a`. -/
def alignDown (a : Address) (alignment : UInt64) : Address :=
  a &&& ~~~(alignment - 1)

/-- The addresses of `count` consecutive words from `a` on. -/
def span (a : Address) (count : Nat) : List Address :=
  (List.range count).map fun i => a.offset i.toUInt64

/-- The greatest address. It stands for an entry that is missing. -/
def greatest : Address := 0xffffffffffffffff

/-- An address as the entry of a table: the greatest one is none. -/
def asEntry (a : Address) : Option Address :=
  if a = greatest then none else some a

@[simp] theorem offset_zero (a : Address) : a.offset 0 = a := by
  simp [offset, wordShift]

@[simp] theorem length_span (a : Address) (count : Nat) : (a.span count).length = count := by
  simp [span]

@[simp] theorem getD_asEntry (a : Address) : a.asEntry.getD greatest = a := by
  unfold asEntry
  split <;> simp_all

theorem asEntry_of_ne {a : Address} (h : a ≠ greatest) : a.asEntry = some a :=
  if_neg h

end Address

/-! ### Hashing -/

/-- Scatters a word: every bit of the argument moves about half the bits of the result.
Each step is invertible, so no two words share an image. -/
def mix (k : Word) : Word :=
  let k := k ^^^ (k >>> 33)
  let k := k * 0xff51afd7ed558ccd
  let k := k ^^^ (k >>> 33)
  let k := k * 0xc4ceb9fe1a85ec53
  k ^^^ (k >>> 33)

/-- The identity hash of an object that lies at `a`: 31 bits of the scattered address,
with zero, which stands for no hash, replaced by one. -/
def Address.identityHash (a : Address) : UInt32 :=
  let h := (mix a &&& 0x7fffffff).toUInt32
  if h = 0 then 1 else h

theorem Address.identityHash_ne_zero (a : Address) : a.identityHash ≠ 0 := by
  by_cases h : (mix a &&& 0x7fffffff).toUInt32 = 0
  · simp [identityHash, h]
  · simp only [identityHash, h, if_false]
    exact h

theorem Address.identityHash_toNat_lt (a : Address) : a.identityHash.toNat < 0x80000000 := by
  have bound : (mix a &&& 0x7fffffff).toNat ≤ 0x7fffffff := by
    rw [UInt64.toNat_and]
    exact Nat.and_le_right
  by_cases h : (mix a &&& 0x7fffffff).toUInt32 = 0
  · simp [identityHash, h]
  · simp only [identityHash, h, if_false, UInt64.toNat_toUInt32]
    have := Nat.mod_le (mix a &&& 0x7fffffff).toNat (2 ^ 32)
    omega

end MarkCompact
