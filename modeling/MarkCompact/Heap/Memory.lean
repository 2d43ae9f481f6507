/-
MarkCompact/Heap/Memory.lean

A stretch of memory, word by word.

A memory has a base and a size in bytes, rounded up to whole pages. Its words are zero
until they are written, so only what has been written is kept.

* `load`, `store` and `exchange` work on one word;
* `copyWords`, `writeWords` and `fillWords` work on a run of words and fail if the run
  reaches past the memory. A copy reads everything before it writes anything, so source
  and destination may overlap;
* `release` gives whole pages back, which read as zero afterwards.

Main results: `load_store` (a store changes one word) and `load_writeAll_of_notMem` (a
run of writes changes only the words it covers).
-/
import MarkCompact.Error
import Std.Data.HashMap

namespace MarkCompact

/-- The bytes of a page. -/
def pageBytes : UInt64 := 4096

/-- A stretch of memory. -/
structure Memory where
  base : Address
  /-- Its length in bytes. -/
  size : UInt64
  /-- The words that have been written. -/
  cells : Std.HashMap Address Word

namespace Memory

/-- Zeroed memory of at least `size` bytes, if that is more than none. -/
def reserve (base : Address) (size : UInt64) : Except CompactError Memory :=
  if size = 0 then .error .emptyHeap
  else .ok { base := base, size := Address.alignUp size pageBytes, cells := ∅ }

/-- The address after the memory. -/
def stop (m : Memory) : Address := m.base + m.size

/-- Whether an address is that of a word of the memory. -/
def contains (m : Memory) (a : Address) : Bool := m.base ≤ a && a < m.stop && a.isAligned

/-! ### Single words -/

/-- The word at an address. -/
def load (m : Memory) (a : Address) : Word := m.cells.getD a 0

/-- The memory with another word at an address. -/
def store (m : Memory) (a : Address) (w : Word) : Memory := { m with cells := m.cells.insert a w }

/-- Stores a word if another one is found first: the word found and the memory after it. -/
def exchange (m : Memory) (a : Address) (current new : Word) : Except Word Word × Memory :=
  let found := m.load a
  if found = current then (.ok found, m.store a new) else (.error found, m)

/-- The mark of an object. -/
def loadMark (m : Memory) (object : Address) : Mark := ⟨m.load object⟩

/-- The memory with another mark in an object. -/
def storeMark (m : Memory) (object : Address) (mark : Mark) : Memory := m.store object mark.raw

/-- Replaces the mark of an object if it is the expected one. -/
def exchangeMark (m : Memory) (object : Address) (current new : Mark) :
    Except Mark Mark × Memory :=
  let (outcome, m) := m.exchange object current.raw new.raw
  (match outcome with
    | .ok found => .ok ⟨found⟩
    | .error found => .error ⟨found⟩, m)

theorem load_store (m : Memory) (a b : Address) (w : Word) :
    (m.store a w).load b = if a = b then w else m.load b := by
  simp [load, store, Std.HashMap.getD_insert]

@[simp] theorem load_store_self (m : Memory) (a : Address) (w : Word) :
    (m.store a w).load a = w := by
  simp [load_store]

/-! ### Runs of words -/

/-- Whether a run of words lies in the memory. -/
def holds (m : Memory) (start : Address) (words : WordCount) : Bool :=
  m.base ≤ start && start + words * wordBytes ≤ m.stop

/-- Fails unless a run of words lies in the memory. -/
def checkRange (m : Memory) (start : Address) (words : WordCount) : Except Fault Unit :=
  if m.holds start words then .ok () else .error (.outsideMemory start words m.base m.stop)

/-- So many words from an address on. -/
def readWords (m : Memory) (start : Address) (words : Nat) : List Word :=
  (start.span words).map m.load

/-- The memory with consecutive words replaced from an address on. -/
def writeAll (m : Memory) (start : Address) : List Word → Memory
  | [] => m
  | w :: ws => writeAll (m.store start w) (start + wordBytes) ws

/-- Replaces consecutive words. -/
def writeWords (m : Memory) (start : Address) (words : List Word) : Except Fault Memory := do
  m.checkRange start words.length.toUInt64
  return m.writeAll start words

/-- Replaces consecutive words by one value. -/
def fillWords (m : Memory) (start : Address) (words : WordCount) (value : Word) :
    Except Fault Memory := do
  m.checkRange start words
  return m.writeAll start (List.replicate words.toNat value)

/-- Copies consecutive words to another place, as if all were read first. -/
def copyWords (m : Memory) (source target : Address) (words : WordCount) :
    Except Fault Memory := do
  if words = 0 || source = target then return m
  m.checkRange source words
  m.checkRange target words
  return m.writeAll target (m.readWords source words.toNat)

/-- Gives back the pages within a range: how many bytes that was, and the memory after. -/
def release (m : Memory) (start : Address) (bytes : UInt64) : UInt64 × Memory :=
  let first := start.alignUp pageBytes
  let last := (start + bytes).alignDown pageBytes
  if last ≤ first then (0, m)
  else (last - first, { m with cells := m.cells.filter fun a _ => !(first ≤ a && a < last) })

/-- The word at an address that a run of writes does not cover stays. -/
theorem load_writeAll_of_notMem (ws : List Word) (m : Memory) (start b : Address)
    (h : ∀ i < ws.length, start + i.toUInt64 * wordBytes ≠ b) :
    (m.writeAll start ws).load b = m.load b := by
  induction ws generalizing m start with
  | nil => rfl
  | cons w ws ih =>
    have first : start ≠ b := by simpa using h 0 (by simp)
    rw [writeAll, ih, load_store, if_neg first]
    intro i hi
    have next := h (i + 1) (by simpa using hi)
    have step : start + wordBytes + i.toUInt64 * wordBytes
        = start + (i + 1).toUInt64 * wordBytes := by
      have split : (i + 1).toUInt64 = i.toUInt64 + 1 := by
        apply UInt64.toNat_inj.1
        simp
      rw [split]
      grind
    rw [step]
    exact next

/-- The memory as diagnostics print it. -/
def debug (m : Memory) : String :=
  "HeapMemory \x7b base: " ++ hex m.base ++ s!", size: {m.size} \x7d"

end Memory

end MarkCompact
