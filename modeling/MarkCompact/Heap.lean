/-
MarkCompact/Heap.lean

The heap: memory, the grid of regions over it, and where objects begin.

Allocation takes the lowest regular region with room, then the lowest free one. An
object that is larger than a region takes a run of free regions, the lowest that is long
enough. Every allocation answers with an address or with the reason why there is none,
together with the heap afterwards.

* `allocate`, `allocateIn` and `allocateHumongous` hand out words;
* `installHumongous` and `freeRegion` are the two changes to whole regions;
* `usedWords` and `freeRegionCount` are totals over the regions.

Main results: `memory_allocate`, `memory_allocateIn` and `memory_allocateHumongous` (an
allocation writes no word).
-/
import MarkCompact.Config
import MarkCompact.Heap.Region
import MarkCompact.Heap.StartTable

namespace MarkCompact

/-- A heap of regions. -/
structure Heap where
  memory : Memory
  layout : Layout
  regions : Array Region
  starts : StartTable
  /-- Whether the class of an object lies in its mark word. -/
  compactHeaders : Bool

namespace Heap

/-- A heap for a configuration, with its memory at `base`. -/
def new (config : Config) (base : Address) : Except CompactError Heap := do
  config.validate.mapError .configuration
  let memory ← Memory.reserve base config.heapBytes
  let layout : Layout := ⟨base, config.regionShift, config.numRegions.toNat⟩
  return {
    memory := memory
    layout := layout
    regions := (Array.range layout.numRegions).map fun i =>
      Region.new i (layout.bottom i) (layout.regionStop i)
    starts := StartTable.new layout
    compactHeaders := config.compactHeaders }

/-- A region by its index. -/
def region (h : Heap) (index : Nat) : Region := h.regions[index]?.getD default

/-- The heap with one region changed. -/
def modifyRegion (h : Heap) (index : Nat) (change : Region → Region) : Heap :=
  { h with regions := h.regions.modify index change }

/-- The heap with other memory. -/
def withMemory (h : Heap) (m : Memory) : Heap := { h with memory := m }

/-- The region of an address. -/
def regionOf (h : Heap) (a : Address) : Region := h.region (h.layout.indexOf a)

/-- Whether an address is that of a word of the heap. -/
def contains (h : Heap) (a : Address) : Bool := h.layout.contains a && h.memory.contains a

/-- Whether so many words do not fit in one region. -/
def isHumongous (h : Heap) (words : WordCount) : Bool := h.layout.regionWords < words

/-- The heap with an object start recorded. -/
def recordStart (h : Heap) (a : Address) : Heap := { h with starts := h.starts.record a }

/-! ### Whole regions -/

/-- The indices of all regions. -/
def indices (h : Heap) : List Nat := List.range h.regions.size

/-- Gives regions from `first` on to an object of so many words. -/
def installHumongous (h : Heap) (first : Nat) (words : WordCount) : Heap :=
  let object := (h.region first).bottom
  let stop := object.offset words
  let taken := (List.range' first (h.layout.regionsFor words).toNat).foldl
    (fun h i => h.modifyRegion i fun r =>
      { r with
        kind := if i = first then .humongousStart else .humongousContinues
        top := min stop r.stop }) h
  taken.recordStart object

/-- Makes a region free and forgets the objects that began in it. -/
def freeRegion (h : Heap) (index : Nat) : Heap :=
  let r := h.region index
  let freed := h.modifyRegion index Region.makeFree
  { freed with starts := freed.starts.clearRange r.bottom r.stop }

/-- The first index of the lowest run of `needed` free regions, where `run` free regions
end just before the regions looked at, the first of which is `index`. -/
def freeRunFrom (needed run index : Nat) : List Region → Option Nat
  | [] => none
  | r :: rest =>
    if r.isFree then
      if run + 1 = needed then some (index + 1 - needed)
      else freeRunFrom needed (run + 1) (index + 1) rest
    else freeRunFrom needed 0 (index + 1) rest

/-- The first index of the lowest run of so many free regions. A run has at least one. -/
def findFreeRun (h : Heap) (needed : Nat) : Option Nat :=
  freeRunFrom needed 0 0 h.regions.toList

/-- The most words that are free in one region. -/
def mostFreeWords (h : Heap) : WordCount :=
  ((h.regions.toList.filter (!·.isHumongous)).map Region.freeWords).foldl max 0

/-! ### Allocation -/

/-- Allocates in one region, whatever its kind. -/
def allocateAt (h : Heap) (index : Nat) (words : WordCount) : Option (Address × Heap) :=
  match (h.region index).allocate words with
  | some (a, r) => some (a, (h.modifyRegion index fun _ => r).recordStart a)
  | none => none

/-- Allocates in the first of some regions that is free and has room. The free ones
before it become regular. -/
def allocateInFree (words : WordCount) : List Nat → Heap → Option Address × Heap
  | [], h => (none, h)
  | i :: rest, h =>
    if (h.region i).isFree then
      let h := h.modifyRegion i fun r => { r with kind := .regular }
      match h.allocateAt i words with
      | some (a, h) => (some a, h)
      | none => allocateInFree words rest h
    else allocateInFree words rest h

/-- Allocates an object of its own run of regions. -/
def allocateHumongous (h : Heap) (words : WordCount) : Except CompactError Address × Heap :=
  let needed := h.layout.regionsFor words
  match h.findFreeRun needed.toNat with
  | some first =>
    let h := h.installHumongous first words
    (.ok (h.region first).bottom, h)
  | none => (.error (.noRegions (.noFreeRun needed words)), h)

/-- Allocates so many words wherever there is room. -/
def allocate (h : Heap) (words : WordCount) : Except CompactError Address × Heap :=
  if words = 0 then (.error (.invalidArgument .zeroWords), h)
  else if h.isHumongous words then h.allocateHumongous words
  else
    match (h.indices.filter fun i => (h.region i).isRegular).findSome? (h.allocateAt · words) with
    | some (a, h) => (.ok a, h)
    | none =>
      match allocateInFree words h.indices h with
      | (some a, h) => (.ok a, h)
      | (none, h) => (.error (.outOfMemory words h.mostFreeWords), h)

/-- Allocates so many words in one region. A free region becomes regular, also when it
turns out to have no room. -/
def allocateIn (h : Heap) (index : Nat) (words : WordCount) : Except CompactError Address × Heap :=
  if index < h.regions.size then
    let r := h.region index
    if r.isHumongous then (.error (.noRegions (.occupied index r.kind.name)), h)
    else
      let h := h.modifyRegion index fun r => { r with kind := .regular }
      match h.allocateAt index words with
      | some (a, h) => (.ok a, h)
      | none => (.error (.outOfMemory words (h.region index).freeWords), h)
  else (.error (.invalidArgument (.noSuchRegion index h.regions.size)), h)

/-! ### Totals -/

/-- The words in use in all regions. -/
def usedWords (h : Heap) : WordCount :=
  (h.regions.toList.map Region.usedWords).foldr (· + ·) 0

/-- The number of free regions. -/
def freeRegionCount (h : Heap) : Nat :=
  h.regions.toList.countP Region.isFree

/-- The heap as diagnostics print it. -/
def debug (h : Heap) : String :=
  s!"Heap \x7b layout: HeapLayout \x7b base: {h.layout.base}, region_size_shift: " ++
    s!"{h.layout.regionShift}, num_regions: {h.layout.numRegions} \x7d, compact_headers: " ++
    s!"{h.compactHeaders}, used_words: {h.usedWords} \x7d"

/-! ### Allocation writes no word -/

@[simp] theorem memory_modifyRegion (h : Heap) (index : Nat) (change : Region → Region) :
    (h.modifyRegion index change).memory = h.memory := rfl

@[simp] theorem memory_recordStart (h : Heap) (a : Address) :
    (h.recordStart a).memory = h.memory := rfl

@[simp] theorem memory_freeRegion (h : Heap) (index : Nat) :
    (h.freeRegion index).memory = h.memory := rfl

theorem memory_allocateAt {h h' : Heap} {index : Nat} {words : WordCount} {a : Address}
    (ok : h.allocateAt index words = some (a, h')) : h'.memory = h.memory := by
  unfold allocateAt at ok
  split at ok
  · simp only [Option.some.injEq, Prod.mk.injEq] at ok
    rw [← ok.2]
    rfl
  · simp at ok

theorem memory_allocateInFree (words : WordCount) (is : List Nat) (h : Heap) :
    (allocateInFree words is h).2.memory = h.memory := by
  induction is generalizing h with
  | nil => rfl
  | cons i rest ih =>
    unfold allocateInFree
    split
    · dsimp only
      split
      · rename_i ok
        exact (memory_allocateAt ok).trans (memory_modifyRegion ..)
      · exact ih _
    · exact ih _

@[simp] theorem memory_installHumongous (h : Heap) (first : Nat) (words : WordCount) :
    (h.installHumongous first words).memory = h.memory := by
  have keep : ∀ (is : List Nat) (change : Nat → Region → Region) (h : Heap),
      (is.foldl (fun h i => h.modifyRegion i (change i)) h).memory = h.memory := by
    intro is change
    induction is with
    | nil => exact fun _ => rfl
    | cons i is ih => exact fun h => ih (h.modifyRegion i (change i))
  exact keep _ _ h

@[simp] theorem memory_allocateHumongous (h : Heap) (words : WordCount) :
    (h.allocateHumongous words).2.memory = h.memory := by
  unfold allocateHumongous
  dsimp only
  split <;> simp

@[simp] theorem memory_allocate (h : Heap) (words : WordCount) :
    (h.allocate words).2.memory = h.memory := by
  unfold allocate
  split
  · rfl
  · split
    · simp
    · split
      · rename_i a h' found
        obtain ⟨i, -, ok⟩ := List.exists_of_findSome?_eq_some found
        exact memory_allocateAt ok
      · have := memory_allocateInFree words h.indices h
        split <;> simp_all

@[simp] theorem memory_allocateIn (h : Heap) (index : Nat) (words : WordCount) :
    (h.allocateIn index words).2.memory = h.memory := by
  unfold allocateIn
  split
  · dsimp only
    split
    · rfl
    · split
      · rename_i ok
        exact (memory_allocateAt ok).trans (memory_modifyRegion ..)
      · rfl
  · rfl

end Heap

end MarkCompact
