/-
MarkCompact/Proofs/WellFormed.lean

Heaps as they are between two collections.

* `Heap.Settled` speaks of the region table: every region has its place in the
  grid, free regions are empty, the regions of a humongous object form a
  complete run, and nothing of an earlier collection is left;
* `Heap.ObjectAt` speaks of one object: its header names a class, its mark is
  one that the header operations produce, and its words lie in a regular region
  or are those of a humongous run;
* `WellFormed` puts the two together for what can be reached from the roots:
  every reached address is that of an object, and no two objects overlap.

A root or a field that does not lead to an object refers to nothing or outside
the heap: that is what `Reaches` passes over, so it needs no clause here.

Main results: `ClassTable.sound_register` (registered classes are sound),
`WellFormed.object` and the consequences of `Heap.PlacedAt`.
-/
import MarkCompact.Proofs.Cells
import MarkCompact.Liveness.Trace

namespace MarkCompact

/-! ### Marks -/

/-- The bits that no operation sets in a mark that is not forwarded: bit 2, bit 8 and the
bits from 40 on in a classic header, bit 2 and the bits from 9 to 31 in a compact one. -/
def strayMask (compact : Bool) : Word :=
  if compact then 0xfffffe04 else 0xffffff0000000104

/-- A mark that no new address has been written into, with bit 2 clear. -/
structure Mark.Clean (m : Mark) : Prop where
  notForwarded : m.isForwarded = false
  notSelf : m.raw &&& selfMask = 0

/-- A mark that the header operations produce. -/
structure Mark.Proper (m : Mark) (compact : Bool) : Prop where
  notForwarded : m.isForwarded = false
  noStray : m.raw &&& strayMask compact = 0
  /-- A hash is kept only once it has been asked for. -/
  hashAsked : compact = false → m.isHashed = false → m.raw &&& hashMask = 0
  expandedAsked : m.isExpanded = true → m.isHashed = true

theorem Mark.Proper.clean {m : Mark} {compact : Bool} (h : m.Proper compact) : m.Clean := by
  refine ⟨h.notForwarded, ?_⟩
  have hin : strayMask compact &&& selfMask = selfMask := by
    cases compact <;> decide
  rw [← hin, ← UInt64.and_assoc, h.noStray, UInt64.zero_and]

/-! ### Classes -/

/-- A table of registered classes. -/
structure ClassTable.Sound (t : ClassTable) : Prop where
  header : ∀ c ∈ t.classes, t.headerWords ≤ c.words
  nodup : ∀ c ∈ t.classes, c.fields.Nodup
  inside : ∀ c ∈ t.classes, ∀ f ∈ c.fields, t.headerWords ≤ f ∧ f < c.words

namespace ClassTable

theorem sound_empty (compactHeaders : Bool) : (empty compactHeaders).Sound := by
  refine ⟨?_, ?_, ?_⟩ <;> intro c hc <;> simp [empty] at hc

theorem sound_register {t t' : ClassTable} {c : ClassInfo} {classId : UInt32} (ht : t.Sound)
    (h : t.register c = .ok (classId, t')) : t'.Sound := by
  obtain ⟨hfits, -, rfl⟩ := register_eq_ok_iff.1 h
  refine ⟨?_, ?_, ?_⟩
  · intro d hd
    rcases Array.mem_push.1 hd with hd | rfl
    · exact ht.header d hd
    · exact hfits.header
  · intro d hd
    rcases Array.mem_push.1 hd with hd | rfl
    · exact ht.nodup d hd
    · exact hfits.nodup
  · intro d hd
    rcases Array.mem_push.1 hd with hd | rfl
    · exact ht.inside d hd
    · exact hfits.inside

theorem mem_of_info {t : ClassTable} {classId : UInt32} {c : ClassInfo}
    (h : t.info classId = some c) : c ∈ t.classes :=
  Array.mem_of_getElem? h

theorem headerWords_pos (t : ClassTable) : 0 < t.headerWords.toNat := by
  unfold headerWords
  split <;> decide

end ClassTable

/-! ### Regions -/

/-- A region that takes part in no collection. -/
structure Region.Idle (r : Region) : Prop where
  compactionTop : r.compactionTop = r.bottom
  compacting : r.compacting = false
  ready : r.ready = false
  pending : r.pending = []

namespace Heap

/-- The memory of a heap: whole pages, of which the regions take the first part. -/
structure Mapped (h : Heap) : Prop where
  base : h.memory.base = h.layout.base
  pageAligned : h.layout.base.toNat % 4096 = 0
  wholePages : h.memory.size.toNat % 4096 = 0
  covers : h.layout.numRegions * h.layout.stride ≤ h.memory.size.toNat
  fits : h.memory.base.toNat + h.memory.size.toNat < 2 ^ 64

/-- The regions from `first` on are those of one humongous object of so many words. -/
structure HumongousRun (h : Heap) (first : Nat) (words : WordCount) : Prop where
  nonempty : 0 < words.toNat
  start : (h.region first).kind = .humongousStart
  /-- The object ends inside the heap. -/
  fits : (h.layout.bottom first).toNat + 8 * words.toNat ≤ h.layout.stop.toNat
  later : ∀ i, first < i → i < first + (h.layout.regionsFor words).toNat →
    (h.region i).kind = .humongousContinues
  last : (h.region (first + (h.layout.regionsFor words).toNat)).kind ≠ .humongousContinues
  tops : ∀ i, first ≤ i → i < first + (h.layout.regionsFor words).toNat →
    (h.region i).top.toNat
      = min ((h.layout.bottom first).toNat + 8 * words.toNat) (h.layout.regionStop i).toNat

/-- The grid of regions, whatever the regions are used for. -/
structure Gridded (h : Heap) : Prop where
  layout : h.layout.Sound
  count : h.regions.size = h.layout.numRegions
  index : ∀ i < h.regions.size, (h.region i).index = i
  bottom : ∀ i < h.regions.size, (h.region i).bottom = h.layout.bottom i
  stop : ∀ i < h.regions.size, (h.region i).stop = h.layout.regionStop i

/-- What the regions are used for: free ones are empty, and the regions of a humongous object
form a complete run. -/
structure Tabled (h : Heap) : Prop extends h.Gridded where
  /-- Objects lie between the bottom of a region and its top. -/
  top : ∀ i < h.regions.size, (h.region i).bottom.toNat ≤ (h.region i).top.toNat ∧
    (h.region i).top.toNat ≤ (h.region i).stop.toNat ∧ (h.region i).top.toNat % 8 = 0
  free : ∀ i < h.regions.size, (h.region i).kind = .free → (h.region i).top = (h.region i).bottom
  runs : ∀ i < h.regions.size, (h.region i).kind = .humongousStart → ∃ words, h.HumongousRun i words
  continued : ∀ i < h.regions.size, (h.region i).kind = .humongousContinues →
    ∃ first words, h.HumongousRun first words ∧ first < i ∧
      i < first + (h.layout.regionsFor words).toNat

/-- The region table as it is between two collections. -/
structure Settled (h : Heap) : Prop extends h.Tabled where
  idle : ∀ i < h.regions.size, (h.region i).Idle

/-! ### Objects -/

/-- Whether so many words at `a` lie in a regular region, or are a humongous run. -/
def PlacedAt (h : Heap) (a : Address) (words : WordCount) : Prop :=
  (∃ i < h.regions.size, (h.region i).kind = .regular ∧
    (h.layout.bottom i).toNat ≤ a.toNat ∧ a.toNat + 8 * words.toNat ≤ (h.region i).top.toNat) ∨
  (∃ i < h.regions.size, h.HumongousRun i words ∧ a = h.layout.bottom i)

/-- An object at `a`: an instance of the class `c`, with `words` words. -/
structure ObjectAt (h : Heap) (t : ClassTable) (a : Address) (c : ClassInfo)
    (words : WordCount) : Prop where
  inside : h.contains a = true
  info : h.infoOf t a = .ok c
  size : h.size t a = .ok words
  /-- The trailing hash, if there is one, is counted without wrapping. -/
  whole : c.words ≤ words
  mark : (h.memory.loadMark a).Proper h.compactHeaders
  place : h.PlacedAt a words

/-- The words of the object at an address, none if there is no object. -/
def wordsAt (h : Heap) (t : ClassTable) (a : Address) : Nat :=
  match h.size t a with
  | .ok words => words.toNat
  | .error _ => 0

/-- The objects of a set are objects of the heap that do not overlap. -/
structure Populated (h : Heap) (t : ClassTable) (live : Address → Prop) : Prop where
  object : ∀ a, live a → ∃ c words, h.ObjectAt t a c words
  disjoint : ∀ a b, live a → live b → a.toNat < b.toNat →
    a.toNat + 8 * h.wordsAt t a ≤ b.toNat

end Heap

/-- A heap between two collections, with the classes of its objects and the roots. -/
structure WellFormed (h : Heap) (t : ClassTable) (roots : Roots) : Prop where
  settled : h.Settled
  mapped : h.Mapped
  classes : t.Sound
  headers : t.compactHeaders = h.compactHeaders
  populated : h.Populated t (Reaches h t roots)
  /-- Fewer than `2 ^ 32` objects are reached. -/
  few : ∀ l : List Address, l.Nodup → (∀ a ∈ l, Reaches h t roots a) → l.length < 2 ^ 32

/-! ### Consequences -/

namespace Heap

theorem region_eq_getElem (h : Heap) {i : Nat} (hi : i < h.regions.size) :
    h.region i = h.regions[i] := by
  simp [region, hi]

theorem region_of_size_le (h : Heap) {i : Nat} (hi : h.regions.size ≤ i) :
    h.region i = default := by
  simp [region, hi]

theorem region_modifyRegion (h : Heap) (i j : Nat) (change : Region → Region) :
    (h.modifyRegion i change).region j
      = if i = j ∧ j < h.regions.size then change (h.region j) else h.region j := by
  unfold modifyRegion region
  dsimp only
  rw [Array.getElem?_modify]
  by_cases hij : i = j
  · subst hij
    by_cases hi : i < h.regions.size
    · simp [hi]
    · simp [hi]
  · simp [hij]

@[simp] theorem size_modifyRegion (h : Heap) (i : Nat) (change : Region → Region) :
    (h.modifyRegion i change).regions.size = h.regions.size := by
  simp [modifyRegion]

theorem wordsAt_of_size {h : Heap} {t : ClassTable} {a : Address} {words : WordCount}
    (hs : h.size t a = .ok words) : h.wordsAt t a = words.toNat := by
  simp [wordsAt, hs]

theorem ObjectAt.wordsAt_eq {h : Heap} {t : ClassTable} {a : Address} {c : ClassInfo}
    {words : WordCount} (ho : h.ObjectAt t a c words) : h.wordsAt t a = words.toNat :=
  wordsAt_of_size ho.size

/-- The words of an object are those of its class, and one more if it carries its hash. -/
theorem size_of_info {h : Heap} {t : ClassTable} {a : Address} {c : ClassInfo}
    (hi : h.infoOf t a = .ok c) :
    h.size t a = .ok (if t.compactHeaders && (h.memory.loadMark a).isExpanded then c.words + 1
      else c.words) := by
  simp only [size, hi]
  rfl

theorem info_of_infoOf {h : Heap} {t : ClassTable} {a : Address} {c : ClassInfo}
    (hi : h.infoOf t a = .ok c) : t.info (h.classOf t a) = some c := by
  unfold infoOf at hi
  split at hi
  · rename_i d hd
    rw [hd]
    simpa using hi
  · simp at hi

theorem infoOf_of_info {h : Heap} {t : ClassTable} {a : Address} {c : ClassInfo}
    (hi : t.info (h.classOf t a) = some c) : h.infoOf t a = .ok c := by
  unfold infoOf
  rw [hi]

theorem slots_of_info {h : Heap} {t : ClassTable} {a : Address} {c : ClassInfo}
    (hi : h.infoOf t a = .ok c) : h.slots t a = .ok (c.fields.map a.offset) := by
  simp only [slots, hi]
  rfl

theorem Gridded.size_lt {h : Heap} (hg : h.Gridded) : h.regions.size < 2 ^ 57 := by
  rw [hg.count]
  exact hg.layout.numRegions_lt

/-- The grid is known from the layout and from where the regions lie. -/
theorem Gridded.congr {h h' : Heap} (hg : h.Gridded) (hlayout : h'.layout = h.layout)
    (hsize : h'.regions.size = h.regions.size)
    (hextent : ∀ i < h.regions.size, (h'.region i).index = (h.region i).index ∧
      (h'.region i).bottom = (h.region i).bottom ∧ (h'.region i).stop = (h.region i).stop) :
    h'.Gridded := by
  refine ⟨?_, ?_, fun i hi => ?_, fun i hi => ?_, fun i hi => ?_⟩
  · rw [hlayout]
    exact hg.layout
  · rw [hsize, hlayout]
    exact hg.count
  · rw [hsize] at hi
    exact (hextent i hi).1.trans (hg.index i hi)
  · rw [hsize] at hi
    rw [(hextent i hi).2.1, hlayout]
    exact hg.bottom i hi
  · rw [hsize] at hi
    rw [(hextent i hi).2.2, hlayout]
    exact hg.stop i hi

theorem Mapped.contains_iff {h : Heap} (hm : h.Mapped) (hl : h.layout.Sound) (a : Address) :
    h.contains a = true ↔ h.layout.contains a = true ∧ a.toNat % 8 = 0 := by
  unfold contains
  rw [Bool.and_eq_true]
  constructor
  · rintro ⟨h1, h2⟩
    refine ⟨h1, ?_⟩
    unfold Memory.contains at h2
    rw [Bool.and_eq_true, Address.isAligned_iff] at h2
    exact h2.2
  · rintro ⟨h1, h2⟩
    refine ⟨h1, ?_⟩
    have hc := (hl.contains_iff a).1 h1
    have hstop := hl.toNat_stop
    have hcov := hm.covers
    have hbase := congrArg UInt64.toNat hm.base
    unfold Memory.contains
    rw [Bool.and_eq_true, Bool.and_eq_true, Address.isAligned_iff, decide_eq_true_eq,
      decide_eq_true_eq, UInt64.le_iff_toNat_le, UInt64.lt_iff_toNat_lt,
      Memory.toNat_stop_of_fits hm.fits]
    exact ⟨⟨by omega, by omega⟩, h2⟩

/-- A run of words inside the grid is inside the memory. -/
theorem Mapped.covers_of_grid {h : Heap} (hm : h.Mapped) (hl : h.layout.Sound) {a : Address}
    {n : Nat} (h1 : h.layout.base.toNat ≤ a.toNat) (h2 : a.toNat + 8 * n ≤ h.layout.stop.toNat) :
    h.memory.Covers a n := by
  have hstop := hl.toNat_stop
  have hcov := hm.covers
  have hbase := congrArg UInt64.toNat hm.base
  exact ⟨by omega, by omega, hm.fits⟩

/-- Only the extent of the memory matters. -/
theorem Mapped.of_span {h h' : Heap} (hm : h.Mapped) (hlayout : h'.layout = h.layout)
    (hspan : h.memory.SameSpan h'.memory) : h'.Mapped := by
  obtain ⟨hbase, hpage, hwhole, hcov, hfits⟩ := hm
  refine ⟨?_, ?_, ?_, ?_, ?_⟩
  · rw [hspan.base, hlayout]
    exact hbase
  · rw [hlayout]
    exact hpage
  · rw [hspan.size]
    exact hwhole
  · rw [hspan.size, hlayout]
    exact hcov
  · rw [hspan.base, hspan.size]
    exact hfits

theorem PlacedAt.bounds {h : Heap} (hs : h.Tabled) {a : Address} {words : WordCount}
    (hp : h.PlacedAt a words) :
    h.layout.base.toNat ≤ a.toNat ∧ a.toNat + 8 * words.toNat ≤ h.layout.stop.toNat := by
  rcases hp with ⟨i, hi, -, h1, h2⟩ | ⟨i, hi, hrun, rfl⟩
  · have hi' : i < h.layout.numRegions := by rw [← hs.count]; exact hi
    have h3 := hs.layout.base_le_bottom hi'.le
    have h4 := (hs.top i hi).2.1
    rw [hs.stop i hi, hs.layout.toNat_regionStop hi'] at h4
    have h5 := hs.layout.toNat_regionStop hi'
    rw [Layout.regionStop_eq_bottom_succ] at h5
    have h6 := hs.layout.bottom_le_stop (i := i + 1) hi'
    omega
  · have hi' : i < h.layout.numRegions := by rw [← hs.count]; exact hi
    exact ⟨hs.layout.base_le_bottom hi'.le, hrun.fits⟩

end Heap

namespace WellFormed

variable {h : Heap} {t : ClassTable} {roots : Roots}

/-- Every reached address is that of an object. -/
theorem object (hw : WellFormed h t roots) {a : Address} (ha : Reaches h t roots a) :
    ∃ c words, h.ObjectAt t a c words :=
  hw.populated.object a ha

end WellFormed

theorem Reaches.contains {h : Heap} {t : ClassTable} {roots : Roots} {a : Address}
    (ha : Reaches h t roots a) : h.contains a = true := by
  cases ha with
  | root _ hin => exact hin
  | field _ _ _ _ hin => exact hin

end MarkCompact
