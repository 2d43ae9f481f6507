/-
MarkCompact/Proofs/LiveObjects.lean

The live objects of a heap, region by region.

Once tracing and planning are done, a collection works on a heap whose live
objects are known: `Stocked h t b live` says that the bitmap `b` shows the
objects of `live`, that each of them is an object of `h`, and that they do not
overlap, `Surveyed h t b live` that they refer to each other only, too.  No phase
of a collection needs to know more about where the set comes from, and giving
objects their places needs to know nothing of references.

Every live object begins below the top of exactly one region, so the lists that
the phases work through (`Heap.liveIn`, `Heap.liveList`) hold every live object
once, in ascending order.

Main results: `WellFormed.surveyed` (tracing and planning establish it),
`Stocked.mem_liveIn`, `Stocked.mem_liveList` and `Stocked.pairwise_liveList`.
-/
import MarkCompact.Proofs.Planning
import MarkCompact.Proofs.Tracing

namespace MarkCompact

/-- A heap with a known set of objects. -/
structure Stocked (h : Heap) (t : ClassTable) (b : Bitmap) (live : Address → Prop) : Prop where
  tabled : h.Tabled
  mapped : h.Mapped
  classes : t.Sound
  headers : t.compactHeaders = h.compactHeaders
  populated : h.Populated t live
  shows : b.Shows h.layout live (h.wordsAt t)

/-- A heap with a known set of live objects. -/
structure Surveyed (h : Heap) (t : ClassTable) (b : Bitmap) (live : Address → Prop) : Prop
    extends Stocked h t b live where
  /-- Live objects refer to live objects. -/
  closed : ∀ a v, live a → h.RefersTo t a v → live v
  few : ∀ l : List Address, l.Nodup → (∀ a ∈ l, live a) → l.length < 2 ^ 32

/-- Regions that take part in a collection, in ascending order. -/
structure Heap.Part (h : Heap) (part : List Nat) : Prop where
  ascending : part.Pairwise (· < ·)
  inside : ∀ i ∈ part, i < h.regions.size
  regular : ∀ i ∈ part, (h.region i).kind.isHumongous = false

theorem Heap.Part.length_lt {h : Heap} {part : List Nat} (hp : h.Part part) (hg : h.Gridded) :
    part.length < 2 ^ 63 := by
  have hinside : part ⊆ List.range h.regions.size := fun i hi =>
    List.mem_range.2 (hp.inside i hi)
  have hlength := (List.Nodup.subperm (hp.ascending.imp fun h => Nat.ne_of_lt h) hinside).length_le
  rw [List.length_range] at hlength
  have := hg.size_lt
  omega

namespace Heap

/-- The live objects that begin in a region. -/
def liveIn (h : Heap) (b : Bitmap) (i : Nat) : List Address :=
  b.markedIn (h.region i).bottom (h.region i).top

/-- The live objects, region by region. -/
def liveList (h : Heap) (b : Bitmap) : List Address :=
  h.indices.flatMap (h.liveIn b)

/-- What is read of objects depends on the memory and on the kind of header only. -/
theorem infoOf_congr {h h' : Heap} {t : ClassTable} {a : Address}
    (hmem : h'.memory = h.memory) : h'.infoOf t a = h.infoOf t a := by
  simp only [infoOf, classOf, hmem]

theorem size_congr {h h' : Heap} {t : ClassTable} {a : Address}
    (hmem : h'.memory = h.memory) : h'.size t a = h.size t a := by
  simp only [size, infoOf_congr hmem, hmem]

theorem wordsAt_congr {h h' : Heap} {t : ClassTable} {a : Address}
    (hmem : h'.memory = h.memory) : h'.wordsAt t a = h.wordsAt t a := by
  simp only [wordsAt, size_congr hmem]

theorem contains_congr {h h' : Heap} (hlayout : h'.layout = h.layout)
    (hmem : h.memory.SameSpan h'.memory) (a : Address) : h'.contains a = h.contains a := by
  unfold contains Memory.contains Memory.stop
  rw [hlayout, hmem.base, hmem.size]

theorem SameGround.contains {h h' : Heap} (g : h.SameGround h') (a : Address) :
    h'.contains a = h.contains a :=
  contains_congr g.layout (by rw [g.memory]; exact Memory.SameSpan.refl _) a

/-- The first object of a region begins below its top. -/
theorem PlacedAt.region {h : Heap} (ht : h.Tabled) {a : Address} {words : WordCount}
    (hp : h.PlacedAt a words) (hpos : 0 < words.toNat) :
    h.layout.contains a = true ∧ h.layout.indexOf a < h.regions.size ∧
      (h.region (h.layout.indexOf a)).bottom.toNat ≤ a.toNat ∧
      a.toNat < (h.region (h.layout.indexOf a)).top.toNat := by
  have hl := ht.layout
  -- the region is the one of the grid that the address lies in
  have key : ∀ i < h.regions.size, (h.layout.bottom i).toNat ≤ a.toNat →
      a.toNat < (h.region i).top.toNat → h.layout.contains a = true ∧
      h.layout.indexOf a < h.regions.size ∧
      (h.region (h.layout.indexOf a)).bottom.toNat ≤ a.toNat ∧
      a.toNat < (h.region (h.layout.indexOf a)).top.toNat := by
    intro i hi h1 h2
    have hi' : i < h.layout.numRegions := by rwa [← ht.count]
    have h3 := (ht.top i hi).2.1
    rw [ht.stop i hi, hl.toNat_regionStop hi'] at h3
    obtain ⟨hc, hidx⟩ := (hl.mem_region_iff hi').1 ⟨h1, by omega⟩
    rw [hidx]
    refine ⟨hc, hi, ?_, h2⟩
    rw [ht.bottom i hi]
    exact h1
  rcases hp with ⟨i, hi, -, h1, h2⟩ | ⟨i, hi, hrun, rfl⟩
  · exact key i hi h1 (by omega)
  · obtain ⟨-, hn, -⟩ := hrun.inside ht.toGridded hi
    have htop := hrun.tops i (le_refl i) (by omega)
    have hi' : i < h.layout.numRegions := by rwa [← ht.count]
    have hstop := hl.toNat_regionStop hi'
    have hpos' := h.layout.stride_pos
    exact key i hi (le_refl _) (by omega)

/-- A place in the grid is in the heap. -/
theorem PlacedAt.contains {h : Heap} (ht : h.Tabled) (hm : h.Mapped) {a : Address}
    {words : WordCount} (hp : h.PlacedAt a words) (hpos : 0 < words.toNat)
    (haligned : a.toNat % 8 = 0) : h.contains a = true :=
  (hm.contains_iff ht.layout a).2 ⟨(hp.region ht hpos).1, haligned⟩

/-- The bottom and the top of a region are places between two words. -/
theorem Tabled.isEdge_bottom {h : Heap} (ht : h.Tabled) {i : Nat} (hi : i < h.regions.size) :
    h.layout.IsEdge (h.region i).bottom := by
  rw [ht.bottom i hi]
  exact ht.layout.isEdge_bottom (by rw [← ht.count]; exact hi.le)

theorem Tabled.isEdge_top {h : Heap} (ht : h.Tabled) {i : Nat} (hi : i < h.regions.size) :
    h.layout.IsEdge (h.region i).top := by
  have hi' : i < h.layout.numRegions := by rwa [← ht.count]
  have h1 := ht.top i hi
  have h2 := (ht.isEdge_bottom hi).bottom
  have h3 := ht.layout.bottom_le_stop (i := i + 1) hi'
  rw [ht.stop i hi, Layout.regionStop_eq_bottom_succ] at h1
  exact ⟨by omega, by omega, h1.2.2⟩

end Heap

namespace Stocked

variable {h : Heap} {t : ClassTable} {b : Bitmap} {live : Address → Prop}

theorem words_pos (hs : Stocked h t b live) {a : Address} {c : ClassInfo} {words : WordCount}
    (ho : h.ObjectAt t a c words) : 0 < words.toNat := by
  have hc := ClassTable.mem_of_info (Heap.info_of_infoOf ho.info)
  have h1 := UInt64.le_iff_toNat_le.1 (hs.classes.header c hc)
  have h2 := UInt64.le_iff_toNat_le.1 ho.whole
  have h3 := t.headerWords_pos
  omega

theorem wordsAt_pos (hs : Stocked h t b live) {a : Address} (ha : live a) :
    0 < h.wordsAt t a := by
  obtain ⟨c, words, ho⟩ := hs.populated.object a ha
  rw [ho.wordsAt_eq]
  exact hs.words_pos ho

theorem isWord (hs : Stocked h t b live) {a : Address} (ha : live a) : h.layout.IsWord a := by
  obtain ⟨c, words, ho⟩ := hs.populated.object a ha
  exact hs.mapped.isWord hs.tabled.layout ho.inside

/-- A live object ends inside the grid. -/
theorem end_le (hs : Stocked h t b live) {a : Address} (ha : live a) :
    a.toNat + 8 * h.wordsAt t a ≤ h.layout.stop.toNat := by
  obtain ⟨c, words, ho⟩ := hs.populated.object a ha
  rw [ho.wordsAt_eq]
  exact (ho.place.bounds hs.tabled).2

/-- A live object begins below the top of its region. -/
theorem region (hs : Stocked h t b live) {a : Address} (ha : live a) :
    h.layout.indexOf a < h.regions.size ∧
      (h.region (h.layout.indexOf a)).bottom.toNat ≤ a.toNat ∧
      a.toNat < (h.region (h.layout.indexOf a)).top.toNat := by
  obtain ⟨c, words, ho⟩ := hs.populated.object a ha
  exact (ho.place.region hs.tabled (hs.words_pos ho)).2

/-- A live object of a region without humongous objects ends below its top. -/
theorem end_le_top (hs : Stocked h t b live) {a : Address} (ha : live a)
    (hk : (h.region (h.layout.indexOf a)).kind.isHumongous = false) :
    a.toNat + 8 * h.wordsAt t a ≤ (h.region (h.layout.indexOf a)).top.toNat := by
  obtain ⟨c, words, ho⟩ := hs.populated.object a ha
  have hl := hs.tabled.layout
  have hpos := hs.words_pos ho
  rw [ho.wordsAt_eq]
  rcases ho.place with ⟨i, hi, -, h1, h2⟩ | ⟨i, hi, hrun, rfl⟩
  · have hi' : i < h.layout.numRegions := by rwa [← hs.tabled.count]
    have h3 := (hs.tabled.top i hi).2.1
    rw [hs.tabled.stop i hi, hl.toNat_regionStop hi'] at h3
    rwa [hl.indexOf_eq hi' h1 (by omega)]
  · have hi' : i < h.layout.numRegions := by rwa [← hs.tabled.count]
    rw [hl.indexOf_bottom hi', hrun.start] at hk
    cases hk

theorem isEdge_bottom (hs : Stocked h t b live) {i : Nat} (hi : i < h.regions.size) :
    h.layout.IsEdge (h.region i).bottom :=
  hs.tabled.isEdge_bottom hi

theorem isEdge_top (hs : Stocked h t b live) {i : Nat} (hi : i < h.regions.size) :
    h.layout.IsEdge (h.region i).top :=
  hs.tabled.isEdge_top hi

/-- The list of a region holds the live objects that begin in it. -/
theorem mem_liveIn (hs : Stocked h t b live) {i : Nat} (hi : i < h.regions.size) (a : Address) :
    a ∈ h.liveIn b i ↔ live a ∧ h.layout.indexOf a = i := by
  have hl := hs.tabled.layout
  unfold Heap.liveIn
  rw [hs.shows.mem_markedIn hl.spans (fun a ha => hs.isWord ha) (hs.isEdge_bottom hi) (hs.isEdge_top hi)]
  constructor
  · rintro ⟨ha, h1, h2⟩
    refine ⟨ha, ?_⟩
    have hi' : i < h.layout.numRegions := by rwa [← hs.tabled.count]
    have h3 := (hs.tabled.top i hi).2.1
    rw [hs.tabled.stop i hi, hl.toNat_regionStop hi'] at h3
    rw [hs.tabled.bottom i hi] at h1
    exact hl.indexOf_eq hi' h1 (by omega)
  · rintro ⟨ha, rfl⟩
    exact ⟨ha, (hs.region ha).2.1, (hs.region ha).2.2⟩

theorem pairwise_liveIn (hs : Stocked h t b live) {i : Nat} (hi : i < h.regions.size) :
    (h.liveIn b i).Pairwise (fun a c => a.toNat < c.toNat) :=
  hs.shows.fits.pairwise_markedIn hs.tabled.layout.spans (hs.isEdge_top hi)

/-- The whole list holds every live object. -/
theorem mem_liveList (hs : Stocked h t b live) (a : Address) :
    a ∈ h.liveList b ↔ live a := by
  unfold Heap.liveList Heap.indices
  rw [List.mem_flatMap]
  constructor
  · rintro ⟨i, hi, ha⟩
    exact ((hs.mem_liveIn (List.mem_range.1 hi) a).1 ha).1
  · intro ha
    have hlt := (hs.region ha).1
    exact ⟨h.layout.indexOf a, List.mem_range.2 hlt, (hs.mem_liveIn hlt a).2 ⟨ha, rfl⟩⟩

theorem indexOf_lt_indexOf (hs : Stocked h t b live) {a c : Address} (ha : live a) (hc : live c)
    (hlt : h.layout.indexOf a < h.layout.indexOf c) : a.toNat < c.toNat := by
  have hl := hs.tabled.layout
  have hin := (hs.region hc).1
  rw [hs.tabled.count] at hin
  obtain ⟨h1, h2⟩ := hl.bottom_indexOf ((hl.contains_iff a).2 ⟨(hs.isWord ha).bottom, (hs.isWord ha).stop⟩)
  obtain ⟨h3, h4⟩ := hl.bottom_indexOf ((hl.contains_iff c).2 ⟨(hs.isWord hc).bottom, (hs.isWord hc).stop⟩)
  have h5 := hl.regionStop_le_bottom hlt hin.le
  omega

/-- A live object lies below a region exactly if its own region comes before. -/
theorem lt_bottom_iff (hs : Stocked h t b live) {a : Address} (ha : live a) {i : Nat}
    (hi : i < h.regions.size) :
    a.toNat < (h.region i).bottom.toNat ↔ h.layout.indexOf a < i := by
  have hl := hs.tabled.layout
  have hi' : i < h.layout.numRegions := by rwa [← hs.tabled.count]
  have hin := (hs.region ha).1
  rw [hs.tabled.count] at hin
  obtain ⟨h1, h2⟩ := hl.bottom_indexOf ((hl.contains_iff a).2 ⟨(hs.isWord ha).bottom, (hs.isWord ha).stop⟩)
  rw [hs.tabled.bottom i hi]
  constructor
  · intro hlt
    by_contra hge
    have := hl.bottom_mono (Nat.not_lt.1 hge) hin.le
    omega
  · intro hlt
    have := hl.regionStop_le_bottom hlt hi'.le
    omega

/-- The live objects of some regions ascend if the regions do. -/
theorem pairwise_flatMap_liveIn (hs : Stocked h t b live) {is : List Nat}
    (hasc : is.Pairwise (· < ·)) (hin : ∀ i ∈ is, i < h.regions.size) :
    (is.flatMap (h.liveIn b)).Pairwise (fun a c => a.toNat < c.toNat) := by
  induction is with
  | nil => exact List.Pairwise.nil
  | cons i is ih =>
    rw [List.pairwise_cons] at hasc
    rw [List.flatMap_cons, List.pairwise_append]
    refine ⟨hs.pairwise_liveIn (hin i (by simp)), ih hasc.2 fun j hj => hin j (by simp [hj]), ?_⟩
    intro a ha c hc
    obtain ⟨j, hj, hc⟩ := List.mem_flatMap.1 hc
    obtain ⟨ha, hai⟩ := (hs.mem_liveIn (hin i (by simp)) a).1 ha
    obtain ⟨hc, hcj⟩ := (hs.mem_liveIn (hin j (by simp [hj])) c).1 hc
    exact hs.indexOf_lt_indexOf ha hc (by rw [hai, hcj]; exact hasc.1 j hj)

/-- The live objects of some regions are those that lie in them. -/
theorem mem_flatMap_liveIn (hs : Stocked h t b live) {is : List Nat}
    (hin : ∀ i ∈ is, i < h.regions.size) (a : Address) :
    a ∈ is.flatMap (h.liveIn b) ↔ live a ∧ h.layout.indexOf a ∈ is := by
  rw [List.mem_flatMap]
  constructor
  · rintro ⟨i, hi, ha⟩
    obtain ⟨hla, rfl⟩ := (hs.mem_liveIn (hin i hi) a).1 ha
    exact ⟨hla, hi⟩
  · rintro ⟨hla, hi⟩
    exact ⟨_, hi, (hs.mem_liveIn (hin _ hi) a).2 ⟨hla, rfl⟩⟩

/-- The whole list ascends. -/
theorem pairwise_liveList (hs : Stocked h t b live) :
    (h.liveList b).Pairwise (fun a c => a.toNat < c.toNat) :=
  hs.pairwise_flatMap_liveIn List.pairwise_lt_range fun _ hi => List.mem_range.1 hi

/-- No list of distinct live objects is longer. -/
theorem length_le_liveList (hs : Stocked h t b live) {l : List Address} (hn : l.Nodup)
    (hl : ∀ a ∈ l, live a) : l.length ≤ (h.liveList b).length :=
  (hn.subperm fun a ha => (hs.mem_liveList a).2 (hl a ha)).length_le

end Stocked

namespace Surveyed

variable {h : Heap} {t : ClassTable} {b : Bitmap} {live : Address → Prop}

theorem nodup_of_pairwise {as : List Address}
    (h : as.Pairwise (fun a c => a.toNat < c.toNat)) : as.Nodup :=
  h.imp fun {a c} hlt heq => by
    rw [heq] at hlt
    exact absurd hlt (Nat.lt_irrefl _)

/-- Fewer than `2 ^ 32` objects are live. -/
theorem length_liveList_lt (hs : Surveyed h t b live) : (h.liveList b).length < 2 ^ 32 :=
  hs.few _ (nodup_of_pairwise hs.pairwise_liveList) fun a ha => (hs.mem_liveList a).1 ha

end Surveyed

/-! ### Tracing and planning -/

/-- An object is the same object after planning. -/
theorem Planned.objectAt {h h' : Heap} {t : ClassTable} {b : Bitmap} {p : Plan}
    (hp : Planned h b p h') (hg : h.Gridded) {a : Address} {c : ClassInfo} {words : WordCount}
    (ho : h.ObjectAt t a c words) (hmarked : b.isMarked a = true) : h'.ObjectAt t a c words := by
  have hmem := hp.ground.memory
  refine ⟨?_, ?_, ?_, ho.whole, ?_, hp.placedAt hg ho.place hmarked⟩
  · rw [hp.ground.contains]
    exact ho.inside
  · rw [Heap.infoOf_congr hmem]
    exact ho.info
  · rw [Heap.size_congr hmem]
    exact ho.size
  · rw [hmem, hp.ground.headers]
    exact ho.mark

/-- A marked object begins in no dead run. -/
theorem Heap.PlacedAt.not_deadRun {h : Heap} {b : Bitmap} {a : Address} {words : WordCount}
    (ha : h.PlacedAt a words) (ht : h.Tabled) (hpos : 0 < words.toNat)
    (hmarked : b.isMarked a = true) : ¬ h.DeadRun b (h.layout.indexOf a) := by
  have hl := ht.layout
  rcases ha with ⟨i, hi, hk, h1, h2⟩ | ⟨i, hi, hrun, rfl⟩
  · have hi' : i < h.layout.numRegions := by rwa [← ht.count]
    have htop := (ht.top i hi).2.1
    rw [ht.stop i hi, hl.toNat_regionStop hi'] at htop
    rw [hl.indexOf_eq hi' h1 (by omega)]
    exact Plan.not_deadRun_of_kind (.inl hk)
  · obtain ⟨-, hn, -⟩ := hrun.inside ht.toGridded hi
    rw [hl.indexOf_bottom (by rwa [← ht.count]),
      Planned.deadRun_iff ⟨hrun, le_refl i, by omega⟩, ht.bottom i hi, hmarked]
    decide

/-- The region of a live object is left alone by planning. -/
theorem Planned.region_eq {h h' : Heap} {b : Bitmap} {p : Plan} (hp : Planned h b p h')
    (ht : h.Tabled) {a : Address} {words : WordCount} (ha : h.PlacedAt a words)
    (hpos : 0 < words.toNat) (hmarked : b.isMarked a = true) :
    h'.region (h.layout.indexOf a) = h.region (h.layout.indexOf a) :=
  hp.kept _ (ha.not_deadRun ht hpos hmarked)

/-- What can be reached is known after tracing. -/
theorem WellFormed.surveyed_of_shows {h : Heap} {t : ClassTable} {roots : Roots} {b : Bitmap}
    (hw : WellFormed h t roots) (hshows : b.Shows h.layout (Reaches h t roots) (h.wordsAt t)) :
    Surveyed h t b (Reaches h t roots) :=
  ⟨⟨hw.settled.toTabled, hw.mapped, hw.classes, hw.headers, hw.populated, hshows⟩,
    fun _ _ ha href => ha.refersTo href, hw.few⟩

/-- What can be reached is known after planning, too. -/
theorem WellFormed.surveyed {h h' : Heap} {t : ClassTable} {roots : Roots} {b : Bitmap} {p : Plan}
    (hw : WellFormed h t roots) (hshows : b.Shows h.layout (Reaches h t roots) (h.wordsAt t))
    (hp : Planned h b p h') : Surveyed h' t b (Reaches h t roots) := by
  have hmem := hp.ground.memory
  have hwords : ∀ a, h'.wordsAt t a = h.wordsAt t a := fun a => Heap.wordsAt_congr hmem
  refine ⟨⟨hp.tabled hw.settled.toTabled, hp.ground.mapped hw.mapped, hw.classes, ?_, ⟨?_, ?_⟩,
    ?_⟩, ?_, hw.few⟩
  · rw [hp.ground.headers]
    exact hw.headers
  · intro a ha
    obtain ⟨c, words, ho⟩ := hw.object ha
    exact ⟨c, words, hp.objectAt hw.settled.toGridded ho
      ((hshows.starts a (hw.isWord ha)).2 ha)⟩
  · intro a c ha hc hlt
    rw [hwords]
    exact hw.populated.disjoint a c ha hc hlt
  · rw [hp.ground.layout]
    exact hshows.congr (fun _ => Iff.rfl) fun a _ => (hwords a).symm
  · rintro a v ha ⟨c, f, hc, hf, hload, hne, hin⟩
    refine ha.refersTo ⟨c, f, ?_, hf, ?_, hne, ?_⟩
    · rwa [Heap.infoOf_congr hmem] at hc
    · rwa [hmem] at hload
    · rwa [hp.ground.contains] at hin

end MarkCompact
