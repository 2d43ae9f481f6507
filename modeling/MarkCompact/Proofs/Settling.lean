/-
MarkCompact/Proofs/Settling.lean

The region table once objects have moved.

When the objects of regular regions have been moved, these regions get other tops
and may become free, and free ones may become regular.  Regions of humongous
objects are not touched by that.  `Heap.Retopped` collects what such a change
keeps, and a table with complete runs stays one.

Main results: `Retopped.tabled`, `Retopped.humongousRun`,
`Surveyed.apart_region` (a live object keeps out of the regions it does not lie in), and
`Heap.GivenBack.load_used` (giving back free regions touches no other one).
-/
import MarkCompact.Proofs.LiveObjects

namespace MarkCompact

namespace Heap

/-- The regions without humongous objects have other contents. -/
structure Retopped (h h' : Heap) : Prop where
  layout : h'.layout = h.layout
  size : h'.regions.size = h.regions.size
  extent : ∀ i < h.regions.size, (h'.region i).index = (h.region i).index ∧
    (h'.region i).bottom = (h.region i).bottom ∧ (h'.region i).stop = (h.region i).stop
  humongous : ∀ i < h.regions.size, (h.region i).kind.isHumongous = true →
    (h'.region i).kind = (h.region i).kind ∧ (h'.region i).top = (h.region i).top
  other : ∀ i < h.regions.size, (h.region i).kind.isHumongous = false →
    (h'.region i).kind.isHumongous = false ∧
      (h.region i).bottom.toNat ≤ (h'.region i).top.toNat ∧
      (h'.region i).top.toNat ≤ (h.region i).stop.toNat ∧ (h'.region i).top.toNat % 8 = 0 ∧
      ((h'.region i).kind = .free → (h'.region i).top = (h.region i).bottom)

namespace Retopped

variable {h h' : Heap}

theorem gridded (hr : Retopped h h') (hg : h.Gridded) : h'.Gridded :=
  hg.congr hr.layout hr.size hr.extent

theorem humongousRun (hr : Retopped h h') (hg : h.Gridded) {first : Nat} {words : WordCount}
    (hrun : h.HumongousRun first words) (hlt : first < h.regions.size) :
    h'.HumongousRun first words := by
  obtain ⟨-, hpos, hin⟩ := hrun.inside hg hlt
  have hsame : ∀ i, first ≤ i → i < first + (h.layout.regionsFor words).toNat →
      (h'.region i).kind = (h.region i).kind ∧ (h'.region i).top = (h.region i).top := fun i h1 h2 =>
    hr.humongous i (by omega) (HumongousRun.kind_of_inRun ⟨hrun, h1, h2⟩)
  refine ⟨hrun.nonempty, ?_, ?_, ?_, ?_, ?_⟩
  · rw [(hsame first (le_refl _) (by omega)).1]
    exact hrun.start
  · rw [hr.layout]
    exact hrun.fits
  · rw [hr.layout]
    intro i h1 h2
    rw [(hsame i h1.le h2).1]
    exact hrun.later i h1 h2
  · rw [hr.layout]
    have hlast := hrun.last
    by_cases hsize : first + (h.layout.regionsFor words).toNat < h.regions.size
    · cases hk : (h.region (first + (h.layout.regionsFor words).toNat)).kind.isHumongous with
      | true =>
        rw [(hr.humongous _ hsize hk).1]
        exact hlast
      | false =>
        intro heq
        have := (hr.other _ hsize hk).1
        rw [heq] at this
        cases this
    · rw [Heap.region_of_size_le _ (by rw [hr.size]; omega)]
      decide
  · rw [hr.layout]
    intro i h1 h2
    rw [(hsame i h1 h2).2]
    exact hrun.tops i h1 h2

/-- A kind of a humongous region is the kind it had before. -/
theorem kind_of_isHumongous (hr : Retopped h h') {i : Nat} (hi : i < h.regions.size)
    (hk : (h'.region i).kind.isHumongous = true) : (h.region i).kind = (h'.region i).kind := by
  cases hk' : (h.region i).kind.isHumongous with
  | true => exact (hr.humongous i hi hk').1.symm
  | false =>
    rw [(hr.other i hi hk').1] at hk
    cases hk

theorem tabled (hr : Retopped h h') (ht : h.Tabled) : h'.Tabled := by
  refine { hr.gridded ht.toGridded with top := ?_, free := ?_, runs := ?_, continued := ?_ }
  · intro i hi
    rw [hr.size] at hi
    obtain ⟨-, hbottom, hstop⟩ := hr.extent i hi
    rw [hbottom, hstop]
    cases hk : (h.region i).kind.isHumongous with
    | true =>
      rw [(hr.humongous i hi hk).2]
      exact ht.top i hi
    | false =>
      obtain ⟨-, h1, h2, h3, -⟩ := hr.other i hi hk
      exact ⟨h1, h2, h3⟩
  · intro i hi hfree
    rw [hr.size] at hi
    rw [(hr.extent i hi).2.1]
    cases hk : (h.region i).kind.isHumongous with
    | true =>
      obtain ⟨h1, h2⟩ := hr.humongous i hi hk
      rw [h2]
      exact ht.free i hi (h1.symm.trans hfree)
    | false => exact (hr.other i hi hk).2.2.2.2 hfree
  · intro i hi hk
    rw [hr.size] at hi
    obtain ⟨words, hrun⟩ := ht.runs i hi ((hr.kind_of_isHumongous hi (by rw [hk]; rfl)).trans hk)
    exact ⟨words, hr.humongousRun ht.toGridded hrun hi⟩
  · intro i hi hk
    rw [hr.size] at hi
    obtain ⟨first, words, hrun, h1, h2⟩ :=
      ht.continued i hi ((hr.kind_of_isHumongous hi (by rw [hk]; rfl)).trans hk)
    exact ⟨first, words, hr.humongousRun ht.toGridded hrun (by omega), h1, by rwa [hr.layout]⟩

end Retopped

/-- An object keeps out of the regions without humongous objects that it does not begin in. -/
theorem PlacedAt.apart_region {h : Heap} (ht : h.Tabled) {a : Address} {words : WordCount}
    (hp : h.PlacedAt a words) {i : Nat} (hi : i < h.regions.size)
    (hk : (h.region i).kind.isHumongous = false) (hne : h.layout.indexOf a ≠ i) (hpos : 0 < words.toNat) :
    a.toNat + 8 * words.toNat ≤ (h.layout.bottom i).toNat ∨
      (h.layout.regionStop i).toNat ≤ a.toNat := by
  have hl := ht.layout
  have hi' : i < h.layout.numRegions := by rwa [← ht.count]
  rw [hl.toNat_regionStop hi']
  rcases hp with ⟨j, hj, -, h1, h2⟩ | ⟨j, hj, hrun, rfl⟩
  · have hj' : j < h.layout.numRegions := by rwa [← ht.count]
    have htop := (ht.top j hj).2.1
    rw [ht.stop j hj, hl.toNat_regionStop hj'] at htop
    rw [hl.indexOf_eq hj' h1 (by omega)] at hne
    rcases Nat.lt_or_gt_of_ne hne with hlt | hgt
    · have := hl.regionStop_le_bottom hlt hi'.le
      omega
    · have := hl.regionStop_le_bottom hgt hj'.le
      omega
  · -- the regions of the run are humongous, so the region lies below or above the run
    have hj' : j < h.layout.numRegions := by rwa [← ht.count]
    obtain ⟨-, hn, hin⟩ := hrun.inside ht.toGridded hj
    obtain ⟨hend, -⟩ := hrun.end_le ht.toGridded hj
    rcases Nat.lt_or_ge i j with hlt | hge
    · have := hl.regionStop_le_bottom hlt hj'.le
      omega
    · rcases Nat.lt_or_ge i (j + (h.layout.regionsFor words).toNat) with hlt | hge'
      · have hh := HumongousRun.kind_of_inRun ⟨hrun, hge, hlt⟩
        rw [hk] at hh
        cases hh
      · have := hl.bottom_mono hge' hi'.le
        omega

end Heap

/-- A live object keeps out of the regions it does not lie in. -/
theorem Surveyed.apart_region {h : Heap} {t : ClassTable} {b : Bitmap} {live : Address → Prop}
    (hs : Surveyed h t b live) {a : Address} (ha : live a) {i : Nat} (hi : i < h.regions.size)
    (hk : (h.region i).kind.isHumongous = false) (hne : h.layout.indexOf a ≠ i) :
    a.toNat + 8 * h.wordsAt t a ≤ (h.layout.bottom i).toNat ∨
      (h.layout.regionStop i).toNat ≤ a.toNat := by
  obtain ⟨c, words, ho⟩ := hs.populated.object a ha
  rw [ho.wordsAt_eq]
  exact ho.place.apart_region hs.tabled hi hk hne (hs.words_pos ho)

/-! ### Giving regions back -/

/-- The page of a region is not the last one of the address space. -/
theorem Heap.Mapped.bottom_add_page {h : Heap} (hm : h.Mapped) (hl : h.layout.Sound) {i : Nat}
    (hi : i < h.layout.numRegions) : (h.layout.bottom i).toNat + 4095 < 2 ^ 64 := by
  have h1 := hm.pageAligned
  have h2 := hm.wholePages
  have h3 := hm.covers
  have h4 := hm.fits
  have h5 := congrArg UInt64.toNat hm.base
  have h6 := hl.toNat_bottom hi.le
  have h7 : i * h.layout.stride < h.layout.numRegions * h.layout.stride :=
    Nat.mul_lt_mul_of_pos_right hi h.layout.stride_pos
  omega

/-- Whether an address lies in a page that is part of one region. -/
def Layout.InPages (l : Layout) (i : Nat) (x : Address) : Prop :=
  (l.bottom i).alignUp pageBytes ≤ x ∧ x < (l.regionStop i).alignDown pageBytes

instance (l : Layout) (i : Nat) (x : Address) : Decidable (l.InPages i x) :=
  inferInstanceAs (Decidable (_ ∧ _))

theorem Layout.load_release (l : Layout) (m : Memory) (i : Nat) (x : Address) :
    (m.release (l.bottom i) (l.regionStop i - l.bottom i)).2.load x
      = if l.InPages i x then 0 else m.load x := by
  rw [Memory.load_release_eq, show l.bottom i + (l.regionStop i - l.bottom i) = l.regionStop i by
    rw [UInt64.add_comm, UInt64.sub_add_cancel]]
  rfl

namespace Heap

/-- The pages of a region lie in it. -/
theorem Mapped.within_pages {h : Heap} (hm : h.Mapped) (hl : h.layout.Sound) {i : Nat}
    (hi : i < h.layout.numRegions) {x : Address} (hx : h.layout.InPages i x) :
    (h.layout.bottom i).toNat ≤ x.toNat ∧ x.toNat < (h.layout.regionStop i).toNat := by
  have hfirst := Address.toNat_alignUp_page (hm.bottom_add_page hl hi)
  have hlast := Address.toNat_alignDown_page (h.layout.regionStop i)
  have h1 : ((h.layout.bottom i).alignUp 4096).toNat ≤ x.toNat := UInt64.le_iff_toNat_le.1 hx.1
  have h2 : x.toNat < ((h.layout.regionStop i).alignDown 4096).toNat :=
    UInt64.lt_iff_toNat_lt.1 hx.2
  omega

/-- The memory is `m`, but for the pages of free regions if these are given back. -/
structure GivenBack (h : Heap) (release : Bool) (m : Memory) : Prop where
  kept : ∀ x, (release = true → ∀ i < h.regions.size, (h.region i).kind = .free →
    ¬ h.layout.InPages i x) → h.memory.load x = m.load x
  given : release = true → ∀ i < h.regions.size, (h.region i).kind = .free →
    ∀ x, h.layout.InPages i x → h.memory.load x = 0

/-- Regions that are used keep their words. -/
theorem GivenBack.load_used {h : Heap} {release : Bool} {m : Memory} (hb : h.GivenBack release m)
    (hm : h.Mapped) (hg : h.Gridded) {i : Nat} (hi : i < h.regions.size)
    (hused : (h.region i).kind ≠ .free) {x : Address}
    (h1 : (h.layout.bottom i).toNat ≤ x.toNat) (h2 : x.toNat < (h.layout.regionStop i).toNat) :
    h.memory.load x = m.load x := by
  have hi' : i < h.layout.numRegions := by rwa [← hg.count]
  refine hb.kept x fun _ j hj hfree hx => ?_
  have hj' : j < h.layout.numRegions := by rwa [← hg.count]
  obtain ⟨h3, h4⟩ := hm.within_pages hg.layout hj' hx
  have hne : i ≠ j := fun heq => hused (heq ▸ hfree)
  rcases Nat.lt_or_gt_of_ne hne with hlt | hlt
  · have := hg.layout.regionStop_le_bottom hlt hj'.le
    rw [hg.layout.toNat_regionStop hi'] at h2
    omega
  · have := hg.layout.regionStop_le_bottom hlt hi'.le
    rw [hg.layout.toNat_regionStop hj'] at h4
    omega

end Heap

end MarkCompact
