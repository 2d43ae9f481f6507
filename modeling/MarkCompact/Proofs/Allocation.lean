/-
MarkCompact/Proofs/Allocation.lean

Words for objects.

An allocation changes the region table only, and leaves every object in its place.
The words it hands out lie in the grid and belong to no object: they are the next
ones of a region, or a run of free regions.  `Heap.Makes` collects this.

Main results: `tabled_installHumongous` (a humongous object on free regions),
`FreeRun.makes` and `Settled.apart_top`.
-/
import MarkCompact.Proofs.Settling
import MarkCompact.Proofs.Transfers

namespace MarkCompact

namespace Heap

/-! ### Runs of free regions -/

/-- The search finds regions in a row that are free. -/
theorem freeRunFrom_spec {needed : Nat} (hneeded : 0 < needed) (rs : List Region) {run index first : Nat}
    (hrun : run < needed) (hle : run ≤ index) (h : freeRunFrom needed run index rs = some first) :
    index - run ≤ first ∧ first + needed ≤ index + rs.length ∧
      ∀ i, index ≤ i → first ≤ i → i < first + needed → ∃ r, rs[i - index]? = some r ∧ r.isFree := by
  induction rs generalizing run index with
  | nil => simp [freeRunFrom] at h
  | cons r rs ih =>
    unfold freeRunFrom at h
    by_cases hfree : r.isFree = true
    · rw [if_pos hfree] at h
      by_cases hlast : run + 1 = needed
      · rw [if_pos hlast] at h
        obtain rfl : index + 1 - needed = first := by simpa using h
        refine ⟨by omega, by simp only [List.length_cons]; omega, fun i h1 h2 h3 => ?_⟩
        obtain rfl : i = index := by omega
        exact ⟨r, by simp, hfree⟩
      · rw [if_neg hlast] at h
        obtain ⟨h1, h2, h3⟩ := ih (by omega) (by omega) h
        refine ⟨by omega, by simp only [List.length_cons]; omega, fun i h4 h5 h6 => ?_⟩
        rcases Nat.eq_or_lt_of_le h4 with rfl | hlt
        · exact ⟨r, by simp, hfree⟩
        · obtain ⟨r', hr', hf⟩ := h3 i hlt h5 h6
          refine ⟨r', ?_, hf⟩
          rw [show i - index = i - (index + 1) + 1 from by omega, List.getElem?_cons_succ]
          exact hr'
    · rw [if_neg hfree] at h
      obtain ⟨h1, h2, h3⟩ := ih hneeded (by omega) h
      refine ⟨by omega, by simp only [List.length_cons]; omega, fun i h4 h5 h6 => ?_⟩
      rcases Nat.eq_or_lt_of_le h4 with rfl | hlt
      · omega
      · obtain ⟨r', hr', hf⟩ := h3 i hlt h5 h6
        refine ⟨r', ?_, hf⟩
        rw [show i - index = i - (index + 1) + 1 from by omega, List.getElem?_cons_succ]
        exact hr'

/-- No run is found for no regions. -/
theorem freeRunFrom_zero (run index : Nat) (rs : List Region) : freeRunFrom 0 run index rs = none := by
  induction rs generalizing run index with
  | nil => rfl
  | cons r rs ih =>
    unfold freeRunFrom
    rw [if_neg (Nat.succ_ne_zero run), ih, ih, ite_self]

theorem findFreeRun_spec {h : Heap} {needed first : Nat} (hneeded : 0 < needed)
    (hfind : h.findFreeRun needed = some first) :
    first + needed ≤ h.regions.size ∧
      ∀ i, first ≤ i → i < first + needed → (h.region i).kind = .free := by
  obtain ⟨-, h2, h3⟩ := freeRunFrom_spec hneeded _ hneeded (Nat.le_refl 0) hfind
  rw [Array.length_toList] at h2
  refine ⟨by omega, fun i h4 h5 => ?_⟩
  obtain ⟨r, hr, hfree⟩ := h3 i (Nat.zero_le i) h4 h5
  have hi : i < h.regions.size := by omega
  rw [Nat.sub_zero, Array.getElem?_toList, Array.getElem?_eq_getElem hi, Option.some.injEq] at hr
  rw [h.region_eq_getElem hi, hr]
  simpa [Region.isFree] using hfree

/-! ### Installing a humongous object -/

/-- A region of a humongous object of so many words that begins in the region `first`. -/
def humongousPart (h : Heap) (first : Nat) (words : WordCount) (i : Nat) (r : Region) : Region :=
  { r with
    kind := if i = first then .humongousStart else .humongousContinues
    top := min ((h.region first).bottom.offset words) r.stop }

theorem region_installHumongous (h : Heap) (first : Nat) (words : WordCount) (j : Nat) :
    (h.installHumongous first words).region j
      = if (first ≤ j ∧ j < first + (h.layout.regionsFor words).toNat) ∧ j < h.regions.size then
          h.humongousPart first words j (h.region j)
        else h.region j := by
  have hfold := region_foldl_modify
    (fun g i => g.modifyRegion i (h.humongousPart first words i)) (h.humongousPart first words)
    (fun g i j => region_modifyRegion g i j _) (fun g i => size_modifyRegion g i _)
    (fun _ _ => rfl) (List.range' first (h.layout.regionsFor words).toNat) h j
  simp only [List.mem_range'_1] at hfold
  exact hfold

theorem sameGround_installHumongous (h : Heap) (first : Nat) (words : WordCount) :
    h.SameGround (h.installHumongous first words) :=
  (sameGround_foldl _ (fun g i => sameGround_modifyRegion g i _) _ h).trans
    (sameGround_recordStart _ _)

theorem starts_installHumongous (h : Heap) (first : Nat) (words : WordCount) :
    (h.installHumongous first words).starts = h.starts.record (h.region first).bottom := by
  have hfold : ∀ (is : List Nat) (change : Nat → Region → Region) (g : Heap),
      (is.foldl (fun g i => g.modifyRegion i (change i)) g).starts = g.starts := by
    intro is change
    induction is with
    | nil => exact fun _ => rfl
    | cons i is ih => exact fun g => ih (g.modifyRegion i (change i))
  unfold installHumongous
  dsimp only
  unfold recordStart
  exact congrArg (StartTable.record · _) (hfold _ _ h)

/-- The free regions from `first` on hold so many words, and no fewer would do. -/
structure FreeRun (h : Heap) (first : Nat) (words : WordCount) : Prop where
  nonempty : 0 < words.toNat
  small : words.toNat < 2 ^ 62
  inside : first + (h.layout.regionsFor words).toNat ≤ h.regions.size
  free : ∀ i, first ≤ i → i < first + (h.layout.regionsFor words).toNat →
    (h.region i).kind = .free

variable {h : Heap} {first : Nat} {words : WordCount}

theorem FreeRun.bounds (hr : h.FreeRun first words) (hg : h.Gridded) :
    (h.layout.bottom first).toNat + 8 * words.toNat
        ≤ (h.layout.bottom (first + (h.layout.regionsFor words).toNat)).toNat ∧
      (h.layout.bottom (first + ((h.layout.regionsFor words).toNat - 1))).toNat
        < (h.layout.bottom first).toNat + 8 * words.toNat ∧
      0 < (h.layout.regionsFor words).toNat ∧
      (h.layout.bottom first).toNat + 8 * words.toNat ≤ h.layout.stop.toNat := by
  have hl := hg.layout
  have hin := hr.inside
  rw [hg.count] at hin
  obtain ⟨h1, h2, h3⟩ := hl.regionsFor_bounds hr.small hr.nonempty
  have h4 := hl.bottom_le_stop hin
  rw [hl.toNat_bottom hin, Nat.add_mul] at h4 ⊢
  rw [hl.toNat_bottom (i := first) (by omega),
    hl.toNat_bottom (i := first + ((h.layout.regionsFor words).toNat - 1)) (by omega), Nat.add_mul]
  omega

/-- The first region of a free run does not follow another one in a longer run, and a region
of a run is not free. -/
theorem FreeRun.not_inRun (hr : h.FreeRun first words) {f i : Nat} {w : WordCount}
    (hin : h.InRun f w i) : i < first ∨ first + (h.layout.regionsFor words).toNat ≤ i := by
  by_contra hh
  have hk := HumongousRun.kind_of_inRun hin
  rw [hr.free i (by omega) (by omega)] at hk
  cases hk

theorem FreeRun.region_installed (hr : h.FreeRun first words) (hg : h.Gridded) {i : Nat}
    (h1 : first ≤ i) (h2 : i < first + (h.layout.regionsFor words).toNat) :
    (h.installHumongous first words).region i = h.humongousPart first words i (h.region i) ∧
      ((h.installHumongous first words).region i).top.toNat
        = min ((h.layout.bottom first).toNat + 8 * words.toNat) (h.layout.regionStop i).toNat := by
  have hin := hr.inside
  obtain ⟨-, -, -, hfits⟩ := hr.bounds hg
  have hlt := h.layout.stop.toNat_lt
  have hregion : (h.installHumongous first words).region i
      = h.humongousPart first words i (h.region i) := by
    rw [region_installHumongous, if_pos ⟨⟨h1, h2⟩, by omega⟩]
  refine ⟨hregion, ?_⟩
  rw [hregion]
  show (min ((h.region first).bottom.offset words) (h.region i).stop : UInt64).toNat = _
  rw [toNat_min, hg.bottom first (by omega), Address.toNat_offset (by omega),
    hg.stop i (by omega)]

theorem FreeRun.region_kept {i : Nat}
    (hout : i < first ∨ first + (h.layout.regionsFor words).toNat ≤ i) :
    (h.installHumongous first words).region i = h.region i := by
  rw [region_installHumongous, if_neg (by omega)]

theorem gridded_installHumongous (hg : h.Gridded) (first : Nat) (words : WordCount) :
    (h.installHumongous first words).Gridded := by
  have hground := sameGround_installHumongous h first words
  refine hg.congr hground.layout hground.size fun i _ => ?_
  rw [region_installHumongous]
  split <;> exact ⟨rfl, rfl, rfl⟩

/-- The object has its run. -/
theorem FreeRun.installed (hr : h.FreeRun first words) (ht : h.Tabled) :
    (h.installHumongous first words).HumongousRun first words := by
  have hg := ht.toGridded
  have hlayout := (sameGround_installHumongous h first words).layout
  obtain ⟨-, -, hpos, hfits⟩ := hr.bounds hg
  refine ⟨hr.nonempty, ?_, ?_, ?_, ?_, ?_⟩
  · rw [(hr.region_installed hg (le_refl _) (by omega)).1]
    exact if_pos rfl
  · rw [hlayout]
    exact hfits
  · rw [hlayout]
    intro i h1 h2
    rw [(hr.region_installed hg h1.le h2).1]
    exact if_neg (by omega)
  · rw [hlayout, region_kept (.inr (le_refl _))]
    intro hc
    -- a run that goes on after free regions would have to begin there
    by_cases hlt : first + (h.layout.regionsFor words).toNat < h.regions.size
    · obtain ⟨f, w, hrun, h1, h2⟩ := ht.continued _ hlt hc
      have := hr.not_inRun (f := f) (w := w)
        (i := first + (h.layout.regionsFor words).toNat - 1) ⟨hrun, by omega, by omega⟩
      omega
    · rw [h.region_of_size_le (by omega)] at hc
      cases hc
  · rw [hlayout]
    intro i h1 h2
    exact (hr.region_installed hg h1 h2).2

/-- The runs that were there are still there. -/
theorem FreeRun.humongousRun (hr : h.FreeRun first words) (hg : h.Gridded) {f : Nat}
    {w : WordCount} (hrun : h.HumongousRun f w) (hf : f < h.regions.size) :
    (h.installHumongous first words).HumongousRun f w := by
  have hlayout := (sameGround_installHumongous h first words).layout
  obtain ⟨-, hpos, -⟩ := hrun.inside hg hf
  have hkept : ∀ i, f ≤ i → i < f + (h.layout.regionsFor w).toNat →
      (h.installHumongous first words).region i = h.region i := fun i h1 h2 =>
    region_kept (hr.not_inRun ⟨hrun, h1, h2⟩)
  refine ⟨hrun.nonempty, ?_, ?_, ?_, ?_, ?_⟩
  · rw [hkept f (le_refl _) (by omega)]
    exact hrun.start
  · rw [hlayout]
    exact hrun.fits
  · rw [hlayout]
    intro i h1 h2
    rw [hkept i h1.le h2]
    exact hrun.later i h1 h2
  · rw [hlayout]
    have hbefore := hr.not_inRun (f := f) (w := w) (i := f + (h.layout.regionsFor w).toNat - 1)
      ⟨hrun, by omega, by omega⟩
    by_cases hin : first ≤ f + (h.layout.regionsFor w).toNat ∧
        f + (h.layout.regionsFor w).toNat < first + (h.layout.regionsFor words).toNat
    · rw [(hr.region_installed hg hin.1 hin.2).1]
      show (if _ then _ else _) ≠ RegionKind.humongousContinues
      rw [if_pos (by omega)]
      decide
    · rw [region_kept (by omega)]
      exact hrun.last
  · rw [hlayout]
    intro i h1 h2
    rw [hkept i h1 h2]
    exact hrun.tops i h1 h2

/-- A humongous object on free regions leaves a table in which all runs are complete. -/
theorem tabled_installHumongous (hr : h.FreeRun first words) (ht : h.Tabled) :
    (h.installHumongous first words).Tabled := by
  have hg := ht.toGridded
  have hground := sameGround_installHumongous h first words
  have hl := ht.layout
  obtain ⟨hend, hlast, hpos, hfits⟩ := hr.bounds hg
  have hin := hr.inside
  refine { gridded_installHumongous hg first words with
    top := ?_, free := ?_, runs := ?_, continued := ?_ }
  · intro i hi
    rw [hground.size] at hi
    have hi' : i < h.layout.numRegions := by rwa [← hg.count]
    by_cases hmem : first ≤ i ∧ i < first + (h.layout.regionsFor words).toNat
    · obtain ⟨hregion, htop⟩ := hr.region_installed hg hmem.1 hmem.2
      rw [htop, hregion]
      show (h.region i).bottom.toNat ≤ _ ∧ _ ≤ (h.region i).stop.toNat ∧ _
      rw [hg.bottom i hi, hg.stop i hi]
      have hmono := hl.bottom_mono (i := i) (j := first + ((h.layout.regionsFor words).toNat - 1))
        (by omega) (by rw [hg.count] at hin; omega)
      have hstop := hl.toNat_regionStop hi'
      have hmod1 := hl.bottom_mod (i := first) (by rw [hg.count] at hin; omega)
      have hmod2 := hl.bottom_mod (i := i + 1) hi'
      rw [← Layout.regionStop_eq_bottom_succ] at hmod2
      omega
    · rw [FreeRun.region_kept (by omega)]
      exact ht.top i hi
  · intro i hi hk
    rw [hground.size] at hi
    by_cases hmem : first ≤ i ∧ i < first + (h.layout.regionsFor words).toNat
    · rw [(hr.region_installed hg hmem.1 hmem.2).1] at hk
      exfalso
      revert hk
      show (if _ then _ else _) ≠ RegionKind.free
      split <;> decide
    · rw [FreeRun.region_kept (by omega)] at hk ⊢
      exact ht.free i hi hk
  · intro i hi hk
    rw [hground.size] at hi
    by_cases hmem : first ≤ i ∧ i < first + (h.layout.regionsFor words).toNat
    · rcases Nat.eq_or_lt_of_le hmem.1 with rfl | hlt
      · exact ⟨words, hr.installed ht⟩
      · rw [(hr.region_installed hg hmem.1 hmem.2).1] at hk
        exfalso
        revert hk
        show (if _ then _ else _) ≠ RegionKind.humongousStart
        rw [if_neg (by omega)]
        decide
    · rw [FreeRun.region_kept (by omega)] at hk
      obtain ⟨w, hrun⟩ := ht.runs i hi hk
      exact ⟨w, hr.humongousRun hg hrun hi⟩
  · intro i hi hk
    rw [hground.size] at hi
    rw [hground.layout]
    by_cases hmem : first ≤ i ∧ i < first + (h.layout.regionsFor words).toNat
    · rcases Nat.eq_or_lt_of_le hmem.1 with rfl | hlt
      · rw [(hr.region_installed hg hmem.1 hmem.2).1] at hk
        exfalso
        revert hk
        show (if _ then _ else _) ≠ RegionKind.humongousContinues
        rw [if_pos rfl]
        decide
      · exact ⟨first, words, hr.installed ht, hlt, hmem.2⟩
    · rw [FreeRun.region_kept (by omega)] at hk
      obtain ⟨f, w, hrun, h1, h2⟩ := ht.continued i hi hk
      exact ⟨f, w, hr.humongousRun hg hrun (by omega), h1, h2⟩

/-- What is found are free regions for the words. -/
theorem Tabled.freeRun_of_find (ht : h.Tabled)
    (hfind : h.findFreeRun (h.layout.regionsFor words).toNat = some first) :
    h.FreeRun first words := by
  have hpos : 0 < (h.layout.regionsFor words).toNat := by
    refine Nat.pos_of_ne_zero fun hzero => ?_
    unfold findFreeRun at hfind
    rw [hzero, freeRunFrom_zero] at hfind
    cases hfind
  obtain ⟨hin, hfree⟩ := findFreeRun_spec hpos hfind
  obtain ⟨h1, h2⟩ := ht.layout.small_of_regionsFor hpos (by rw [← ht.count]; omega)
  exact ⟨h1, h2, hin, hfree⟩

theorem Tabled.allocateHumongous_eq (ht : h.Tabled)
    (hfind : h.findFreeRun (h.layout.regionsFor words).toNat = some first) :
    h.allocateHumongous words = (.ok (h.layout.bottom first), h.installHumongous first words) := by
  have hr := ht.freeRun_of_find hfind
  obtain ⟨-, -, hpos, -⟩ := hr.bounds ht.toGridded
  have hin := hr.inside
  have hground := sameGround_installHumongous h first words
  unfold allocateHumongous
  dsimp only
  rw [hfind]
  dsimp only
  rw [(gridded_installHumongous ht.toGridded first words).bottom first
    (by rw [hground.size]; omega), hground.layout]

/-! ### What an allocation leaves -/

/-- A change of the region table that leaves every object in its place. -/
structure Keeps (h h' : Heap) : Prop where
  ground : h.SameGround h'
  settled : h'.Settled
  kept : ∀ b w, h.PlacedAt b w → h'.PlacedAt b w

/-- The heap `h'` is `h` after a request has been refused: free regions that have been looked at
may have become regular ones. -/
structure Refuses (h h' : Heap) : Prop extends Keeps h h' where
  starts : h'.starts = h.starts
  top : ∀ i, (h'.region i).top = (h.region i).top
  kind : ∀ i, (h'.region i).kind = (h.region i).kind ∨
    (h.region i).kind = .free ∧ (h'.region i).kind = .regular

/-- The heap `h'` is `h` after the words from `a` on have been handed out. -/
structure Makes (h h' : Heap) (words : WordCount) (a : Address) : Prop extends Keeps h h' where
  placed : h'.PlacedAt a words
  aligned : a.toNat % 8 = 0
  apart : ∀ b w, h.PlacedAt b w → 0 < w.toNat → a.Apart words.toNat b w.toNat
  starts : h'.starts = h.starts.record a
  /-- A regular region has been one before, or free. -/
  regular : ∀ i, (h'.region i).kind = .regular →
    (h.region i).kind = .regular ∨ (h.region i).kind = .free
  /-- It ends where it did, and the new words do not lie in it, or it ends with them. -/
  top : ∀ i < h.regions.size, (h'.region i).kind = .regular →
    (h'.region i).top = (h.region i).top ∧ (0 < words.toNat →
      (h.layout.bottom i).toNat ≤ a.toNat → (h.region i).top.toNat ≤ a.toNat) ∨
    (h.region i).top = a ∧ (h'.region i).top.toNat = a.toNat + 8 * words.toNat
  start : ∀ i < h.regions.size, (h'.region i).kind = .humongousStart →
    (h.region i).kind = .humongousStart ∨ a = h.layout.bottom i

theorem Keeps.refl (hs : h.Settled) : Keeps h h := ⟨SameGround.refl h, hs, fun _ _ hp => hp⟩

theorem Keeps.trans {h' h'' : Heap} (hk : Keeps h h') (hk' : Keeps h' h'') : Keeps h h'' :=
  ⟨hk.ground.trans hk'.ground, hk'.settled, fun b w hp => hk'.kept b w (hk.kept b w hp)⟩

theorem Refuses.refl (hs : h.Settled) : Refuses h h :=
  { Keeps.refl hs with
    starts := rfl
    top := fun _ => rfl
    kind := fun _ => .inl rfl }

/-- Only the table and the grid matter. -/
theorem retopped_of_regions {h' : Heap} (hs : h.Settled) (hlayout : h'.layout = h.layout)
    (hregions : h'.regions = h.regions) : Retopped h h' := by
  have hregion : ∀ i, h'.region i = h.region i := fun i => by
    unfold region
    rw [hregions]
  refine ⟨hlayout, by rw [hregions], ?_, ?_, ?_⟩
  · intro i _
    rw [hregion]
    exact ⟨rfl, rfl, rfl⟩
  · intro i _ _
    rw [hregion]
    exact ⟨rfl, rfl⟩
  · intro i hi hk
    have htop := hs.top i hi
    rw [hregion]
    exact ⟨hk, htop.1, htop.2.1, htop.2.2, hs.free i hi⟩

theorem settled_of_regions {h' : Heap} (hs : h.Settled) (hlayout : h'.layout = h.layout)
    (hregions : h'.regions = h.regions) : h'.Settled := by
  refine { (retopped_of_regions hs hlayout hregions).tabled hs.toTabled with idle := ?_ }
  intro i hi
  have hregion : h'.region i = h.region i := by
    unfold region
    rw [hregions]
  rw [hregion]
  exact hs.idle i (by rwa [← hregions])

theorem placedAt_of_regions {h' : Heap} (hs : h.Settled) (hlayout : h'.layout = h.layout)
    (hregions : h'.regions = h.regions) {b : Address} {w : WordCount} (hp : h.PlacedAt b w) :
    h'.PlacedAt b w := by
  have hregion : ∀ i, h'.region i = h.region i := fun i => by
    unfold region
    rw [hregions]
  rcases hp with ⟨j, hj, hjk, h4, h5⟩ | ⟨j, hj, hrun, heq⟩
  · exact .inl ⟨j, by rwa [hregions], by rwa [hregion], by rwa [hlayout], by rwa [hregion]⟩
  · exact .inr ⟨j, by rwa [hregions],
      (retopped_of_regions hs hlayout hregions).humongousRun hs.toGridded hrun hj, by rwa [hlayout]⟩

theorem placedAt_withMemory (hs : h.Settled) (m : Memory) {b : Address} {w : WordCount}
    (hp : h.PlacedAt b w) : (h.withMemory m).PlacedAt b w := by
  have hregions : (h.withMemory m).regions = h.regions := rfl
  have hlayout : (h.withMemory m).layout = h.layout := rfl
  exact placedAt_of_regions hs hlayout hregions hp

/-- The table is the same. -/
theorem keeps_of_regions {h' : Heap} (hs : h.Settled) (hground : h.SameGround h')
    (hregions : h'.regions = h.regions) : Keeps h h' :=
  ⟨hground, settled_of_regions hs hground.layout hregions,
    fun _ _ => placedAt_of_regions hs hground.layout hregions⟩

/-- A region without humongous objects gets another top. -/
theorem retopped_modifyRegion (ht : h.Tabled) {i : Nat}
    (hk : (h.region i).kind.isHumongous = false) {top : Address}
    (h1 : (h.region i).bottom.toNat ≤ top.toNat) (h2 : top.toNat ≤ (h.region i).stop.toNat)
    (h3 : top.toNat % 8 = 0) :
    Retopped h (h.modifyRegion i fun r => { r with kind := .regular, top := top }) := by
  refine ⟨rfl, size_modifyRegion .., ?_, ?_, ?_⟩
  · intro j _
    rw [region_modifyRegion]
    split <;> exact ⟨rfl, rfl, rfl⟩
  · intro j _ hj
    rw [region_modifyRegion, if_neg]
    · exact ⟨rfl, rfl⟩
    · rintro ⟨rfl, -⟩
      rw [hk] at hj
      cases hj
  · intro j hj hjk
    rw [region_modifyRegion]
    split
    · rename_i hij
      obtain ⟨rfl, -⟩ := hij
      exact ⟨rfl, h1, h2, h3, fun hh => by cases hh⟩
    · exact ⟨hjk, (ht.top j hj).1, (ht.top j hj).2.1, (ht.top j hj).2.2, ht.free j hj⟩

/-- A change of one region without humongous objects that gives it more room in use. -/
theorem keeps_modifyRegion (hs : h.Settled) {i : Nat} (hi : i < h.regions.size)
    (hk : (h.region i).kind.isHumongous = false) {top : Address}
    (h1 : (h.region i).top.toNat ≤ top.toNat) (h2 : top.toNat ≤ (h.region i).stop.toNat)
    (h3 : top.toNat % 8 = 0) :
    Keeps h (h.modifyRegion i fun r => { r with kind := .regular, top := top }) := by
  have hregion : ∀ j, (h.modifyRegion i fun r => { r with kind := .regular, top := top }).region j
      = if i = j then { h.region i with kind := .regular, top := top } else h.region j := by
    intro j
    rw [region_modifyRegion]
    by_cases hij : i = j
    · subst hij
      rw [if_pos ⟨rfl, hi⟩, if_pos rfl]
    · rw [if_neg fun hh => hij hh.1, if_neg hij]
  have hground := sameGround_modifyRegion h i fun r => { r with kind := .regular, top := top }
  have hretop := retopped_modifyRegion hs.toTabled hk ((hs.top i hi).1.trans h1) h2 h3
  refine ⟨hground, { hretop.tabled hs.toTabled with idle := ?_ }, ?_⟩
  · intro j hj
    rw [hground.size] at hj
    obtain ⟨k1, k2, k3, k4⟩ := hs.idle j hj
    rw [hregion]
    split
    · rename_i hij
      subst hij
      exact ⟨k1, k2, k3, k4⟩
    · exact ⟨k1, k2, k3, k4⟩
  · rintro b w (⟨j, hj, hjk, h4, h5⟩ | ⟨j, hj, hrun, heq⟩)
    · refine .inl ⟨j, by rwa [hground.size], ?_, by rwa [hground.layout], ?_⟩
      · rw [hregion]
        split
        · rfl
        · exact hjk
      · rw [hregion]
        split
        · rename_i hij
          subst hij
          exact h5.trans h1
        · exact h5
    · exact .inr ⟨j, by rwa [hground.size], hretop.humongousRun hs.toGridded hrun hj, by
        rwa [hground.layout]⟩

/-! ### Words of a region -/

/-- Only the region itself matters to a change of it. -/
theorem modifyRegion_congr {i : Nat} {change change' : Region → Region}
    (hsame : change (h.region i) = change' (h.region i)) :
    h.modifyRegion i change = h.modifyRegion i change' := by
  unfold modifyRegion
  congr 1
  apply Array.ext
  · simp
  · intro j hj _
    rw [Array.size_modify] at hj
    rw [Array.getElem_modify, Array.getElem_modify]
    split
    · rename_i hij
      subst hij
      rw [← h.region_eq_getElem hj]
      exact hsame
    · rfl

/-- The words from the top of a region on belong to no object. -/
theorem Settled.apart_top (hs : h.Settled) {i : Nat} (hi : i < h.regions.size)
    (hk : (h.region i).kind.isHumongous = false)
    (hle : (h.region i).top.toNat + 8 * words.toNat ≤ (h.region i).stop.toNat) {b : Address}
    {w : WordCount} (hp : h.PlacedAt b w) (hw : 0 < w.toNat) :
    (h.region i).top.Apart words.toNat b w.toNat := by
  have hl := hs.layout
  have htop := hs.top i hi
  rw [hs.bottom i hi] at htop
  by_cases hidx : h.layout.indexOf b = i
  · -- the objects of the region end below its top
    right
    rcases hp with ⟨j, hj, hjk, h4, h5⟩ | ⟨j, hj, hrun, rfl⟩
    · have hj' : j < h.layout.numRegions := by rwa [← hs.count]
      have htopj := (hs.top j hj).2.1
      rw [hs.stop j hj, hl.toNat_regionStop hj'] at htopj
      rw [hl.indexOf_eq hj' h4 (by omega)] at hidx
      rw [← hidx]
      exact h5
    · rw [hl.indexOf_bottom (by rwa [← hs.count])] at hidx
      subst hidx
      rw [hrun.start] at hk
      cases hk
  · have hout := hp.apart_region hs.toTabled hi hk hidx hw
    rw [hs.stop i hi] at hle
    unfold Address.Apart
    omega

/-! ### Words of their own regions -/

/-- What has become of a request for so many words. -/
def Answered (h : Heap) (words : WordCount) : Except CompactError Address × Heap → Prop
  | (.ok a, h') => Makes h h' words a
  | (.error _, h') => Refuses h h'

/-- Regular regions are as they were. -/
theorem FreeRun.region_of_regular (hr : h.FreeRun first words) (hg : h.Gridded) {i : Nat}
    (hk : ((h.installHumongous first words).region i).kind = .regular) :
    (h.installHumongous first words).region i = h.region i := by
  by_cases hmem : first ≤ i ∧ i < first + (h.layout.regionsFor words).toNat
  · rw [(hr.region_installed hg hmem.1 hmem.2).1] at hk
    exfalso
    revert hk
    show (if _ then _ else _) ≠ RegionKind.regular
    split <;> decide
  · exact FreeRun.region_kept (by omega)

/-- No object has words in free regions. -/
theorem FreeRun.apart (hr : h.FreeRun first words) (ht : h.Tabled) {b : Address} {w : WordCount}
    (hp : h.PlacedAt b w) (hw : 0 < w.toNat) :
    (h.layout.bottom first).Apart words.toNat b w.toNat := by
  obtain ⟨hend, -, hneeded, -⟩ := hr.bounds ht.toGridded
  have hin := hr.inside
  by_contra hh
  unfold Address.Apart at hh
  rw [not_or, Nat.not_le, Nat.not_le] at hh
  have hbw := hp.bounds ht
  have hregions : ∀ i, first ≤ i → i < first + (h.layout.regionsFor words).toNat →
      b.toNat + 8 * w.toNat ≤ (h.layout.bottom i).toNat ∨
        (h.layout.regionStop i).toNat ≤ b.toNat := by
    intro i h1 h2
    refine hp.apart_region ht (by omega) (by rw [hr.free i h1 h2]; rfl) ?_ hw
    rintro rfl
    obtain ⟨-, hlt, h3, h4⟩ := hp.region ht hw
    rw [ht.free _ hlt (hr.free _ h1 h2)] at h4
    omega
  -- the object keeps out of one region of the run after the other
  have hbelow : ∀ k, 0 < k → k ≤ (h.layout.regionsFor words).toNat →
      b.toNat + 8 * w.toNat ≤ (h.layout.bottom first).toNat ∨
        (h.layout.bottom (first + k)).toNat ≤ b.toNat := by
    intro k hk
    induction k, hk using Nat.le_induction with
    | base => exact fun _ => hregions first (le_refl _) (by omega)
    | succ k hk ih =>
      intro hle
      rcases ih (by omega) with hb | hb
      · exact .inl hb
      · rcases hregions (first + k) (by omega) (by omega) with hb' | hb'
        · omega
        · exact .inr hb'
  have := hbelow _ hneeded (le_refl _)
  omega

/-- A humongous object on free regions has words that belong to no object. -/
theorem FreeRun.makes (hr : h.FreeRun first words) (hs : h.Settled) :
    Makes h (h.installHumongous first words) words (h.layout.bottom first) := by
  have ht := tabled_installHumongous hr hs.toTabled
  have hground := sameGround_installHumongous h first words
  have hg := hs.toGridded
  have hl := hs.layout
  obtain ⟨hend, -, hneeded, -⟩ := hr.bounds hg
  have hin := hr.inside
  have hfirst : first < h.regions.size := by omega
  refine { ground := hground, settled := { ht with idle := ?_ }, kept := ?_, placed := ?_
           aligned := ?_, apart := fun b w hp hw => hr.apart hs.toTabled hp hw, starts := ?_
           regular := ?_, top := ?_, start := ?_ }
  · intro i hi
    rw [hground.size] at hi
    obtain ⟨k1, k2, k3, k4⟩ := hs.idle i hi
    rw [region_installHumongous]
    split <;> exact ⟨k1, k2, k3, k4⟩
  · rintro b w (⟨j, hj, hjk, h4, h5⟩ | ⟨j, hj, hrun, heq⟩)
    · have hout : j < first ∨ first + (h.layout.regionsFor words).toNat ≤ j := by
        by_contra hh
        rw [hr.free j (by omega) (by omega)] at hjk
        cases hjk
      exact .inl ⟨j, by rwa [hground.size], by rwa [FreeRun.region_kept hout],
        by rwa [hground.layout], by rwa [FreeRun.region_kept hout]⟩
    · exact .inr ⟨j, by rwa [hground.size], hr.humongousRun hg hrun hj, by rwa [hground.layout]⟩
  · exact .inr ⟨first, by rwa [hground.size], hr.installed hs.toTabled, by rw [hground.layout]⟩
  · exact hl.bottom_mod (by rw [← hs.count]; omega)
  · rw [starts_installHumongous, hg.bottom first hfirst]
  · exact fun i hk => .inl (by rwa [hr.region_of_regular hg hk] at hk)
  · intro i hi hk
    refine .inl ⟨by rw [hr.region_of_regular hg hk], fun _ hle => ?_⟩
    have hi' : i < h.layout.numRegions := by rwa [← hg.count]
    have hfirst' : first < h.layout.numRegions := by rwa [← hg.count]
    have htopi := (hs.top i hi).2.1
    rw [hs.stop i hi, hl.toNat_regionStop hi'] at htopi
    have hne : i ≠ first := by
      rintro rfl
      rw [hr.region_of_regular hg hk, hr.free i (le_refl _) (by omega)] at hk
      cases hk
    rcases Nat.lt_or_gt_of_ne hne with hlt | hlt
    · have := hl.regionStop_le_bottom hlt hfirst'.le
      omega
    · have := hl.regionStop_le_bottom hlt hi'.le
      have := h.layout.stride_pos
      omega
  · intro i hi hk
    by_cases hmem : first ≤ i ∧ i < first + (h.layout.regionsFor words).toNat
    · rw [(hr.region_installed hg hmem.1 hmem.2).1] at hk
      by_cases hi : i = first
      · exact .inr (by rw [hi])
      · have hlater : (if i = first then RegionKind.humongousStart else .humongousContinues)
            = .humongousStart := hk
        rw [if_neg hi] at hlater
        cases hlater
    · rw [FreeRun.region_kept (by omega)] at hk
      exact .inl hk

/-- No object of a class is as large as the address space. -/
theorem small_of_le_heapWords (hl : h.layout.Sound)
    (hsize : words.toNat ≤ h.layout.heapWords.toNat) : words.toNat < 2 ^ 61 := by
  have h1 := hl.toNat_heapWords
  have h2 := hl.fits
  omega

end Heap

end MarkCompact
