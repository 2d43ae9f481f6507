/-
MarkCompact/Proofs/LowestFits.lean

Which words a heap hands out, and when it has none.

Words that fit in a region come from the lowest region that suits (`Heap.LowestFit`), and what a
refusal says is left in one region is always too little.  More words need a run of free regions.
The search for one counts the free regions that it has just passed and forgets the count at any
other one; so it misses no run (`Heap.freeRunFrom_le`), neither one that ends with the last region
nor one that begins right after a region in use.

How many regions are needed is found by a sum that may wrap.  It wraps only for counts that no heap
has room for, and then no run is looked for at all.

* `Tabled.freeRun_iff` — a run has as many regions as the words fill, rounded up;
* `Tabled.allocateHumongous_cases` — the lowest run is taken, or there is none;
* `Tabled.mostFreeWords_lt` — what is left is too little.

Main result: `Heap.Tabled.lowest_fit`.
-/
import MarkCompact.Proofs.Instances
import MarkCompact.Proofs.LowestStarts
import Mathlib.Algebra.Order.Floor.Div

namespace MarkCompact

/-- Words are spread over as many regions as they fill, the last of them perhaps in part. -/
theorem Layout.Sound.toNat_regionsFor_ceilDiv {l : Layout} (hl : l.Sound) {words : WordCount}
    (hw : words.toNat < 2 ^ 62) :
    (l.regionsFor words).toNat = words.toNat ⌈/⌉ l.regionWords.toNat := by
  have hregion := hl.toNat_regionWords
  have hstride := hl.stride_le
  have hpos := l.stride_pos
  have hsum : (words + l.regionWords - 1).toNat = words.toNat + l.regionWords.toNat - 1 := by
    rw [UInt64.toNat_sub, UInt64.toNat_add]
    show (2 ^ 64 - 1 + (words.toNat + l.regionWords.toNat) % 2 ^ 64) % 2 ^ 64 = _
    omega
  rw [hl.toNat_regionsFor_div, hsum, Nat.ceilDiv_eq_add_pred_div]

namespace Heap

variable {h h' : Heap} {words : WordCount} {first : Nat}

/-! ### Runs of free regions -/

/-- So many regions from `first` on are free. -/
structure FreeFrom (h : Heap) (needed first : Nat) : Prop where
  inside : first + needed ≤ h.regions.size
  free : ∀ i, first ≤ i → i < first + needed → (h.region i).kind = .free

/-- A run that is there is found, or one that begins before it. -/
theorem freeRunFrom_le {needed : Nat} (rs : List Region) {run index j : Nat}
    (hrun : run < needed) (hle : run ≤ index) (hj : index ≤ j + run)
    (hend : j + needed ≤ index + rs.length)
    (hfree : ∀ i, index ≤ i → j ≤ i → i < j + needed → ∃ r, rs[i - index]? = some r ∧ r.isFree) :
    ∃ first, freeRunFrom needed run index rs = some first ∧ first ≤ j := by
  induction rs generalizing run index with
  | nil =>
    rw [List.length_nil] at hend
    omega
  | cons r rs ih =>
    rw [List.length_cons] at hend
    have hlater : ∀ i, index + 1 ≤ i → j ≤ i → i < j + needed →
        ∃ r, rs[i - (index + 1)]? = some r ∧ r.isFree := by
      intro i h1 h2 h3
      have hat := hfree i (by omega) h2 h3
      rwa [show i - index = i - (index + 1) + 1 by omega, List.getElem?_cons_succ] at hat
    unfold freeRunFrom
    by_cases hr : r.isFree = true
    · rw [if_pos hr]
      by_cases hlast : run + 1 = needed
      · rw [if_pos hlast]
        exact ⟨_, rfl, by omega⟩
      · rw [if_neg hlast]
        exact ih (by omega) (by omega) (by omega) (by omega) hlater
    · -- the run cannot have begun yet, for it would go on with this region
      have hafter : index < j := by
        by_contra hbegun
        obtain ⟨r', hr', hf⟩ := hfree index (Nat.le_refl _) (by omega) (by omega)
        rw [Nat.sub_self, List.getElem?_cons_zero, Option.some.injEq] at hr'
        exact hr (hr' ▸ hf)
      rw [if_neg hr]
      exact ih (by omega) (by omega) (by omega) (by omega) hlater

/-- The search of the table does not miss a run. -/
theorem FreeFrom.findFreeRun_le {needed j : Nat} (hj : h.FreeFrom needed j) (hneeded : 0 < needed) :
    ∃ first, h.findFreeRun needed = some first ∧ first ≤ j := by
  refine freeRunFrom_le _ hneeded (Nat.le_refl 0) (Nat.zero_le _) ?_ fun i _ h1 h2 => ?_
  · rw [Array.length_toList, Nat.zero_add]
    exact hj.inside
  · have hin := hj.inside
    have hi : i < h.regions.size := by omega
    have hk := hj.free i h1 h2
    rw [h.region_eq_getElem hi] at hk
    exact ⟨h.regions[i], by simp [hi], by simp [Region.isFree, hk]⟩

/-- The regions of a run are as many as the words fill, rounded up. -/
theorem Tabled.freeRun_iff (ht : h.Tabled) (hpos : 0 < words.toNat) :
    h.FreeRun first words ↔ h.FreeFrom (words.toNat ⌈/⌉ h.layout.regionWords.toNat) first := by
  have hl := ht.layout
  constructor
  · rintro ⟨-, hsmall, hin, hfree⟩
    rw [hl.toNat_regionsFor_ceilDiv hsmall] at hin hfree
    exact ⟨hin, hfree⟩
  · rintro ⟨hin, hfree⟩
    have hregion := hl.toNat_regionWords
    have hstride := hl.stride_ge
    have hfits := hl.fits
    -- words for which there are regions are fewer than there are addresses
    have hsmall : words.toNat < 2 ^ 62 := by
      rw [ht.count, Nat.ceilDiv_eq_add_pred_div] at hin
      have hround := Nat.lt_div_mul_add (a := words.toNat + h.layout.regionWords.toNat - 1)
        (b := h.layout.regionWords.toNat) (by omega)
      have hwhole := Nat.mul_le_mul_right h.layout.regionWords.toNat
        ((Nat.le_add_left _ _).trans hin)
      have hbytes : h.layout.numRegions * h.layout.stride
          = 8 * (h.layout.numRegions * h.layout.regionWords.toNat) := by
        rw [← hregion]
        ring
      omega
    rw [← hl.toNat_regionsFor_ceilDiv hsmall] at hin hfree
    exact ⟨hpos, hsmall, hin, hfree⟩

/-- The lowest run is taken, and nothing is changed if there is none. -/
theorem Tabled.allocateHumongous_cases (ht : h.Tabled) (words : WordCount) :
    (∃ first, IsLeast {j | h.FreeRun j words} first ∧
      h.allocateHumongous words = (.ok (h.layout.bottom first), h.installHumongous first words)) ∨
    (∀ j, ¬ h.FreeRun j words) ∧ h.allocateHumongous words
      = (.error (.noRegions (.noFreeRun (h.layout.regionsFor words) words)), h) := by
  have hfound : ∀ j, h.FreeRun j words →
      ∃ first, h.findFreeRun (h.layout.regionsFor words).toNat = some first ∧ first ≤ j := by
    intro j hj
    obtain ⟨-, -, hneeded, -⟩ := hj.bounds ht.toGridded
    exact FreeFrom.findFreeRun_le ⟨hj.inside, hj.free⟩ hneeded
  cases hfind : h.findFreeRun (h.layout.regionsFor words).toNat with
  | some first =>
    refine .inl ⟨first, ⟨ht.freeRun_of_find hfind, fun j hj => ?_⟩, ht.allocateHumongous_eq hfind⟩
    obtain ⟨i, hi, hle⟩ := hfound j hj
    rw [hfind, Option.some.injEq] at hi
    exact hi ▸ hle
  | none =>
    refine .inr ⟨fun j hj => ?_, ?_⟩
    · obtain ⟨i, hi, -⟩ := hfound j hj
      rw [hfind] at hi
      cases hi
    · unfold allocateHumongous
      dsimp only
      rw [hfind]

/-- A run leaves the other regions alone, and the starts that are recorded in them. -/
theorem FreeRun.outside (hr : h.FreeRun first words) (hg : h.Gridded)
    (hstarts : h.starts.Serves h.layout) {i : Nat}
    (hout : i < first ∨ first + (h.layout.regionsFor words).toNat ≤ i) :
    (h.installHumongous first words).region i = h.region i ∧
      ∀ x : Address, i < h.regions.size → (h.layout.bottom i).toNat ≤ x.toNat →
        x.toNat < (h.layout.regionStop i).toNat →
        (h.installHumongous first words).starts.startInBlock x = h.starts.startInBlock x := by
  refine ⟨FreeRun.region_kept hout, fun x hi h1 h2 => ?_⟩
  have hl := hg.layout
  have hin := hr.inside
  obtain ⟨-, -, hneeded, -⟩ := hr.bounds hg
  have hfirst : first < h.layout.numRegions := by rw [← hg.count]; omega
  have hi' : i < h.layout.numRegions := by rwa [← hg.count]
  -- a block does not reach from one region into another
  have hblock : h.starts.blockOf (h.layout.bottom first) ≠ h.starts.blockOf x := fun heq => by
    obtain ⟨h3, h4⟩ := hstarts.mem_region hl hi' (hl.base_le_bottom hfirst.le) h1 h2 heq
    have hsame := hl.indexOf_eq hi' h3 (by rwa [← hl.toNat_regionStop hi'])
    rw [hl.indexOf_bottom hfirst] at hsame
    omega
  unfold StartTable.startInBlock
  rw [starts_installHumongous, hg.bottom first (by omega), StartTable.blockOf_record,
    StartTable.entry_record, if_neg fun hh => hblock hh.1]

/-! ### Refusals -/

/-- If no region suits, what is left in any of them is too little. -/
theorem mostFreeWords_lt (hzero : words ≠ 0) (hroom : ∀ i, ¬ h.HasRoom words i)
    (hfree : ∀ i, ¬ h.IsFreeRegion i) : h.mostFreeWords < words := by
  refine foldl_induct (f := max) (fun _ (n : WordCount) => n < words) _ 0 ?_ ?_
  · rw [UInt64.lt_iff_toNat_lt]
    exact Nat.pos_of_ne_zero fun h0 => hzero (UInt64.toNat_inj.1 h0)
  rintro done n rest m heq hm
  have hmem : n ∈ (h.regions.toList.filter (!·.isHumongous)).map Region.freeWords := by
    rw [heq]
    simp
  rw [h.toList_regions] at hmem
  obtain ⟨r, hr, rfl⟩ := List.mem_map.1 hmem
  obtain ⟨hr, hhum⟩ := List.mem_filter.1 hr
  obtain ⟨i, hi, rfl⟩ := List.mem_map.1 hr
  have hi := List.mem_range.1 hi
  have hless : (h.region i).freeWords < words := by
    rw [← UInt64.not_le]
    intro hle
    cases hk : (h.region i).kind with
    | free => exact hfree i ⟨hi, hk⟩
    | regular => exact hroom i ⟨hi, hk, hle⟩
    | humongousStart => simp [Region.isHumongous, RegionKind.isHumongous, hk] at hhum
    | humongousContinues => simp [Region.isHumongous, RegionKind.isHumongous, hk] at hhum
  show (if m ≤ _ then _ else _) < words
  split
  · exact hless
  · exact hm

/-! ### Every request -/

/-- Words that fit in a region are refused just when no region suits, and otherwise come from the
lowest one that does; more words are granted just when there is a run of free regions for them, the
lowest one is taken, and no other region is touched. -/
theorem Tabled.lowest_fit (ht : h.Tabled) (hstarts : h.starts.Serves h.layout)
    (hpos : 0 < words) :
    (words ≤ h.layout.regionWords →
      ((∃ e, (h.allocate words).1 = .error e) ↔
        (∀ i, ¬ h.HasRoom words i) ∧ ∀ i, ¬ h.IsFreeRegion i) ∧
      (∀ a h', h.allocate words = (.ok a, h') →
        ∃ i, h.LowestFit words i ∧ a = (h.region i).top ∧ h' = h.taking i words) ∧
      ∀ e h', h.allocate words = (.error e, h') →
        ∃ available, e = .outOfMemory words available ∧ available < words) ∧
    ((∃ a, (h.allocateHumongous words).1 = .ok a) ↔
      ∃ first, h.FreeFrom (words.toNat ⌈/⌉ h.layout.regionWords.toNat) first) ∧
    ∀ a h', h.allocateHumongous words = (.ok a, h') → ∃ first,
      IsLeast {j | h.FreeFrom (words.toNat ⌈/⌉ h.layout.regionWords.toNat) j} first ∧
        a = h.layout.bottom first ∧ h'.HumongousRun first words ∧
        ∀ i, i < first ∨ first + words.toNat ⌈/⌉ h.layout.regionWords.toNat ≤ i →
          h'.region i = h.region i ∧
          ∀ x : Address, i < h.regions.size → (h.layout.bottom i).toNat ≤ x.toNat →
            x.toNat < (h.layout.regionStop i).toNat →
            h'.starts.startInBlock x = h.starts.startInBlock x := by
  have hzero : words ≠ 0 := fun h0 => UInt64.lt_irrefl 0 (h0 ▸ hpos)
  have hpos : 0 < words.toNat := UInt64.lt_iff_toNat_lt.1 hpos
  refine ⟨fun hle => ?_, ?_, fun a h' hgranted => ?_⟩
  · have hwords : h.isHumongous words = false := by
      unfold isHumongous
      rwa [decide_eq_false_iff_not, UInt64.not_lt]
    rcases ht.allocate_cases hzero hwords with ⟨i, hfit, -, heq⟩ | ⟨hroom, hfree, heq⟩
    · rw [heq]
      refine ⟨⟨fun ⟨e, he⟩ => (by cases he), fun ⟨hroom, hfree⟩ => ?_⟩, ?_, ?_⟩
      · rcases hfit with hleast | ⟨-, hleast⟩
        · exact absurd hleast.1 (hroom i)
        · exact absurd hleast.1 (hfree i)
      · rintro a h' hsame
        obtain ⟨hok, rfl⟩ := Prod.mk.inj hsame
        exact ⟨i, hfit, (Except.ok.inj hok).symm, rfl⟩
      · rintro e h' hsame
        cases hsame
    · rw [heq]
      refine ⟨⟨fun _ => ⟨hroom, hfree⟩, fun _ => ⟨_, rfl⟩⟩, fun a h' hsame => (by cases hsame), ?_⟩
      rintro e h' hsame
      exact ⟨_, (Except.error.inj (Prod.mk.inj hsame).1).symm, mostFreeWords_lt hzero hroom hfree⟩
  · simp only [← ht.freeRun_iff hpos]
    rcases ht.allocateHumongous_cases words with ⟨first, hleast, heq⟩ | ⟨hnone, heq⟩
    · rw [heq]
      exact ⟨fun _ => ⟨first, hleast.1⟩, fun _ => ⟨_, rfl⟩⟩
    · rw [heq]
      exact ⟨fun ⟨a, ha⟩ => (by cases ha), fun ⟨j, hj⟩ => absurd hj (hnone j)⟩
  · simp only [← ht.freeRun_iff hpos]
    rcases ht.allocateHumongous_cases words with ⟨first, hleast, heq⟩ | ⟨-, heq⟩
    · rw [heq] at hgranted
      obtain ⟨hok, rfl⟩ := Prod.mk.inj hgranted
      refine ⟨first, hleast, (Except.ok.inj hok).symm, hleast.1.installed ht, fun i hout => ?_⟩
      rw [← ht.layout.toNat_regionsFor_ceilDiv hleast.1.small] at hout
      exact hleast.1.outside ht.toGridded hstarts hout
    · rw [heq] at hgranted
      cases hgranted

/-! ### A region in use between free ones -/

/-- Four regions of sixteen words, of which the second one has six words left and the others are
as new. -/
structure Between (h : Heap) : Prop extends h.Tabled where
  starts : h.starts.Serves h.layout
  grid : h.layout = ⟨0x10000, 4, 4⟩
  four : h.regions.size = 4
  used : h.region 1 = { Region.new 1 0x10080 0x10100 with kind := .regular, top := 0x100d0 }
  other : ∀ i < 4, i ≠ 1 → h.region i = .new i (h.layout.bottom i) (h.layout.regionStop i)

/-- A new heap is like that after one request. -/
theorem exists_between : ∃ (config : Config) (h₀ h : Heap), Heap.new config 0x10000 = .ok h₀ ∧
    h₀.answer (.within 1 10) = (.ok 0x10080, h) ∧ h.Between := by
  let config : Config := { regionShift := 4, numRegions := 4, blockShift := 2 }
  have hv : config.Valid := by decide
  have hb : config.Backed 0x10000 := by decide
  obtain ⟨h₀, hnew, -⟩ := new_eq hv hb
  obtain ⟨hs₀, hlayout, hcount, hregions⟩ := table_new hv hb hnew
  have hlayout : h₀.layout = ⟨0x10000, 4, 4⟩ := hlayout
  have hcount : h₀.regions.size = 4 := hcount
  have hin : 1 < h₀.regions.size := by omega
  have hregion : h₀.region 1 = .new 1 0x10080 0x10100 := by
    rw [hregions 1 hin, hlayout]
    rfl
  have hroom : h₀.Roomful 1 10 := by
    unfold Roomful
    rw [hregion]
    decide
  have hanswer : h₀.answer (.within 1 10) = (.ok 0x10080, h₀.taking 1 10) := by
    have hall := allocateIn_eq hin (by rw [hregion]; rfl) 10
    rw [if_pos hroom, hregion] at hall
    exact hall
  have hstarts : (h₀.taking 1 10).starts.Serves (h₀.taking 1 10).layout := by
    show (h₀.starts.record _).Serves h₀.layout
    rw [starts_new hnew]
    exact (StartTable.serves_new hs₀.layout).record _
  refine ⟨config, h₀, h₀.taking 1 10, hnew, hanswer,
    (retopped_taking hs₀.toTabled hin (by rw [hregion]; rfl) hroom).tabled hs₀.toTabled, hstarts,
    hlayout, (size_modifyRegion ..).trans hcount, ?_, fun i hi hne => ?_⟩
  · rw [region_taking hin, if_pos rfl, hregion]
    rfl
  · rw [region_taking hin, if_neg (Ne.symm hne), hregions i (by omega)]
    rfl

namespace Between

theorem regionWords (hb : h.Between) : h.layout.regionWords = 16 := by
  rw [hb.grid]
  rfl

theorem hasRoom_iff (hb : h.Between) {i : Nat} : h.HasRoom words i ↔ i = 1 ∧ words ≤ 6 := by
  have hsize := hb.four
  constructor
  · rintro ⟨hi, hk, hle⟩
    obtain rfl : i = 1 := by
      by_contra hne
      rw [hb.other i (by omega) hne] at hk
      cases hk
    rw [hb.used] at hle
    exact ⟨rfl, hle⟩
  · rintro ⟨rfl, hle⟩
    exact ⟨by omega, by rw [hb.used], by rw [hb.used]; exact hle⟩

theorem isFreeRegion_iff (hb : h.Between) {i : Nat} : h.IsFreeRegion i ↔ i < 4 ∧ i ≠ 1 := by
  have hsize := hb.four
  constructor
  · rintro ⟨hi, hk⟩
    refine ⟨by omega, ?_⟩
    rintro rfl
    rw [hb.used] at hk
    cases hk
  · rintro ⟨hi, hne⟩
    exact ⟨by omega, by rw [hb.other i hi hne]; rfl⟩

/-- A run of free regions keeps to one side of the second region. -/
theorem freeFrom_iff (hb : h.Between) {needed i : Nat} (hneeded : 0 < needed) :
    h.FreeFrom needed i ↔ i + needed ≤ 4 ∧ ¬ (i ≤ 1 ∧ 1 < i + needed) := by
  have hsize := hb.four
  constructor
  · rintro ⟨hi, hall⟩
    refine ⟨by omega, fun hmeet => ?_⟩
    exact (hb.isFreeRegion_iff.1 ⟨by omega, hall 1 hmeet.1 hmeet.2⟩).2 rfl
  · rintro ⟨hi, hmeet⟩
    exact ⟨by omega, fun j h1 h2 => (hb.isFreeRegion_iff.2 ⟨by omega, by omega⟩).kind⟩

end Between

/-- Six words come from the second region, although a lower one is free; seven do not fit there any
more; and of the two free regions above it a run can be made, but not of the three that are
free. -/
theorem Tabled.lowest_fit_between : ∃ (config : Config) (h₀ h : Heap),
    Heap.new config 0x10000 = .ok h₀ ∧ h₀.answer (.within 1 10) = (.ok 0x10080, h) ∧
      h.Tabled ∧ h.starts.Serves h.layout ∧ (h.allocate 6).1 = .ok 0x100d0 ∧
      (h.allocate 7).1 = .ok 0x10000 ∧ (h.allocateHumongous 17).1 = .ok 0x10100 ∧
      ∃ e, (h.allocateHumongous 33).1 = .error e := by
  obtain ⟨config, h₀, h, hnew, hanswer, hb⟩ := exists_between
  have hwords := hb.regionWords
  obtain ⟨h6, -⟩ := hb.toTabled.lowest_fit hb.starts (show (0 : WordCount) < 6 by decide)
  obtain ⟨h7, -⟩ := hb.toTabled.lowest_fit hb.starts (show (0 : WordCount) < 7 by decide)
  obtain ⟨-, h17, h17'⟩ := hb.toTabled.lowest_fit hb.starts (show (0 : WordCount) < 17 by decide)
  obtain ⟨-, h33, -⟩ := hb.toTabled.lowest_fit hb.starts (show (0 : WordCount) < 33 by decide)
  obtain ⟨h6, h6', -⟩ := h6 (by rw [hwords]; decide)
  obtain ⟨h7, h7', -⟩ := h7 (by rw [hwords]; decide)
  refine ⟨config, h₀, h, hnew, hanswer, hb.toTabled, hb.starts, ?_, ?_, ?_, ?_⟩
  · rcases hall : h.allocate 6 with ⟨e | a, h'⟩
    · rw [hall] at h6
      exact absurd (hb.hasRoom_iff.2 ⟨rfl, by decide⟩) ((h6.1 ⟨e, rfl⟩).1 1)
    · obtain ⟨i, hfit | ⟨hnone, -⟩, rfl, -⟩ := h6' a h' hall
      · obtain ⟨rfl, -⟩ := hb.hasRoom_iff.1 hfit.1
        rw [hb.used]
      · exact absurd (hb.hasRoom_iff.2 ⟨rfl, by decide⟩) (hnone 1)
  · rcases hall : h.allocate 7 with ⟨e | a, h'⟩
    · rw [hall] at h7
      exact absurd (hb.isFreeRegion_iff.2 ⟨by decide, by decide⟩) ((h7.1 ⟨e, rfl⟩).2 0)
    · obtain ⟨i, hfit | ⟨-, hfit⟩, rfl, -⟩ := h7' a h' hall
      · exact absurd (hb.hasRoom_iff.1 hfit.1).2 (by decide)
      · obtain rfl : i = 0 :=
          Nat.le_zero.1 (hfit.2 (hb.isFreeRegion_iff.2 ⟨by decide, by decide⟩))
        rw [hb.other 0 (by decide) (by decide), hb.grid]
        rfl
  · rw [hwords] at h17 h17'
    have hneeded : (17 : WordCount).toNat ⌈/⌉ (16 : WordCount).toNat = 2 := by decide
    rw [hneeded] at h17 h17'
    obtain ⟨a, ha⟩ := h17.2 ⟨2, (hb.freeFrom_iff (by decide)).2 (by decide)⟩
    obtain ⟨first, hleast, rfl, -⟩ := h17' a (h.allocateHumongous 17).2 (by rw [← ha])
    have hle := hleast.2 ((hb.freeFrom_iff (by decide)).2 (by decide) : h.FreeFrom 2 2)
    have hmeet := ((hb.freeFrom_iff (by decide)).1 hleast.1).2
    obtain rfl : first = 2 := by omega
    rw [ha, hb.grid]
    rfl
  · rw [hwords] at h33
    rcases hall : h.allocateHumongous 33 with ⟨e | a, h'⟩
    · exact ⟨e, rfl⟩
    · rw [hall] at h33
      obtain ⟨first, hfirst⟩ := h33.1 ⟨a, rfl⟩
      obtain ⟨hle, hmeet⟩ := (hb.freeFrom_iff (by decide)).1 hfirst
      have hneeded : (33 : WordCount).toNat ⌈/⌉ (16 : WordCount).toNat = 3 := by decide
      omega

end Heap

end MarkCompact
