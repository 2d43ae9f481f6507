/-
MarkCompact/Proofs/Compacted.lean

What a collection leaves, and what the next one finds.

A collection leaves no word in use but those of live objects, no regular region empty, and the
regions that it has left alone full (`Heap.Compacted`).  So the objects of a regular region follow
each other from its bottom to its top.  Where there is nothing to free, planning changes nothing
(`Planned.same`), and at least the regions that were left alone before are left alone again.

Objects that are laid out once more, to the left and in their order, follow each other as before:
an object can only move with the first one of its region (`Surveyed.stays`), and that one only into
the region before (`Surveyed.opens`).

Main results: `Planned.same`, `Surveyed.le_densePrefix` and `Surveyed.stays`.
-/
import MarkCompact.Proofs.Gaps
import MarkCompact.Proofs.LowestStarts

namespace MarkCompact

variable {h h' : Heap} {t : ClassTable} {b : Bitmap} {live : Address → Prop} {d : Nat}
  {release : Bool}

/-- What holds no part of a humongous object is free or regular. -/
theorem RegionKind.free_or_regular {kind : RegionKind} (hk : kind.isHumongous = false) :
    kind = .free ∨ kind = .regular := by
  cases kind with
  | free => exact .inl rfl
  | regular => exact .inr rfl
  | humongousStart => cases hk
  | humongousContinues => cases hk

theorem Region.retopped_eq {r : Region} {kind : RegionKind} {top : Address} (hk : r.kind = kind)
    (htop : r.top = top) : { r with kind := kind, top := top } = r := by
  subst hk htop
  rfl

namespace Heap

/-- The blocks of a region answer with the lowest live object that begins in them. -/
def Recorded (h : Heap) (live : Address → Prop) (i : Nat) : Prop :=
  ∀ x, h.layout.contains x = true → h.layout.indexOf x = i →
    Lowest (fun a => live a ∧ h.starts.blockOf a = h.starts.blockOf x) (h.starts.startInBlock x)

/-- What is left by a collection that has left the first `d` regions alone, and has given back free
pages if `release` says so. -/
structure Compacted (h : Heap) (t : ClassTable) (live : Address → Prop) (d : Nat)
    (release : Bool) : Prop where
  gapless : h.Gapless t live
  occupied : ∀ i < h.regions.size, (h.region i).kind = .regular →
    (h.layout.bottom i).toNat < (h.region i).top.toNat
  dense_le : d ≤ h.regions.size
  dense : ∀ i < d, (h.region i).kind = .regular ∧ (h.region i).top = h.layout.regionStop i
  serves : h.starts.Serves h.layout
  released : release = true → ∀ i < h.regions.size, (h.region i).kind = .free →
    ∀ x, h.layout.InPages i x → h.memory.load x = 0

/-- The heap `h'` has the regions, the starts and the words of `h`. -/
structure Unchanged (h h' : Heap) : Prop where
  regions : h'.regions = h.regions
  starts : h'.starts = h.starts
  memory : ∀ x : Address, x.toNat % 8 = 0 → h'.memory.load x = h.memory.load x

theorem regions_eq_of_region (hsize : h'.regions.size = h.regions.size)
    (hregion : ∀ i < h.regions.size, h'.region i = h.region i) : h'.regions = h.regions := by
  refine Array.ext hsize fun i hi hi' => ?_
  rw [← h'.region_eq_getElem hi, ← h.region_eq_getElem hi', hregion i hi']

/-- Heaps with the same regions, over the same ground and with the same starts, are the same. -/
theorem SameGround.eq (hg : h.SameGround h') (hregion : ∀ i < h.regions.size, h'.region i = h.region i)
    (hstarts : h'.starts = h.starts) : h' = h := by
  have hregions := regions_eq_of_region hg.size hregion
  obtain ⟨hlayout, -, hheaders, hmemory⟩ := hg
  cases h
  cases h'
  dsimp only at hlayout hheaders hmemory hstarts hregions
  rw [hlayout, hheaders, hmemory, hstarts, hregions]

/-- Recording the live objects of some regions anew changes nothing where they are recorded. -/
theorem foldl_record_recorded (hl : h.layout.Sound) (hs : h.starts.Serves h.layout) {is : List Nat}
    (hin : ∀ i ∈ is, i < h.layout.numRegions) (hrecorded : ∀ i ∈ is, h.Recorded live i)
    (as : List Address) (has : ∀ a, a ∈ as ↔ live a ∧ h.layout.indexOf a ∈ is)
    (hlive : ∀ a, live a → h.layout.contains a = true) :
    as.foldl StartTable.record (h.starts.forget h.layout is) = h.starts := by
  refine StartTable.foldl_record_forget hs hl hin
    (fun a ha => ⟨hlive a ((has a).1 ha).1, ((has a).1 ha).2⟩) fun x hx hix => ?_
  refine (hrecorded _ hix x hx rfl).congr fun a => ?_
  rw [has]
  refine ⟨fun hboth => ⟨hboth.1.1, hboth.2⟩, fun ⟨ha, hblock⟩ => ⟨⟨ha, ?_⟩, hblock⟩⟩
  -- objects with the same block lie in the same region
  obtain ⟨h1, h2⟩ := hl.bottom_indexOf hx
  have hstop := hl.toNat_regionStop (hin _ hix)
  obtain ⟨h3, h4⟩ := hs.mem_region hl (hin _ hix) ((hl.contains_iff a).1 (hlive a ha)).1 h1
    (by omega) hblock
  rw [hl.indexOf_eq (hin _ hix) h3 (by omega)]
  exact hix

/-- A region is recorded if it answers as after the live objects of some regions have been recorded
anew. -/
theorem recorded_of_foldl_record (hl : h.layout.Sound) {s : StartTable} (hs : s.Serves h.layout)
    (hblocks : StartTable.SameBlocks s h.starts) (is : List Nat)
    (hin : ∀ i ∈ is, i < h.layout.numRegions) {i : Nat} (hi : i ∈ is) (as : List Address)
    (hlive : ∀ a, live a → h.layout.contains a = true) (has : ∀ a ∈ as, live a)
    (hall : ∀ a, live a → h.layout.indexOf a = i → a ∈ as)
    (hanswers : ∀ x, h.layout.contains x = true → h.layout.indexOf x = i →
      h.starts.startInBlock x
        = (as.foldl StartTable.record (s.forget h.layout is)).startInBlock x) :
    h.Recorded live i := by
  intro x hx hix
  rw [hanswers x hx hix]
  refine (StartTable.lowest_foldl_forget hs hl hin (fun a ha => hlive a (has a ha)) hx
    (by rw [hix]; exact hi)).congr fun a => ?_
  rw [hblocks.blockOf, hblocks.blockOf]
  refine ⟨fun ⟨ha, hblock⟩ => ⟨hall a ha ?_, hblock⟩, fun ⟨ha, hblock⟩ => ⟨has a ha, hblock⟩⟩
  obtain ⟨h1, h2⟩ := hl.bottom_indexOf hx
  rw [hix] at h1 h2
  have hstop := hl.toNat_regionStop (hin i hi)
  obtain ⟨h3, h4⟩ := hs.mem_region hl (hin i hi) ((hl.contains_iff a).1 (hlive a ha)).1 h1
    (by omega) hblock
  exact hl.indexOf_eq (hin i hi) h3 (by omega)

end Heap

/-! ### Objects without gaps between them -/

namespace Surveyed

variable (hs : Surveyed h t b live)
include hs

theorem contains {a : Address} (ha : live a) : h.layout.contains a = true :=
  (hs.tabled.layout.contains_iff a).2 ⟨(hs.isWord ha).bottom, (hs.isWord ha).stop⟩

/-- A live object outside humongous runs lies in a regular region. -/
theorem regular_of_live {a : Address} (ha : live a)
    (hk : (h.region (h.layout.indexOf a)).kind.isHumongous = false) :
    (h.region (h.layout.indexOf a)).kind = .regular := by
  obtain ⟨hi, h1, h2⟩ := hs.region ha
  cases hkind : (h.region (h.layout.indexOf a)).kind with
  | regular => rfl
  | free =>
    rw [hs.tabled.free _ hi hkind] at h2
    omega
  | humongousStart =>
    rw [hkind] at hk
    cases hk
  | humongousContinues =>
    rw [hkind] at hk
    cases hk

variable (hgapless : h.Gapless t live)
include hgapless

/-- A word in use of a regular region is one of an object that begins there. -/
theorem exists_covering_regular {i : Nat} (hi : i < h.regions.size)
    (hk : (h.region i).kind = .regular) {x : Address} (hx : h.layout.IsWord x)
    (h1 : (h.layout.bottom i).toNat ≤ x.toNat) (h2 : x.toNat < (h.region i).top.toNat) :
    ∃ a, live a ∧ h.layout.indexOf a = i ∧ a.toNat ≤ x.toNat ∧
      x.toNat < a.toNat + 8 * h.wordsAt t a := by
  have hl := hs.tabled.layout
  have hi' : i < h.layout.numRegions := hs.tabled.count ▸ hi
  obtain ⟨a, ha, hle, hlt⟩ := hgapless i hi x hx h1 h2
  have hstop := (hs.tabled.top i hi).2.1
  rw [hs.tabled.stop i hi, hl.toNat_regionStop hi'] at hstop
  exact ⟨a, ha, hs.indexOf_of_covers hk ha (hl.indexOf_eq hi' h1 (by omega)) hle hlt, hle, hlt⟩

/-- At a place in a regular region that no object reaches across, one ends. -/
theorem exists_ending {i : Nat} (hi : i < h.regions.size) (hk : (h.region i).kind = .regular)
    {n : Nat} (hn : n % 8 = 0) (h1 : (h.layout.bottom i).toNat < n)
    (h2 : n ≤ (h.region i).top.toNat)
    (hends : ∀ c, live c → h.layout.indexOf c = i → c.toNat < n →
      c.toNat + 8 * h.wordsAt t c ≤ n) :
    ∃ c, live c ∧ h.layout.indexOf c = i ∧ c.toNat + 8 * h.wordsAt t c = n := by
  have hl := hs.tabled.layout
  have hi' : i < h.layout.numRegions := hs.tabled.count ▸ hi
  have hbottom := hl.bottom_mod hi'.le
  have hbase := hl.base_le_bottom hi'.le
  have hstop := (hs.tabled.top i hi).2.1
  have hlast := hl.bottom_le_stop (i := i + 1) hi'
  rw [hs.tabled.stop i hi, Layout.regionStop_eq_bottom_succ] at hstop
  have hlt := h.layout.stop.toNat_lt
  -- the word before is one of the object
  obtain ⟨x, hx⟩ : ∃ x : Address, x.toNat = n - 8 :=
    ⟨(n - 8).toUInt64, by rw [UInt64.toNat_ofNat']; omega⟩
  obtain ⟨c, hlive, hindex, hle, hcovers⟩ := hs.exists_covering_regular hgapless hi hk
    (x := x) ⟨by omega, by omega, by omega⟩ (by omega) (by omega)
  have hend := hends c hlive hindex (by omega)
  have haligned := (hs.isWord hlive).aligned
  exact ⟨c, hlive, hindex, by omega⟩

/-- An object ends where the next one of the region begins. -/
theorem exists_before {a : Address} (ha : live a)
    (hk : (h.region (h.layout.indexOf a)).kind = .regular)
    (hlt : (h.layout.bottom (h.layout.indexOf a)).toNat < a.toNat) :
    ∃ c, live c ∧ h.layout.indexOf c = h.layout.indexOf a ∧
      c.toNat + 8 * h.wordsAt t c = a.toNat := by
  obtain ⟨hi, -, htop⟩ := hs.region ha
  exact hs.exists_ending hgapless hi hk (hs.isWord ha).aligned hlt htop.le
    fun c hc _ hca => hs.populated.disjoint c a hc ha hca

/-- An object ends at the top of the region. -/
theorem exists_last {i : Nat} (hi : i < h.regions.size) (hk : (h.region i).kind = .regular)
    (hlt : (h.layout.bottom i).toNat < (h.region i).top.toNat) :
    ∃ c, live c ∧ h.layout.indexOf c = i ∧
      c.toNat + 8 * h.wordsAt t c = (h.region i).top.toNat := by
  refine hs.exists_ending hgapless hi hk (hs.tabled.top i hi).2.2 hlt (Nat.le_refl _) ?_
  rintro c hc rfl -
  exact hs.end_le_top hc (by rw [hk]; rfl)

/-- An object begins at the bottom of the first region of every run. -/
theorem live_start {i : Nat} (hi : i < h.regions.size)
    (hk : (h.region i).kind = .humongousStart) : live (h.layout.bottom i) := by
  have hl := hs.tabled.layout
  have hi' : i < h.layout.numRegions := hs.tabled.count ▸ hi
  obtain ⟨words, hrun⟩ := hs.tabled.runs i hi hk
  obtain ⟨-, hpos, -⟩ := hrun.inside hs.tabled.toGridded hi
  have hnonempty := hrun.nonempty
  have htop := hrun.tops i (Nat.le_refl _) (by omega)
  have hstop := hl.bottom_le_stop (i := i + 1) hi'
  have hstride := hl.toNat_regionStop hi'
  have hwide := h.layout.stride_pos
  have hindex := hl.indexOf_bottom hi'
  obtain ⟨a, ha, hle, hlt⟩ := hgapless i hi (h.layout.bottom i)
    ⟨hl.base_le_bottom hi'.le, by rw [Layout.regionStop_eq_bottom_succ] at hstride; omega,
      hl.bottom_mod hi'.le⟩ (Nat.le_refl _) (by omega)
  obtain ⟨c, words', ho⟩ := hs.populated.object a ha
  rw [ho.wordsAt_eq] at hlt
  rcases ho.place with ⟨j, hj, hkj, h1, h2⟩ | ⟨f, hf, hrun', rfl⟩
  · -- an object of a regular region does not reach into another region
    have hj' : j < h.layout.numRegions := hs.tabled.count ▸ hj
    have hend := (hs.tabled.top j hj).2.1
    rw [hs.tabled.stop j hj, hl.toNat_regionStop hj'] at hend
    rw [hl.indexOf_eq hj' (by omega) (by omega)] at hindex
    rw [hindex, hk] at hkj
    cases hkj
  · obtain ⟨-, -, hin⟩ := hrun'.inside hs.tabled.toGridded hf
    have hin' : f + (h.layout.regionsFor words').toNat ≤ h.layout.numRegions := hs.tabled.count ▸ hin
    have hwithin : h.layout.Within f (h.layout.regionsFor words').toNat (h.layout.bottom f)
        words'.toNat := ⟨Nat.le_refl _, (hrun'.end_le hs.tabled.toGridded hf).1⟩
    obtain ⟨k, hfk, hkn, h3, h4⟩ := hwithin.exists_region hl hin' hle hlt
    rw [hl.toNat_regionStop (by omega)] at h4
    rw [hl.indexOf_eq (by omega) h3 h4] at hindex
    subst hindex
    rcases Nat.eq_or_lt_of_le hfk with rfl | hfk
    · exact ha
    · rw [hrun'.later k hfk hkn] at hk
      cases hk

/-! ### Laid out once more -/

variable {part : List Nat} {place : Address → Address}

/-- Objects that are laid out in their order, and not to the right, stay where they are if the first
object of each region does. -/
theorem stays (hpart : h.Part part)
    (hleft : ∀ a, live a → h.layout.indexOf a ∈ part → (place a).toNat ≤ a.toNat)
    (horder : ∀ a c, live a → h.layout.indexOf a ∈ part → live c → h.layout.indexOf c ∈ part →
      a.toNat < c.toNat → (place a).toNat + 8 * h.wordsAt t a ≤ (place c).toNat)
    (hfirst : ∀ i ∈ part, live (h.layout.bottom i) →
      (∀ c, live c → h.layout.indexOf c ∈ part → c.toNat < (h.layout.bottom i).toNat →
        place c = c) → place (h.layout.bottom i) = h.layout.bottom i) :
    ∀ a, live a → h.layout.indexOf a ∈ part → place a = a := by
  -- from left to right
  suffices hall : ∀ n, ∀ a : Address, a.toNat = n → live a → h.layout.indexOf a ∈ part →
      place a = a from fun a => hall _ a rfl
  intro n
  induction n using Nat.strongRecOn with
  | ind n ih =>
    rintro a rfl ha hin
    have hbefore : ∀ c : Address, live c → h.layout.indexOf c ∈ part → c.toNat < a.toNat →
        place c = c := fun c hc hic hlt => ih _ hlt c rfl hc hic
    have hk := hs.regular_of_live ha (hpart.regular _ hin)
    obtain ⟨h1, -⟩ := hs.tabled.layout.bottom_indexOf (hs.contains ha)
    rcases Nat.eq_or_lt_of_le h1 with heq | hlt
    · have hbottom := UInt64.toNat_inj.1 heq
      rw [← hbottom] at ha hbefore
      have hplace := hfirst _ hin ha hbefore
      rwa [hbottom] at hplace
    · obtain ⟨c, hc, hindex, hend⟩ := hs.exists_before hgapless ha hk hlt
      have hpos := hs.wordsAt_pos hc
      have hic : h.layout.indexOf c ∈ part := hindex ▸ hin
      have hafter := horder c a hc hic ha hin (by omega)
      rw [hbefore c hc hic (by omega), hend] at hafter
      exact UInt64.toNat_inj.1 (Nat.le_antisymm (hleft a ha hin) hafter)

/-- The first object of a region can move only into the region before, behind all that lies
there. -/
theorem opens (hpart : h.Part part)
    (hoccupied : ∀ i < h.regions.size, (h.region i).kind = .regular →
      (h.layout.bottom i).toNat < (h.region i).top.toNat)
    (horder : ∀ a c, live a → h.layout.indexOf a ∈ part → live c → h.layout.indexOf c ∈ part →
      a.toNat < c.toNat → (place a).toNat + 8 * h.wordsAt t a ≤ (place c).toNat)
    {i k : Nat} (hi : i ∈ part) (hlive : live (h.layout.bottom i))
    (hbefore : ∀ c, live c → h.layout.indexOf c ∈ part →
      c.toNat < (h.layout.bottom i).toNat → place c = c)
    (hk : k ∈ part) (h1 : (h.layout.bottom k).toNat ≤ (place (h.layout.bottom i)).toNat)
    (h2 : (place (h.layout.bottom i)).toNat < (h.layout.regionStop k).toNat)
    (hmoves : (place (h.layout.bottom i)).toNat < (h.layout.bottom i).toNat) :
    ∃ j ∈ part, j < i ∧ (∀ m ∈ part, m ≤ j ∨ i ≤ m) ∧ ((h.region j).kind = .regular →
      k = j ∧ (h.region j).top.toNat ≤ (place (h.layout.bottom i)).toNat) := by
  have hl := hs.tabled.layout
  have hin : ∀ m ∈ part, m < h.layout.numRegions := fun m hm =>
    hs.tabled.count ▸ hpart.inside m hm
  have hki : k < i := by
    by_contra hle
    have := hl.bottom_mono (Nat.not_lt.1 hle) (hin k hk).le
    omega
  -- the region of the part before
  obtain ⟨j, hj, hji, hnone⟩ : ∃ j ∈ part, j < i ∧ ∀ m ∈ part, m ≤ j ∨ i ≤ m := by
    have hspec := Nat.findGreatest_spec (P := (· ∈ part)) (Nat.le_sub_one_of_lt hki) hk
    have hle := Nat.findGreatest_le (P := (· ∈ part)) (i - 1)
    refine ⟨Nat.findGreatest (· ∈ part) (i - 1), hspec, by omega, fun m hm => ?_⟩
    by_contra hboth
    push Not at hboth
    exact Nat.findGreatest_is_greatest hboth.1 (Nat.le_sub_one_of_lt hboth.2) hm
  refine ⟨j, hj, hji, hnone, fun hregular => ?_⟩
  have hfull := hoccupied j (hpart.inside j hj) hregular
  obtain ⟨c, hc, rfl, hend⟩ := hs.exists_last hgapless (hpart.inside j hj) hregular hfull
  have hci : c.toNat < (h.layout.bottom i).toNat := by
    have hregion := (hl.bottom_indexOf (hs.contains hc)).2
    have := hl.regionStop_le_bottom hji (hin i hi).le
    omega
  have hindex := hl.indexOf_bottom (hin i hi)
  have hafter := horder c _ hc hj hlive (by rw [hindex]; exact hi) hci
  rw [hbefore c hc hj hci, hend] at hafter
  refine ⟨?_, hafter⟩
  rcases hnone k hk with hle | hle
  · by_contra hne
    have hstop := hl.toNat_regionStop (hin k hk)
    have := hl.regionStop_le_bottom (Nat.lt_of_le_of_ne hle hne) (hin _ hj).le
    omega
  · omega

end Surveyed

/-! ### Planning once more -/

/-- If all humongous objects are live, planning changes nothing. -/
theorem Planned.same {p : Plan} (hp : Planned h b p h') (hs : Surveyed h t b live)
    (hgapless : h.Gapless t live) : h' = h := by
  have hnone : ∀ i < h.regions.size, ¬ h.DeadRun b i := by
    rintro i hi ⟨f, words, hin, hdead⟩
    have hf : f < h.regions.size := hin.2.1.trans_lt hi
    have hlive := hs.live_start hgapless hf hin.1.start
    have hmarked := (hs.shows.starts _ (hs.isWord hlive)).2 hlive
    rw [← hs.tabled.bottom f hf] at hmarked
    rw [hdead] at hmarked
    cases hmarked
  refine hp.ground.eq (fun i hi => hp.kept i (hnone i hi)) ?_
  obtain ⟨dead, hdead, hstarts⟩ := hp.starts
  have hnil : dead = [] := List.eq_nil_iff_forall_not_mem.2 fun i hi =>
    hnone i ((hdead i).1 hi).1 ((hdead i).1 hi).2
  rw [hstarts, hnil]
  rfl

/-- The regions of the dense prefix are full. -/
theorem Planned.full_dense {h₀ : Heap} {p : Plan} (hp : Planned h₀ b p h)
    (hs : Surveyed h t b live) : ∀ i < p.densePrefix, (h.region i).kind = .regular ∧
      (h.region i).top = h.layout.regionStop i := by
  intro i hi
  have hl := hs.tabled.layout
  have hsize : i < h.regions.size := by
    rw [hp.ground.size]
    exact hi.trans_le hp.dense_le
  have hi' : i < h.layout.numRegions := hs.tabled.count ▸ hsize
  have hk := hp.dense i hi
  have hfull := hp.full i hi
  have hsame := hp.kept i (Plan.not_deadRun_of_kind (.inl hk))
  rw [← hsame] at hk hfull
  -- as many words are live as a region has
  have hle := Bitmap.countWords_le hl.spans hs.shows.fits (hs.isEdge_bottom hsize) (hs.isEdge_top hsize)
  obtain ⟨-, htop, -⟩ := hs.tabled.top i hsize
  have hstop := hl.toNat_regionStop hi'
  have hregion := hl.toNat_regionWords
  have hpos := h.layout.stride_pos
  rw [hs.tabled.stop i hsize] at htop
  rw [hfull, ← hp.ground.layout, hs.tabled.bottom i hsize] at hle
  exact ⟨hk, UInt64.toNat_inj.1 (by omega)⟩

/-- Regions that are full and regular, from the first one on, are left alone. -/
theorem Surveyed.le_densePrefix (hs : Surveyed h t b live) (hgapless : h.Gapless t live)
    (hd : d ≤ h.regions.size) (hfull : ∀ i < d, (h.region i).kind = .regular ∧
      (h.region i).top = h.layout.regionStop i) : d ≤ (Plan.build h b).1.densePrefix := by
  have hl := hs.tabled.layout
  have hp := Plan.planned_build hs.tabled b
  by_contra hlt
  rw [Nat.not_le] at hlt
  have hsize := hlt.trans_le hd
  have hi : (Plan.build h b).1.densePrefix < h.layout.numRegions := hs.tabled.count ▸ hsize
  obtain ⟨hk, htop⟩ := hfull _ hlt
  refine hp.longest hsize ⟨hk, ?_⟩
  have hwords := Bitmap.countWords_of_all hl.spans hs.shows.fits (hs.isEdge_bottom hsize)
    (hs.isEdge_top hsize) fun x hx h1 h2 => (hs.shows.words x hx).2
      (hgapless _ hsize x hx (by rwa [← hs.tabled.bottom _ hsize]) h2)
  have hstop := hl.toNat_regionStop hi
  have hregion := hl.toNat_regionWords
  rw [hwords, htop, hs.tabled.bottom _ hsize]
  omega

end MarkCompact
