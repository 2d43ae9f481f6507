/-
MarkCompact/Proofs/SerialCompacted.lean

A collection in the serial style that finds what one has left.

The objects that begin in one block go to one region together.  So a region is opened by a block
that does not fit in the region before (`Heap.NextBlockFit`): its objects come to lie in the first
block of the region, because none of them moves farther from the others than it was.  There they
are one block for the next collection too, whatever other blocks it finds, and they do not fit in
the region before now any more than then.

Main results: `Completed.compacted`, `Completed.nextBlockFit` and `Completed.recorded` (what one
collection leaves), `Completed.same` (what the next one does).
-/
import MarkCompact.Proofs.Compacted
import MarkCompact.Proofs.SerialCharts
import MarkCompact.Proofs.SpaceUse

namespace MarkCompact

variable {h h₂ g h' : Heap} {t : ClassTable} {b : Bitmap} {live : Address → Prop} {d : Nat}
  {table : BlockOffsets} {spaces : Array Space} {bs : List Berth} {release : Bool}

/-- Before a regular region comes a regular one, which is full or has no room for some objects that
lie within `size` of the bottom of the region. -/
def Heap.NextBlockFit (h : Heap) (t : ClassTable) (live : Address → Prop) (size : Nat) : Prop :=
  ∀ k i, k < i → i < h.regions.size → (h.region k).kind.isHumongous = false →
    (h.region i).kind = .regular →
    (∀ m, k < m → m < i → (h.region m).kind.isHumongous = true) →
    (h.region k).kind = .regular ∧ ((h.region k).top = h.layout.regionStop k ∨
      ∃ as : List Address, as.Pairwise (fun a c => a.toNat < c.toNat) ∧
        (∀ a ∈ as, live a ∧ (h.layout.bottom i).toNat ≤ a.toNat ∧
          a.toNat < (h.layout.bottom i).toNat + size) ∧
        (h.layout.regionStop k).toNat
          < (h.region k).top.toNat + 8 * (as.map (h.wordsAt t)).sum)

/-- Objects that are laid out in their order without gaps come no farther from the first. -/
theorem Tiles.slide {start stop m : Nat} {bs : List Berth}
    (htiles : Tiles start stop (bs.map Berth.run))
    (hasc : bs.Pairwise fun p q => p.object.toNat + 8 * p.words ≤ q.object.toNat)
    (hfrom : ∀ p ∈ bs, m ≤ p.object.toNat) {q : Berth} (hq : q ∈ bs) :
    q.target.toNat + m ≤ q.object.toNat + start := by
  induction bs generalizing start m with
  | nil => cases hq
  | cons p bs ih =>
    obtain ⟨hat, hrest⟩ := htiles
    obtain ⟨hafter, hasc⟩ := List.pairwise_cons.1 hasc
    have hp := hfrom p List.mem_cons_self
    rcases List.mem_cons.1 hq with rfl | hq
    · have hat : q.target.toNat = start := hat
      omega
    · have hslide := ih hrest hasc hafter hq
      omega

namespace SerialCycle

/-- The objects of a block that opens a region lie in the first block of the region. -/
theorem Assigned.target_lt_of_blockOf {part : List Nat}
    (ha : Assigned h t b live part table spaces bs) (hs : Surveyed h t b live)
    {j i : Nat} {s s' : Space} (hi : part[j]? = some i) (hspace : spaces[j]? = some s)
    {p q : Berth} (hopens : table.Opens bs s' s j p) (hq : q ∈ bs)
    (hblock : table.blockOf q.object = table.blockOf p.object) :
    (h.layout.bottom i).toNat ≤ q.target.toNat ∧
      q.target.toNat < (h.layout.bottom i).toNat + table.blockSize := by
  have hlive : ∀ r ∈ bs, live r.object := fun r hr =>
    ((ha.seen r.object).1 (List.mem_map_of_mem hr)).1
  have htarget : p.target = h.layout.bottom i :=
    hopens.target.trans (ha.extent j i s hi hspace).1
  have hqj : q.space = j := (ha.together q hq p hopens.mem hblock).trans hopens.space
  have hin : ∀ r ∈ bs, r.space = j → (h.layout.bottom i).toNat ≤ r.target.toNat :=
    fun r hr hrj => (ha.berth_mem hr (by rwa [hrj]) (by rwa [hrj])).1
  -- no object of the region was lower than the one that opens it
  have hfirst : ∀ r ∈ bs, r.space = j → p.object.toNat ≤ r.object.toNat := by
    intro r hr hrj
    by_contra hlt
    have hless := (ha.object_lt_iff hs hr hopens.mem).1 (Nat.not_le.1 hlt)
    have hge := hin r hr hrj
    rw [htarget] at hless
    omega
  have hslide := (ha.tiled j i s hi hspace).slide (m := p.object.toNat) (q := q)
    (((ha.pairwise hs).filter _).imp And.left) (fun r hr => by
      obtain ⟨hr, hrj⟩ := List.mem_filter.1 hr
      exact hfirst r hr (eq_of_beq hrj)) (List.mem_filter.2 ⟨hq, by simp [hqj]⟩)
  -- two objects of a block are less than a block apart
  have hpos := table.blockSize_pos
  have hp := (hs.isWord (hlive p hopens.mem)).bottom
  have hbase := (hs.isWord (hlive q hq)).bottom
  have hle := hfirst q hq hqj
  rw [ha.serves.blockOf_eq hbase, ha.serves.blockOf_eq hp] at hblock
  have h1 := Nat.div_mul_le_self (p.object.toNat - h.layout.base.toNat) table.blockSize
  have h2 := Nat.lt_div_mul_add hpos (a := q.object.toNat - h.layout.base.toNat)
  rw [hblock] at h2
  exact ⟨hin q hq hqj, by omega⟩

namespace Completed

/-! ### What a collection leaves -/

section

variable (hc : Completed h t b live d table spaces bs release h₂ g h')
include hc

/-- The table of starts has the blocks that it had. -/
theorem sameBlocks : StartTable.SameBlocks h.starts h'.starts := by
  rw [hc.starts_eq]
  exact ((StartTable.SameBlocks.forget ..).trans (.foldl_record ..)).trans (.forget ..)

/-- Regions that are not freed answer as they did when their objects had been recorded. -/
theorem startInBlock_eq (hserves : h.starts.Serves h.layout) {x : Address}
    (hx : h.layout.contains x = true) : h'.starts.startInBlock x
      = if h.layout.indexOf x ∈ (((h.partFrom d).zip spaces.toList).filter
          fun r => r.2.usedWords = 0).map Prod.fst then none
        else ((((h.partFrom d).flatMap (h.liveIn b)).map (Berth.placeOf bs)).foldl
          StartTable.record (h.starts.forget h.layout (h.partFrom d))).startInBlock x := by
  rw [hc.starts_eq]
  exact StartTable.startInBlock_forget ((hserves.forget _).foldl_record _)
    hc.surveyed.tabled.layout (fun i hi => hc.part_inside i (freed_inside i hi)) hx

/-- A region of the part that is regular at the end has been filled. -/
theorem regular_part {i : Nat} (hi : i ∈ h.partFrom d) (hk : (h'.region i).kind = .regular) :
    ∃ (j : Nat) (s : Space), (h.partFrom d)[j]? = some i ∧ spaces[j]? = some s ∧
      s.top ≠ s.bottom ∧ (h'.region i).top = s.top ∧
      (h.layout.bottom i).toNat < s.top.toNat := by
  obtain ⟨s, hmem⟩ := hc.exists_space hi
  obtain ⟨j, hj, hspace⟩ := mem_zip_iff.1 hmem
  obtain ⟨hle, -, -, hempty⟩ := hc.extent hmem
  have hbottom := (hc.assigned.extent j i s hj hspace).1
  rw [hc.region_part hmem, filledRegion] at hk ⊢
  split at hk
  · cases hk
  · rename_i hused
    rw [if_neg hused]
    have hne : s.top ≠ h.layout.bottom i := fun heq => hused (hempty.2 heq)
    exact ⟨j, s, hj, hspace, by rwa [hbottom], rfl,
      Nat.lt_of_le_of_ne hle fun heq => hne (UInt64.toNat_inj.1 heq.symm)⟩

/-- A region that is not humongous at the end is one of the part, or left alone. -/
theorem mem_part_or_lt {i : Nat} (hi : i < h.regions.size)
    (hk : (h'.region i).kind.isHumongous = false) : i ∈ h.partFrom d ∨ i < d := by
  by_cases hin : i ∈ h.partFrom d
  · exact .inl hin
  · rw [hc.region_other hin] at hk
    exact .inr (Nat.lt_of_not_le fun hle => hin ((Heap.mem_partFrom hc.dense i).2 ⟨hle, hi, hk⟩))

variable (hdense : ∀ i < d, (h.region i).kind = .regular ∧ (h.region i).top = h.layout.regionStop i)
include hdense

/-- The regions before the part are full and stay so. -/
theorem region_dense {i : Nat} (hi : i < d) : (h'.region i).kind = .regular ∧
    (h'.region i).top = h'.layout.regionStop i := by
  rw [hc.region_other fun hmem => Nat.not_le.2 hi ((Heap.mem_partFrom hc.dense i).1 hmem).1,
    hc.retopped.layout]
  exact hdense i hi

/-- No gaps and no empty regions are left, and what is free has been given back. -/
theorem compacted (hserves : h.starts.Serves h.layout) (hout : h.LiveOutside b live (h.partFrom d)) :
    h'.Compacted t (fun v => ∃ a, live a ∧ Berth.placeOf bs a = v) d release := by
  have ht := hc.surveyed.tabled
  have hsize := hc.retopped.size
  refine ⟨hc.gapless hout, fun i hi hk => ?_, by rw [hsize]; exact hc.dense,
    fun i hi => hc.region_dense hdense hi, ?_,
    (hc.givenBack fun i hi hk => ?_).given⟩
  · rw [hsize] at hi
    rw [hc.retopped.layout]
    rcases hc.mem_part_or_lt hi (by rw [hk]; rfl) with hin | hlt
    · obtain ⟨j, s, -, -, -, htop, hused⟩ := hc.regular_part hin hk
      rwa [htop]
    · rw [(hc.region_dense hdense hlt).2, hc.retopped.layout,
        ht.layout.toNat_regionStop (ht.count ▸ hi)]
      exact Nat.lt_add_of_pos_right h.layout.stride_pos
  · rw [hc.retopped.layout]
    exact hc.sameBlocks.serves hserves
  · rw [(hdense i hi).1] at hk
    cases hk

omit hdense in
/-- The regions of the part answer with the lowest of the objects that have been placed there. -/
theorem recorded (hserves : h.starts.Serves h.layout) {i : Nat} (hi : i ∈ h.partFrom d) :
    h'.Recorded (fun v => ∃ a, live a ∧ Berth.placeOf bs a = v) i := by
  have hl := hc.surveyed.tabled.layout
  have hsame := hc.retopped.layout
  have hlive : ∀ v, (∃ a, live a ∧ Berth.placeOf bs a = v) → h.layout.contains v = true := by
    rintro v ⟨a, ha, rfl⟩
    exact hc.contains_place ha
  by_cases hfreed : i ∈ (((h.partFrom d).zip spaces.toList).filter
      fun r => r.2.usedWords = 0).map Prod.fst
  · -- nothing lies in a region that is freed
    intro x hx hix
    rw [hsame] at hx hix
    rw [hc.startInBlock_eq hserves hx, hix, if_pos hfreed]
    rintro v ⟨⟨a, ha, rfl⟩, hblock⟩
    rw [hc.sameBlocks.blockOf, hc.sameBlocks.blockOf] at hblock
    obtain ⟨h1, h2⟩ := hl.bottom_indexOf hx
    rw [hix, ← hl.toNat_regionStop (hc.part_inside i hi)] at h2
    rw [hix] at h1
    obtain ⟨h3, h4⟩ := hserves.mem_region hl (hc.part_inside i hi)
      ((hl.contains_iff _).1 (hc.contains_place ha)).1 h1 h2 hblock
    rw [hl.toNat_regionStop (hc.part_inside i hi)] at h4
    exact hc.not_freed ha (hl.indexOf_eq (hc.part_inside i hi) h3 h4 ▸ hfreed)
  · refine Heap.recorded_of_foldl_record (s := h.starts) (by rw [hsame]; exact hl)
      (by rw [hsame]; exact hserves) hc.sameBlocks (h.partFrom d)
      (by rw [hsame]; exact hc.part_inside) hi
      (((h.partFrom d).flatMap (h.liveIn b)).map (Berth.placeOf bs))
      (by rw [hsame]; exact hlive) ?_ ?_ ?_
    · intro v hv
      obtain ⟨a, ha, rfl⟩ := List.mem_map.1 hv
      exact ⟨a, (hc.mem_moved.1 ha).1, rfl⟩
    · rintro v ⟨a, ha, rfl⟩ hindex
      rw [hsame] at hindex
      refine List.mem_map_of_mem (hc.mem_moved.2 ⟨ha, ?_⟩)
      by_contra hout
      rw [hc.place_other hout] at hindex
      exact hout (hindex ▸ hi)
    · intro x hx hix
      rw [hsame] at hx hix ⊢
      rw [hc.startInBlock_eq hserves hx, hix, if_neg hfreed]

/-- A region is opened only by a block that does not fit in the region before. -/
theorem nextBlockFit :
    h'.NextBlockFit t (fun v => ∃ a, live a ∧ Berth.placeOf bs a = v) table.blockSize := by
  have hs := hc.surveyed
  have ha := hc.assigned
  intro k i hki hi hkk hik hnone
  rw [hc.retopped.size] at hi
  rcases hc.mem_part_or_lt (hki.trans hi) hkk with hk | hkd
  swap
  · obtain ⟨hkind, hfull⟩ := hc.region_dense hdense hkd
    exact ⟨hkind, .inl hfull⟩
  have hin : i ∈ h.partFrom d := by
    refine (hc.mem_part_or_lt hi (by rw [hik]; rfl)).resolve_right fun hlt => ?_
    have := ((Heap.mem_partFrom hc.dense k).1 hk).1
    omega
  obtain ⟨s, hzip⟩ := hc.exists_space hk
  obtain ⟨j, hj, hspace⟩ := mem_zip_iff.1 hzip
  obtain ⟨j', s', hj', hspace', hused, -, -⟩ := hc.regular_part hin hik
  -- the region comes next in the part
  have hasc := hc.part.ascending
  obtain rfl : j' = j + 1 := by
    rcases Nat.lt_trichotomy j' (j + 1) with hlt | heq | hlt
    · rcases Nat.eq_or_lt_of_le (Nat.lt_succ_iff.1 hlt) with rfl | hlt
      · rw [hj] at hj'
        obtain rfl := Option.some.inj hj'
        omega
      · have := pairwise_lt_getElem? hasc hj' hj hlt
        omega
    · exact heq
    · have hlen := (List.getElem?_eq_some_iff.1 hj').1
      have hmid := List.getElem?_eq_getElem (l := h.partFrom d) (i := j + 1) (by omega)
      have hkm := pairwise_lt_getElem? hasc hj hmid (Nat.lt_succ_self j)
      have hmi := pairwise_lt_getElem? hasc hmid hj' hlt
      have hkind := hc.part.regular _ (List.mem_of_getElem? hmid)
      have hhum := hnone _ hkm hmi
      rw [(hc.retopped.other _ (hmi.trans hi) hkind).1] at hhum
      cases hhum
  obtain ⟨p, hopens⟩ := ha.tight j s s' hspace hspace' hused
  -- the region before is used as well, but the block does not fit there
  have hbefore := ha.used_before hs hc.part hspace hspace' hused
  obtain ⟨-, -, -, hempty⟩ := hc.extent hzip
  have hfilled : h'.region k = { h.region k with kind := .regular, top := s.top } := by
    rw [hc.region_part hzip, filledRegion, if_neg fun hzero => hbefore ?_]
    rw [hempty.1 hzero, (ha.extent j k s hj hspace).1]
  let group := bs.filter fun q => table.blockOf q.object == table.blockOf p.object
  have hgroup : ∀ q ∈ group, q ∈ bs ∧ table.blockOf q.object = table.blockOf p.object := fun q hq =>
    ⟨(List.mem_filter.1 hq).1, eq_of_beq (List.mem_filter.1 hq).2⟩
  have hmember : ∀ q ∈ bs, live q.object ∧ Berth.placeOf bs q.object = q.target := fun q hq =>
    ⟨((ha.seen q.object).1 (List.mem_map_of_mem hq)).1, Berth.placeOf_of_mem (ha.nodup hs) hq⟩
  rw [hfilled, hc.retopped.layout]
  refine ⟨rfl, .inr ⟨group.map Berth.target, ?_, fun v hv => ?_, ?_⟩⟩
  · exact List.pairwise_map.2 (((ha.pairwise hs).filter _).imp And.right)
  · obtain ⟨q, hq, rfl⟩ := List.mem_map.1 hv
    obtain ⟨hq, hblock⟩ := hgroup q hq
    exact ⟨⟨q.object, (hmember q hq).1, (hmember q hq).2⟩,
      ha.target_lt_of_blockOf hs hj' hspace' hopens hq hblock⟩
  · have hwords : (group.map Berth.target).map (h'.wordsAt t) = group.map Berth.words := by
      rw [List.map_map]
      refine List.map_congr_left fun q hq => ?_
      obtain ⟨hq, -⟩ := hgroup q hq
      obtain ⟨hlive, hplace⟩ := hmember q hq
      rw [Function.comp_apply, ← hplace, hc.wordsAt_place hlive, ha.size q hq]
    have hfull := hopens.full
    rw [ha.stop j k s hj hspace] at hfull
    rw [hwords]
    exact hfull

end

/-! ### What the next one does -/

variable (hc : Completed h t b live d table spaces bs release h₂ g h')
  (hcompacted : h.Compacted t live d release)
include hc hcompacted

/-- Every object of the part stays. -/
theorem stays_part (hfit : h.NextBlockFit t live table.blockSize) {a : Address} (ha : live a)
    (hin : h.layout.indexOf a ∈ h.partFrom d) : Berth.placeOf bs a = a := by
  have hs := hc.surveyed
  have hl := hs.tabled.layout
  have hassigned := hc.assigned
  have horder := fun (a c : Address) (ha : live a) (hina : h.layout.indexOf a ∈ h.partFrom d)
    (hlive : live c) (hinc : h.layout.indexOf c ∈ h.partFrom d) (hlt : a.toNat < c.toNat) =>
    hassigned.placeOf_lt hs ha hina hlive hinc hlt
  refine hs.stays hcompacted.gapless hc.part (fun a _ _ => hassigned.placeOf_le hs a) horder ?_ a
    ha hin
  intro i hi hlive hbefore
  by_contra hmoves
  have hi' := hc.part_inside i hi
  have hindex := hl.indexOf_bottom hi'
  have hsize := hc.part.inside i hi
  obtain ⟨p, hp, hobject, htarget, hwords, -⟩ := hassigned.berth hs hlive (by rwa [hindex])
  -- the space it goes to
  obtain ⟨k, s, hk, hspace⟩ : ∃ k s, (h.partFrom d)[p.space]? = some k ∧ spaces[p.space]? = some s :=
    ⟨_, _, List.getElem?_eq_getElem (hassigned.space p hp),
      Array.getElem?_eq_getElem (by rw [hassigned.count]; exact hassigned.space p hp)⟩
  obtain ⟨hlow, hhigh⟩ := hassigned.berth_mem hp hk hspace
  obtain ⟨-, -, htop, -⟩ := hassigned.extent _ k s hk hspace
  have hpos := hs.wordsAt_pos hlive
  have hleft := hassigned.placeOf_le hs (h.layout.bottom i)
  unfold Berth.stop at hhigh
  rw [htarget] at hlow hhigh
  -- only the region before could take it
  obtain ⟨j, hj, hji, hnone, hbehind⟩ := hs.opens hcompacted.gapless hc.part hcompacted.occupied
    horder hi hlive hbefore (List.mem_of_getElem? hk) hlow (by omega)
    (Nat.lt_of_le_of_ne hleft fun heq => hmoves (UInt64.toNat_inj.1 heq))
  have hkind : (h.region i).kind = .regular := by
    have hregular := hs.regular_of_live hlive
    rw [hindex] at hregular
    exact hregular (hc.part.regular i hi)
  obtain ⟨hkj, hfull⟩ := hfit j i hji hsize (hc.part.regular j hj) hkind fun m hjm hmi => by
    by_contra hm
    have hd := ((Heap.mem_partFrom hc.dense j).1 hj).1
    have := hnone m ((Heap.mem_partFrom hc.dense m).2
      ⟨hd.trans hjm.le, hmi.trans hsize, by simpa using hm⟩)
    omega
  obtain ⟨rfl, hover⟩ := hbehind hkj
  rcases hfull with hfull | ⟨as, hasc, has, hfull⟩
  · rw [hfull] at hover
    omega
  -- the objects of the block go there with it
  have hplaced : ∀ a ∈ as, h.layout.indexOf a ∈ h.partFrom d ∧
      (h.region k).top.toNat ≤ (Berth.placeOf bs a).toNat ∧
      (Berth.placeOf bs a).toNat + 8 * h.wordsAt t a ≤ s.top.toNat := by
    intro a ha
    obtain ⟨hlivea, h1, h2⟩ := has a ha
    obtain ⟨hblock, hina⟩ := hassigned.serves.blockOf_bottom hl hi' h1 h2
    rw [← hina] at hi
    obtain ⟨q, hq, hqa, hqt, hqw, -⟩ := hassigned.berth hs hlivea hi
    have htogether := hassigned.together q hq p hp (by rw [hqa, hobject, hblock])
    have hstop := (hassigned.berth_mem hq (by rw [htogether]; exact hk)
      (by rw [htogether]; exact hspace)).2
    unfold Berth.stop at hstop
    rw [hqt, hqw] at hstop
    refine ⟨hi, ?_, hstop⟩
    rcases Nat.eq_or_lt_of_le h1 with heq | hlt
    · rw [← UInt64.toNat_inj.1 heq]
      exact hover
    · have := horder _ a hlive (by rw [hindex, ← hina]; exact hi) hlivea hi hlt
      omega
  have hpacked := Berth.packed_le_of (fun a => (Berth.placeOf bs a).toNat) (h.wordsAt t)
    (hasc.imp_of_mem fun ha hc hlt =>
      horder _ _ (has _ ha).1 (hplaced _ ha).1 (has _ hc).1 (hplaced _ hc).1 hlt)
    (m := (h.region k).top.toNat) (n := s.top.toNat) (by omega) fun a ha => (hplaced a ha).2
  omega

section

variable (hstays : ∀ a, live a → h.layout.indexOf a ∈ h.partFrom d → Berth.placeOf bs a = a)
include hstays

omit hcompacted in
theorem place_same (a : Address) : Berth.placeOf bs a = a := by
  by_cases hin : live a ∧ h.layout.indexOf a ∈ h.partFrom d
  · exact hstays a hin.1 hin.2
  · exact hc.assigned.placeOf_eq hin

/-- The spaces are filled as their regions were. -/
theorem top_same {i : Nat} {s : Space} (hmem : (i, s) ∈ (h.partFrom d).zip spaces.toList) :
    s.top = (h.region i).top := by
  have hs := hc.surveyed
  have hassigned := hc.assigned
  have hl := hs.tabled.layout
  have hplace := hc.place_same hstays
  have hin := (List.of_mem_zip hmem).1
  have hsize := hc.part.inside i hin
  have hi' := hc.part_inside i hin
  obtain ⟨hlow, hhigh, -, -⟩ := hc.extent hmem
  obtain ⟨j, hj, hspace⟩ := mem_zip_iff.1 hmem
  obtain ⟨hbottom, -, -⟩ := hs.tabled.top i hsize
  rw [hs.tabled.bottom i hsize] at hbottom
  have htiles := hassigned.tiled j i s hj hspace
  refine UInt64.toNat_inj.1 (Nat.le_antisymm (Nat.not_lt.1 fun hlt => ?_)
    (Nat.not_lt.1 fun hlt => ?_))
  · -- an object that lies above the old top
    obtain ⟨r, hr, h1, h2⟩ := htiles.exists_covering hbottom hlt
    obtain ⟨p, hp, rfl⟩ := List.mem_map.1 hr
    obtain ⟨hp, hpj⟩ := List.mem_filter.1 hp
    rw [beq_iff_eq] at hpj
    have hlive := ((hassigned.seen p.object).1 (List.mem_map_of_mem hp)).1
    have htarget : p.target = p.object := by
      rw [← Berth.placeOf_of_mem (hassigned.nodup hs) hp, hplace]
    have hwords := hassigned.size p hp
    obtain ⟨h3, h4⟩ := hassigned.berth_mem hp (by rw [hpj]; exact hj) (by rw [hpj]; exact hspace)
    change p.target.toNat ≤ _ at h1
    change _ < p.target.toNat + 8 * p.words at h2
    rw [htarget] at h1 h2 h3
    have hpos := hs.wordsAt_pos hlive
    have hindex : h.layout.indexOf p.object = i := by
      have htop := (hs.tabled.top i hsize).2.1
      rw [hs.tabled.stop i hsize, hl.toNat_regionStop hi'] at htop
      have hstop := hl.toNat_regionStop hi'
      exact hl.indexOf_eq hi' h3 (by omega)
    have hend := hs.end_le_top hlive (by rw [hindex]; exact hc.part.regular i hin)
    rw [hindex] at hend
    omega
  · -- the last object of the region
    have hkind : (h.region i).kind = .regular := by
      refine (RegionKind.free_or_regular (hc.part.regular i hin)).resolve_left fun hk => ?_
      rw [hs.tabled.free i hsize hk, hs.tabled.bottom i hsize] at hlt
      omega
    obtain ⟨c, hlive, hindex, hend⟩ := hs.exists_last hcompacted.gapless hsize hkind
      (hcompacted.occupied i hsize hkind)
    obtain ⟨k, s', hmem', hk, h1, h2⟩ := hc.place_part hlive (by rwa [hindex])
    have hpos := hs.wordsAt_pos hlive
    rw [hplace] at h1 h2
    have hki := hc.indexOf_place hmem' h1 (by omega)
    rw [hindex] at hki
    subst hki
    rw [hc.space_unique hmem' hmem] at h2
    omega

/-- The regions of the part get the tops that they had. -/
theorem region_same (i : Nat) : h'.region i = h.region i := by
  by_cases hin : i ∈ h.partFrom d
  · obtain ⟨s, hmem⟩ := hc.exists_space hin
    have htop := hc.top_same hcompacted hstays hmem
    have hsize := hc.part.inside i hin
    have hempty := (hc.extent hmem).2.2.2
    have hbottom := hc.surveyed.tabled.bottom i hsize
    have hkind := RegionKind.free_or_regular (hc.part.regular i hin)
    rw [hc.region_part hmem, filledRegion]
    split
    · rename_i hzero
      rw [(hc.idle i hsize).makeFree_eq]
      refine Region.retopped_eq (hkind.resolve_right fun hk => ?_) ?_
      · -- a regular region is not empty
        have hfull := hcompacted.occupied i hsize hk
        rw [← htop, hempty.1 hzero] at hfull
        exact Nat.lt_irrefl _ hfull
      · rw [← htop, hempty.1 hzero, hbottom]
    · rename_i hused
      refine Region.retopped_eq (hkind.resolve_left fun hk => hused (hempty.2 ?_)) htop.symm
      rw [htop, hc.surveyed.tabled.free i hsize hk, hbottom]
  · exact hc.region_other hin

/-- The objects of the part are recorded where they were. -/
theorem starts_same (hrecorded : ∀ i ∈ h.partFrom d, h.Recorded live i) :
    h'.starts = h.starts := by
  have hs := hc.surveyed
  have hl := hs.tabled.layout
  have hplace := hc.place_same hstays
  have hcontains := fun a (ha : live a) => hs.contains ha
  have hmap : ((h.partFrom d).flatMap (h.liveIn b)).map (Berth.placeOf bs)
      = (h.partFrom d).flatMap (h.liveIn b) :=
    (List.map_congr_left fun a _ => hplace a).trans (List.map_id _)
  rw [hc.starts_eq, hmap, Heap.foldl_record_recorded hl hcompacted.serves hc.part_inside hrecorded
    _ (fun a => hc.mem_moved) hcontains]
  -- nothing is recorded in a region that is freed
  refine Heap.foldl_record_recorded hl hcompacted.serves
    (fun i hi => hc.part_inside i (freed_inside i hi)) (fun i hi => hrecorded i (freed_inside i hi))
    [] (fun a => ⟨fun ha => absurd ha List.not_mem_nil, fun ⟨ha, hfreed⟩ => ?_⟩) hcontains
  have hnot := hc.not_freed ha
  rw [hplace] at hnot
  exact absurd hfreed hnot

/-- If no object moves, nothing is written but zeros where there are zeros. -/
theorem load_same {x : Address} (hx : x.toNat % 8 = 0) : h'.memory.load x = h.memory.load x := by
  have hplace := hc.place_same hstays
  have hadjusted : h₂.memory.load x = h.memory.load x := by
    rw [hc.adjusted.load]
    split
    · exact hplace _
    · rfl
  have hmoved : g.memory.load x = h₂.memory.load x := by
    by_cases hin : ∃ a ∈ (h.partFrom d).flatMap (h.liveIn b), a.toNat ≤ x.toNat ∧
        x.toNat < a.toNat + 8 * h.wordsAt t a
    · obtain ⟨a, ha, h1, h2⟩ := hin
      have haligned := (hc.surveyed.isWord (hc.mem_moved.1 ha).1).aligned
      have hthere := hc.moved.memory.there _ (List.mem_map_of_mem ha) ((x.toNat - a.toNat) / 8)
        (show _ < h.wordsAt t a by omega)
      rw [Address.exists_nth h1 (by omega)]
      dsimp only at hthere
      rwa [hplace] at hthere
    · refine hc.moved.memory.elsewhere x fun r hr => ?_
      obtain ⟨a, ha, rfl⟩ := List.mem_map.1 hr
      dsimp only
      rw [hplace]
      by_contra hcon
      exact hin ⟨a, ha, by omega⟩
  rw [hc.finish.load]
  split
  · rename_i hfreed
    obtain ⟨hrelease, ⟨i, s⟩, hmem, hempty, hpage⟩ := hfreed
    have hin := (List.of_mem_zip hmem).1
    rw [hc.moved.layout] at hpage
    refine (hcompacted.released hrelease i (hc.part.inside i hin) ?_ x hpage).symm
    rw [← hc.region_same hcompacted hstays i, hc.region_part hmem, filledRegion, if_pos hempty]
    rfl
  · exact hmoved.trans hadjusted

end

/-- Another collection changes nothing. -/
theorem same (hfit : h.NextBlockFit t live table.blockSize)
    (hrecorded : ∀ i ∈ h.partFrom d, h.Recorded live i) :
    (∀ a, Berth.placeOf bs a = a) ∧ h.Unchanged h' := by
  have hstays := fun a ha hin => hc.stays_part hcompacted hfit (a := a) ha hin
  exact ⟨hc.place_same hstays,
    Heap.regions_eq_of_region hc.retopped.size fun i _ => hc.region_same hcompacted hstays i,
    hc.starts_same hcompacted hstays hrecorded, fun x hx => hc.load_same hcompacted hstays hx⟩

end Completed

end SerialCycle

end MarkCompact
