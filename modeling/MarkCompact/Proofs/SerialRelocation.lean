/-
MarkCompact/Proofs/SerialRelocation.lean

A serial collection relocates the live objects.

Objects of the part lie at their berths, in regions that are kept; all other live
objects keep out of the part and have not been touched.  So every live object is
found word for word at its new place, and only its references have been replaced.

Main results: `Completed.load_place`, `Completed.rehomed`, `Completed.apart` and
`Completed.tiles` (the regions of the part are filled without gaps).
-/
import MarkCompact.Proofs.SerialFinish

namespace MarkCompact.SerialCycle.Completed

variable {h : Heap} {t : ClassTable} {b : Bitmap} {live : Address → Prop} {d : Nat}
  {table : BlockOffsets} {spaces : Array Space} {bs : List Berth} {release : Bool}
  {h₂ g h' : Heap}

/-! ### New places -/

theorem place_part (hc : Completed h t b live d table spaces bs release h₂ g h') {a : Address}
    (ha : live a) (hin : h.layout.indexOf a ∈ h.partFrom d) :
    ∃ i s, (i, s) ∈ (h.partFrom d).zip spaces.toList ∧ i ∈ h.partFrom d ∧
      (h.layout.bottom i).toNat ≤ (Berth.placeOf bs a).toNat ∧
      (Berth.placeOf bs a).toNat + 8 * h.wordsAt t a ≤ s.top.toNat := by
  obtain ⟨j, i, s, hj, hs, h1, h2, -⟩ := hc.assigned.region hc.surveyed ha hin
  exact ⟨i, s, mem_zip_iff.2 ⟨j, hj, hs⟩, List.mem_of_getElem? hj, h1, h2⟩

theorem place_other (hc : Completed h t b live d table spaces bs release h₂ g h') {a : Address}
    (hout : h.layout.indexOf a ∉ h.partFrom d) : Berth.placeOf bs a = a :=
  hc.assigned.placeOf_eq fun hh => hout hh.2

/-- What lies in a region keeps out of any other one. -/
theorem apart_of_region (hc : Completed h t b live d table spaces bs release h₂ g h') {i j x n : Nat}
    (hi : i ∈ h.partFrom d) (hj : j ∈ h.partFrom d) (hne : i ≠ j)
    (h1 : (h.layout.bottom i).toNat ≤ x) (h2 : x + n ≤ (h.layout.regionStop i).toNat) :
    x + n ≤ (h.layout.bottom j).toNat ∨ (h.layout.regionStop j).toNat ≤ x := by
  have hl := hc.surveyed.tabled.layout
  have hi' := hc.part.inside i hi
  have hj' := hc.part.inside j hj
  rw [hc.surveyed.tabled.count] at hi' hj'
  rw [hl.toNat_regionStop hi'] at h2
  rw [hl.toNat_regionStop hj']
  rcases Nat.lt_or_gt_of_ne hne with hlt | hgt
  · have := hl.regionStop_le_bottom hlt hj'.le
    omega
  · have := hl.regionStop_le_bottom hgt hi'.le
    omega

/-- No live object lies in a region that is freed. -/
theorem apart_freed (hc : Completed h t b live d table spaces bs release h₂ g h') {a : Address}
    (ha : live a) {j : Nat} {s : Space} (hmem : (j, s) ∈ (h.partFrom d).zip spaces.toList)
    (hempty : s.usedWords = 0) :
    (Berth.placeOf bs a).toNat + 8 * h.wordsAt t a ≤ (h.layout.bottom j).toNat ∨
      (h.layout.regionStop j).toNat ≤ (Berth.placeOf bs a).toNat := by
  have hj := (List.of_mem_zip hmem).1
  have hpos := hc.surveyed.wordsAt_pos ha
  by_cases hin : h.layout.indexOf a ∈ h.partFrom d
  · obtain ⟨i, s', hs', hi, h1, h2⟩ := hc.place_part ha hin
    have htop := (hc.extent hs').2.1
    refine hc.apart_of_region hi hj ?_ h1 (h2.trans htop)
    rintro rfl
    obtain rfl := hc.space_unique hs' hmem
    have := (hc.extent hmem).2.2.2.1 hempty
    rw [this] at h2
    omega
  · rw [hc.place_other hin]
    refine hc.surveyed.apart_region ha (hc.part.inside j hj) (hc.part.regular j hj) ?_
    rintro rfl
    exact hin hj

/-- Every live object is found at its new place as it was when objects began to move. -/
theorem load_place (hc : Completed h t b live d table spaces bs release h₂ g h') {a : Address}
    (ha : live a) {k : Nat} (hk : k < h.wordsAt t a) :
    h'.memory.load ((Berth.placeOf bs a).nth k) = h₂.memory.load (a.nth k) := by
  have hs := hc.surveyed
  have hfit := hs.fits ha
  have hleft := hc.assigned.placeOf_le hs a
  have hat : ((Berth.placeOf bs a).nth k).toNat = (Berth.placeOf bs a).toNat + 8 * k :=
    Address.toNat_nth (by omega)
  have hkept : h'.memory.load ((Berth.placeOf bs a).nth k)
      = g.memory.load ((Berth.placeOf bs a).nth k) := by
    refine hc.load_kept fun j s hmem hempty => ?_
    have := hc.apart_freed ha hmem hempty
    omega
  rw [hkept]
  by_cases hin : h.layout.indexOf a ∈ h.partFrom d
  · have hlist : a ∈ (h.partFrom d).flatMap (h.liveIn b) :=
      List.mem_flatMap.2 ⟨_, hin, (hs.mem_liveIn (hc.part.inside _ hin) a).2 ⟨ha, rfl⟩⟩
    exact hc.moved.memory.there _ (List.mem_map_of_mem hlist) k hk
  · rw [hc.place_other hin]
    refine hc.moved.memory.load_nth hfit (fun r hr => ?_) hk
    obtain ⟨e, he, rfl⟩ := List.mem_map.1 hr
    obtain ⟨i, hi, he⟩ := List.mem_flatMap.1 he
    obtain ⟨hle, hie⟩ := (hs.mem_liveIn (hc.part.inside i hi) e).1 he
    obtain ⟨j, s, hmem, hj, h1, h2⟩ := hc.place_part hle (hie ▸ hi)
    have htop := (hc.extent hmem).2.1
    have hout := hs.apart_region ha (hc.part.inside j hj) (hc.part.regular j hj) (by
      rintro rfl
      exact hin hj)
    show (Berth.placeOf bs e).Apart (h.wordsAt t e) a (h.wordsAt t a)
    unfold Address.Apart
    omega

/-! ### Objects -/

theorem placedAt (hc : Completed h t b live d table spaces bs release h₂ g h') {a : Address}
    {c : ClassInfo} {words : WordCount} (ha : live a) (ho : h.ObjectAt t a c words) :
    h'.PlacedAt (Berth.placeOf bs a) words := by
  have hs := hc.surveyed
  have hr := hc.retopped
  have hpos := hs.wordsAt_pos ha
  by_cases hin : h.layout.indexOf a ∈ h.partFrom d
  · obtain ⟨i, s, hmem, hi, h1, h2⟩ := hc.place_part ha hin
    have hused : ¬ s.usedWords = 0 := by
      intro hempty
      rw [(hc.extent hmem).2.2.2.1 hempty] at h2
      omega
    have hregion := hc.region_part hmem
    unfold filledRegion at hregion
    rw [if_neg hused] at hregion
    refine .inl ⟨i, by rw [hr.size]; exact hc.part.inside i hi, ?_, ?_, ?_⟩
    · rw [hregion]
    · rw [hr.layout]
      exact h1
    · rw [hregion, ← ho.wordsAt_eq]
      exact h2
  · rw [hc.place_other hin]
    rcases ho.place with ⟨i, hi, hk, h1, h2⟩ | ⟨i, hi, hrun, heq⟩
    · have hl := hs.tabled.layout
      have hi' : i < h.layout.numRegions := by rwa [← hs.tabled.count]
      have htop := (hs.tabled.top i hi).2.1
      rw [hs.tabled.stop i hi, hl.toNat_regionStop hi'] at htop
      have hindex := hl.indexOf_eq hi' h1 (by rw [ho.wordsAt_eq] at hpos; omega)
      rw [hindex] at hin
      refine .inl ⟨i, by rwa [hr.size], ?_, ?_, ?_⟩
      · rw [hc.region_other hin]
        exact hk
      · rw [hr.layout]
        exact h1
      · rw [hc.region_other hin]
        exact h2
    · exact .inr ⟨i, by rwa [hr.size], hr.humongousRun hs.tabled.toGridded hrun hi, by
        rw [hr.layout]
        exact heq⟩

theorem mapped (hc : Completed h t b live d table spaces bs release h₂ g h') : h'.Mapped :=
  hc.surveyed.mapped.of_span hc.retopped.layout hc.span

theorem aligned_place (hc : Completed h t b live d table spaces bs release h₂ g h') {a : Address}
    (ha : live a) : (Berth.placeOf bs a).toNat % 8 = 0 := by
  have hs := hc.surveyed
  by_cases hin : h.layout.indexOf a ∈ h.partFrom d
  · obtain ⟨j, i, s, hj, -, -, -, h3⟩ := hc.assigned.region hs ha hin
    have hi := hc.part.inside i (List.mem_of_getElem? hj)
    rw [hs.tabled.count] at hi
    exact h3 (hs.tabled.layout.bottom_mod hi.le)
  · rw [hc.place_other hin]
    exact (hs.isWord ha).aligned

theorem load_header_place (hc : Completed h t b live d table spaces bs release h₂ g h') {a : Address}
    (ha : live a) {k : Nat} (hk : k < t.headerWords.toNat) :
    h'.memory.load ((Berth.placeOf bs a).nth k) = h.memory.load (a.nth k) := by
  have hs := hc.surveyed
  have hle := hs.headerWords_le ha
  rw [hc.load_place ha (by omega), hs.load_header_adjusted hc.adjusted (fun x hx => ?_) ha hk]
  obtain ⟨e, he, hx⟩ := List.mem_flatMap.1 hx
  exact ⟨e, (hs.mem_liveList e).1 he, hx⟩

theorem loadMark_place (hc : Completed h t b live d table spaces bs release h₂ g h') {a : Address}
    (ha : live a) : h'.memory.loadMark (Berth.placeOf bs a) = h.memory.loadMark a := by
  have h0 := hc.load_header_place ha t.headerWords_pos
  rw [Address.nth_zero, Address.nth_zero] at h0
  unfold Memory.loadMark
  rw [h0]

theorem headers (hc : Completed h t b live d table spaces bs release h₂ g h') :
    h'.compactHeaders = h.compactHeaders :=
  hc.finish.headers.trans hc.moved.headers

/-- Every live object is an object of the same class and size at its new place. -/
theorem objectAt (hc : Completed h t b live d table spaces bs release h₂ g h') {a : Address}
    {c : ClassInfo} {words : WordCount} (ha : live a) (ho : h.ObjectAt t a c words) :
    h'.ObjectAt t (Berth.placeOf bs a) c words := by
  have hs := hc.surveyed
  have hmark := hc.loadMark_place ha
  have hplace := hc.placedAt ha ho
  have hinfo : h'.infoOf t (Berth.placeOf bs a) = .ok c :=
    Heap.infoOf_of_classOf (Heap.classOf_congr_header fun _ hk => hc.load_header_place ha hk) ho.info
  refine ⟨?_, hinfo, ?_, ho.whole, ?_, hplace⟩
  · exact hplace.contains hc.settled.toTabled hc.mapped (hs.words_pos ho) (hc.aligned_place ha)
  · rw [Heap.size_of_info hinfo, hmark, ← Heap.size_of_info ho.info]
    exact ho.size
  · rw [hmark, hc.headers]
    exact ho.mark

theorem wordsAt_place (hc : Completed h t b live d table spaces bs release h₂ g h') {a : Address}
    (ha : live a) : h'.wordsAt t (Berth.placeOf bs a) = h.wordsAt t a := by
  obtain ⟨c, words, ho⟩ := hc.surveyed.populated.object a ha
  rw [(hc.objectAt ha ho).wordsAt_eq, ho.wordsAt_eq]

/-- Every word of a live object that is no reference, its mark included, is found unchanged. -/
theorem load_plain_place (hc : Completed h t b live d table spaces bs release h₂ g h') {a : Address}
    {c : ClassInfo} (ha : live a) (hi : h.infoOf t a = .ok c) {k : Nat} (hk : k < h.wordsAt t a)
    (hplain : k.toUInt64 ∉ c.fields) :
    h'.memory.load ((Berth.placeOf bs a).nth k) = h.memory.load (a.nth k) := by
  rw [hc.load_place ha hk, hc.surveyed.load_plain_adjusted hc.adjusted ha hi hk hplain]

/-- Every reference of a live object has followed. -/
theorem load_field_place (hc : Completed h t b live d table spaces bs release h₂ g h') {a : Address}
    {c : ClassInfo} {words : WordCount} (ha : live a) (ho : h.ObjectAt t a c words) {f : WordCount}
    (hf : f ∈ c.fields) :
    h'.memory.load ((Berth.placeOf bs a).offset f)
      = Berth.placeOf bs (h.memory.load (a.offset f)) := by
  have hs := hc.surveyed
  have hlt := UInt64.lt_iff_toNat_lt.1
    (hs.classes.inside c (ClassTable.mem_of_info (Heap.info_of_infoOf ho.info)) f hf).2
  have hwhole := UInt64.le_iff_toNat_le.1 ho.whole
  have hwords := ho.wordsAt_eq
  rw [Address.offset_eq_nth, hc.load_place ha (by omega), ← Address.offset_eq_nth,
    hs.load_field_adjusted hc.adjusted ha ho.info hf]

theorem rehomed (hc : Completed h t b live d table spaces bs release h₂ g h')
    (hclassic : h.compactHeaders = false) {a : Address} {c : ClassInfo} {words : WordCount}
    (ha : live a) (ho : h.ObjectAt t a c words) :
    h.Rehomed h' t (Berth.placeOf bs) a c := by
  have hmark := hc.loadMark_place ha
  refine ⟨⟨words, hc.objectAt ha ho⟩, ?_, ?_, ?_, fun f hf => hc.load_field_place ha ho hf, ?_⟩
  · rw [hmark]
  · rw [hmark]
  · intro hh
    rw [Heap.identityHash_classic hclassic hh,
      Heap.identityHash_classic (hc.headers.trans hclassic) (by rwa [hmark]), hmark]
    rfl
  · intro k _ hk hplain
    have hwhole := UInt64.le_iff_toNat_le.1 ho.whole
    have hwords := ho.wordsAt_eq
    exact hc.load_plain_place ha ho.info (by omega) hplain

/-- New places do not overlap. -/
theorem apart (hc : Completed h t b live d table spaces bs release h₂ g h') {a e : Address}
    (ha : live a) (he : live e) (hne : a ≠ e) :
    (Berth.placeOf bs a).Apart (h.wordsAt t a) (Berth.placeOf bs e) (h.wordsAt t e) := by
  have hs := hc.surveyed
  -- an object of the part stays in the part, any other one outside of it
  have hmixed : ∀ a e, live a → live e → h.layout.indexOf a ∈ h.partFrom d →
      h.layout.indexOf e ∉ h.partFrom d →
      (Berth.placeOf bs a).Apart (h.wordsAt t a) (Berth.placeOf bs e) (h.wordsAt t e) := by
    intro a e ha he hin hout
    obtain ⟨i, s, hmem, hi, h1, h2⟩ := hc.place_part ha hin
    have htop := (hc.extent hmem).2.1
    have hregion := hs.apart_region he (hc.part.inside i hi) (hc.part.regular i hi) (by
      rintro rfl
      exact hout hi)
    rw [hc.place_other hout]
    unfold Address.Apart
    omega
  have hcases : a.toNat < e.toNat ∨ e.toNat < a.toNat := by
    rcases Nat.lt_trichotomy a.toNat e.toNat with h | h | h
    · exact .inl h
    · exact absurd (UInt64.toNat_inj.1 h) hne
    · exact .inr h
  by_cases hin : h.layout.indexOf a ∈ h.partFrom d
  · by_cases hin' : h.layout.indexOf e ∈ h.partFrom d
    · rcases hcases with hlt | hlt
      · exact .inl (hc.assigned.placeOf_lt hs ha hin he hin' hlt)
      · exact .inr (hc.assigned.placeOf_lt hs he hin' ha hin hlt)
    · exact hmixed a e ha he hin hin'
  · by_cases hin' : h.layout.indexOf e ∈ h.partFrom d
    · exact (hmixed e a he ha hin' hin).symm
    · rw [hc.place_other hin, hc.place_other hin']
      rcases hcases with hlt | hlt
      · exact .inl (hs.populated.disjoint a e ha he hlt)
      · exact .inr (hs.populated.disjoint e a he ha hlt)

/-! ### Packing -/

/-- The region of a place in the part. -/
theorem indexOf_place (hc : Completed h t b live d table spaces bs release h₂ g h') {i : Nat} {s : Space}
    (hmem : (i, s) ∈ (h.partFrom d).zip spaces.toList) {x : Address}
    (h1 : (h.layout.bottom i).toNat ≤ x.toNat) (h2 : x.toNat < s.top.toNat) :
    h.layout.indexOf x = i := by
  have hl := hc.surveyed.tabled.layout
  have hi := hc.part.inside i (List.of_mem_zip hmem).1
  rw [hc.surveyed.tabled.count] at hi
  have htop := (hc.extent hmem).2.1
  rw [hl.toNat_regionStop hi] at htop
  exact hl.indexOf_eq hi h1 (by omega)

/-- A regular region of the part is filled without gaps by the live objects that are now in
it. -/
theorem tiles (hc : Completed h t b live d table spaces bs release h₂ g h') {i : Nat} (hd : d ≤ i)
    (hi : i < h.regions.size) (hk : (h'.region i).kind = .regular) :
    ∃ l : List Address, (∀ x, x ∈ l ↔ (∃ a, live a ∧ Berth.placeOf bs a = x) ∧
        h.layout.indexOf x = i) ∧
      Tiles (h'.region i).bottom.toNat (h'.region i).top.toNat
        (l.map fun x => (x, h'.wordsAt t x)) := by
  have hs := hc.surveyed
  have hpart : i ∈ h.partFrom d := by
    refine (Heap.mem_partFrom hc.dense i).2 ⟨hd, hi, ?_⟩
    cases hh : (h.region i).kind.isHumongous with
    | false => rfl
    | true =>
      rw [(hc.retopped.humongous i hi hh).1] at hk
      rw [hk] at hh
      cases hh
  obtain ⟨s, hmem⟩ := hc.exists_space hpart
  obtain ⟨j, hj, hspace⟩ := mem_zip_iff.1 hmem
  have hregion := hc.region_part hmem
  have htiled := hc.assigned.tiled j i s hj hspace
  have hused : ¬ s.usedWords = 0 := by
    intro hempty
    rw [hregion, filledRegion, if_pos hempty] at hk
    cases hk
  rw [filledRegion, if_neg hused] at hregion
  rw [hregion, hs.tabled.bottom i hi]
  have hplace : ∀ p ∈ bs, live p.object ∧ h.layout.indexOf p.object ∈ h.partFrom d ∧
      Berth.placeOf bs p.object = p.target := by
    intro p hp
    obtain ⟨h1, h2⟩ := (hc.assigned.seen p.object).1 (List.mem_map_of_mem hp)
    exact ⟨h1, h2, Berth.placeOf_of_mem (hc.assigned.nodup hs) hp⟩
  refine ⟨(bs.filter fun p => p.space == j).map Berth.target, fun x => ⟨?_, ?_⟩, ?_⟩
  · intro hx
    obtain ⟨p, hp, rfl⟩ := List.mem_map.1 hx
    obtain ⟨h1, h2⟩ := htiled.mem (List.mem_map_of_mem (f := Berth.run) hp)
    obtain ⟨hp, -⟩ := List.mem_filter.1 hp
    obtain ⟨hlive, -, htarget⟩ := hplace p hp
    have hpos := hs.wordsAt_pos hlive
    rw [← hc.assigned.size p hp] at hpos
    exact ⟨⟨p.object, hlive, htarget⟩, hc.indexOf_place hmem h1 (by omega)⟩
  · rintro ⟨⟨a, hlive, rfl⟩, hindex⟩
    have hin : h.layout.indexOf a ∈ h.partFrom d := by
      by_contra hout
      rw [hc.place_other hout] at hindex
      exact hout (hindex ▸ hpart)
    obtain ⟨p, hp, rfl, htarget, hwords, -⟩ := hc.assigned.berth hs hlive hin
    have hpos := hs.wordsAt_pos hlive
    rw [← htarget] at hindex ⊢
    -- the berth lies in the space of the region that its target lies in
    have hlt : p.space < (h.partFrom d).length := hc.assigned.space p hp
    have hj' : (h.partFrom d)[p.space]? = some (h.partFrom d)[p.space] :=
      List.getElem?_eq_getElem hlt
    have hcount : p.space < spaces.size := by rwa [hc.assigned.count]
    have hspace' : spaces[p.space]? = some spaces[p.space] := Array.getElem?_eq_getElem hcount
    obtain ⟨h1, h2⟩ := (hc.assigned.tiled _ _ _ hj' hspace').mem
      (List.mem_map_of_mem (f := Berth.run)
        (List.mem_filter.2 ⟨hp, beq_self_eq_true p.space⟩))
    have hsame := hc.indexOf_place (mem_zip_iff.2 ⟨_, hj', hspace'⟩) h1 (by omega)
    rw [hindex] at hsame
    have hspaceEq : p.space = j := by
      rw [← hsame] at hj'
      exact position_unique hc.part.ascending hj' hj
    exact List.mem_map_of_mem (List.mem_filter.2 ⟨hp, by simp [hspaceEq]⟩)
  · have hruns : (bs.filter fun p => p.space == j).map Berth.run
        = ((bs.filter fun p => p.space == j).map Berth.target).map
          fun x => (x, h'.wordsAt t x) := by
      rw [List.map_map]
      refine List.map_congr_left fun p hp => ?_
      obtain ⟨hp, -⟩ := List.mem_filter.1 hp
      obtain ⟨hlive, -, htarget⟩ := hplace p hp
      rw [Function.comp_apply, ← htarget, hc.wordsAt_place hlive, htarget,
        ← hc.assigned.size p hp]
      rfl
    rw [← hruns]
    exact htiled

end MarkCompact.SerialCycle.Completed
