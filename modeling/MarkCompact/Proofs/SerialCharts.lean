/-
MarkCompact/Proofs/SerialCharts.lean

What a serial collection makes of a chart.

The regions of the dense prefix keep their objects, the dead ones among them.  Every region
after it that holds objects at the end is filled from its bottom without a gap, and only live
objects lie in it.

Main result: `SerialCycle.Completed.charted`.
-/
import MarkCompact.Proofs.CollectedCharts
import MarkCompact.Proofs.Places
import MarkCompact.Proofs.SerialRelocation

namespace MarkCompact

variable {h h₂ g h' : Heap} {t : ClassTable} {b : Bitmap} {live tile : Address → Prop} {d : Nat}
  {table : BlockOffsets} {spaces : Array Space} {bs : List Berth} {release : Bool}

/-- Dead objects of regular regions that do not take part remain. -/
def Heap.RemainsBefore (h : Heap) (live tile : Address → Prop) (d : Nat) (a : Address) : Prop :=
  tile a ∧ ¬ live a ∧ h.layout.indexOf a ∉ h.partFrom d ∧
    (h.region (h.layout.indexOf a)).kind = .regular

namespace SerialCycle.Completed

variable (hc : Completed h t b live d table spaces bs release h₂ g h') (hchart : h.Charted t live tile)
include hc

/-! ### What is left alone -/

theorem part_inside : ∀ i ∈ h.partFrom d, i < h.layout.numRegions := fun i hi => by
  rw [← hc.surveyed.tabled.count]
  exact hc.part.inside i hi

/-- An object of the part lies in a region of the part afterwards. -/
theorem within_place {a : Address} (ha : live a) (hin : h.layout.indexOf a ∈ h.partFrom d) :
    ∃ i ∈ h.partFrom d, h.layout.Within i 1 (Berth.placeOf bs a) (h.wordsAt t a) := by
  obtain ⟨i, s, hmem, hi, h1, h2⟩ := hc.place_part ha hin
  have htop := (hc.extent hmem).2.1
  rw [Layout.regionStop_eq_bottom_succ] at htop
  exact ⟨i, hi, h1, h2.trans htop⟩

include hchart

/-- A dead object that remains lies below the top of its region. -/
theorem within_remains {a : Address} (ha : h.RemainsBefore live tile d a) :
    h.layout.indexOf a < h.regions.size ∧
      h.layout.Within (h.layout.indexOf a) 1 a (h.wordsAt t a) ∧
      a.toNat + 8 * h.wordsAt t a ≤ (h.region (h.layout.indexOf a)).top.toNat := by
  have ht := hc.surveyed.tabled
  obtain ⟨htile, -, -, hk⟩ := ha
  obtain ⟨hin, hi, -, -⟩ := hchart.region ht htile
  have hi' : h.layout.indexOf a < h.layout.numRegions := by rwa [← ht.count]
  obtain ⟨h1, h2⟩ := ht.layout.bottom_indexOf hin
  rw [← ht.layout.toNat_regionStop hi'] at h2
  have hle : a.toNat + 8 * h.wordsAt t a ≤ (h.region (h.layout.indexOf a)).top.toNat := by
    rcases hchart.cases ht htile hi h1 h2 with ⟨-, hle⟩ | ⟨-, words, -, hrun⟩
    · exact hle
    · rw [hrun.start] at hk
      cases hk
  have hstop := (ht.top _ hi).2.1
  rw [ht.stop _ hi, Layout.regionStop_eq_bottom_succ] at hstop
  exact ⟨hi, ⟨h1, hle.trans hstop⟩, hle⟩

/-- No live object comes to where a dead one remains. -/
theorem apart_remains {a c : Address} (ha : live a) (hremains : h.RemainsBefore live tile d c) :
    (Berth.placeOf bs a).Apart (h.wordsAt t a) c (h.wordsAt t c) := by
  have ht := hc.surveyed.tabled
  obtain ⟨hi, hwithin, -⟩ := hc.within_remains hchart hremains
  rw [ht.count] at hi
  by_cases hin : h.layout.indexOf a ∈ h.partFrom d
  · obtain ⟨j, hj, hplace⟩ := hc.within_place ha hin
    refine hplace.apart ht.layout hwithin (hc.part_inside j hj) hi Nat.one_pos Nat.one_pos
      fun k h1 h2 h3 h4 => hremains.2.2.1 ?_
    rwa [show h.layout.indexOf c = j by omega]
  · have hne : a.toNat ≠ c.toNat := fun hsame =>
      hremains.2.1 (UInt64.toNat_inj.1 hsame ▸ ha)
    have htile := (hchart.found a ha).1
    rw [hc.place_other hin]
    rcases Nat.lt_or_gt_of_ne hne with hlt | hlt
    · exact .inl (hchart.apart a c htile hremains.1 hlt)
    · exact .inr (hchart.apart c a hremains.1 htile hlt)

/-- The words of a dead object that remains are found unchanged. -/
theorem load_remains {a : Address} (ha : h.RemainsBefore live tile d a) {k : Nat}
    (hk : k < h.wordsAt t a) : h'.memory.load (a.nth k) = h.memory.load (a.nth k) := by
  have hs := hc.surveyed
  have ht := hs.tabled
  obtain ⟨hi, hwithin, -⟩ := hc.within_remains hchart ha
  rw [ht.count] at hi
  have hbounds := hchart.bounds ht ha.1
  have hlast := h.layout.stop.toNat_lt
  have hat : (a.nth k).toNat = a.toNat + 8 * k := Address.toNat_nth (by omega)
  have hword : h.layout.Within (h.layout.indexOf a) 1 (a.nth k) 1 := by
    have h1 := hwithin.bottom
    have h2 := hwithin.stop
    exact ⟨by omega, by omega⟩
  rw [hc.load_kept fun j s hmem _ => ?freed, hc.moved.memory.elsewhere _ ?moves,
    hc.adjusted.load, if_neg ?fields]
  case freed =>
    have hj := (List.of_mem_zip hmem).1
    have hregion : h.layout.Within j 1 (h.layout.bottom j) 0 :=
      ⟨le_refl _, (ht.layout.bottom_mono (by omega) (hc.part_inside j hj))⟩
    by_contra hboth
    have hindex := ht.layout.indexOf_eq (a := a.nth k) (hc.part_inside j hj) (by omega) (by
      rw [← ht.layout.toNat_regionStop (hc.part_inside j hj)]
      omega)
    rw [hword.indexOf ht.layout hi Nat.one_pos] at hindex
    exact ha.2.2.1 (hindex ▸ hj)
  case moves =>
    intro r hr
    obtain ⟨e, he, rfl⟩ := List.mem_map.1 hr
    obtain ⟨i, hi, he⟩ := List.mem_flatMap.1 he
    have hlive := ((hs.mem_liveIn (hc.part.inside i hi) e).1 he).1
    have := hc.apart_remains hchart hlive ha
    unfold Address.Apart at this
    dsimp only
    omega
  case fields =>
    intro hmem
    obtain ⟨e, he, hx⟩ := List.mem_flatMap.1 hmem
    have hlive := (hs.mem_liveList e).1 he
    obtain ⟨j, -, hj, heq⟩ := hs.mem_fieldsAt hlive hx
    have hfits := hs.fits hlive
    have heat : (e.nth j).toNat = e.toNat + 8 * j := Address.toNat_nth (by omega)
    rw [← heq, hat] at heat
    exact ha.2.1 (hchart.eq_of_covers (a := a.nth k) ha.1 (hchart.found e hlive).1 (by omega)
      (by omega) (by omega) (by omega) ▸ hlive)

/-- Live objects are where they have been moved to, and some dead ones remain. -/
theorem redrawn : h.Redrawn h' t live tile (Berth.placeOf bs) (h.RemainsBefore live tile d) := by
  have hs := hc.surveyed
  refine ⟨?_, fun a ha => hc.aligned_place ha, ?_, ?_, fun a ha => ha.1, ?_, ?_,
    fun a ha k hk => hc.load_remains hchart ha hk⟩
  · intro a ha
    obtain ⟨c, words, ho⟩ := hs.populated.object a ha
    have hobject := hc.objectAt ha ho
    exact ⟨words, hobject.size, hs.words_pos ho, hobject.place⟩
  · intro a c ha hl hne
    rw [hc.wordsAt_place ha, hc.wordsAt_place hl]
    exact hc.apart ha hl hne
  · intro a ha hstays
    have hwords := hc.wordsAt_place ha
    rwa [hstays] at hwords
  · intro a words ha hsize
    obtain ⟨hi, hwithin, htop⟩ := hc.within_remains hchart ha
    rw [Heap.wordsAt_of_size hsize] at htop
    refine .inl ⟨_, by rwa [hc.retopped.size], ?_, ?_, ?_⟩
    · rw [hc.region_other ha.2.2.1]
      exact ha.2.2.2
    · rw [hc.retopped.layout]
      exact hwithin.bottom
    · rwa [hc.region_other ha.2.2.1]
  · intro a c ha hremains
    rw [hc.wordsAt_place ha]
    exact hc.apart_remains hchart ha hremains

/-! ### Which objects follow one another -/

/-- In a regular region objects follow one another. -/
theorem next {i : Nat} (hclasses : t.Sound) (hi : i < h'.regions.size)
    (hk : (h'.region i).kind = .regular) {a : Address}
    (ha : (∃ c, live c ∧ Berth.placeOf bs c = a) ∨ h.RemainsBefore live tile d a)
    (h1 : (h'.layout.bottom i).toNat ≤ a.toNat)
    (h2 : a.toNat + 8 * h'.wordsAt t a < (h'.region i).top.toNat) :
    (∃ c, live c ∧ Berth.placeOf bs c = a.nth (h'.wordsAt t a)) ∨
      h.RemainsBefore live tile d (a.nth (h'.wordsAt t a)) := by
  have ht := hc.surveyed.tabled
  have hl := ht.layout
  have htop := (hc.settled.top i hi).2.1
  rw [hc.settled.stop i hi, hc.retopped.layout] at htop
  rw [hc.retopped.size] at hi
  rw [hc.retopped.layout] at h1
  have hi' : i < h.layout.numRegions := by rwa [← ht.count]
  have hstop := hl.toNat_regionStop hi'
  by_cases hin : i ∈ h.partFrom d
  · -- a region of the part: the runs fill it
    obtain ⟨l, hmem, htiles⟩ := hc.tiles ((Heap.mem_partFrom hc.dense i).1 hin).1 hi hk
    have hindex : h.layout.indexOf a = i := hl.indexOf_eq hi' h1 (by omega)
    have hlive : ∃ c, live c ∧ Berth.placeOf bs c = a := by
      rcases ha with hlive | hremains
      · exact hlive
      · exact absurd (hindex ▸ hin) hremains.2.2.1
    obtain ⟨r, hr, hat⟩ := htiles.exists_next
      (List.mem_map_of_mem (f := fun x => (x, h'.wordsAt t x)) ((hmem a).2 ⟨hlive, hindex⟩)) h2
    obtain ⟨x, hx, rfl⟩ := List.mem_map.1 hr
    have hfits := (h'.region i).top.toNat_lt
    rw [← Address.toNat_nth (by omega)] at hat
    exact .inl (UInt64.toNat_inj.1 hat ▸ ((hmem x).1 hx).1)
  · -- any other region has been left alone
    rw [hc.region_other hin] at hk h2
    refine (hc.redrawn hchart).next_kept hchart hclasses ht hi hk (fun c hlive h3 h4 => ?_)
      (fun c htile h3 h4 => ?_) ha h1 h2
    · rw [hstop] at h4
      by_cases hpart : h.layout.indexOf c ∈ h.partFrom d
      · obtain ⟨j, hj, hwithin⟩ := hc.within_place hlive hpart
        have hpos := hc.surveyed.wordsAt_pos hlive
        have hsame := hwithin.indexOf hl (hc.part_inside j hj) hpos
        rw [hl.indexOf_eq hi' h3 h4] at hsame
        exact absurd (hsame ▸ hj) hin
      · exact hc.place_other hpart
    · rw [hstop] at h4
      have hindex := hl.indexOf_eq hi' h3 h4
      by_cases hlive : live c
      · exact .inl ⟨hlive, hc.place_other (by rwa [hindex])⟩
      · exact .inr ⟨htile, hlive, by rwa [hindex], by rwa [hindex]⟩

/-! ### Starts -/

omit hchart in
/-- The table of starts at the end. -/
theorem starts_eq : h'.starts = ((((h.partFrom d).flatMap (h.liveIn b)).map
    (Berth.placeOf bs)).foldl StartTable.record (h.starts.forget h.layout (h.partFrom d))).forget
      h.layout ((((h.partFrom d).zip spaces.toList).filter fun r => r.2.usedWords = 0).map
        Prod.fst) := by
  rw [hc.finish.starts, hc.moved.starts, hc.moved.layout]

omit hchart in
theorem mem_moved {a : Address} : a ∈ (h.partFrom d).flatMap (h.liveIn b) ↔
    live a ∧ h.layout.indexOf a ∈ h.partFrom d := by
  constructor
  · intro hmem
    obtain ⟨i, hi, hmem⟩ := List.mem_flatMap.1 hmem
    obtain ⟨hlive, rfl⟩ := (hc.surveyed.mem_liveIn (hc.part.inside i hi) a).1 hmem
    exact ⟨hlive, hi⟩
  · rintro ⟨hlive, hin⟩
    exact List.mem_flatMap.2 ⟨_, hin, (hc.surveyed.mem_liveIn (hc.part.inside _ hin) a).2
      ⟨hlive, rfl⟩⟩

omit hc hchart in
theorem freed_inside : ∀ i ∈ (((h.partFrom d).zip spaces.toList).filter
    fun r => r.2.usedWords = 0).map Prod.fst, i ∈ h.partFrom d := by
  intro i hi
  obtain ⟨⟨j, s⟩, hr, rfl⟩ := List.mem_map.1 hi
  exact (List.of_mem_zip (List.mem_filter.1 hr).1).1

omit hchart in
theorem contains_place {a : Address} (ha : live a) :
    h.layout.contains (Berth.placeOf bs a) = true := by
  obtain ⟨c, words, ho⟩ := hc.surveyed.populated.object a ha
  rw [← hc.retopped.layout]
  exact ((hc.objectAt ha ho).place.region hc.settled.toTabled (hc.surveyed.words_pos ho)).1

omit hchart in
/-- The region of a live object is not freed. -/
theorem not_freed {a : Address} (ha : live a) : h.layout.indexOf (Berth.placeOf bs a) ∉
    (((h.partFrom d).zip spaces.toList).filter fun r => r.2.usedWords = 0).map Prod.fst := by
  intro hmem
  have hl := hc.surveyed.tabled.layout
  have hin := hc.contains_place ha
  obtain ⟨⟨i, s⟩, hr, hi⟩ := List.mem_map.1 hmem
  dsimp only at hi
  obtain ⟨hzip, hempty⟩ := List.mem_filter.1 hr
  obtain ⟨h1, h2⟩ := hl.bottom_indexOf hin
  rw [← hl.toNat_regionStop (hl.indexOf_lt hin), ← hi] at h2
  rw [← hi] at h1
  have hpos := hc.surveyed.wordsAt_pos ha
  have := hc.apart_freed ha hzip (of_decide_eq_true hempty)
  omega

theorem serves : h'.starts.Serves h'.layout := by
  rw [hc.starts_eq, hc.retopped.layout]
  exact ((hchart.serves.forget _).foldl_record _).forget _

/-- What is recorded is a live object at its new place, or one that has been left alone. -/
theorem holds (hstart : ∀ i < h.regions.size, (h.region i).kind = .humongousStart →
      live (h.layout.bottom i)) :
    h'.starts.Holds fun a => (∃ c, live c ∧ Berth.placeOf bs c = a) ∨
      h.RemainsBefore live tile d a := by
  have ht := hc.surveyed.tabled
  have hl := ht.layout
  have hforgot := hchart.holds.forget hchart.serves hl hc.part_inside fun a ha =>
    (hchart.region ht ha).1
  -- what has not been forgotten lies outside the part and stays there
  have hkept : ∀ a, tile a ∧ h.layout.indexOf a ∉ h.partFrom d →
      (∃ c, live c ∧ Berth.placeOf bs c = a) ∨ h.RemainsBefore live tile d a := by
    rintro a ⟨htile, hout⟩
    by_cases hlive : live a
    · exact .inl ⟨a, hlive, hc.place_other hout⟩
    · obtain ⟨hin, hi, -, -⟩ := hchart.region ht htile
      have hi' : h.layout.indexOf a < h.layout.numRegions := by rwa [← ht.count]
      obtain ⟨h1, h2⟩ := hl.bottom_indexOf hin
      rw [← hl.toNat_regionStop hi'] at h2
      rcases hchart.cases ht htile hi h1 h2 with ⟨hk, -⟩ | ⟨hbottom, words, -, hrun⟩
      · exact .inr ⟨htile, hlive, hout, hk⟩
      · exact absurd (hbottom ▸ hstart _ hi hrun.start) hlive
  have hmoved : ∀ a ∈ ((h.partFrom d).flatMap (h.liveIn b)).map (Berth.placeOf bs),
      (∃ c, live c ∧ Berth.placeOf bs c = a) ∨ h.RemainsBefore live tile d a := by
    intro a ha
    obtain ⟨c, hmem, rfl⟩ := List.mem_map.1 ha
    exact .inl ⟨c, (hc.mem_moved.1 hmem).1, rfl⟩
  have hrecorded := (hforgot.mono hkept).foldl_record hmoved
  rw [hc.starts_eq]
  refine (hrecorded.forget ((hchart.serves.forget _).foldl_record _) hl
    (fun i hi => hc.part_inside i (freed_inside i hi)) ?_).mono fun a ha => ha.1
  rintro a (⟨c, hlive, rfl⟩ | hremains)
  · exact hc.contains_place hlive
  · exact (hchart.region ht hremains.1).1

/-- Live objects are found at their new places. -/
theorem finds {a : Address} (ha : live a) : h'.starts.Finds (Berth.placeOf bs a) := by
  have ht := hc.surveyed.tabled
  have hl := ht.layout
  have hin := hc.contains_place ha
  obtain ⟨h1, h2⟩ := (hl.contains_iff _).1 hin
  have hgreatest := StartTable.ne_greatest_of_aligned (hc.aligned_place ha)
  have hserves := hchart.serves.forget (h.partFrom d)
  rw [hc.starts_eq]
  refine StartTable.Finds.forget ?_ (hserves.foldl_record _) hl
    (fun i hi => hc.part_inside i (freed_inside i hi)) hin (hc.not_freed ha)
  by_cases hpart : h.layout.indexOf a ∈ h.partFrom d
  · exact StartTable.finds_foldl_record hserves hl
      (List.mem_map_of_mem (hc.mem_moved.2 ⟨ha, hpart⟩)) h1 h2 hgreatest
  · rw [hc.place_other hpart] at hin hgreatest ⊢
    exact ((hchart.found a ha).2.forget hchart.serves hl hc.part_inside hin hpart).foldl_record
      hgreatest _

/-- A serial collection makes a chart of a chart. -/
theorem charted (hstart : ∀ i < h.regions.size, (h.region i).kind = .humongousStart →
      live (h.layout.bottom i)) (known : Address → Prop)
    (hknown : ∀ a, known a → ∃ c, live c ∧ Berth.placeOf bs c = a) :
    ∃ tile', h'.Charted t known tile' := by
  have ht := hc.surveyed.tabled
  refine ⟨_, (hc.redrawn hchart).charted hchart hc.surveyed.classes known hknown
    (fun _ hi hk _ ha h1 h2 => hc.next hchart hc.surveyed.classes hi hk ha h1 h2)
    (fun i hi hk => ?_) (hc.serves hchart) (hc.holds hchart hstart) fun _ ha => hc.finds hchart ha⟩
  -- humongous objects do not take part
  rw [hc.retopped.size] at hi
  rw [hc.retopped.layout]
  have hi' : i < h.layout.numRegions := by rwa [← ht.count]
  have hout : i ∉ h.partFrom d := by
    intro hin
    obtain ⟨s, hmem⟩ := hc.exists_space hin
    rw [hc.region_part hmem, filledRegion] at hk
    split at hk <;> cases hk
  rw [hc.region_other hout] at hk
  exact ⟨_, hstart i hi hk, hc.place_other (by rwa [ht.layout.indexOf_bottom hi'])⟩

end SerialCycle.Completed

end MarkCompact
