/-
MarkCompact/Proofs/FreeRegions.lean

A collection does not lose free regions.

Planning frees the regions of dead humongous objects and takes none.  In the parallel style a
region of the part stays in use or is freed, and a humongous object leaves as many regions as it
takes, all of them free or left.  In the serial style free regions are filled as well, but every
region that is used at the end has a region of its own that was used before: that of the object
which opens it.

Main result: `Collector.collect_freeRegionCount`.
-/
import MarkCompact.Proofs.Collections
import MarkCompact.Proofs.SpaceUse
import Mathlib.Data.Finset.Card
import Mathlib.Data.Finset.Union

namespace MarkCompact

namespace Heap

/-! ### Counting -/

/-- The indices of the free regions. -/
def freeIndices (h : Heap) : Finset Nat :=
  (Finset.range h.regions.size).filter fun i => (h.region i).kind = .free

theorem mem_freeIndices {h : Heap} {i : Nat} :
    i ∈ h.freeIndices ↔ i < h.regions.size ∧ (h.region i).kind = .free := by
  simp [freeIndices]

theorem freeRegionCount_eq (h : Heap) : h.freeRegionCount = h.freeIndices.card := by
  unfold freeRegionCount freeIndices
  rw [h.toList_regions, List.countP_map, List.countP_eq_length_filter, Finset.card_def, Finset.filter_val,
    Finset.range_val, Multiset.range, Multiset.filter_coe, Multiset.coe_card]
  rfl

/-- More free regions are counted. -/
theorem freeRegionCount_le_of_subset {h h' : Heap} (hsub : h.freeIndices ⊆ h'.freeIndices) :
    h.freeRegionCount ≤ h'.freeRegionCount := by
  rw [freeRegionCount_eq, freeRegionCount_eq]
  exact Finset.card_le_card hsub

/-- If every region in use at the end has one of its own that was in use before, no free region
is lost. -/
theorem freeRegionCount_le_of_injOn {h h' : Heap} (hsize : h'.regions.size = h.regions.size)
    (f : Nat → Nat)
    (hmaps : ∀ i < h.regions.size, (h'.region i).kind ≠ .free →
      f i < h.regions.size ∧ (h.region (f i)).kind ≠ .free)
    (hinj : ∀ i < h.regions.size, ∀ j < h.regions.size, (h'.region i).kind ≠ .free →
      (h'.region j).kind ≠ .free → f i = f j → i = j) :
    h.freeRegionCount ≤ h'.freeRegionCount := by
  have hsplit : ∀ g : Heap, g.freeIndices.card
      + ((Finset.range g.regions.size).filter fun i => (g.region i).kind ≠ .free).card
        = g.regions.size := by
    intro g
    rw [freeIndices, Finset.card_filter_add_card_filter_not, Finset.card_range]
  have hused := Finset.card_le_card_of_injOn f
    (s := (Finset.range h'.regions.size).filter fun i => (h'.region i).kind ≠ .free)
    (t := (Finset.range h.regions.size).filter fun i => (h.region i).kind ≠ .free) ?_ ?_
  · have h1 := hsplit h
    have h2 := hsplit h'
    rw [freeRegionCount_eq, freeRegionCount_eq]
    omega
  · intro i hi
    rw [Finset.mem_coe, Finset.mem_filter, Finset.mem_range, hsize] at hi
    rw [Finset.mem_coe, Finset.mem_filter, Finset.mem_range]
    exact hmaps i hi.1 hi.2
  · intro i hi j hj heq
    rw [Finset.mem_coe, Finset.mem_filter, Finset.mem_range, hsize] at hi hj
    exact hinj i hi.1 j hj.1 hi.2 hj.2 heq

end Heap

/-- Planning takes no free region. -/
theorem Planned.freeRegionCount_le {h h' : Heap} {b : Bitmap} {p : Plan}
    (hp : Planned h b p h') : h.freeRegionCount ≤ h'.freeRegionCount := by
  refine Heap.freeRegionCount_le_of_subset fun i hi => ?_
  rw [Heap.mem_freeIndices] at hi ⊢
  obtain ⟨hin, hfree⟩ := hi
  rw [hp.kept i (Plan.not_deadRun_of_kind (.inr hfree)), hp.ground.size]
  exact ⟨hin, hfree⟩

/-! ### The parallel style -/

namespace HumongousMove

/-- The regions to which humongous objects come. -/
def taken (l : Layout) (vs : List HumongousMove) : Finset Nat :=
  (vs.flatMap fun v => List.range' v.target (v.regions l)).toFinset

/-- The regions that humongous objects leave. -/
def left (l : Layout) (vs : List HumongousMove) : Finset Nat :=
  (vs.flatMap fun v => List.range' v.source (v.regions l)).toFinset

variable {l : Layout} {vs : List HumongousMove} {i : Nat}

theorem mem_taken : i ∈ taken l vs ↔ ∃ v ∈ vs, v.Comes l i := by
  simp only [taken, List.mem_toFinset, List.mem_flatMap, List.mem_range'_1]
  rfl

theorem mem_left : i ∈ left l vs ↔ ∃ v ∈ vs, v.Leaves l i := by
  simp only [left, List.mem_toFinset, List.mem_flatMap, List.mem_range'_1]
  rfl

/-- As many regions are taken as are left. -/
theorem card_taken {h : Heap} {t : ClassTable} {live : Address → Prop} {vacant : Nat → Bool}
    (hr : h.Resettled t live vacant vs) : (taken h.layout vs).card = (left h.layout vs).card := by
  have hlength : ∀ first : HumongousMove → Nat,
      (vs.flatMap fun v => List.range' (first v) (v.regions h.layout)).length
        = (vs.map fun v => v.regions h.layout).sum := by
    intro first
    simp [List.length_flatMap]
  have htaken : (vs.flatMap fun v => List.range' v.target (v.regions h.layout)).Nodup := by
    refine List.nodup_flatMap.2 ⟨fun v _ => List.nodup_range', hr.targets.imp fun {v w} hvw => ?_⟩
    rw [Function.onFun, List.disjoint_left]
    intro i hv hw
    exact hvw i (List.mem_range'_1.1 hv) (List.mem_range'_1.1 hw)
  have hleft : (vs.flatMap fun v => List.range' v.source (v.regions h.layout)).Nodup := by
    refine List.nodup_flatMap.2 ⟨fun v _ => List.nodup_range', hr.sources.imp fun {v w} hvw => ?_⟩
    rw [Function.onFun, List.disjoint_left]
    intro i hv hw
    rw [List.mem_range'_1] at hv hw
    omega
  rw [taken, left, List.toFinset_card_of_nodup htaken, List.toFinset_card_of_nodup hleft,
    hlength, hlength]

end HumongousMove

/-- The parallel style loses no free region. -/
theorem Heap.Refilled.freeRegionCount_le {h h' : Heap} {t : ClassTable} {b : Bitmap}
    {live : Address → Prop} {part : List Nat} {tops : Nat → Address} {bs : List Berth}
    {vs : List HumongousMove} (hr : h.Refilled part tops vs h')
    (hh : h.Housed t b live part tops bs vs) : h.freeRegionCount ≤ h'.freeRegionCount := by
  let vacant := (Finset.range h.regions.size).filter fun i => h.isVacant part tops i = true
  let taken := HumongousMove.taken h.layout vs
  let left := HumongousMove.left h.layout vs
  have hfree : h.freeIndices ⊆ vacant := by
    intro i hi
    obtain ⟨hin, hkind⟩ := Heap.mem_freeIndices.1 hi
    rw [Finset.mem_filter, Finset.mem_range]
    exact ⟨hin, by simp [isVacant, Region.isFree, hkind]⟩
  have hinside : ∀ i ∈ left, i < h.regions.size := by
    intro i hi
    obtain ⟨v, hv, hvi⟩ := HumongousMove.mem_left.1 hi
    have hrehoused := hh.resettled.rehoused v hv
    have := hrehoused.source_le hh.surveyed.tabled.toGridded
    rw [hh.surveyed.tabled.count]
    unfold HumongousMove.Leaves at hvi
    omega
  -- what humongous objects take is vacant or left, and no vacant region is left
  have htaken : taken ⊆ vacant ∪ left := by
    intro i hi
    obtain ⟨v, hv, hvi⟩ := HumongousMove.mem_taken.1 hi
    have hin := (hr.region_taken hh hv hvi).1
    rw [Finset.mem_union, Finset.mem_filter, Finset.mem_range]
    rcases hh.resettled.vacant v hv i hvi with hvacant | ⟨w, hw, hwi, -⟩
    · exact .inl ⟨hin, hvacant⟩
    · exact .inr (HumongousMove.mem_left.2 ⟨w, hw, hwi⟩)
  have hdisjoint : Disjoint vacant left := by
    rw [Finset.disjoint_left]
    intro i hvacant hi
    obtain ⟨v, hv, hvi⟩ := HumongousMove.mem_left.1 hi
    have hnot := (hh.notVacant_of_inRun ((hh.resettled.rehoused v hv).inRun hvi)).2
    rw [(Finset.mem_filter.1 hvacant).2] at hnot
    cases hnot
  -- everything else of the two is free at the end
  have hafter : (vacant ∪ left) \ taken ⊆ h'.freeIndices := by
    intro i hi
    obtain ⟨hor, hnot⟩ := Finset.mem_sdiff.1 hi
    have hcomes : ∀ v ∈ vs, ¬ v.Comes h.layout i := fun v hv hvi =>
      hnot (HumongousMove.mem_taken.2 ⟨v, hv, hvi⟩)
    have hin : i < h.regions.size := by
      rcases Finset.mem_union.1 hor with hvacant | hleft
      · exact Finset.mem_range.1 (Finset.mem_filter.1 hvacant).1
      · exact hinside i hleft
    rw [Heap.mem_freeIndices, hr.size]
    refine ⟨hin, ?_⟩
    by_cases hleaves : ∃ v ∈ vs, v.Leaves h.layout i
    · obtain ⟨v, hv, hvi⟩ := hleaves
      rw [hr.region_left hh hv hvi hcomes]
    · rcases Finset.mem_union.1 hor with hvacant | hleft
      · have hpassed := hr.region_passed hin hcomes fun v hv hvi => hleaves ⟨v, hv, hvi⟩
        have hvacant := (Finset.mem_filter.1 hvacant).2
        unfold isVacant at hvacant
        rw [Bool.or_eq_true, Bool.and_eq_true, List.contains_iff_mem, beq_iff_eq] at hvacant
        unfold settledRegion at hpassed
        rw [hpassed]
        rcases hvacant with hkind | ⟨hmem, htop⟩
        · have hkind' : (h.region i).kind = .free := by simpa [Region.isFree] using hkind
          have hout : i ∉ part := fun hmem => by
            rw [hh.regular i hmem] at hkind'
            cases hkind'
          rw [if_neg hout]
          exact hkind'
        · rw [if_pos hmem, if_pos htop]
          rfl
      · exact absurd (HumongousMove.mem_left.1 hleft) hleaves
  rw [freeRegionCount_eq, freeRegionCount_eq]
  calc h.freeIndices.card ≤ vacant.card := Finset.card_le_card hfree
    _ = (vacant ∪ left).card - taken.card := by
        rw [Finset.card_union_of_disjoint hdisjoint]
        have : taken.card = left.card := HumongousMove.card_taken hh.resettled
        omega
    _ = ((vacant ∪ left) \ taken).card := (Finset.card_sdiff_of_subset htaken).symm
    _ ≤ h'.freeIndices.card := Finset.card_le_card hafter

/-! ### The serial style -/

/-- The serial style loses no free region. -/
theorem SerialCycle.Completed.freeRegionCount_le {h h₂ g h' : Heap} {t : ClassTable} {b : Bitmap}
    {live : Address → Prop} {d : Nat} {table : BlockOffsets} {spaces : Array Space}
    {bs : List Berth} {release : Bool} (hc : Completed h t b live d table spaces bs release h₂ g h') :
    h.freeRegionCount ≤ h'.freeRegionCount := by
  have hs := hc.surveyed
  have hpart := hc.part
  -- a region of the part that is used at the end is opened by an object
  have hopened : ∀ i ∈ h.partFrom d, (h'.region i).kind ≠ .free →
      ∃ (j : Nat) (s : Space), ∃ p ∈ bs, (h.partFrom d)[j]? = some i ∧ spaces[j]? = some s ∧
        s.top ≠ s.bottom ∧ p.space = j ∧ p.target = h.layout.bottom i := by
    intro i hi hused
    obtain ⟨s, hmem⟩ := hc.exists_space hi
    obtain ⟨j, hj, hspace⟩ := mem_zip_iff.1 hmem
    have hne : s.top ≠ s.bottom := by
      intro heq
      have hempty := (hc.extent hmem).2.2.2.2 (heq.trans (hc.assigned.extent j i s hj hspace).1)
      rw [hc.region_part hmem, filledRegion, if_pos hempty] at hused
      exact hused rfl
    obtain ⟨p, hp, hpj, hfirst⟩ := hc.assigned.exists_first hj hspace hne
    exact ⟨j, s, p, hp, hj, hspace, hne, hpj, hfirst⟩
  have : Nonempty Space := ⟨⟨0, 0, 0⟩⟩
  have : Nonempty Berth := ⟨⟨0, 0, 0, 0⟩⟩
  choose! num space opener hopener using hopened
  refine Heap.freeRegionCount_le_of_injOn (by rw [hc.retopped.size])
    (fun i => if i ∈ h.partFrom d then h.layout.indexOf (opener i).object else i) ?_ ?_
  · intro i hi hused
    split
    · rename_i hin
      obtain ⟨hp, -⟩ := hopener i hin hused
      obtain ⟨hlive, -⟩ := (hc.assigned.seen _).1 (List.mem_map_of_mem hp)
      obtain ⟨hlt, hbottom, htop⟩ := hs.region hlive
      refine ⟨hlt, fun hfree => ?_⟩
      rw [hs.tabled.free _ hlt hfree] at htop
      omega
    · rename_i hout
      rw [hc.region_other hout] at hused
      exact ⟨hi, hused⟩
  · intro i hi j hj husedi husedj heq
    by_cases hini : i ∈ h.partFrom d <;> by_cases hinj : j ∈ h.partFrom d
    · rw [if_pos hini, if_pos hinj] at heq
      obtain ⟨hp, hpj, hps, hpu, hpn, hpf⟩ := hopener i hini husedi
      obtain ⟨hq, hqj, hqs, hqu, hqn, hqf⟩ := hopener j hinj husedj
      rcases Nat.lt_trichotomy (num i) (num j) with hlt | hsame | hlt
      · have := hc.assigned.indexOf_first_lt hs hpart hlt hpj hqj hqs hqu hp hq hpn hqn hpf
        omega
      · rw [hsame, hqj] at hpj
        exact (Option.some.inj hpj).symm
      · have := hc.assigned.indexOf_first_lt hs hpart hlt hqj hpj hps hpu hq hp hqn hpn hqf
        omega
    · rw [if_pos hini, if_neg hinj] at heq
      obtain ⟨hp, -⟩ := hopener i hini husedi
      exact absurd (heq ▸ ((hc.assigned.seen _).1 (List.mem_map_of_mem hp)).2) hinj
    · rw [if_neg hini, if_pos hinj] at heq
      obtain ⟨hq, -⟩ := hopener j hinj husedj
      exact absurd (heq ▸ ((hc.assigned.seen _).1 (List.mem_map_of_mem hq)).2) hini
    · rwa [if_neg hini, if_neg hinj] at heq

/-! ### Any collection -/

namespace Collector

/-- After a collection there are at least as many free regions as before. -/
theorem collect_freeRegionCount {c : Collector} (times : Durations) {h : Heap} {t : ClassTable}
    {roots : Roots} (hw : WellFormed h t roots) (hc : c.Prepared h) :
    ∃ r, (c.collect times h t roots).outcome = .ok r ∧
      h.freeRegionCount ≤ r.heap.freeRegionCount := by
  cases hstyle : c.config.style with
  | parallel =>
    obtain ⟨r, b, p, h₁, o, n, tops, bs, s₂, h₂, g, hrun, -, -, -, hplanned, -, -, -, -, -, -,
      hcompleted⟩ := collect_parallel_completed times hw hc hstyle
    exact ⟨r, hrun, hplanned.freeRegionCount_le.trans
      (hcompleted.finished.refilled.freeRegionCount_le hcompleted.housed)⟩
  | serial =>
    obtain ⟨r, b, bs, table, spaces, h₂, g, hrun, -, -, -, -, -, -, -, -, hplanned, hcompleted⟩ :=
      collect_completed times hw hc.toSuits hstyle
    exact ⟨r, hrun, hplanned.freeRegionCount_le.trans hcompleted.freeRegionCount_le⟩

/-- A heap of four regions with one object, collected in the serial style. -/
theorem collect_freeRegionCount_serial : ∃ (h : Heap) (t : ClassTable) (a : Address)
    (c : Collector), WellFormed h t #[a] ∧ c.Prepared h ∧ c.config.style = .serial ∧
      ∃ r, (c.collect ⟨fun _ => 0, 0⟩ h t #[a]).outcome = .ok r ∧
        h.freeRegionCount ≤ r.heap.freeRegionCount := by
  let config : Config := { style := .serial, regionShift := 4, numRegions := 4, blockShift := 2 }
  have hv : config.Valid := by decide
  have hb : config.Backed 0x10000 := by decide
  obtain ⟨h, t, a, c, hw, -, -, hconfig, -, hc⟩ := exists_collector hv hb (by decide)
  exact ⟨h, t, a, c, hw, hc, by rw [hconfig], collect_freeRegionCount ⟨fun _ => 0, 0⟩ hw hc⟩

end Collector

end MarkCompact
