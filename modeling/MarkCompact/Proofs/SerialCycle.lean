/-
MarkCompact/Proofs/SerialCycle.lean

What a serial collection decides before it writes a word.

The regions that take part are the ones after the dense prefix that hold no
humongous object.  `Assigned` says what the forward phase leaves: every live object
of these regions has a berth, and the table gives its target.  From there on the
berths decide: references follow them, objects are copied to them in ascending
order, and the regions are filled with them without gaps.

Main results: `plan_spec`, `forward_spec`, and what berths give every live object
(`Assigned.placeOf_le`, `Assigned.placeOf_lt` and `Assigned.region`).
-/
import MarkCompact.Proofs.Filling
import MarkCompact.Collection.Serial

namespace MarkCompact

namespace Heap

/-- The regions from `d` on that hold no humongous object. -/
def partFrom (h : Heap) (d : Nat) : List Nat :=
  (List.range' d (h.regions.size - d)).filter fun i => !(h.region i).isHumongous

theorem mem_partFrom {h : Heap} {d : Nat} (hd : d ≤ h.regions.size) (i : Nat) :
    i ∈ h.partFrom d ↔ d ≤ i ∧ i < h.regions.size ∧ (h.region i).kind.isHumongous = false := by
  unfold partFrom Region.isHumongous
  rw [List.mem_filter, List.mem_range'_1, Bool.not_eq_true']
  constructor
  · rintro ⟨h1, h2⟩
    exact ⟨h1.1, by omega, h2⟩
  · rintro ⟨h1, h2, h3⟩
    exact ⟨⟨h1, by omega⟩, h3⟩

theorem part_partFrom {h : Heap} {d : Nat} (hd : d ≤ h.regions.size) : h.Part (h.partFrom d) :=
  ⟨List.Pairwise.filter _ List.pairwise_lt_range', fun i hi => ((mem_partFrom hd i).1 hi).2.1,
    fun i hi => ((mem_partFrom hd i).1 hi).2.2⟩

theorem drop_regions (h : Heap) (d : Nat) :
    h.regions.toList.drop d = (List.range' d (h.regions.size - d)).map h.region := by
  rw [toList_regions, ← List.map_drop, List.range_eq_range', List.drop_range']
  simp

end Heap

namespace SerialCycle

variable {h : Heap} {t : ClassTable} {b : Bitmap} {live : Address → Prop} {part : List Nat}

/-! ### Plan -/

/-- A cycle that works on the regions of the part, each of them a space of its own. -/
structure Partial (c : SerialCycle) (h : Heap) (t : ClassTable) (b : Bitmap) (part : List Nat) :
    Prop where
  classes : c.classes = t
  bitmap : c.bitmap = b
  heap : c.heap = h
  regions : c.regions = part
  spaces : c.spaces
    = (part.map fun i => Space.new (h.region i).bottom (h.region i).stop).toArray
  serves : c.table.Serves h.layout

theorem plan_spec {c : SerialCycle} (hheap : c.heap.Tabled) (hserves : c.table.Serves c.heap.layout) :
    Planned c.heap c.bitmap (Plan.build c.heap c.bitmap).1 (Plan.build c.heap c.bitmap).2 ∧
      ∃ c', c.plan = ((Plan.build c.heap c.bitmap).1, c') ∧
        c'.Partial (Plan.build c.heap c.bitmap).2 c.classes c.bitmap
          ((Plan.build c.heap c.bitmap).2.partFrom
            (Plan.build c.heap c.bitmap).1.densePrefix) := by
  have hp := Plan.planned_build hheap c.bitmap
  have hg := hp.gridded hheap.toGridded
  have hle : (Plan.build c.heap c.bitmap).1.densePrefix
      ≤ (Plan.build c.heap c.bitmap).2.regions.size := by
    rw [hp.ground.size]
    exact hp.dense_le
  unfold plan
  generalize Plan.build c.heap c.bitmap = built at hp hg hle
  obtain ⟨p, h'⟩ := built
  dsimp only at hp hg hle ⊢
  refine ⟨hp, _, rfl, rfl, rfl, rfl, ?_, ?_, ?_⟩
  · show ((h'.regions.toList.drop p.densePrefix).filter _).map Region.index = _
    rw [Heap.drop_regions, List.filter_map, List.map_map]
    unfold Heap.partFrom
    refine (List.map_congr_left fun i hi => ?_).trans (List.map_id _)
    have hlt := (List.mem_range'_1.1 (List.mem_filter.1 hi).1).2
    exact hg.index i (by omega)
  · show (((h'.regions.toList.drop p.densePrefix).filter _).map _).toArray = _
    rw [Heap.drop_regions, List.filter_map, List.map_map]
    rfl
  · show c.table.Serves h'.layout
    rw [hp.ground.layout]
    exact hserves

/-! ### Forward -/

/-- Every live object of the part has a berth in the spaces, and the table says where. -/
structure Assigned (h : Heap) (t : ClassTable) (b : Bitmap) (live : Address → Prop)
    (part : List Nat) (table : BlockOffsets) (spaces : Array Space) (bs : List Berth) : Prop where
  count : spaces.size = part.length
  seen : ∀ a, a ∈ bs.map Berth.object ↔ live a ∧ h.layout.indexOf a ∈ part
  places : ∀ p ∈ bs, table.forwardee b p.object = p.target
  size : ∀ p ∈ bs, p.words = h.wordsAt t p.object
  left : ∀ p ∈ bs, p.target.toNat ≤ p.object.toNat
  space : ∀ p ∈ bs, p.space < part.length
  ascending : ∃ cursor, Berth.Ascending (h.wordsAt t) bs cursor
  extent : ∀ (j i : Nat) (s : Space), part[j]? = some i → spaces[j]? = some s → s.bottom = h.layout.bottom i ∧
    (h.layout.bottom i).toNat ≤ s.top.toNat ∧ s.top.toNat ≤ (h.layout.regionStop i).toNat ∧
    s.top.toNat % 8 = 0
  stop : ∀ (j i : Nat) (s : Space), part[j]? = some i → spaces[j]? = some s →
    s.stop = h.layout.regionStop i
  tiled : ∀ (j i : Nat) (s : Space), part[j]? = some i → spaces[j]? = some s →
    Tiles (h.layout.bottom i).toNat s.top.toNat ((bs.filter fun p => p.space == j).map Berth.run)
  together : ∀ p ∈ bs, ∀ q ∈ bs, table.blockOf p.object = table.blockOf q.object →
    p.space = q.space
  /-- A space is used only if a block does not fit in the one before. -/
  tight : ∀ (j : Nat) (s s' : Space), spaces[j]? = some s → spaces[j + 1]? = some s' →
    s'.top ≠ s'.bottom → ∃ p, table.Opens bs s s' (j + 1) p
  serves : table.Serves h.layout

theorem assigned_of_filled {table : BlockOffsets} {f : BlockOffsets.Filling} {bs : List Berth}
    (hf : BlockOffsets.Filled h t b live part table (fun _ => True) f bs)
    (hv : table.Serves h.layout) :
    Assigned h t b live part f.table f.spaces bs := by
  have hspace : ∀ j s, f.spaces[j]? = some s → f.spaceAt j = s := by
    intro j s hs
    unfold BlockOffsets.Filling.spaceAt
    rw [hs]
    rfl
  have hblocks : f.table.blockOf = table.blockOf := funext hf.blockOf_eq
  refine ⟨hf.count, ?_, hf.places, hf.size, hf.left, hf.space, ⟨_, hf.ascending⟩, ?_, ?_, ?_,
    ?_, ?_, ?_⟩
  · intro a
    rw [hf.seen a, and_true]
  · intro j i s hj hs
    rw [← hspace j s hs]
    exact ⟨(hf.extent j i hj).1, hf.top j i hj⟩
  · intro j i s hj hs
    rw [← hspace j s hs]
    exact (hf.extent j i hj).2
  · intro j i s hj hs
    rw [← hspace j s hs]
    exact hf.tiled j i hj
  · rw [hblocks]
    exact hf.together
  · intro j s s' hs hs' hused
    obtain ⟨hlt, -⟩ := Array.getElem?_eq_some_iff.1 hs'
    rw [hf.count] at hlt
    -- nothing has been placed behind the space that is being filled
    have hle : j < f.space := by
      by_contra hge
      rw [← hspace _ s' hs'] at hused
      exact hused (hf.later _ (by omega) hlt)
    obtain ⟨p, hin, hnum, htarget, hfull⟩ := hf.tight j hle
    rw [hspace j s hs, hspace _ s' hs'] at *
    unfold BlockOffsets.groupWords at hfull
    rw [← hblocks] at hfull
    exact ⟨p, hin, hnum, htarget, hfull⟩
  · obtain ⟨hg, hsize⟩ := hf.grounded hv
    exact ⟨hg, by rw [hsize]; exact hv.divides, by rw [hsize, hf.entries]; exact hv.covers⟩

/-- The forward phase finds a place for every live object of the part. -/
theorem forward_spec {c : SerialCycle} (hs : Surveyed h t b live) (hp : h.Part part)
    (hc : c.Partial h t b part) :
    ∃ n c' bs, c.forward = .ok (n, c') ∧ c' = { c with table := c'.table, spaces := c'.spaces } ∧
      Assigned h t b live part c'.table c'.spaces bs := by
  have hserves : c.table.clear.Serves h.layout := by
    obtain ⟨⟨h1, h2⟩, h3, h4⟩ := hc.serves
    exact ⟨⟨h1, h2⟩, h3, by simpa [BlockOffsets.clear, BlockOffsets.blockSize] using h4⟩
  unfold forward
  by_cases hne : part = []
  · subst hne
    have hempty : c.spaces.isEmpty = true := by
      rw [hc.spaces]
      rfl
    have hnil := hc.spaces
    refine ⟨0, { c with table := c.table.clear }, [], ?_, rfl, ?_⟩
    · dsimp only
      rw [if_pos hempty]
    · exact ⟨by rw [hnil]; rfl, by simp, by simp, by simp, by simp, by simp,
        ⟨0, Berth.ascending_nil _ _⟩, by simp, by simp, by simp, by simp, by simp [hnil], hserves⟩
  · have hempty : ¬ c.spaces.isEmpty = true := by
      rw [hc.spaces]
      simpa using hne
    obtain ⟨f, bs, hrun, hf⟩ := BlockOffsets.build_spec hs hp hne hserves
    refine ⟨f.spaces.toList.countP (0 < ·.usedWords),
      { c with table := f.table, spaces := f.spaces }, bs, ?_, rfl, assigned_of_filled hf hserves⟩
    dsimp only
    rw [if_neg hempty, hc.regions, hc.heap, hc.bitmap, hc.spaces, hrun]
    rfl

/-! ### Places -/

namespace Assigned

variable {table : BlockOffsets} {spaces : Array Space} {bs : List Berth}

theorem nodup (ha : Assigned h t b live part table spaces bs) (hs : Surveyed h t b live) :
    (bs.map Berth.object).Nodup := by
  obtain ⟨n, hasc⟩ := ha.ascending
  refine Surveyed.nodup_of_pairwise (List.pairwise_map.2 (hasc.objects.imp_of_mem ?_))
  intro p q hp _ hle
  have hlive := ((ha.seen p.object).1 (List.mem_map_of_mem hp)).1
  have := hs.wordsAt_pos hlive
  omega

/-- The berth of a live object of the part. -/
theorem berth (ha : Assigned h t b live part table spaces bs) (hs : Surveyed h t b live)
    {a : Address} (hlive : live a) (hin : h.layout.indexOf a ∈ part) :
    ∃ p ∈ bs, p.object = a ∧ p.target = Berth.placeOf bs a ∧ p.words = h.wordsAt t a ∧
      table.forwardee b a = Berth.placeOf bs a := by
  obtain ⟨p, hp, rfl⟩ := List.mem_map.1 ((ha.seen a).2 ⟨hlive, hin⟩)
  have hplace := Berth.placeOf_of_mem (ha.nodup hs) hp
  exact ⟨p, hp, rfl, hplace.symm, ha.size p hp, (ha.places p hp).trans hplace.symm⟩

/-- Everything else stays. -/
theorem placeOf_eq (ha : Assigned h t b live part table spaces bs) {a : Address}
    (hout : ¬ (live a ∧ h.layout.indexOf a ∈ part)) : Berth.placeOf bs a = a :=
  Berth.placeOf_of_notMem fun hmem => hout ((ha.seen a).1 hmem)

theorem placeOf_le (ha : Assigned h t b live part table spaces bs) (hs : Surveyed h t b live)
    (a : Address) : (Berth.placeOf bs a).toNat ≤ a.toNat := by
  by_cases hin : live a ∧ h.layout.indexOf a ∈ part
  · obtain ⟨p, hp, rfl, htarget, -, -⟩ := ha.berth hs hin.1 hin.2
    rw [← htarget]
    exact ha.left p hp
  · rw [ha.placeOf_eq hin]

/-- The objects of the part keep their order, and do not overlap at their new places. -/
theorem placeOf_lt (ha : Assigned h t b live part table spaces bs) (hs : Surveyed h t b live)
    {a c : Address} (hla : live a) (hia : h.layout.indexOf a ∈ part) (hlc : live c)
    (hic : h.layout.indexOf c ∈ part) (hlt : a.toNat < c.toNat) :
    (Berth.placeOf bs a).toNat + 8 * h.wordsAt t a ≤ (Berth.placeOf bs c).toNat := by
  obtain ⟨p, hp, rfl, hpt, hpw, -⟩ := ha.berth hs hla hia
  obtain ⟨q, hq, rfl, hqt, -, -⟩ := ha.berth hs hlc hic
  obtain ⟨n, hasc⟩ := ha.ascending
  rw [← hpt, ← hqt, ← hpw]
  obtain ⟨i, hi, rfl⟩ := List.mem_iff_getElem.1 hp
  obtain ⟨j, hj, rfl⟩ := List.mem_iff_getElem.1 hq
  rcases Nat.lt_trichotomy i j with hij | rfl | hij
  · exact List.pairwise_iff_getElem.1 hasc.targets i j hi hj hij
  · omega
  · have := List.pairwise_iff_getElem.1 hasc.objects j i hj hi hij
    omega

/-- An object goes to a region of the part. -/
theorem region (ha : Assigned h t b live part table spaces bs) (hs : Surveyed h t b live)
    {a : Address} (hla : live a) (hia : h.layout.indexOf a ∈ part) :
    ∃ (j i : Nat) (s : Space), part[j]? = some i ∧ spaces[j]? = some s ∧
      (h.layout.bottom i).toNat ≤ (Berth.placeOf bs a).toNat ∧
      (Berth.placeOf bs a).toNat + 8 * h.wordsAt t a ≤ s.top.toNat ∧
      ((h.layout.bottom i).toNat % 8 = 0 → (Berth.placeOf bs a).toNat % 8 = 0) := by
  obtain ⟨p, hp, rfl, hpt, hpw, -⟩ := ha.berth hs hla hia
  have hlt := ha.space p hp
  have hlt' : p.space < spaces.size := by rwa [ha.count]
  have h1 : part[p.space]? = some part[p.space] := List.getElem?_eq_getElem hlt
  have h2 : spaces[p.space]? = some spaces[p.space] := Array.getElem?_eq_getElem hlt'
  have htiles := ha.tiled _ _ _ h1 h2
  have hrun : p.run ∈ (bs.filter fun q => q.space == p.space).map Berth.run :=
    List.mem_map_of_mem (List.mem_filter.2 ⟨hp, beq_self_eq_true p.space⟩)
  obtain ⟨h3, h4⟩ := htiles.mem hrun
  rw [← hpt, ← hpw]
  exact ⟨p.space, _, _, h1, h2, h3, h4, fun hb => htiles.aligned hb hrun⟩

end Assigned

end SerialCycle

end MarkCompact
