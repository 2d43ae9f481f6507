/-
MarkCompact/Proofs/SerialCollection.lean

What a serial collection does, from its first phase to its last.

Main result: `Collector.collect_serial`.  A collection in the serial style ends
without a fault.  It moves the reachable objects to the left and keeps their order;
every word of them that is no reference stays as it is, references and roots follow;
humongous objects and the dense prefix stay; and the regions after the dense prefix
are filled without gaps.
-/
import MarkCompact.Proofs.SerialRelocation
import MarkCompact.Proofs.Graphs
import MarkCompact.Proofs.Collectors
import MarkCompact.Proofs.Instances

namespace MarkCompact

/-! ### The table of new addresses -/

/-- A new table has an entry for every block of the grid. -/
theorem BlockOffsets.serves_new {l : Layout} (hl : l.Sound) {shift : UInt32}
    (hle : shift ≤ l.regionShift) : (BlockOffsets.new l.base l.heapWords shift).Serves l := by
  have hshift := UInt32.le_iff_toNat_le.1 hle
  have hgreatest := hl.greatest
  refine ⟨⟨rfl, ?_⟩, ?_, ?_⟩
  · show shift.toNat ≤ 60
    omega
  · show 8 * 2 ^ shift.toNat ∣ 8 * 2 ^ l.regionShift.toNat
    exact Nat.mul_dvd_mul_left 8 (Nat.pow_dvd_pow 2 hshift)
  · rw [← hl.toNat_heapWords]
    exact BlockOffsets.covers_new _ _ (by omega)

/-! ### The phases -/

/-- The figures of a collection in the serial style. -/
def CycleStats.serial (s : CycleStats) (o : SerialOutcome) (dense freed : Nat) : CycleStats :=
  { s with
    forwardedObjects := o.movedObjects
    movedObjects := o.movedObjects
    movedWords := o.movedWords
    densePrefixRegions := dense
    freedRegions := freed }

/-- What the forward phase of the serial style comes to: the table of new addresses, and how far
each space is filled. -/
def SerialCycle.filled (h : Heap) (t : ClassTable) (b : Bitmap) (blockShift : UInt32) :
    Except Fault (BlockOffsets × Array Space) := do
  let c ← SerialCycle.new h t b blockShift
  let (_, c) ← c.plan.2.forward
  return (c.table, c.spaces)

namespace Collector

/-- When every phase goes through, so does the collection. -/
theorem collectSerial_ok (times : Durations) {t : ClassTable} {b : Bitmap} (free : Nat)
    {s : Collected} {c c₁ c₂ c₃ c₄ : SerialCycle} {p : Plan} {n k : Nat} {roots : Roots}
    {saved : SavedMarks} {o : SerialOutcome}
    (hnew : SerialCycle.new s.heap t b s.collector.config.blockShift = .ok c)
    (hplan : c.plan = (p, c₁)) (hforward : c₁.forward = .ok (n, c₂))
    (hadjust : c₂.adjust s.roots s.collector.saved = .ok (k, roots, saved, c₃))
    (hcompact : c₃.compact = .ok (o, c₄)) :
    ∃ r, collectSerial times t b free s = .ok r ∧
      r.heap = (c₄.finish s.collector.config.releaseFreeRegions).2.heap ∧ r.roots = roots ∧
      r.collector.config = s.collector.config ∧
      r.collector.forwarding = s.collector.forwarding ∧
      r.collector.bitmap = c₄.bitmap.clear ∧ r.collector.saved = saved ∧
      r.stats.untimed
        = (s.stats.serial o p.densePrefix (r.heap.freeRegionCount - free)).untimed := by
  unfold collectSerial
  refine ⟨?result, bind_eq_ok hnew ?run, ?_⟩
  case run =>
    rw [hplan]
    dsimp only
    refine bind_eq_ok hforward ?_
    -- reports leave the heap, the roots and the marks kept aside as they are
    dsimp only [Collected.beginPhase, Collected.endPhase, Collected.report]
    refine bind_eq_ok hadjust ?_
    dsimp only
    refine bind_eq_ok hcompact ?_
    exact rfl
  exact ⟨rfl, rfl, rfl, rfl, rfl, rfl, rfl⟩

/-- The phases after marking go through one after the other. -/
theorem collectSerial_spec (times : Durations) {t : ClassTable} {roots : Roots} {h : Heap}
    {b : Bitmap} (free : Nat) {s : Collected} (hw : WellFormed h t roots)
    (hshows : b.Shows h.layout (Reaches h t roots) (h.wordsAt t)) (hheap : s.heap = h)
    (hroots : s.roots = roots) (hsuits : s.collector.Suits h)
    (hserial : s.collector.config.style = .serial) :
    ∃ r bs table spaces h₂ g, collectSerial times t b free s = .ok r ∧
      SerialCycle.filled h t b s.collector.config.blockShift = .ok (table, spaces) ∧
      r.collector.config = s.collector.config ∧
      r.collector.forwarding = s.collector.forwarding ∧
      r.collector.bitmap = s.collector.bitmap ∧ r.collector.saved = s.collector.saved ∧
      r.roots = roots.map (Berth.placeOf bs) ∧
      r.stats.untimed = (s.stats.serial (SerialCycle.counted (Plan.build h b).2 t
        (Berth.placeOf bs) (((Plan.build h b).2.partFrom (Plan.build h b).1.densePrefix).flatMap
          ((Plan.build h b).2.liveIn b))) (Plan.build h b).1.densePrefix
        (r.heap.freeRegionCount - free)).untimed ∧
      SerialCycle.Completed (Plan.build h b).2 t b (Reaches h t roots)
        (Plan.build h b).1.densePrefix table spaces bs s.collector.config.releaseFreeRegions h₂ g
        r.heap := by
  have hclassic := hsuits.classic hserial
  obtain ⟨hshift, -, -⟩ := hsuits.agrees
  have hserves : (BlockOffsets.new h.layout.base h.layout.heapWords
      s.collector.config.blockShift).Serves h.layout :=
    BlockOffsets.serves_new hw.settled.layout (by rw [hshift]; exact hsuits.valid.blockShift.2)
  obtain ⟨hplanned, c₁, hplan, hpartial⟩ := SerialCycle.plan_spec
    (c := ⟨t, b, h, .new h.layout.base h.layout.heapWords s.collector.config.blockShift, [], #[]⟩)
    hw.settled.toTabled hserves
  have hs := hw.surveyed hshows hplanned
  have hd : (Plan.build h b).1.densePrefix ≤ (Plan.build h b).2.regions.size := by
    rw [hplanned.ground.size]
    exact hplanned.dense_le
  have hidle := hplanned.idle hw.settled.idle
  generalize (Plan.build h b).2 = h₁ at *
  generalize (Plan.build h b).1 = p at *
  obtain ⟨n, c₂, bs, hforward, hc₂, hassigned⟩ :=
    SerialCycle.forward_spec hs (Heap.part_partFrom hd) hpartial
  have hrefers : ∀ r ∈ roots.toList, Reaches h t roots r ∨ h₁.refersInside r = false := by
    intro r hr
    by_cases hin : h₁.refersInside r = true
    · unfold Heap.refersInside at hin
      rw [hplanned.ground.contains, Bool.and_eq_true] at hin
      exact .inl (.root (List.mem_filter.2 ⟨hr, hin.1⟩) hin.2)
    · exact .inr (by simpa using hin)
  obtain ⟨k, h₂, hadjust, hadjusted⟩ := SerialCycle.adjust_spec (c := c₂) hs hd
    (by rw [hc₂]; exact hpartial.classes) (by rw [hc₂]; exact hpartial.bitmap)
    (by rw [hc₂]; exact hpartial.heap) (by rw [hc₂]; exact hpartial.regions) hassigned hrefers
  obtain ⟨g, hcompact, hmoved⟩ := SerialCycle.compact_spec (c := { c₂ with heap := h₂ }) hs hd
    (by rw [hc₂]; exact hpartial.classes) (by rw [hc₂]; exact hpartial.bitmap) rfl
    (by rw [hc₂]; exact hpartial.regions) hassigned hadjusted (by
      intro x hx
      obtain ⟨e, he, hx⟩ := List.mem_flatMap.1 hx
      exact ⟨e, (hs.mem_liveList e).1 he, hx⟩)
  have hfinish := SerialCycle.finish_spec (c := { c₂ with heap := g }) rfl
    (by rw [hc₂]; exact hpartial.regions) (hmoved.gridded hs.tabled.toGridded)
    ((Heap.part_partFrom hd).ascending.imp fun h => Nat.ne_of_lt h)
    (fun i hi => by rw [hmoved.regions]; exact (Heap.part_partFrom hd).inside i hi)
    hassigned.count s.collector.config.releaseFreeRegions
  have hnew : SerialCycle.new s.heap t b s.collector.config.blockShift = .ok
      ⟨t, b, h, .new h.layout.base h.layout.heapWords s.collector.config.blockShift, [], #[]⟩ := by
    unfold SerialCycle.new
    rw [hheap, hclassic]
    rfl
  obtain ⟨r, hrun, hr, hrr, hrc, hrf, hrb, hrs, hrd⟩ := collectSerial_ok times free hnew hplan
    hforward (by rw [hroots, hsuits.saved]; exact hadjust) hcompact
  have hbitmap : r.collector.bitmap = s.collector.bitmap := by
    rw [hrb, hsuits.bitmap, ← hshows.fits.cleared, hc₂]
    exact congrArg Bitmap.clear hpartial.bitmap
  have hfilled : SerialCycle.filled h t b s.collector.config.blockShift
      = .ok (c₂.table, c₂.spaces) := by
    rw [hheap] at hnew
    unfold SerialCycle.filled
    refine bind_eq_ok hnew ?_
    rw [hplan]
    exact bind_eq_ok hforward rfl
  refine ⟨r, bs, c₂.table, c₂.spaces, h₂, g, hrun, hfilled, hrc, hrf, hbitmap,
    hrs.trans hsuits.saved.symm, hrr, hrd, ?_⟩
  rw [hr]
  exact ⟨hs, hidle, hd, hassigned, hadjusted, hmoved, hfinish⟩

/-- Marking goes through, and the phases after it. -/
theorem collect_completed {c : Collector} (times : Durations) {h : Heap} {t : ClassTable}
    {roots : Roots} (hw : WellFormed h t roots) (hsuits : c.Suits h)
    (hserial : c.config.style = .serial) :
    ∃ r b bs table spaces h₂ g, (c.collect times h t roots).outcome = .ok r ∧
      b = (h.trace t roots (.ofLayout h.layout)).bitmap ∧
      SerialCycle.filled h t b c.config.blockShift = .ok (table, spaces) ∧
      r.collector.config = c.config ∧ r.collector.forwarding = c.forwarding ∧
      r.collector.bitmap = c.bitmap ∧ r.collector.saved = c.saved ∧
      r.roots = roots.map (Berth.placeOf bs) ∧
      r.stats.untimed = ((c.marked times h t roots).stats.serial
        (SerialCycle.counted (Plan.build h b).2 t (Berth.placeOf bs)
          (((Plan.build h b).2.partFrom (Plan.build h b).1.densePrefix).flatMap
            ((Plan.build h b).2.liveIn b))) (Plan.build h b).1.densePrefix
        (r.heap.freeRegionCount - h.freeRegionCount)).untimed ∧
      Planned h b (Plan.build h b).1 (Plan.build h b).2 ∧
      SerialCycle.Completed (Plan.build h b).2 t b (Reaches h t roots)
        (Plan.build h b).1.densePrefix table spaces bs c.config.releaseFreeRegions h₂ g r.heap := by
  obtain ⟨met, -, -, hfault, hshows, -, -⟩ := hw.trace
  obtain ⟨r, bs, table, spaces, h₂, g, hr, hfilled, hrc, hrf, hrb, hrs, hrr, hrd, hcompleted⟩ :=
    collectSerial_spec times h.freeRegionCount (s := c.marked times h t roots) hw hshows rfl rfl
      (hsuits.congr rfl rfl rfl rfl rfl) hserial
  refine ⟨conclude times r, _, bs, table, spaces, h₂, g, ?_, rfl, hfilled, hrc, hrf, hrb, hrs, hrr,
    hrd, Plan.planned_build hw.settled.toTabled _, hcompleted⟩
  rw [outcome_of_marked times hsuits hfault]
  unfold collectMarked
  rw [show (c.marked times h t roots).collector.config.style = .serial from hserial]
  dsimp only
  rw [hr]
  rfl

end Collector

/-- A serial collection relocates the objects that can be reached. -/
theorem SerialCycle.Completed.relocated {h h₁ h₂ g h' : Heap} {t : ClassTable} {roots : Roots}
    {b : Bitmap} {d : Nat} {table : BlockOffsets} {spaces : Array Space} {bs : List Berth}
    {release : Bool} (hground : h.SameGround h₁)
    (hc : Completed h₁ t b (Reaches h t roots) d table spaces bs release h₂ g h')
    (hclassic : h.compactHeaders = false) :
    Relocated h t roots h' (roots.map (Berth.placeOf bs)) (Berth.placeOf bs) := by
  refine relocated_of_surveyed hground hc.surveyed hc.retopped.layout hc.headers hc.settled
    hc.mapped (fun a ha => hc.assigned.placeOf_eq fun hh => ha hh.1)
    (fun a c words ha ho => hc.rehomed (hground.headers.trans hclassic) ha ho) ?_
  intro a e ha he hne
  rw [hc.wordsAt_place ha, hc.wordsAt_place he]
  exact hc.apart ha he hne

/-! ### What the collection does -/

/-- What a serial collection makes of the objects that can be reached, where the first `d`
regions are the dense prefix. -/
structure SlidLeft (h : Heap) (t : ClassTable) (roots : Roots) (d : Nat) (h' : Heap)
    (roots' : Roots) (move : Address → Address) : Prop where
  injective : ∀ a e, Reaches h t roots a → Reaches h t roots e → move a = move e → a = e
  left : ∀ a, Reaches h t roots a → (move a).toNat ≤ a.toNat
  ordered : ∀ a e, Reaches h t roots a → Reaches h t roots e →
    (h.regionOf a).isHumongous = false → (h.regionOf e).isHumongous = false →
    a.toNat < e.toNat → (move a).toNat < (move e).toNat
  /-- Roots and fields that refer to nothing or outside stay. -/
  fixed : ∀ v, ¬ Reaches h t roots v → move v = v
  follow : roots' = roots.map move
  fields : ∀ a c, Reaches h t roots a → h.infoOf t a = .ok c → ∀ f ∈ c.fields,
    h'.memory.load ((move a).offset f) = move (h.memory.load (a.offset f))
  /-- The mark is the word number 0. -/
  words : ∀ a c, Reaches h t roots a → h.infoOf t a = .ok c → ∀ k < h.wordsAt t a,
    k.toUInt64 ∉ c.fields → h'.memory.load ((move a).nth k) = h.memory.load (a.nth k)
  humongous : ∀ a, Reaches h t roots a → (h.regionOf a).isHumongous = true → move a = a
  dense : ∀ a, Reaches h t roots a → h.layout.indexOf a < d → move a = a
  packed : ∀ i, d ≤ i → i < h'.regions.size → (h'.region i).kind = .regular →
    ∃ l : List Address, (∀ x, x ∈ l ↔ Reaches h' t roots' x ∧ h'.layout.indexOf x = i) ∧
      Tiles (h'.region i).bottom.toNat (h'.region i).top.toNat
        (l.map fun x => (x, h'.wordsAt t x))

namespace Collector

/-- A collection in the serial style slides the reachable objects to the left, and the object
graph stays as it is. -/
theorem collect_serial {c : Collector} (times : Durations) {h : Heap} {t : ClassTable}
    {roots : Roots} (hw : WellFormed h t roots) (hsuits : c.Suits h)
    (hserial : c.config.style = .serial) :
    ∃ r move, (c.collect times h t roots).outcome = .ok r ∧
      r.stats.densePrefixRegions
        = (Plan.build h (h.trace t roots (.ofLayout h.layout)).bitmap).1.densePrefix ∧
      SlidLeft h t roots r.stats.densePrefixRegions r.heap r.roots move ∧
      WellFormed r.heap t r.roots ∧ r.heap.graph t r.roots = h.graph t roots := by
  obtain ⟨r, b, bs, table, spaces, h₂, g, hrun, rfl, -, -, -, -, -, hroots, hstats, hplanned, hc⟩ :=
    collect_completed times hw hsuits hserial
  have hdense : r.stats.densePrefixRegions
      = (Plan.build h (h.trace t roots (.ofLayout h.layout)).bitmap).1.densePrefix :=
    congrArg CycleStats.densePrefixRegions hstats
  have hrel := hc.relocated hplanned.ground (hsuits.classic hserial)
  rw [← hroots] at hrel
  refine ⟨r, Berth.placeOf bs, hrun, hdense, ?_, hrel.wellFormed hw, hrel.graph_eq hw⟩
  rw [hdense]
  generalize (h.trace t roots (.ofLayout h.layout)).bitmap = b at *
  have hs := hc.surveyed
  have hmem := hplanned.ground.memory
  have hwords : ∀ a, (Plan.build h b).2.wordsAt t a = h.wordsAt t a := fun a =>
    Heap.wordsAt_congr hmem
  have hinfo : ∀ a, (Plan.build h b).2.infoOf t a = h.infoOf t a := fun a => Heap.infoOf_congr hmem
  have hlayout := hplanned.ground.layout
  have hregion : ∀ a, Reaches h t roots a →
      (Plan.build h b).2.region (h.layout.indexOf a) = h.region (h.layout.indexOf a) := by
    intro a ha
    obtain ⟨cls, words, ho⟩ := hw.object ha
    refine hplanned.region_eq hw.settled.toTabled ho.place (WellFormed.words_pos hw.classes ho) ?_
    have hmarked := (hs.shows.starts a (hs.isWord ha)).2 ha
    exact hmarked
  have hmemPart : ∀ a, Reaches h t roots a →
      ((Plan.build h b).2.layout.indexOf a
          ∈ (Plan.build h b).2.partFrom (Plan.build h b).1.densePrefix ↔
        (Plan.build h b).1.densePrefix ≤ h.layout.indexOf a ∧
          (h.regionOf a).isHumongous = false) := by
    intro a ha
    have hlt := (hs.region ha).1
    rw [Heap.mem_partFrom hc.dense, hlayout, hregion a ha]
    rw [hlayout] at hlt
    exact ⟨fun hh => ⟨hh.1, hh.2.2⟩, fun hh => ⟨hh.1, hlt, hh.2⟩⟩
  refine ⟨fun a e => hrel.injective hw, fun a _ => hc.assigned.placeOf_le hs a, ?_, hrel.fixed,
    hroots, fun a cls ha hi f hf => (hrel.object a cls ha hi).fields f hf, ?_, ?_, ?_, ?_⟩
  · intro a e ha he hka hke hlt
    by_cases hin : (Plan.build h b).1.densePrefix ≤ h.layout.indexOf a
    · -- the later object lies in the part, too
      have hle : h.layout.indexOf a ≤ h.layout.indexOf e := by
        by_contra hgt
        have := hs.indexOf_lt_indexOf he ha (by rw [hlayout]; omega)
        omega
      have hpos := hs.wordsAt_pos ha
      have := hc.assigned.placeOf_lt hs ha ((hmemPart a ha).2 ⟨hin, hka⟩) he
        ((hmemPart e he).2 ⟨hin.trans hle, hke⟩) hlt
      omega
    · rw [hc.place_other fun hh => hin ((hmemPart a ha).1 hh).1]
      by_cases hin' : (Plan.build h b).1.densePrefix ≤ h.layout.indexOf e
      · obtain ⟨i, s, -, hi, h1, -⟩ := hc.place_part he ((hmemPart e he).2 ⟨hin', hke⟩)
        have hd := ((Heap.mem_partFrom hc.dense i).1 hi).1
        have hbelow := (hs.lt_bottom_iff ha (hc.part.inside i hi)).2 (by rw [hlayout]; omega)
        rw [hs.tabled.bottom i (hc.part.inside i hi)] at hbelow
        omega
      · rw [hc.place_other fun hh => hin' ((hmemPart e he).1 hh).1]
        exact hlt
  · intro a cls ha hi k hk hplain
    rw [← hinfo] at hi
    rw [← hwords] at hk
    rw [hc.load_plain_place ha hi hk hplain, hmem]
  · intro a ha hk
    refine hc.place_other fun hh => ?_
    rw [((hmemPart a ha).1 hh).2] at hk
    cases hk
  · intro a ha hlt
    refine hc.place_other fun hh => ?_
    have := ((hmemPart a ha).1 hh).1
    omega
  · intro i hd hi hk
    rw [hc.retopped.size] at hi
    obtain ⟨l, hl, htiles⟩ := hc.tiles hd hi hk
    refine ⟨l, fun x => ?_, htiles⟩
    rw [hl, hrel.reaches_iff hw, hc.retopped.layout]

/-- A heap of two regions with one object. -/
theorem collect_serial_node : ∃ (h : Heap) (t : ClassTable) (a : Address) (c : Collector),
    WellFormed h t #[a] ∧ c.Suits h ∧ c.config.style = .serial ∧ Reaches h t #[a] a ∧
      ∃ r move, (c.collect ⟨fun _ => 0, 0⟩ h t #[a]).outcome = .ok r ∧
        SlidLeft h t #[a] r.stats.densePrefixRegions r.heap r.roots move ∧
        WellFormed r.heap t r.roots ∧ r.heap.graph t r.roots = h.graph t #[a] := by
  let config : Config := { style := .serial, regionShift := 4, numRegions := 2, blockShift := 2 }
  let node : ClassInfo := ⟨"Node", 4, [2]⟩
  have hv : config.Valid := by decide
  have hnode : (ClassTable.empty false).register node = .ok (0, ⟨false, #[node]⟩) := rfl
  have hbacked : config.Backed 0x10000 := by decide
  have hinfo : (ClassTable.mk false #[node]).info 0 = some node := rfl
  obtain ⟨h, a, hlayout, hheaders, hw, ha⟩ := exists_wellFormed hv hbacked
    (ClassTable.sound_register (ClassTable.sound_empty false) hnode) rfl hinfo (by decide)
    (by decide)
  let c : Collector := ⟨config, .header, .ofLayout h.layout, #[], .new {}, 0⟩
  have hc : c.Suits h :=
    ⟨hv, refusal_eq_none_iff.2 ⟨by rw [hlayout], by rw [hlayout], hheaders⟩, rfl, rfl⟩
  obtain ⟨r, move, hrun, -, hslid, hw', hgraph⟩ := collect_serial ⟨fun _ => 0, 0⟩ hw hc rfl
  exact ⟨h, _, a, c, hw, hc, rfl, ha, r, move, hrun, hslid, hw', hgraph⟩

end Collector

end MarkCompact
