/-
MarkCompact/Proofs/DeadMemory.lean

Dead memory has no influence.

Two heaps may differ in every word that belongs to no object that can be reached: in dead objects,
in gaps and in free regions (`Heap.SameReachable`).  Marking meets the same objects in both, for it
follows the fields of objects that it has met, and so the bitmaps are the same; planning reads the
bitmap and the regions; the forward phase reads the headers of live objects before any object has
moved.  So the same is recorded, and in the end the heaps differ in dead words at most.

Main result: `Collector.collect_sameReachable`.
-/
import MarkCompact.Proofs.AlikePhases

namespace MarkCompact

/-- The heaps have the same regions, and the objects that can be reached from the roots have the
same words. -/
structure Heap.SameReachable (h k : Heap) (t : ClassTable) (roots : Roots) : Prop where
  layout : k.layout = h.layout
  headers : k.compactHeaders = h.compactHeaders
  use : ∀ i, (k.region i).kind = (h.region i).kind ∧ (k.region i).top = (h.region i).top
  load : ∀ a, Reaches h t roots a → ∀ i < h.wordsAt t a,
    k.memory.load (a.nth i) = h.memory.load (a.nth i)

namespace Heap

/-! ### Regions and extent -/

/-- Between two collections a region is known from what it is used for. -/
theorem Settled.regions_congr {h k : Heap} (hh : h.Settled) (hk : k.Settled)
    (hlayout : k.layout = h.layout)
    (huse : ∀ i, (k.region i).kind = (h.region i).kind ∧ (k.region i).top = (h.region i).top) :
    k.regions = h.regions := by
  have hsize : k.regions.size = h.regions.size := by rw [hk.count, hh.count, hlayout]
  refine regions_ext hsize fun i hi => ?_
  have hi' : i < k.regions.size := hsize ▸ hi
  obtain ⟨hkind, htop⟩ := huse i
  have hindex := (hk.index i hi').trans (hh.index i hi).symm
  have hbottom := (hk.bottom i hi').trans ((congrArg (·.bottom i) hlayout).trans
    (hh.bottom i hi).symm)
  have hstop := (hk.stop i hi').trans ((congrArg (·.regionStop i) hlayout).trans
    (hh.stop i hi).symm)
  have hidle := hh.idle i hi
  have hidle' := hk.idle i hi'
  have hcompactionTop := hidle'.compactionTop.trans (hbottom.trans hidle.compactionTop.symm)
  have hcompacting := hidle'.compacting.trans hidle.compacting.symm
  have hready := hidle'.ready.trans hidle.ready.symm
  have hpending := hidle'.pending.trans hidle.pending.symm
  generalize k.region i = r' at *
  generalize h.region i = r at *
  cases r'
  cases r
  simp only [Region.mk.injEq] at *
  exact ⟨hindex, hbottom, hstop, htop, hcompactionTop, hkind, hcompacting, hready, hpending⟩

theorem Mapped.contains_of_layout {h k : Heap} (hh : h.Mapped) (hk : k.Mapped)
    (hl : h.layout.Sound) (hlayout : k.layout = h.layout) (a : Address) :
    k.contains a = h.contains a := by
  rw [Bool.eq_iff_iff, hh.contains_iff hl, hk.contains_iff (by rwa [hlayout]), hlayout]

theorem liveWord_of_memory {h k : Heap} {t : ClassTable} {live : Address → Prop}
    (hmem : k.memory = h.memory) : k.LiveWord t live = h.LiveWord t live := by
  unfold LiveWord
  simp only [wordsAt_congr hmem]

end Heap

/-! ### Marking -/

section Marking

variable {h k : Heap} {t : ClassTable} {roots : Roots}

theorem Surveyed.infoOf_congr {b : Bitmap} {live : Address → Prop} (hs : Surveyed h t b live)
    (halike : h.Alike k (h.LiveWord t live)) {a : Address} (ha : live a) :
    k.infoOf t a = h.infoOf t a := by
  unfold Heap.infoOf
  rw [hs.classOf_congr halike ha]

/-- The fields of live objects hold the same. -/
theorem Surveyed.load_field_congr {b : Bitmap} {live : Address → Prop} (hs : Surveyed h t b live)
    (halike : h.Alike k (h.LiveWord t live)) {a : Address} (ha : live a) {c : ClassInfo}
    (hc : h.infoOf t a = .ok c) {f : WordCount} (hf : f ∈ c.fields) :
    k.memory.load (a.offset f) = h.memory.load (a.offset f) := by
  obtain ⟨i, -, hi, heq⟩ := hs.mem_fieldsAt ha (x := a.offset f)
    (by rw [Surveyed.fieldsAt_eq hc]; exact List.mem_map_of_mem hf)
  rw [heq]
  exact halike.load _ (Surveyed.liveWord_nth ha hi)

/-- Live objects refer to the same objects. -/
theorem Surveyed.refersTo_congr {b : Bitmap} {live : Address → Prop} (hs : Surveyed h t b live)
    (halike : h.Alike k (h.LiveWord t live)) (hcontains : ∀ a, k.contains a = h.contains a)
    {a : Address} (ha : live a) (v : Address) : k.RefersTo t a v ↔ h.RefersTo t a v := by
  unfold Heap.RefersTo
  rw [hs.infoOf_congr halike ha]
  constructor
  · rintro ⟨c, f, hc, hf, hv, hne, hin⟩
    exact ⟨c, f, hc, hf, (hs.load_field_congr halike ha hc hf).symm.trans hv, hne,
      (hcontains v).symm.trans hin⟩
  · rintro ⟨c, f, hc, hf, hv, hne, hin⟩
    exact ⟨c, f, hc, hf, (hs.load_field_congr halike ha hc hf).trans hv, hne,
      (hcontains v).trans hin⟩

namespace Heap.SameReachable

variable (hsame : h.SameReachable k t roots) (hw : WellFormed h t roots) (hsettled : k.Settled)
  (hmapped : k.Mapped)
include hsame hw

theorem contains (hmapped : k.Mapped) (a : Address) : k.contains a = h.contains a :=
  hw.mapped.contains_of_layout hmapped hw.settled.layout hsame.layout a

include hsettled

theorem alike : h.Alike k (h.LiveWord t (Reaches h t roots)) := by
  refine ⟨hsame.layout, hsame.headers,
    hw.settled.regions_congr hsettled hsame.layout hsame.use, ?_⟩
  rintro x ⟨a, ha, i, hi, rfl⟩
  exact hsame.load a ha i hi

include hmapped

/-- The same objects can be reached. -/
theorem reaches : Reaches k t roots = Reaches h t roots := by
  obtain ⟨met, -, -, -, hshows, -, -⟩ := hw.trace
  have hs := hw.surveyed_of_shows hshows
  have hcontains := hsame.contains hw hmapped
  have hrefers := fun a ha v => hs.refersTo_congr (hsame.alike hw hsettled) hcontains (a := a) ha v
  funext v
  refine propext ⟨fun hv => ?_, fun hv => ?_⟩
  · refine hv.least (p := Reaches h t roots) (fun a hmem hin => ?_) fun a v _ ha hav => ?_
    · exact .root hmem ((hcontains a).symm.trans hin)
    · exact ha.refersTo ((hrefers a ha v).1 hav)
  · refine hv.least (p := Reaches k t roots) (fun a hmem hin => ?_) fun a v ha ha' hav => ?_
    · exact .root hmem ((hcontains a).trans hin)
    · exact ha'.refersTo ((hrefers a ha v).2 hav)

theorem meet {s : Tracing} {v : Address}
    (hv : v ≠ 0 → h.contains v = true → Reaches h t roots v) : s.meet k t v = s.meet h t v := by
  obtain ⟨met, -, -, -, hshows, -, -⟩ := hw.trace
  have hs := hw.surveyed_of_shows hshows
  unfold Tracing.meet
  rw [hsame.contains hw hmapped]
  by_cases hzero : v = 0
  · simp [hzero]
  by_cases hin : h.contains v = true
  · rw [hs.size_congr (hsame.alike hw hsettled) (hv hzero hin)]
  · simp [hin]

theorem step {s : Tracing} (hgrey : ∀ a ∈ s.grey, Reaches h t roots a) :
    s.step k t = s.step h t := by
  obtain ⟨met, -, -, -, hshows, -, -⟩ := hw.trace
  have hs := hw.surveyed_of_shows hshows
  have halike := hsame.alike hw hsettled
  unfold Tracing.step
  cases hfault : s.fault with
  | some fault => rfl
  | none =>
    cases hlist : s.grey with
    | nil => rfl
    | cons a grey =>
      have ha := hgrey a (by simp [hlist])
      obtain ⟨c, words, ho⟩ := hw.object ha
      have hslots := Heap.slots_of_info ho.info
      have hslots' := Heap.slots_of_info ((hs.infoOf_congr halike ha).trans ho.info)
      dsimp only
      rw [hslots, hslots']
      have hloads : (c.fields.map a.offset).map k.memory.load
          = (c.fields.map a.offset).map h.memory.load := by
        refine List.map_congr_left fun x hx => ?_
        obtain ⟨f, hf, rfl⟩ := List.mem_map.1 hx
        exact hs.load_field_congr halike ha ho.info hf
      dsimp only
      rw [hloads]
      refine congrArg some (List.foldl_ext _ _ _ fun s v hv =>
        hsame.meet hw hsettled hmapped fun hne hin => ?_)
      obtain ⟨x, hx, rfl⟩ := List.mem_map.1 hv
      exact .field ha hslots hx hne hin

theorem run (fuel : Nat) {s : Tracing} {met : List Address} (hs : Traced h t roots h.layout s met)
    (hf : Finished h t s met) : s.run k t fuel = s.run h t fuel := by
  induction fuel generalizing s met with
  | zero => rfl
  | succ fuel ih =>
    have hgrey : ∀ a ∈ s.grey, Reaches h t roots a := fun a ha => hs.reached a (hs.grey a ha)
    unfold Tracing.run
    rw [hsame.step hw hsettled hmapped hgrey]
    by_cases hempty : s.grey = []
    · have hnone : s.step h t = none := by
        unfold Tracing.step
        rw [hempty, hs.sound]
      rw [hnone]
    · obtain ⟨s', met', hstep, hs', hf', -⟩ :=
        hs.step hw.traceable hw.settled.layout.covers_self hf hempty
      rw [hstep]
      exact ih hs' hf'

/-- Marking comes to the same. -/
theorem trace : k.trace t roots (.ofLayout k.layout) = h.trace t roots (.ofLayout h.layout) := by
  obtain ⟨met, hs, hf, -⟩ :=
    hw.traceable.traced_roots hw.settled.layout.covers_self (Bitmap.shows_ofLayout _ (h.wordsAt t))
  unfold Heap.trace
  dsimp only
  rw [hsame.layout, ← hsame.run hw hsettled hmapped _ hs hf]
  refine congrArg (Tracing.run k t _) (List.foldl_ext _ _ _ fun s v hv =>
    hsame.meet hw hsettled hmapped fun _ hin => .root hv hin)

/-- A well-formed heap stays so when such words change. -/
theorem wellFormed : WellFormed k t roots := by
  obtain ⟨met, -, -, -, hshows, -, -⟩ := hw.trace
  have hs := hw.surveyed_of_shows hshows
  have halike := hsame.alike hw hsettled
  have hreaches := hsame.reaches hw hsettled hmapped
  refine ⟨hsettled, hmapped, hw.classes, hw.headers.trans hsame.headers.symm, ⟨?_, ?_⟩, ?_⟩
  · rw [hreaches]
    intro a ha
    obtain ⟨c, words, ho⟩ := hw.object ha
    exact ⟨c, words, (hsame.contains hw hmapped a).trans ho.inside,
      (hs.infoOf_congr halike ha).trans ho.info, (hs.size_congr halike ha).trans ho.size, ho.whole,
      by rw [hs.loadMark_congr halike ha, hsame.headers]; exact ho.mark,
      Heap.placedAt_of_regions hw.settled hsame.layout halike.regions ho.place⟩
  · rw [hreaches]
    intro a b ha hb hlt
    rw [hs.wordsAt_congr halike ha]
    exact hw.populated.disjoint a b ha hb hlt
  · rw [hreaches]
    exact hw.few

end Heap.SameReachable

/-- One word outside all objects that can be reached. -/
theorem WellFormed.sameReachable_store (hw : WellFormed h t roots) {x : Address} (w : Word)
    (hout : ∀ a, Reaches h t roots a →
      x.toNat < a.toNat ∨ a.toNat + 8 * h.wordsAt t a ≤ x.toNat) :
    h.SameReachable (h.withMemory (h.memory.store x w)) t roots := by
  obtain ⟨met, -, -, -, hshows, -, -⟩ := hw.trace
  refine ⟨rfl, rfl, fun _ => ⟨rfl, rfl⟩, fun a ha i hi => Memory.load_store_of_ne _ ?_ w⟩
  rintro rfl
  have hfits := (hw.surveyed_of_shows hshows).fits ha
  have hat : (a.nth i).toNat = a.toNat + 8 * i := Address.toNat_nth (by omega)
  have := hout a ha
  omega

end Marking

/-! ### What is left -/

theorem Heap.sameReachable_of_alike {h k : Heap} {t : ClassTable} {roots : Roots}
    {live : Address → Prop} (halike : h.Alike k (h.LiveWord t live))
    (hlive : ∀ a, Reaches h t roots a → live a) : h.SameReachable k t roots :=
  ⟨halike.layout, halike.headers, fun i => by rw [halike.region]; exact ⟨rfl, rfl⟩,
    fun _ ha _ hi => halike.load _ (Surveyed.liveWord_nth (hlive _ ha) hi)⟩

/-- The planned moves of live objects. -/
theorem Surveyed.recordsOf_congr {h k : Heap} {t : ClassTable} {b : Bitmap}
    {live : Address → Prop} (hs : Surveyed h t b live) (halike : h.Alike k (h.LiveWord t live))
    {g g' : Heap} (hafter : g.Alike g' (h.LiveWord t live)) (intact : Bool)
    (move : Address → Address) {as : List Address} (hlive : ∀ a ∈ as, live a) :
    k.recordsOf t g'.memory intact move as = h.recordsOf t g.memory intact move as := by
  unfold Heap.recordsOf
  refine List.map_congr_left fun a ha => ?_
  have ha := hlive a (List.mem_filter.1 ha).1
  unfold Heap.recordFor
  rw [hs.wordsAt_congr halike ha, hs.movedWords_congr halike ha, hs.growsAt_congr halike ha,
    hs.loadMark_congr hafter ha, halike.headers]

namespace Collector

variable {c : Collector} {h k : Heap} {t : ClassTable} {roots : Roots}

theorem untimed_marked_congr (times times' : Durations)
    (htrace : k.trace t roots (.ofLayout k.layout) = h.trace t roots (.ofLayout h.layout)) :
    (c.marked times' k t roots).stats.untimed = (c.marked times h t roots).stats.untimed := by
  rw [untimed_marked, untimed_marked, htrace]

theorem collect_parallel_sameReachable (times times' : Durations) (hw : WellFormed h t roots)
    (hw' : WellFormed k t roots) (hsame : h.SameReachable k t roots) (hc : c.Prepared h)
    (hc' : c.Prepared k) (hparallel : c.config.style = .parallel) :
    ∃ r r', (c.collect times h t roots).outcome = .ok r ∧
      (c.collect times' k t roots).outcome = .ok r' ∧ r'.roots = r.roots ∧
      r.heap.SameReachable r'.heap t r.roots ∧ r'.stats.untimed = r.stats.untimed := by
  obtain ⟨r, b, p, h₁, o, n, tops, bs, s₂, h₂, g, hrun, hrecord, rfl, hbuild, hplanned, -, -, -, -,
    hroots, hstats, hcompleted⟩ := collect_parallel_completed times hw hc hparallel
  obtain ⟨r', b', p', k₁, o', n', tops', bs', s₂', k₂, g', hrun', hrecord', rfl, hbuild', -, -, -,
    -, -, hroots', hstats', hcompleted'⟩ := collect_parallel_completed times' hw' hc' hparallel
  have htrace := hsame.trace hw hw'.settled hw'.mapped
  have halike := hsame.alike hw hw'.settled
  unfold recordPhase at hrecord hrecord'
  rw [htrace] at hbuild' hstats' hcompleted' hrecord'
  rw [hsame.reaches hw hw'.settled hw'.mapped] at hcompleted'
  generalize (h.trace t roots (.ofLayout h.layout)).bitmap = b at *
  have hs := hcompleted.surveyed
  have hwords : h₁.LiveWord t (Reaches h t roots) = h.LiveWord t (Reaches h t roots) :=
    Heap.liveWord_of_memory hplanned.ground.memory
  -- the same is planned
  obtain ⟨hplan, halike₁⟩ := Plan.build_alike halike b
  rw [hbuild, hbuild'] at hplan halike₁
  dsimp only at hplan halike₁
  subst hplan
  rw [← hwords] at halike halike₁
  -- and recorded
  have hmarked : (c.marked times h t roots).heap.Alike (c.marked times' k t roots).heap
      (h₁.LiveWord t (Reaches h t roots)) := halike
  obtain ⟨s₂'', hrecord'', hafter⟩ :=
    Collected.recorded_alike times times' hbuild hplanned hs hmarked rfl rfl hrecord
  obtain ⟨rfl, rfl⟩ := Prod.mk.inj (Except.ok.inj (hrecord'.symm.trans hrecord''))
  have hplace :=
    hcompleted.forwarded.place_congr hcompleted'.forwarded hafter.heap hafter.forwarding
  have hregions := hcompleted.regions_congr hcompleted' halike₁ hafter.heap
  have hrel := hcompleted.relocated hplanned.ground
  rw [← hroots] at hrel
  refine ⟨r, r', hrun, hrun', by rw [hroots', hroots, hplace], ?_, ?_⟩
  · exact Heap.sameReachable_of_alike
      (hcompleted.alike hcompleted' halike₁ hafter.heap hafter.forwarding) fun v =>
        (hrel.reaches_iff hw).1
  · have hlists : k₁.liveIn b = h₁.liveIn b := funext fun i => by
      unfold Heap.liveIn
      rw [halike₁.region]
    have hpart : ∀ a ∈ p'.compacting.flatMap (h₁.liveIn b), Reaches h t roots a :=
      fun a ha => (hcompleted.housed.mem_objects.1 ha).1
    have hrecords := hs.recordsOf_congr halike₁ hafter.heap (!s₂.forwarding.overwritesMarks)
      (Berth.placeOf (h₁.places bs o'.humongous)) hpart
    rw [hstats', hstats, hplace, hlists, hafter.forwarding, hafter.saved, hrecords,
      CycleStats.untimed_parallel (untimed_marked_congr times times' htrace)]
    unfold Heap.freeRegionCount
    rw [hregions, halike.regions]

theorem collect_serial_sameReachable (times times' : Durations) (hw : WellFormed h t roots)
    (hw' : WellFormed k t roots) (hsame : h.SameReachable k t roots) (hc : c.Prepared h)
    (hc' : c.Prepared k) (hserial : c.config.style = .serial) :
    ∃ r r', (c.collect times h t roots).outcome = .ok r ∧
      (c.collect times' k t roots).outcome = .ok r' ∧ r'.roots = r.roots ∧
      r.heap.SameReachable r'.heap t r.roots ∧ r'.stats.untimed = r.stats.untimed := by
  have hclassic := hc.toSuits.classic hserial
  obtain ⟨r, b, bs, table, spaces, h₂, g, hrun, rfl, hfilled, -, -, -, -, hroots, hstats, hplanned,
    hcompleted⟩ := collect_completed times hw hc.toSuits hserial
  obtain ⟨r', b', bs', table', spaces', k₂, g', hrun', rfl, hfilled', -, -, -, -, hroots', hstats',
    -, hcompleted'⟩ := collect_completed times' hw' hc'.toSuits hserial
  have htrace := hsame.trace hw hw'.settled hw'.mapped
  have halike := hsame.alike hw hw'.settled
  rw [htrace] at hfilled' hstats' hcompleted'
  rw [hsame.reaches hw hw'.settled hw'.mapped] at hcompleted'
  generalize (h.trace t roots (.ofLayout h.layout)).bitmap = b at *
  have hs := hcompleted.surveyed
  -- the same is planned
  obtain ⟨hplan, halike₁⟩ := Plan.build_alike halike b
  rw [← Heap.liveWord_of_memory hplanned.ground.memory] at halike₁
  rw [hplan] at hcompleted' hstats'
  -- and the same addresses are computed
  obtain ⟨rfl, rfl⟩ := Prod.mk.inj (Except.ok.inj (hfilled'.symm.trans
    ((SerialCycle.filled_alike halike t b _).trans hfilled)))
  have hplace := hcompleted.place_congr hcompleted' halike₁
  have hregions := hcompleted.regions_congr hcompleted' halike₁
  have hrel := hcompleted.relocated hplanned.ground hclassic
  rw [← hroots] at hrel
  refine ⟨r, r', hrun, hrun', by rw [hroots', hroots, hplace], ?_, ?_⟩
  · exact Heap.sameReachable_of_alike
      (hcompleted.alike hcompleted' halike₁ (hplanned.ground.headers.trans hclassic)) fun v =>
        (hrel.reaches_iff hw).1
  · have hlists : (Plan.build k b).2.liveIn b = (Plan.build h b).2.liveIn b := funext fun i => by
      unfold Heap.liveIn
      rw [halike₁.region]
    rw [hstats', hstats, hplace, hlists, SerialCycle.partFrom_congr halike₁.regions,
      SerialCycle.counted_congr hs halike₁ _ fun a ha => ?_,
      CycleStats.untimed_serial (untimed_marked_congr times times' htrace)]
    · unfold Heap.freeRegionCount
      rw [hregions, halike.regions]
    · obtain ⟨i, hi, ha⟩ := List.mem_flatMap.1 ha
      exact ((hs.mem_liveIn (hcompleted.part.inside i hi) a).1 ha).1

/-- A collection finds out nothing about what it cannot reach: if two heaps differ in such words at
most, then it does the same in both, and what can be reached is the same in the end. -/
theorem collect_sameReachable (times times' : Durations) (hw : WellFormed h t roots)
    (hw' : WellFormed k t roots) (hsame : h.SameReachable k t roots) (hc : c.Prepared h) :
    ∃ r r', (c.collect times h t roots).outcome = .ok r ∧
      (c.collect times' k t roots).outcome = .ok r' ∧ r'.roots = r.roots ∧
      r.heap.SameReachable r'.heap t r.roots ∧ r'.stats.untimed = r.stats.untimed := by
  have hc' : c.Prepared k := hc.after rfl rfl rfl hsame.layout hsame.headers hc.ready
  cases hstyle : c.config.style with
  | parallel => exact collect_parallel_sameReachable times times' hw hw' hsame hc hc' hstyle
  | serial => exact collect_serial_sameReachable times times' hw hw' hsame hc hc' hstyle

/-- Four regions with one object, of a class without fields, and another heap with other contents
behind the object. -/
theorem collect_sameReachable_leaf : ∃ (h k : Heap) (t : ClassTable) (a x : Address) (c : Collector),
    WellFormed h t #[a] ∧ WellFormed k t #[a] ∧ h.SameReachable k t #[a] ∧ c.Prepared h ∧
      Reaches h t #[a] a ∧ h.contains x = true ∧ k.memory.load x ≠ h.memory.load x ∧
      ∃ r r', (c.collect ⟨fun _ => 0, 0⟩ h t #[a]).outcome = .ok r ∧
        (c.collect ⟨fun _ => 0, 0⟩ k t #[a]).outcome = .ok r' ∧ r'.roots = r.roots ∧
        r.heap.SameReachable r'.heap t r.roots ∧ r'.stats.untimed = r.stats.untimed := by
  let config : Config := { regionShift := 4, numRegions := 4, blockShift := 2 }
  let leaf : ClassInfo := ⟨"Leaf", 4, []⟩
  have hleaf : (ClassTable.empty false).register leaf = .ok (0, ⟨false, #[leaf]⟩) := rfl
  have hv : config.Valid := by decide
  have hb : config.Backed 0x10000 := by decide
  have hinfo : (⟨false, #[leaf]⟩ : ClassTable).info 0 = some leaf := rfl
  obtain ⟨h, a, hlayout, hheaders, hw, ha⟩ := exists_wellFormed hv hb
    (ClassTable.sound_register (ClassTable.sound_empty _) hleaf) rfl hinfo (by decide) (by decide)
  obtain ⟨c, hnew, hconfig, hc, -⟩ :=
    exists_new hv (refusal_eq_none_iff.2 ⟨by rw [hlayout], by rw [hlayout], hheaders⟩)
  -- nothing else can be reached
  have honly : ∀ v, Reaches h ⟨false, #[leaf]⟩ #[a] v → v = a := by
    refine fun v hv => hv.least (p := (· = a)) (fun v hmem _ => ?_) fun u v _ _ huv => ?_
    · simpa [Roots.live] using (List.mem_filter.1 hmem).1
    · obtain ⟨d, f, hd, hf, -⟩ := huv
      have hmem := ClassTable.mem_of_info (Heap.info_of_infoOf hd)
      obtain rfl : d = leaf := by simpa using hmem
      simp [leaf] at hf
  obtain ⟨d, words, ho⟩ := hw.object ha
  obtain rfl : d = leaf := by simpa using ClassTable.mem_of_info (Heap.info_of_infoOf ho.info)
  have hwords : h.wordsAt ⟨false, #[leaf]⟩ a = 4 :=
    Heap.wordsAt_of_size (Heap.size_of_info ho.info)
  obtain ⟨x, hin, hout⟩ : ∃ x : Address, h.contains x = true ∧
      (x.toNat < a.toNat ∨ a.toNat + 8 * 4 ≤ x.toNat) := by
    have hcontains := hw.mapped.contains_iff hw.settled.layout
    rw [hlayout] at hcontains
    by_cases hlow : a.toNat < 0x10100
    · exact ⟨0x10180, (hcontains _).2 (by decide), .inr (show _ ≤ 0x10180 by omega)⟩
    · exact ⟨0x10000, (hcontains _).2 (by decide), .inl (show 0x10000 < _ by omega)⟩
  have hsame := hw.sameReachable_store (x := x) (h.memory.load x + 1) fun v hv => by
    rw [honly v hv, hwords]
    exact hout
  have hw' := hsame.wellFormed hw (Heap.settled_of_regions hw.settled rfl rfl)
    (hw.mapped.of_span rfl (Memory.sameSpan_store _ _ _))
  obtain ⟨r, r', hrun, hrun', hroots, hafter, hstats⟩ :=
    collect_sameReachable ⟨fun _ => 0, 0⟩ ⟨fun _ => 0, 0⟩ hw hw' hsame hc
  refine ⟨h, _, _, a, x, c, hw, hw', hsame, hc, ha, hin, ?_, r, r', hrun, hrun', hroots, hafter,
    hstats⟩
  show (h.memory.store x (h.memory.load x + 1)).load x ≠ h.memory.load x
  rw [Memory.load_store, if_pos rfl]
  have hlt := (h.memory.load x).toNat_lt
  exact fun heq => absurd (UInt64.toNat_inj.2 heq) (by rw [UInt64.toNat_add, UInt64.toNat_one]; omega)

end Collector

end MarkCompact
