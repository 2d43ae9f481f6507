/-
MarkCompact/Proofs/ParallelCollection.lean

What a parallel collection does, from its first phase to its last.

Each phase finds what it needs in what the phases before it have left, so that a collection
in the parallel style ends without a fault (`Collector.collectParallel_spec`).

Main result: `Collector.collect_parallel` (the object graph is kept).
-/
import MarkCompact.Proofs.ParallelRelocation
import MarkCompact.Proofs.SerialCollection

namespace MarkCompact

open Forwarding

namespace Collected

/-- The cycle with which the phases of the parallel style begin. -/
def begun (s : Collected) (t : ClassTable) (b : Bitmap) : ParallelCycle :=
  let config := s.collector.config
  { classes := t
    settings := ⟨config.regionsPerClaim, config.shadowRegions, config.releaseFreeRegions⟩
    bitmap := b
    state := { heap := s.heap, forwarding := s.collector.forwarding, saved := s.collector.saved }
    log := s.collector.log
    copied := ⟨0, 0, 0⟩
    shadows := 0 }

/-- What a collection works on once it has planned. -/
def planned (s : Collected) (times : Durations) (p : Plan) (c : ParallelCycle) : Collected :=
  ((s.suspend times c .plan).report (.densePrefix s.stats.cycle p.densePrefix)).growIfRequested

/-- What the forward phase comes to, and what it leaves once a request of the encoding to grow has
been met. -/
def recorded (s : Collected) (times : Durations) (t : ClassTable) (b : Bitmap) :
    Except Fault (ForwardOutcome × Relocation) := do
  let (p, c) ← (s.resume (s.begun t b) .plan).plan
  let (o, c) ← ((s.planned times p c).resume c .forward).forward p
  return (o, { c.state with forwarding := c.state.forwarding.growIfRequested.2 })

/-- What the forward phase comes to. -/
def forwarded (s : Collected) (times : Durations) (t : ClassTable) (b : Bitmap) :
    Except Fault ForwardOutcome := do
  let (p, c) ← (s.resume (s.begun t b) .plan).plan
  let (o, _) ← ((s.planned times p c).resume c .forward).forward p
  return o

theorem forwarded_of_recorded {s : Collected} {times : Durations} {t : ClassTable} {b : Bitmap}
    {o : ForwardOutcome} {s₂ : Relocation} (hrun : s.recorded times t b = .ok (o, s₂)) :
    s.forwarded times t b = .ok o := by
  unfold recorded at hrun
  obtain ⟨⟨p, c⟩, hplan, hrun⟩ := exists_of_bind_eq_ok hrun
  obtain ⟨⟨o', c'⟩, hforward, hrun⟩ := exists_of_bind_eq_ok hrun
  obtain ⟨rfl, -⟩ := Prod.mk.inj (Except.ok.inj hrun)
  unfold forwarded
  exact bind_eq_ok hplan (bind_eq_ok hforward rfl)

end Collected

/-- A root refers to what can be reached, or to nothing in the heap. -/
theorem Heap.SameGround.reaches_or_outside {h h' : Heap} (hg : h.SameGround h') {t : ClassTable}
    {roots : Roots} {r : Address} (hr : r ∈ roots.toList) :
    Reaches h t roots r ∨ h'.refersInside r = false := by
  by_cases hin : h'.refersInside r = true
  · unfold Heap.refersInside at hin
    rw [hg.contains, Bool.and_eq_true] at hin
    exact .inl (.root (List.mem_filter.2 ⟨hr, hin.1⟩) hin.2)
  · exact .inr (by simpa using hin)

/-- What adjusting and emptying the regions of the part leave of the region table. -/
theorem ParallelCycle.Emptied.table {h : Heap} {t : ClassTable} {b : Bitmap}
    {live : Address → Prop} {part : List Nat} {n : Announced} {e : Encoding} {starts : StartTable}
    {kept : Nat} {tops : Nat → Address} {bs : List Berth} {vs : List HumongousMove}
    {s : Relocation} {slots : List Address} {c₀ c : ParallelCycle}
    (hc : Emptied h t b s.heap.memory (!s.forwarding.overwritesMarks)
      (Berth.placeOf (h.places bs vs)) c₀ part c)
    (hf : Forwarded h t b live part n e starts kept tops bs vs s)
    (hadj : s.heap.Adjusted c₀.state.heap slots (Berth.placeOf (h.places bs vs))) :
    c.state.heap.layout = h.layout ∧ c.state.heap.regions.size = h.regions.size ∧
      c.state.heap.compactHeaders = h.compactHeaders ∧
      h.memory.SameSpan c.state.heap.memory ∧
      (∀ i ∈ part,
        c.state.heap.region i = { (h.region i).enlisted (tops i) with ready := true }) ∧
      ∀ i < h.regions.size, i ∉ part → (c.state.heap.region i).ended = h.region i := by
  obtain ⟨hlayout, hheaders, hsize, hregion⟩ := hf.adjusted hadj
  refine ⟨hc.layout.trans hlayout, hc.size.trans hsize, hc.headers.trans hheaders,
    hf.records.span.trans (hadj.span.trans hc.memory.span), fun i hi => ?_, fun i hi hout => ?_⟩
  · rw [hc.ready i hi, hregion, hf.member i hi]
  · rw [hc.other i hout, hregion]
    by_cases hcomes : ∃ v ∈ vs, v.Comes h.layout i
    · rw [hf.taken i hout hcomes]
      obtain ⟨top, compacting, ready, -⟩ := hf.idle i hi
      exact (hf.idle i hi).ended_noted (h.region i).compactionTop (h.region i).ready
    · rw [hf.other i hout fun v hv hvi => hcomes ⟨v, hv, hvi⟩]
      exact (hf.idle i hi).ended

/-- When the regions of the part have been emptied, the collection can end. -/
theorem ParallelCycle.Emptied.finish {h : Heap} {t : ClassTable} {b : Bitmap}
    {live : Address → Prop} {part : List Nat} {n : Announced} {e : Encoding} {starts : StartTable}
    {kept : Nat} {tops : Nat → Address} {bs : List Berth} {vs : List HumongousMove}
    {s : Relocation} {slots : List Address} (c₀ : ParallelCycle) {c : ParallelCycle} {p : Plan}
    (hf : Forwarded h t b live part n e starts kept tops bs vs s)
    (hadj : s.heap.Adjusted c₀.state.heap slots (Berth.placeOf (h.places bs vs)))
    (hc : Emptied h t b s.heap.memory (!s.forwarding.overwritesMarks)
      (Berth.placeOf (h.places bs vs)) c₀ part c)
    (hforwarding : c₀.state.forwarding = s.forwarding) (hpart : p.compacting = part)
    (free : Nat) :
    ∃ o h', c.finish p vs free = .ok (o, { c with
        bitmap := c.bitmap.clear
        state := { heap := h', forwarding := s.forwarding.finish, saved := #[] } }) ∧
      c.bitmap = c₀.bitmap ∧
      Counted o (MoveRecord.countAll (h.recordsOf t s.heap.memory (!s.forwarding.overwritesMarks)
        (Berth.placeOf (h.places bs vs)) (part.flatMap (h.liveIn b))) c₀.copied) vs c₀.shadows
        (h'.freeRegionCount - free) ∧
      Finished h part tops vs (!s.forwarding.overwritesMarks) c₀.state.saved
        c₀.settings.releaseFreeRegions c.state.heap h' := by
  obtain ⟨hlayout, hsize, hheaders, hspan, hmember, hother⟩ := hc.table hf hadj
  obtain ⟨o, h', hrun, hcounted, hfinished⟩ := finish_spec (c := c) hf.housed hf.idle hpart
    hlayout hsize hheaders hspan hmember hother free
  obtain ⟨heap, rfl⟩ := hc.cycle
  refine ⟨o, h', ?_, rfl, hcounted, ?_⟩
  · rw [hrun, ← hforwarding]
    rfl
  · rw [← hforwarding]
    exact hfinished

/-- The figures of a collection in the parallel style: `copied` are the objects that have moved
but for the humongous ones, `saved` the number of marks kept aside, `kept` what the encoding
has kept. -/
def CycleStats.parallel (s : CycleStats) (o : ForwardOutcome) (copied : CopyCount)
    (saved dense freed : Nat) (kept : ForwardingStats) : CycleStats :=
  { s with
    forwardedObjects := copied.objects + o.humongous.length
    movedObjects := copied.objects + o.humongous.length
    movedWords := copied.words.toNat + (o.humongous.map (·.copySize.toNat)).foldr (· + ·) 0
    grownObjects := copied.grown + o.humongous.countP HumongousMove.grown
    humongousMoved := o.humongous.length
    preservedMarks := saved
    shadowRegions := 0
    densePrefixRegions := dense
    freedRegions := freed
    forwardingEntries := kept.entries
    maxScan := kept.maxScan.toNat }

namespace Collector

/-- A collector that suits the heap, with its encoding ready for the next collection. -/
structure Prepared (c : Collector) (h : Heap) : Prop extends c.Suits h where
  ready : c.forwarding.Ready h.layout h.compactHeaders

/-- A valid configuration that describes the heap gets a collector. -/
theorem exists_new {config : Config} {h : Heap} (hv : config.Valid)
    (haccepted : refusal config h = none) :
    ∃ c, new config h = .ok (.ok c) ∧ c.config = config ∧ c.Prepared h ∧
      c.forwarding.encoding = config.encoding := by
  obtain ⟨hshift, -, hheaders⟩ := refusal_eq_none_iff.1 haccepted
  obtain ⟨f, hselect, hready⟩ := ready_select hv hshift
  refine ⟨⟨config, f, .ofLayout h.layout, #[], .new { level := .trace, console := config.verbose },
    0⟩, ?_, rfl, ⟨⟨hv, haccepted, rfl, rfl⟩, ?_⟩, Forwarding.encoding_select hselect⟩
  · unfold new
    rw [(Config.validate_eq_ok_iff config).2 hv, haccepted, hselect]
    rfl
  · rw [hheaders]
    exact hready

/-- The phases after marking go through one after the other. -/
theorem collectParallel_spec (times : Durations) {t : ClassTable} {roots : Roots} {h : Heap}
    {b : Bitmap} (free : Nat) {s : Collected} (hw : WellFormed h t roots)
    (hshows : b.Shows h.layout (Reaches h t roots) (h.wordsAt t)) (hheap : s.heap = h)
    (hroots : s.roots = roots) (hsaved : s.collector.saved = #[])
    (hready : s.collector.forwarding.Ready h.layout h.compactHeaders) :
    ∃ r o n tops bs s₂ h₂ g, collectParallel times t b free s = .ok r ∧
      s.recorded times t b = .ok (o, s₂) ∧ r.collector.config = s.collector.config ∧
      r.collector.bitmap = .ofLayout h.layout ∧ r.collector.saved = #[] ∧
      r.collector.forwarding = s₂.forwarding.finish ∧
      r.roots = roots.map (Berth.placeOf ((Plan.build h b).2.places bs o.humongous)) ∧
      r.stats.untimed = (s.stats.parallel o
        (MoveRecord.countAll ((Plan.build h b).2.recordsOf t s₂.heap.memory
          (!s₂.forwarding.overwritesMarks)
          (Berth.placeOf ((Plan.build h b).2.places bs o.humongous))
          ((Plan.build h b).1.compacting.flatMap ((Plan.build h b).2.liveIn b))) .zero)
        s₂.saved.size (Plan.build h b).1.densePrefix (r.heap.freeRegionCount - free)
        s₂.forwarding.stats).untimed ∧
      ParallelCycle.Completed (Plan.build h b).2 t b (Reaches h t roots)
        (Plan.build h b).1.compacting n s.collector.forwarding.encoding
        ((Plan.build h b).2.clearedStarts (Plan.build h b).1.compacting) o.count.keptInPlace tops
        bs o.humongous s₂ s.collector.config.releaseFreeRegions h₂ g r.heap := by
  subst hroots
  have hplanned := Plan.planned_build hw.settled.toTabled b
  have hs₀ := hw.surveyed_of_shows hshows
  have hs := hw.surveyed hshows hplanned
  have hidle := hplanned.idle hw.settled.idle
  have hbuild : Plan.build h b = ((Plan.build h b).1, (Plan.build h b).2) := rfl
  generalize (Plan.build h b).2 = h₁ at *
  generalize (Plan.build h b).1 = p at *
  -- plan
  obtain ⟨n, f, g₁, hplan, hlists, htotal, hen, hmem, hstarts, hrec, hcode⟩ :=
    ParallelCycle.plan_spec (c := s.resume (s.begun t b) .plan) (p := p) hheap hbuild hplanned hs₀
      hs hready
  obtain ⟨hrec, hgrown⟩ := hrec.growIfRequested
  rw [← hmem] at hrec
  -- forward
  let c₁ : ParallelCycle := { s.resume (s.begun t b) .plan with state := ⟨g₁, f, s.collector.saved⟩ }
  let S₁ := s.planned times p c₁
  have hmustered := ParallelCycle.mustered hplanned hs₀ hs hlists htotal
  obtain ⟨o, s₁, n', tops, bs, hforward, hf, hmoves⟩ := ParallelCycle.forward_spec
    (c := S₁.resume c₁ .forward) (p := p) (e := s.collector.forwarding.encoding) rfl rfl rfl
    hplanned.humongous_eq hs hmustered hlists
    hidle (fun i hi => (hplanned.region_compacting hi).2.2.2) hen (by rw [← hmem]; exact hrec)
    (hgrown.trans hcode) hsaved
  have hf := hf.growIfRequested
  rw [show (S₁.resume c₁ .forward).state.heap.starts = h₁.clearedStarts p.compacting from hstarts]
    at hf
  -- adjust
  let c₂ : ParallelCycle := { S₁.resume c₁ .forward with state := s₁ }
  let S₂ := (S₁.suspend times c₂ .forward).growIfRequested
  obtain ⟨k, h₂, hadjust, hadj⟩ := ParallelCycle.adjust_spec (c := S₂.resume c₂ .adjust) rfl rfl hf
    fun r => hplanned.ground.reaches_or_outside
  -- compact
  let c₃ : ParallelCycle := { S₂.resume c₂ .adjust with
    state :=
      { (S₂.resume c₂ .adjust).state with
        heap := h₂
        saved := (S₂.resume c₂ .adjust).state.saved.map fun x =>
          { x with object := Berth.placeOf (h₁.places bs o.humongous) x.object } } }
  let S₃ := { S₂ with roots := s.roots.map (Berth.placeOf (h₁.places bs o.humongous)) }.suspend times
    c₃ .adjust
  obtain ⟨c₄, hcompact, hemptied⟩ := ParallelCycle.compact_spec (c := S₃.resume c₃ .compact) hf rfl
    rfl rfl hadj (fun x hx => by
      obtain ⟨e, he, hx⟩ := List.mem_flatMap.1 hx
      exact ⟨e, (hs.mem_liveList e).1 he, hx⟩)
  -- finish
  obtain ⟨out, h', hfinish, hkept, hcounted, hfinished⟩ := ParallelCycle.Emptied.finish
    (S₃.resume c₃ .compact) (p := p) hf hadj hemptied rfl rfl free
  refine ⟨?result, o, n', tops, bs, ⟨s₁.heap, s₁.forwarding.growIfRequested.2, s₁.saved⟩, h₂,
    c₄.state.heap, ?run, ?counts, ?_⟩
  case run =>
    unfold collectParallel
    refine bind_eq_ok hplan ?_
    refine bind_eq_ok hforward ?_
    refine bind_eq_ok hadjust ?_
    refine bind_eq_ok hcompact ?_
    refine bind_eq_ok hfinish ?_
    exact rfl
  case counts =>
    unfold Collected.recorded
    exact bind_eq_ok hplan (bind_eq_ok hforward rfl)
  refine ⟨rfl, ?_, rfl, rfl, rfl, ?_, hf, hadj, hemptied.memory, ?_, hfinished⟩
  · rw [← hshows.fits.cleared]
    exact congrArg Bitmap.clear hkept
  · obtain ⟨heap, rfl⟩ := hemptied.cycle
    unfold CycleStats.parallel
    dsimp only [CycleStats.untimed]
    rw [hcounted.moved, hcounted.words, hcounted.grown, hcounted.shadows, hcounted.freed]
    -- every object that has been given a new address moves
    have hobjects : (MoveRecord.countAll (h₁.recordsOf t s₁.heap.memory
        (!s₁.forwarding.growIfRequested.2.overwritesMarks)
        (Berth.placeOf (h₁.places bs o.humongous)) (p.compacting.flatMap (h₁.liveIn b)))
        .zero).objects = o.count.forwarded := by
      rw [MoveRecord.objects_countAll]
      exact (Nat.zero_add _).trans (hf.housed.length_recordsOf.trans hmoves.symm)
    rw [← hobjects]
    rfl
  · have hsame := congrArg Heap.starts hadj.heap
    exact hemptied.starts.trans hsame

/-- What the forward phase of a collection in the parallel style comes to. -/
def forwardPhase (c : Collector) (times : Durations) (h : Heap) (t : ClassTable) (roots : Roots) :
    Except Fault ForwardOutcome :=
  (c.marked times h t roots).forwarded times t (h.trace t roots (.ofLayout h.layout)).bitmap

/-- What the forward phase of a collection in the parallel style comes to, and what it leaves. -/
def recordPhase (c : Collector) (times : Durations) (h : Heap) (t : ClassTable) (roots : Roots) :
    Except Fault (ForwardOutcome × Relocation) :=
  (c.marked times h t roots).recorded times t (h.trace t roots (.ofLayout h.layout)).bitmap

theorem forwardPhase_of_record {c : Collector} {times : Durations} {h : Heap} {t : ClassTable}
    {roots : Roots} {o : ForwardOutcome} {s₂ : Relocation}
    (hrun : c.recordPhase times h t roots = .ok (o, s₂)) :
    c.forwardPhase times h t roots = .ok o :=
  Collected.forwarded_of_recorded hrun

/-- Marking goes through, and the phases after it. -/
theorem collect_parallel_completed {c : Collector} (times : Durations) {h : Heap} {t : ClassTable}
    {roots : Roots} (hw : WellFormed h t roots) (hc : c.Prepared h)
    (hparallel : c.config.style = .parallel) :
    ∃ r b p h₁ o n tops bs s₂ h₂ g, (c.collect times h t roots).outcome = .ok r ∧
      c.recordPhase times h t roots = .ok (o, s₂) ∧
      b = (h.trace t roots (.ofLayout h.layout)).bitmap ∧ Plan.build h b = (p, h₁) ∧
      Planned h b p h₁ ∧ r.collector.config = c.config ∧
      r.collector.bitmap = c.bitmap ∧ r.collector.saved = c.saved ∧
      r.collector.forwarding = s₂.forwarding.finish ∧
      r.roots = roots.map (Berth.placeOf (h₁.places bs o.humongous)) ∧
      r.stats.untimed = ((c.marked times h t roots).stats.parallel o
        (MoveRecord.countAll (h₁.recordsOf t s₂.heap.memory (!s₂.forwarding.overwritesMarks)
          (Berth.placeOf (h₁.places bs o.humongous)) (p.compacting.flatMap (h₁.liveIn b))) .zero)
        s₂.saved.size p.densePrefix (r.heap.freeRegionCount - h.freeRegionCount)
        s₂.forwarding.stats).untimed ∧
      ParallelCycle.Completed h₁ t b (Reaches h t roots) p.compacting n c.forwarding.encoding
        (h₁.clearedStarts p.compacting) o.count.keptInPlace tops bs o.humongous s₂
        c.config.releaseFreeRegions h₂ g r.heap := by
  obtain ⟨met, -, -, hfault, hshows, -, -⟩ := hw.trace
  obtain ⟨r, o, n, tops, bs, s₂, h₂, g, hrun, hforward, hconfig, hbitmap, hsaved, hforwarding,
    hroots, hstats, hcompleted⟩ :=
    collectParallel_spec times h.freeRegionCount (s := c.marked times h t roots) hw hshows rfl rfl
      hc.saved hc.ready
  refine ⟨conclude times r, _, _, _, o, n, tops, bs, s₂, h₂, g, ?_, hforward, rfl, rfl,
    Plan.planned_build hw.settled.toTabled _, hconfig, hbitmap.trans hc.bitmap.symm,
    hsaved.trans hc.saved.symm, hforwarding, hroots, hstats, hcompleted⟩
  rw [outcome_of_marked times hc.toSuits hfault]
  unfold collectMarked
  rw [show (c.marked times h t roots).collector.config.style = .parallel from hparallel]
  dsimp only
  rw [hrun]
  rfl

/-- The forwarding that a collection leaves is ready for the next one. -/
theorem ready_finish {h h₁ h₂ g h' : Heap} {t : ClassTable} {b : Bitmap} {live : Address → Prop}
    {part : List Nat} {n : Forwarding.Announced} {e : Encoding} {starts : StartTable} {kept : Nat}
    {tops : Nat → Address} {bs : List Berth} {vs : List HumongousMove} {s : Relocation}
    {release : Bool} (hground : h.SameGround h₁)
    (hcompleted : ParallelCycle.Completed h₁ t b live part n e starts kept tops bs vs s release h₂ g
      h') : s.forwarding.finish.Ready h.layout h.compactHeaders := by
  have hready := hcompleted.forwarded.records.ready_finish
  rwa [hcompleted.forwarded.grid, hcompleted.forwarded.compact, hground.layout,
    hground.headers] at hready

/-- The collector is ready for the next collection. -/
theorem Prepared.after {c c' : Collector} {h h' : Heap} (hc : c.Prepared h)
    (hconfig : c'.config = c.config) (hbitmap : c'.bitmap = c.bitmap) (hsaved : c'.saved = c.saved)
    (hlayout : h'.layout = h.layout) (hheaders : h'.compactHeaders = h.compactHeaders)
    (hready : c'.forwarding.Ready h.layout h.compactHeaders) : c'.Prepared h' := by
  refine ⟨hc.toSuits.congr hconfig hbitmap hsaved hlayout hheaders, ?_⟩
  rw [hlayout, hheaders]
  exact hready

/-! ### The object graph -/

/-- A collection in the parallel style moves the objects that can be reached, no two of them to
the same place, and leaves the object graph as it is. -/
theorem collect_parallel {c : Collector} (times : Durations) {h : Heap} {t : ClassTable}
    {roots : Roots} (hw : WellFormed h t roots) (hc : c.Prepared h)
    (hparallel : c.config.style = .parallel) :
    ∃ r move, (c.collect times h t roots).outcome = .ok r ∧
      Relocated h t roots r.heap r.roots move ∧
      (∀ a e, Reaches h t roots a → Reaches h t roots e → move a = move e → a = e) ∧
      (∀ v, Reaches r.heap t r.roots v ↔ ∃ a, Reaches h t roots a ∧ move a = v) ∧
      r.heap.graph t r.roots = h.graph t roots ∧ WellFormed r.heap t r.roots ∧
      r.collector.Prepared r.heap := by
  obtain ⟨r, b, p, h₁, o, n, tops, bs, s₂, h₂, g, hrun, -, -, -, hplanned, hconfig, hbitmap,
    hsaved, hforwarding, hroots, -, hcompleted⟩ := collect_parallel_completed times hw hc hparallel
  have hrel := hcompleted.relocated hplanned.ground
  rw [← hroots] at hrel
  have hready := hcompleted.forwarded.records.ready_finish
  rw [hcompleted.forwarded.grid, hcompleted.forwarded.compact, hplanned.ground.layout,
    hplanned.ground.headers, ← hforwarding] at hready
  exact ⟨r, _, hrun, hrel, fun a e => hrel.injective hw, fun v => hrel.reaches_iff hw,
    hrel.graph_eq hw, hrel.wellFormed hw, 
    hc.after hconfig hbitmap hsaved hrel.layout hrel.headers hready⟩

/-- For every valid configuration there are a heap with an object that can be reached and a
collector of it. -/
theorem exists_collector {config : Config} {base : Address} (hv : config.Valid)
    (hb : config.Backed base) (hfew : config.heapBytes.toNat < 8 * 2 ^ 32) :
    ∃ h t a c, WellFormed h t #[a] ∧ Reaches h t #[a] a ∧ new config h = .ok (.ok c) ∧
      c.config = config ∧ c.forwarding.encoding = config.encoding ∧ c.Prepared h := by
  let node : ClassInfo := ⟨"Node", 4, [2]⟩
  have hnode : (ClassTable.empty config.compactHeaders).register node
      = .ok (0, ⟨config.compactHeaders, #[node]⟩) := by
    cases config.compactHeaders <;> rfl
  have hinfo : (ClassTable.mk config.compactHeaders #[node]).info 0 = some node := rfl
  have hfits : node.words.toNat ≤ 2 ^ config.regionShift.toNat := by
    have hshift := UInt32.le_iff_toNat_le.1 hv.regionShift.1
    have hshift : 4 ≤ config.regionShift.toNat := hshift
    have hpow := Nat.pow_le_pow_right (show 0 < 2 by decide) hshift
    show 4 ≤ 2 ^ config.regionShift.toNat
    omega
  obtain ⟨h, a, hlayout, hheaders, hw, ha⟩ := exists_wellFormed hv hb
    (ClassTable.sound_register (ClassTable.sound_empty _) hnode) rfl hinfo hfits hfew
  obtain ⟨c, hnew, hconfig, hc, hcode⟩ := exists_new hv
    (refusal_eq_none_iff.2 ⟨by rw [hlayout], by rw [hlayout], hheaders⟩)
  exact ⟨h, _, a, c, hw, ha, hnew, hconfig, hcode, hc⟩

/-- A heap of four regions with one object, the class of which lies in its mark. -/
theorem collect_parallel_node : ∃ (h : Heap) (t : ClassTable) (a : Address) (c : Collector),
    WellFormed h t #[a] ∧ c.Prepared h ∧ c.config.style = .parallel ∧ Reaches h t #[a] a ∧
      ∃ r move, (c.collect ⟨fun _ => 0, 0⟩ h t #[a]).outcome = .ok r ∧
        Relocated h t #[a] r.heap r.roots move ∧ r.heap.graph t r.roots = h.graph t #[a] := by
  let config : Config :=
    { compactHeaders := true, regionShift := 4, numRegions := 4, blockShift := 2 }
  have hv : config.Valid := by decide
  have hb : config.Backed 0x10000 := by decide
  obtain ⟨h, t, a, c, hw, ha, -, hconfig, -, hc⟩ := exists_collector hv hb (by decide)
  have hparallel : c.config.style = .parallel := by rw [hconfig]
  obtain ⟨r, move, hrun, hrel, -, -, hgraph, -⟩ := collect_parallel ⟨fun _ => 0, 0⟩ hw hc hparallel
  exact ⟨h, t, a, c, hw, hc, hparallel, ha, r, move, hrun, hrel, hgraph⟩

end Collector

end MarkCompact
