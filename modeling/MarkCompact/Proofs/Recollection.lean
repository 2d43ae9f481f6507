/-
MarkCompact/Proofs/Recollection.lean

Two collections in a row.

The first one leaves every object as far left as its style and its encoding would put it, and so
the second one gives every object the place that it has.  It reports that nothing has moved, and
it leaves the heap and the roots as it has found them: regions, starts and words.

Objects that the encoding has kept in place are the exception, for the second collection may find
room for them that the first one had no base left for.  With classic headers there are none, nor
with an encoding that is not restricted to two bases.

Main result: `Collector.collect_again`.
-/
import MarkCompact.Proofs.ParallelCompacted
import MarkCompact.Proofs.SerialCompacted
import MarkCompact.Proofs.SessionCharts

namespace MarkCompact

/-! ### The size of blocks -/

theorem SerialCycle.blockShift_filled {h : Heap} {t : ClassTable} {b : Bitmap} {blockShift : UInt32}
    {table : BlockOffsets} {spaces : Array Space}
    (hrun : SerialCycle.filled h t b blockShift = .ok (table, spaces)) :
    table.blockShift = blockShift := by
  unfold SerialCycle.filled at hrun
  obtain ⟨c, hnew, hrun⟩ := exists_of_bind_eq_ok hrun
  obtain ⟨⟨n, c'⟩, hforward, hrun⟩ := exists_of_bind_eq_ok hrun
  obtain ⟨rfl, -⟩ := Prod.mk.inj (Except.ok.inj hrun)
  unfold SerialCycle.new at hnew
  split at hnew
  · cases hnew
  · rw [← Except.ok.inj hnew] at hforward
    unfold SerialCycle.forward at hforward
    dsimp only at hforward
    split at hforward
    · obtain ⟨-, rfl⟩ := Prod.mk.inj (Except.ok.inj hforward)
      rfl
    · obtain ⟨f, hbuild, hforward⟩ := exists_of_bind_eq_ok hforward
      obtain ⟨-, rfl⟩ := Prod.mk.inj (Except.ok.inj hforward)
      exact (BlockOffsets.sameBlocks_build hbuild).shift

/-! ### The next collection -/

theorem Heap.recordsOf_fixed {h : Heap} {t : ClassTable} {m : Memory} {keepsMarks : Bool}
    {place : Address → Address} {as : List Address} (hplace : ∀ a, place a = a) :
    h.recordsOf t m keepsMarks place as = [] :=
  List.eq_nil_iff_forall_not_mem.2 fun q hq => by
    obtain ⟨a, -, hne, -⟩ := Heap.mem_recordsOf.1 hq
    exact hne (hplace a)

namespace Collector

variable {c : Collector} {h : Heap} {t : ClassTable} {roots : Roots}

theorem again_parallel (times times' : Durations) (hw : WellFormed h t roots) (hc : c.Prepared h)
    (hserves : h.starts.Serves h.layout) (hparallel : c.config.style = .parallel)
    (hfree : h.compactHeaders = false ∨ c.forwarding.encoding ≠ .sliding) :
    ∃ r r', (c.collect times h t roots).outcome = .ok r ∧
      (r.collector.collect times' r.heap t r.roots).outcome = .ok r' ∧
      r'.stats.movedObjects = 0 ∧ r'.stats.humongousMoved = 0 ∧
      r.heap.Unchanged r'.heap ∧ r'.roots = r.roots := by
  obtain ⟨r, b, p, h₁, o, n, tops, bs, s₂, h₂, g, hrun, hrecord, rfl, -, hplanned, hconfig,
    hbitmap, hsaved, hforwarding, hroots, -, hcompleted⟩ :=
    collect_parallel_completed times hw hc hparallel
  have hrel := hcompleted.relocated hplanned.ground
  rw [← hroots] at hrel
  have hw' := hrel.wellFormed hw
  have hc' : r.collector.Prepared r.heap :=
    hc.after hconfig hbitmap hsaved hrel.layout hrel.headers
      (hforwarding ▸ ready_finish hplanned.ground hcompleted)
  -- what the first collection leaves
  have hkept : o.count.keptInPlace = 0 :=
    hcompleted.forwarded.free (by rwa [hplanned.ground.headers])
  have hpart : ∀ i, i ∈ p.compacting ↔
      p.densePrefix ≤ i ∧ i < h₁.regions.size ∧ (h₁.region i).kind = .regular := fun i =>
    ⟨fun hi => by
      obtain ⟨h1, h2, -, h3⟩ := hplanned.region_compacting hi
      exact ⟨h1, h2, h3⟩, fun ⟨h1, h2, h3⟩ => hplanned.mem_compacting h1 h2 h3⟩
  have hdense := hplanned.full_dense hcompleted.surveyed
  have hout := hplanned.liveOutside hw.settled.toTabled hcompleted.surveyed
    fun i hd hi hk => hplanned.mem_compacting hd hi hk
  have hserves₁ : h₁.starts.Serves h₁.layout := by
    obtain ⟨dead, -, hstarts⟩ := hplanned.starts
    rw [hstarts, hplanned.ground.layout]
    exact hserves.forget dead
  have hd : p.densePrefix ≤ h₁.regions.size := by
    rw [hplanned.ground.size]
    exact hplanned.dense_le
  have hcompacted := hcompleted.compacted hpart hdense hserves₁ hd hkept hout
  have hfit := hcompleted.nextFit hpart hdense hkept
  have hleftmost := hcompleted.leftmost hout
  have hlive : (fun v => ∃ a, Reaches h t roots a ∧
      Berth.placeOf (h₁.places bs o.humongous) a = v) = Reaches r.heap t r.roots :=
    funext fun v => propext (hrel.reaches_iff hw).symm
  rw [hlive] at hcompacted
  -- what the second one finds
  obtain ⟨r', b', p', h₁', o', n', tops', bs', s₂', h₂', g', hrun', -, rfl, hbuild', hplanned', -,
    -, -, -, hroots', hstats', hcompleted'⟩ :=
    collect_parallel_completed times' hw' hc' (by rw [hconfig]; exact hparallel)
  obtain ⟨-, -, -, -, hshows', -, -⟩ := hw'.trace
  have hs' := hw'.surveyed_of_shows hshows'
  obtain rfl : h₁' = r.heap := hplanned'.same hs' hcompacted.gapless
  have hlonger : p.densePrefix ≤ p'.densePrefix := by
    have hle := hs'.le_densePrefix hcompacted.gapless hcompacted.dense_le hcompacted.dense
    rwa [hbuild'] at hle
  have hpart' : ∀ i, i ∈ p'.compacting ↔ p'.densePrefix ≤ i ∧ i < r.heap.regions.size ∧
      (r.heap.region i).kind = .regular := fun i =>
    ⟨fun hi => by
      obtain ⟨h1, h2, -, h3⟩ := hplanned'.region_compacting hi
      exact ⟨h1, h2, h3⟩, fun ⟨h1, h2, h3⟩ => hplanned'.mem_compacting h1 h2 h3⟩
  have hrecorded : ∀ i ∈ p'.compacting, r.heap.Recorded (Reaches r.heap t r.roots) i := by
    intro i hi
    obtain ⟨hle, hsize, hk⟩ := (hpart' i).1 hi
    rw [hcompleted.finished.refilled.size] at hsize
    rcases hcompleted.regular_cases hpart hdense hsize hk with ⟨hin, hsteady, -, -⟩ | ⟨hlt, -⟩
    · rw [← hlive]
      exact hcompleted.recorded hserves₁ hin hsteady
    · omega
  have hcompacted' := hcompacted
  rw [← hconfig] at hcompacted'
  obtain ⟨hvs, hplace, hunchanged⟩ :=
    hcompleted'.same hcompacted' hpart' hfit hleftmost hrecorded
  refine ⟨r, r', hrun, hrun', ?_, ?_, hunchanged, ?_⟩
  · refine (congrArg CycleStats.movedObjects hstats').trans ?_
    show (MoveRecord.countAll _ _).objects + o'.humongous.length = 0
    rw [Heap.recordsOf_fixed hplace, hvs]
    rfl
  · refine (congrArg CycleStats.humongousMoved hstats').trans ?_
    show o'.humongous.length = 0
    rw [hvs]
    rfl
  · rw [hroots', funext hplace]
    exact Array.map_id' _

theorem again_serial (times times' : Durations) (hw : WellFormed h t roots) (hc : c.Prepared h)
    (hserves : h.starts.Serves h.layout) (hserial : c.config.style = .serial) :
    ∃ r r', (c.collect times h t roots).outcome = .ok r ∧
      (r.collector.collect times' r.heap t r.roots).outcome = .ok r' ∧
      r'.stats.movedObjects = 0 ∧ r'.stats.humongousMoved = 0 ∧
      r.heap.Unchanged r'.heap ∧ r'.roots = r.roots := by
  obtain ⟨r, b, bs, table, spaces, h₂, g, hrun, rfl, hfilled, hconfig, hforwarding, hbitmap, hsaved,
    hroots, -, hplanned, hcompleted⟩ := collect_completed times hw hc.toSuits hserial
  have hclassic := hc.classic hserial
  have hrel := hcompleted.relocated hplanned.ground hclassic
  rw [← hroots] at hrel
  have hw' := hrel.wellFormed hw
  have hsuits' : r.collector.Suits r.heap :=
    hc.toSuits.congr hconfig hbitmap hsaved hrel.layout hrel.headers
  generalize hbuild : Plan.build h _ = built at *
  obtain ⟨p, h₁⟩ := built
  dsimp only at *
  -- what the first collection leaves
  have hdense := hplanned.full_dense hcompleted.surveyed
  have hpart : ∀ i, p.densePrefix ≤ i → i < h₁.regions.size → (h₁.region i).kind = .regular →
      i ∈ h₁.partFrom p.densePrefix := fun i hd hi hk =>
    (Heap.mem_partFrom hcompleted.dense i).2 ⟨hd, hi, by rw [hk]; rfl⟩
  have hout := hplanned.liveOutside hw.settled.toTabled hcompleted.surveyed hpart
  have hserves₁ : h₁.starts.Serves h₁.layout := by
    obtain ⟨dead, -, hstarts⟩ := hplanned.starts
    rw [hstarts, hplanned.ground.layout]
    exact hserves.forget dead
  have hcompacted := hcompleted.compacted hdense hserves₁ hout
  have hfit := hcompleted.nextBlockFit hdense
  have hlive : (fun v => ∃ a, Reaches h t roots a ∧ Berth.placeOf bs a = v)
      = Reaches r.heap t r.roots :=
    funext fun v => propext (hrel.reaches_iff hw).symm
  rw [hlive] at hcompacted hfit
  -- what the second one finds
  obtain ⟨r', b', bs', table', spaces', h₂', g', hrun', rfl, hfilled', -, -, -, -, hroots', hstats',
    hplanned', hcompleted'⟩ := collect_completed times' hw' hsuits' (by rw [hconfig]; exact hserial)
  obtain ⟨-, -, -, -, hshows', -, -⟩ := hw'.trace
  have hs' := hw'.surveyed_of_shows hshows'
  have hlonger := hs'.le_densePrefix hcompacted.gapless hcompacted.dense_le hcompacted.dense
  have hsame := hplanned'.same hs' hcompacted.gapless
  generalize hbuild' : Plan.build r.heap _ = built' at *
  obtain ⟨p', h₁'⟩ := built'
  dsimp only at *
  subst hsame
  have hblocks : table'.blockSize = table.blockSize := by
    have h1 := SerialCycle.blockShift_filled hfilled
    have h2 := SerialCycle.blockShift_filled hfilled'
    unfold BlockOffsets.blockSize
    rw [h1, h2, hconfig]
  have hrecorded : ∀ i ∈ r.heap.partFrom p'.densePrefix,
      r.heap.Recorded (Reaches r.heap t r.roots) i := by
    intro i hi
    obtain ⟨hle, hsize, hk⟩ := (Heap.mem_partFrom hcompleted'.dense i).1 hi
    rw [hcompleted.retopped.size] at hsize
    rw [← hlive]
    refine hcompleted.recorded hserves₁ ((hcompleted.mem_part_or_lt hsize hk).resolve_right ?_)
    omega
  have hcompacted' := { hcompacted with
    dense_le := hcompleted'.dense
    dense := hplanned'.full_dense hs' }
  rw [← hconfig] at hcompacted'
  rw [← hblocks] at hfit
  obtain ⟨hplace, hunchanged⟩ := hcompleted'.same hcompacted' hfit hrecorded
  refine ⟨r, r', hrun, hrun', ?_, congrArg CycleStats.humongousMoved hstats', hunchanged, ?_⟩
  · refine (congrArg CycleStats.movedObjects hstats').trans ?_
    show (List.filter (fun a => Berth.placeOf bs' a != a) _).length = 0
    rw [List.length_eq_zero_iff, List.filter_eq_nil_iff]
    intro a _
    simp [hplace a]
  · rw [hroots', funext hplace]
    exact Array.map_id' _

/-- If a collection follows another one, with nothing in between, it moves no object and leaves
regions, starts, words and roots as they are. -/
theorem collect_again (times times' : Durations) (hw : WellFormed h t roots) (hc : c.Prepared h)
    (hserves : h.starts.Serves h.layout) (hfree : c.config.style = .serial ∨
      h.compactHeaders = false ∨ c.forwarding.encoding ≠ .sliding) :
    ∃ r r', (c.collect times h t roots).outcome = .ok r ∧
      (r.collector.collect times' r.heap t r.roots).outcome = .ok r' ∧
      r'.stats.movedObjects = 0 ∧ r'.stats.humongousMoved = 0 ∧
      r.heap.Unchanged r'.heap ∧ r'.roots = r.roots := by
  cases hstyle : c.config.style with
  | parallel =>
    refine again_parallel times times' hw hc hserves hstyle (hfree.resolve_left fun hserial => ?_)
    rw [hstyle] at hserial
    cases hserial
  | serial => exact again_serial times times' hw hc hserves hstyle

end Collector

/-- A run keeps the layout of headers. -/
theorem Session.Run.headers {t : ClassTable} {s₀ s : Session} (hrun : Session.Run t s₀ s)
    (hs : s₀.Sound t) : s.heap.compactHeaders = s₀.heap.compactHeaders := by
  induction hrun with
  | start => rfl
  | mutate before step ih => exact (step.spec (before.sound hs)).2.headers.trans ih
  | collect before step ih =>
    obtain ⟨-, move, hrel⟩ := step.spec (before.sound hs)
    exact hrel.headers.trans ih

/-- The heap of a short run, with an object in a root. -/
theorem Collector.collect_again_node : ∃ (c : Collector) (h : Heap) (t : ClassTable) (a : Address),
    WellFormed h t #[a] ∧ Reaches h t #[a] a ∧ c.Prepared h ∧ h.starts.Serves h.layout ∧
      h.compactHeaders = false ∧
      ∃ r r', (c.collect ⟨fun _ => 0, 0⟩ h t #[a]).outcome = .ok r ∧
        (r.collector.collect ⟨fun _ => 0, 0⟩ r.heap t r.roots).outcome = .ok r' ∧
        r'.stats.movedObjects = 0 ∧ r'.stats.humongousMoved = 0 ∧
        r.heap.Unchanged r'.heap ∧ r'.roots = r.roots := by
  let config : Config := { regionShift := 4, numRegions := 4, blockShift := 2 }
  have hv : config.Valid := by decide
  have hb : config.Backed 0x10000 := by decide
  obtain ⟨t, s₀, s, a, hstart, hrun, hroots, hne, hin⟩ := Session.exists_run hv hb (by decide)
  have hs := hrun.sound hstart.sound
  have hw := hs.rooted
  rw [hroots] at hw
  have ha : Reaches s.heap t #[a] a := .root (List.mem_filter.2 ⟨by simp, by simpa using hne⟩) hin
  obtain ⟨tile, hchart⟩ := hrun.charted hstart
  have hheaders : s.heap.compactHeaders = false := by
    obtain ⟨h, hnew, -, hcompact, -⟩ :=
      wellFormed_new hstart.valid hstart.backed hstart.classes hstart.headers
    obtain rfl : h = s₀.heap := by
      have hheap := hstart.heap
      rw [hnew] at hheap
      exact Except.ok.inj hheap
    exact (hrun.headers hstart.sound).trans hcompact
  exact ⟨s.collector, s.heap, t, a, hw, ha, hs.prepared, hchart.serves, hheaders,
    collect_again _ _ hw hs.prepared hchart.serves (.inr (.inl hheaders))⟩

end MarkCompact
