/-
MarkCompact/Proofs/Collections.lean

What any collection does, whatever its style and its encoding.

Main results: `Collector.collect_ok` (a collection of a well-formed heap does not fault, and
both the heap and the collector are ready for the next one) and `Collector.collect_headers`
(locks and identity hashes are kept).
-/
import MarkCompact.Proofs.ParallelCollection
import MarkCompact.Proofs.HeaderStates

namespace MarkCompact.Collector

/-- A collection relocates the objects that can be reached, with what their headers say, and the
collector is ready for the next one. -/
theorem collect_relocated {c : Collector} (times : Durations) {h : Heap} {t : ClassTable}
    {roots : Roots} (hw : WellFormed h t roots) (hc : c.Prepared h) :
    ∃ r move, (c.collect times h t roots).outcome = .ok r ∧
      Relocated h t roots r.heap r.roots move ∧
      (∀ a, Reaches h t roots a → h.HeaderSurvives r.heap t a (move a)) ∧
      r.collector.config = c.config ∧ r.collector.Prepared r.heap := by
  cases hstyle : c.config.style with
  | parallel =>
    obtain ⟨r, b, p, h₁, o, n, tops, bs, s₂, h₂, g, hrun, -, -, -, hplanned, hconfig, hbitmap,
      hsaved, hforwarding, hroots, -, hcompleted⟩ := collect_parallel_completed times hw hc hstyle
    have hrel := hcompleted.relocated hplanned.ground
    rw [← hroots] at hrel
    exact ⟨r, _, hrun, hrel, fun a ha => (hcompleted.headerSurvives ha).of_ground hplanned.ground,
      hconfig, hc.after hconfig hbitmap hsaved hrel.layout hrel.headers
        (hforwarding ▸ ready_finish hplanned.ground hcompleted)⟩
  | serial =>
    obtain ⟨r, b, bs, table, spaces, h₂, g, hrun, -, -, hconfig, hforwarding, hbitmap, hsaved,
      hroots, -, hplanned, hcompleted⟩ := collect_completed times hw hc.toSuits hstyle
    have hclassic := hc.classic hstyle
    have hrel := hcompleted.relocated hplanned.ground hclassic
    rw [← hroots] at hrel
    refine ⟨r, _, hrun, hrel, fun a ha => (hcompleted.headerSurvives
      (hplanned.ground.headers.trans hclassic) ha).of_ground hplanned.ground, hconfig,
      hc.after hconfig hbitmap hsaved hrel.layout hrel.headers ?_⟩
    rw [hforwarding]
    exact hc.ready

/-- A collection does not fault. -/
theorem collect_ok {c : Collector} (times : Durations) {h : Heap} {t : ClassTable}
    {roots : Roots} (hw : WellFormed h t roots) (hc : c.Prepared h) :
    ∃ r, (c.collect times h t roots).outcome = .ok r ∧ WellFormed r.heap t r.roots ∧
      r.collector.config = c.config ∧ r.collector.Prepared r.heap := by
  obtain ⟨r, move, hrun, hrel, -, hconfig, hprepared⟩ := collect_relocated times hw hc
  exact ⟨r, hrun, hrel.wellFormed hw, hconfig, hprepared⟩

/-- A heap of two regions, and dense tables that may be filled. -/
theorem collect_ok_dense : ∃ (h : Heap) (t : ClassTable) (a : Address) (c : Collector),
    WellFormed h t #[a] ∧ c.Prepared h ∧ c.forwarding.encoding = .dense ∧
      ∃ r, (c.collect ⟨fun _ => 0, 0⟩ h t #[a]).outcome = .ok r ∧ WellFormed r.heap t r.roots := by
  let config : Config :=
    { forwarding := some .dense, regionShift := 4, numRegions := 2, blockShift := 2,
      denseLoadFactor := 1.0 }
  have hv : config.Valid := by decide
  have hb : config.Backed 0x10000 := by decide
  obtain ⟨h, t, a, c, hw, -, -, -, hcode, hc⟩ := exists_collector hv hb (by decide)
  obtain ⟨r, hrun, hafter, -⟩ := collect_ok ⟨fun _ => 0, 0⟩ hw hc
  exact ⟨h, t, a, c, hw, hc, hcode, r, hrun, hafter⟩

/-- The header of an object that can be reached says after a collection what it said before. -/
theorem collect_headers {c : Collector} (times : Durations) {h : Heap} {t : ClassTable}
    {roots : Roots} (hw : WellFormed h t roots) (hc : c.Prepared h) :
    ∃ r move, (c.collect times h t roots).outcome = .ok r ∧
      Relocated h t roots r.heap r.roots move ∧
      ∀ a, Reaches h t roots a → h.HeaderSurvives r.heap t a (move a) := by
  obtain ⟨r, move, hrun, hrel, hheaders, -⟩ := collect_relocated times hw hc
  exact ⟨r, move, hrun, hrel, hheaders⟩

/-- A heap of four regions with one object, the class of which lies in its mark. -/
theorem collect_headers_hashed : ∃ (h : Heap) (t : ClassTable) (a : Address) (c : Collector),
    WellFormed h t #[a] ∧ c.Prepared h ∧ c.forwarding.encoding = .hashed ∧ Reaches h t #[a] a ∧
      ∃ (r : Collected) (move : Address → Address),
        (c.collect ⟨fun _ => 0, 0⟩ h t #[a]).outcome = .ok r ∧
        h.HeaderSurvives r.heap t a (move a) := by
  let config : Config :=
    { compactHeaders := true, forwarding := some .hashed, regionShift := 4, numRegions := 4,
      blockShift := 2 }
  have hv : config.Valid := by decide
  have hb : config.Backed 0x10000 := by decide
  obtain ⟨h, t, a, c, hw, ha, -, -, hcode, hc⟩ := exists_collector hv hb (by decide)
  obtain ⟨r, move, hrun, -, hheaders⟩ := collect_headers ⟨fun _ => 0, 0⟩ hw hc
  exact ⟨h, t, a, c, hw, hc, hcode, ha, r, move, hrun, hheaders a ha⟩

end MarkCompact.Collector
