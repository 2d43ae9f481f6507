/-
MarkCompact/Proofs/Collectors.lean

Collectors and the heaps they work on.

A collector is made for one heap: its configuration is valid and describes the grid
and the headers of that heap, and between two collections nothing is marked or kept
aside (`Collector.Suits`).  A collection begins with marking, and what it comes to is
decided by the phases after that (`outcome_of_marked`).
-/
import MarkCompact.Proofs.Bitmaps
import MarkCompact.Proofs.WellFormed
import MarkCompact.Collection.Cycle

namespace MarkCompact

/-! ### Reports -/

/-- The figures of a collection without its times. -/
def CycleStats.untimed (s : CycleStats) : CycleStats := { s with times := [], total := 0.0 }

namespace Collector

/-- The collector has a valid configuration that describes the heap, and nothing of a collection
is left. -/
structure Suits (c : Collector) (h : Heap) : Prop where
  valid : c.config.Valid
  accepted : refusal c.config h = none
  bitmap : c.bitmap = .ofLayout h.layout
  saved : c.saved = #[]

/-- The configuration describes the heap. -/
theorem refusal_eq_none_iff {config : Config} {h : Heap} : refusal config h = none ↔
    h.layout.regionShift = config.regionShift ∧ h.layout.numRegions = config.numRegions.toNat ∧
      h.compactHeaders = config.compactHeaders := by
  unfold refusal
  constructor
  · intro haccepted
    split at haccepted
    · cases haccepted
    · rename_i hgrid
      rw [not_or, Decidable.not_not, Decidable.not_not] at hgrid
      split at haccepted
      · cases haccepted
      · rename_i hheaders
        exact ⟨hgrid.1, hgrid.2, Decidable.not_not.1 hheaders⟩
  · rintro ⟨hshift, hregions, hheaders⟩
    rw [if_neg (by rw [not_or, Decidable.not_not, Decidable.not_not]; exact ⟨hshift, hregions⟩),
      if_neg (by rw [Decidable.not_not]; exact hheaders)]

/-- A new collector has the encoding that its configuration asks for. -/
theorem eq_of_new {config : Config} {h : Heap} {c : Collector}
    (hnew : new config h = .ok (.ok c)) : config.Valid ∧ refusal config h = none ∧
      ∃ f, Forwarding.select config h.layout = .ok f ∧
        c = ⟨config, f, .ofLayout h.layout, #[],
          Log.new { level := .trace, console := config.verbose }, 0⟩ := by
  unfold new at hnew
  cases hvalid : config.validate with
  | error cause => simp [hvalid] at hnew
  | ok u =>
    cases hrefuse : refusal config h with
    | some cause => simp [hvalid, hrefuse] at hnew
    | none =>
      simp only [hvalid, hrefuse] at hnew
      cases hforward : Forwarding.select config h.layout with
      | error fault =>
        rw [hforward] at hnew
        cases hnew
      | ok forwarding =>
        rw [hforward] at hnew
        injection hnew with hnew
        injection hnew with hnew
        exact ⟨(Config.validate_eq_ok_iff config).1 hvalid, rfl, forwarding, rfl, hnew.symm⟩

namespace Suits

variable {c : Collector} {h : Heap}

theorem agrees (hc : c.Suits h) : h.layout.regionShift = c.config.regionShift ∧
    h.layout.numRegions = c.config.numRegions.toNat ∧
    h.compactHeaders = c.config.compactHeaders :=
  refusal_eq_none_iff.1 hc.accepted

/-- The serial style is for classic headers. -/
theorem classic (hc : c.Suits h) (hserial : c.config.style = .serial) :
    h.compactHeaders = false := by
  rw [hc.agrees.2.2]
  cases hh : c.config.compactHeaders with
  | false => rfl
  | true => exact absurd hserial (hc.valid.serialFits hh)

theorem congr {c' : Collector} {h' : Heap} (hc : c.Suits h) (hconfig : c'.config = c.config)
    (hbitmap : c'.bitmap = c.bitmap) (hsaved : c'.saved = c.saved)
    (hlayout : h'.layout = h.layout) (hheaders : h'.compactHeaders = h.compactHeaders) :
    c'.Suits h' := by
  refine ⟨by rw [hconfig]; exact hc.valid, ?_, ?_, hsaved.trans hc.saved⟩
  · rw [refusal_eq_none_iff, hconfig, hlayout, hheaders]
    exact hc.agrees
  · rw [hbitmap, hlayout]
    exact hc.bitmap

end Suits

/-! ### After marking -/

/-- What a collection works on once it has marked. -/
def marked (c : Collector) (times : Durations) (h : Heap) (t : ClassTable) (roots : Roots) :
    Collected :=
  let stats := CycleStats.new (c.cycles + 1) c.config.style.name c.forwardingName
  let s : Collected := ⟨h, roots, { c with cycles := c.cycles + 1 }, stats⟩
  let s := s.report (.cycleStart stats.cycle stats.style stats.forwarding)
  let s := (s.beginPhase .mark).endPhase times .mark
  let found := h.trace t roots (.ofLayout h.layout)
  { s with stats := { s.stats with
    liveObjects := found.liveObjects, liveWords := found.liveWords.toNat } }

/-- Tracing has counted the live objects. -/
theorem untimed_marked (c : Collector) (times : Durations) (h : Heap) (t : ClassTable)
    (roots : Roots) : (c.marked times h t roots).stats.untimed =
      { CycleStats.new (c.cycles + 1) c.config.style.name c.forwardingName with
        total := 0.0
        liveObjects := (h.trace t roots (.ofLayout h.layout)).liveObjects
        liveWords := (h.trace t roots (.ofLayout h.layout)).liveWords.toNat } := rfl

/-- Once marking has gone through, the phases of the style decide. -/
theorem outcome_of_marked {c : Collector} (times : Durations) {h : Heap} {t : ClassTable}
    {roots : Roots} (hc : c.Suits h)
    (hmarked : (h.trace t roots (.ofLayout h.layout)).fault = none) :
    (c.collect times h t roots).outcome =
      (collectMarked times t (h.trace t roots (.ofLayout h.layout)).bitmap h.freeRegionCount
        (c.marked times h t roots)).map (conclude times) := by
  unfold collect
  dsimp only
  rw [hc.bitmap, Bitmap.clear_ofLayout, hmarked]
  unfold marked
  rfl

end Collector

end MarkCompact
