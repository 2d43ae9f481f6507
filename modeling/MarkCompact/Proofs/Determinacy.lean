/-
MarkCompact/Proofs/Determinacy.lean

What decides the outcome of a collection.

Two heaps are alike as far as some addresses go if their regions are the same and the words at
these addresses (`Heap.Alike`).  Everything that is read of a live object is read from its own
words, and so heaps that are alike in the words of their live objects (`Heap.LiveWord`) cannot be
told apart by reading such objects.  If the forward phase has recorded the same in both, then all
that follows is decided: where objects go, what becomes of the regions, and what the words of the
objects are in the end.

Main results: `ParallelCycle.Completed.place_congr`, `ParallelCycle.Completed.regions_congr` and
`ParallelCycle.Completed.load_congr`.
-/
import MarkCompact.Proofs.Contents
import MarkCompact.Proofs.EncodingAgreement

namespace MarkCompact

namespace Heap

/-- A word of a live object. -/
def LiveWord (h : Heap) (t : ClassTable) (live : Address → Prop) (x : Address) : Prop :=
  ∃ a, live a ∧ ∃ k < h.wordsAt t a, a.nth k = x

/-- The heaps have the same regions, and the same words at some addresses. -/
structure Alike (h k : Heap) (here : Address → Prop) : Prop where
  layout : k.layout = h.layout
  headers : k.compactHeaders = h.compactHeaders
  regions : k.regions = h.regions
  load : ∀ x, here x → k.memory.load x = h.memory.load x

namespace Alike

variable {h k l : Heap} {here there : Address → Prop}

theorem refl (h : Heap) (here : Address → Prop) : h.Alike h here :=
  ⟨rfl, rfl, rfl, fun _ _ => rfl⟩

theorem region (ha : h.Alike k here) (i : Nat) : k.region i = h.region i := by
  unfold Heap.region
  rw [ha.regions]

end Alike

/-- Equal regions make equal tables. -/
theorem regions_ext {h k : Heap} (hsize : k.regions.size = h.regions.size)
    (hregion : ∀ i < h.regions.size, k.region i = h.region i) : k.regions = h.regions := by
  refine Array.ext hsize fun i hk hh => ?_
  rw [← k.region_eq_getElem hk, ← h.region_eq_getElem hh]
  exact hregion i hh

/-! ### The words that are read of an object -/

section Objects

variable {h g k : Heap} {t : ClassTable} {a : Address}

theorem classOf_of_load (hmark : k.memory.loadMark a = h.memory.loadMark a)
    (hclass : t.compactHeaders = false →
      k.memory.load (a.offset 1) = h.memory.load (a.offset 1)) :
    k.classOf t a = h.classOf t a := by
  unfold classOf
  cases hcompact : t.compactHeaders with
  | true => rw [if_pos rfl, if_pos rfl, hmark]
  | false => rw [if_neg Bool.false_ne_true, if_neg Bool.false_ne_true, hclass hcompact]

theorem size_of_classOf (hmark : k.memory.loadMark a = h.memory.loadMark a)
    (hclass : k.classOf t a = h.classOf t a) : k.size t a = h.size t a := by
  unfold size infoOf
  rw [hmark, hclass]

end Objects

end Heap

/-! ### Live objects of two heaps -/

namespace Surveyed

variable {h g k : Heap} {t : ClassTable} {b : Bitmap} {live : Address → Prop}

theorem liveWord_nth {a : Address} (ha : live a) {i : Nat} (hi : i < h.wordsAt t a) :
    h.LiveWord t live (a.nth i) :=
  ⟨a, ha, i, hi, rfl⟩

variable (hs : Surveyed h t b live) (halike : g.Alike k (h.LiveWord t live))
include hs halike

theorem loadMark_congr {a : Address} (ha : live a) :
    k.memory.loadMark a = g.memory.loadMark a := by
  have hfirst := halike.load _ (liveWord_nth ha (hs.wordsAt_pos ha))
  rw [Address.nth_zero] at hfirst
  unfold Memory.loadMark
  rw [hfirst]

theorem classOf_congr {a : Address} (ha : live a) : k.classOf t a = g.classOf t a := by
  refine Heap.classOf_of_load (hs.loadMark_congr halike ha) fun hclassic => ?_
  have hwords := hs.headerWords_le ha
  rw [show t.headerWords = 2 by unfold ClassTable.headerWords; rw [hclassic]; rfl] at hwords
  rw [Address.offset_eq_nth]
  exact halike.load _ (liveWord_nth ha hwords)

theorem size_congr {a : Address} (ha : live a) : k.size t a = g.size t a :=
  Heap.size_of_classOf (hs.loadMark_congr halike ha) (hs.classOf_congr halike ha)

theorem wordsAt_congr {a : Address} (ha : live a) : k.wordsAt t a = g.wordsAt t a := by
  unfold Heap.wordsAt
  rw [hs.size_congr halike ha]

theorem growsAt_congr {a : Address} (ha : live a) : k.growsAt a = g.growsAt a := by
  unfold Heap.growsAt Heap.grows
  rw [hs.loadMark_congr halike ha, halike.headers]

theorem movedWords_congr {a : Address} (ha : live a) : k.movedWords t a = g.movedWords t a := by
  unfold Heap.movedWords
  rw [hs.wordsAt_congr halike ha, hs.growsAt_congr halike ha]

theorem wordsFrom_congr {a : Address} (ha : live a) (v : Address) :
    k.wordsFrom t a v = g.wordsFrom t a v := by
  unfold Heap.wordsFrom
  rw [hs.wordsAt_congr halike ha, hs.movedWords_congr halike ha]

theorem copySize_congr {a : Address} (ha : live a) (mark : Mark) (moving : Bool) :
    k.copySize t a mark moving = g.copySize t a mark moving := by
  unfold Heap.copySize Heap.grows
  rw [hs.size_congr halike ha, halike.headers]

theorem fieldsAt_congr {a : Address} (ha : live a) : k.fieldsAt t a = g.fieldsAt t a := by
  unfold Heap.fieldsAt Heap.infoOf
  rw [hs.classOf_congr halike ha]

end Surveyed

/-- What the words of a live object become does not depend on any other word. -/
theorem Surveyed.wordAfter_congr {h k : Heap} {t : ClassTable} {b : Bitmap}
    {live : Address → Prop} (hs : Surveyed h t b live) (halike : h.Alike k (h.LiveWord t live))
    (overwrites : Bool) (move : Address → Address) {a : Address} (ha : live a) (i : Nat) :
    k.wordAfter t overwrites move a i = h.wordAfter t overwrites move a i := by
  unfold Heap.wordAfter Heap.markAfter
  dsimp only
  rw [hs.loadMark_congr halike ha, hs.growsAt_congr halike ha, hs.wordsAt_congr halike ha,
    hs.fieldsAt_congr halike ha, halike.headers]
  by_cases hi : i < h.wordsAt t a
  · rw [halike.load _ (liveWord_nth ha hi)]
  · rw [if_neg hi, if_neg hi]

/-! ### The parallel style -/

theorem CycleStats.untimed_parallel {s s' : CycleStats} (hsame : s'.untimed = s.untimed)
    (o : ForwardOutcome) (copied : CopyCount) (saved dense freed : Nat) (kept : ForwardingStats) :
    (s'.parallel o copied saved dense freed kept).untimed
      = (s.parallel o copied saved dense freed kept).untimed := by
  show (s'.untimed.parallel o copied saved dense freed kept).untimed
    = (s.untimed.parallel o copied saved dense freed kept).untimed
  rw [hsame]

namespace ParallelCycle

open Forwarding

variable {h k : Heap} {t : ClassTable} {b : Bitmap} {live : Address → Prop} {part : List Nat}
  {n n' : Announced} {e e' : Encoding} {starts starts' : StartTable} {kept kept' : Nat}
  {tops tops' : Nat → Address} {bs bs' : List Berth} {vs : List HumongousMove}
  {s s' : Relocation}

namespace Forwarded

variable (hf : Forwarded h t b live part n e starts kept tops bs vs s)
  (hf' : Forwarded k t b live part n' e' starts' kept' tops' bs' vs s')
  (hafter : s.heap.Alike s'.heap (h.LiveWord t live))
include hf hf' hafter

/-- Where objects go can be read from the records. -/
theorem place_congr (hforwarding : s'.forwarding = s.forwarding) :
    Berth.placeOf (k.places bs' vs) = Berth.placeOf (h.places bs vs) := by
  funext a
  by_cases ha : live a
  · have hread := hf.forwardee ha rfl
    have hread' := hf'.forwardee ha (m := s.heap.memory)
      (hf.housed.surveyed.loadMark_congr hafter ha).symm
    rw [hforwarding, hread] at hread'
    have hsame := Except.ok.inj hread'
    by_cases hstays : Berth.placeOf (h.places bs vs) a = a
    · rw [if_pos hstays] at hsame
      split at hsame
      · rename_i hstays'
        rw [hstays, hstays']
      · cases hsame
    · rw [if_neg hstays] at hsame
      split at hsame
      · cases hsame
      · exact (Option.some.inj hsame).symm
  · rw [hf.housed.placeOf_eq ha, hf'.housed.placeOf_eq ha]

/-- How far regions are filled can be read from them. -/
theorem tops_congr : ∀ i ∈ part, tops' i = tops i := by
  intro i hi
  have htop := congrArg Region.compactionTop (hafter.region i)
  rw [hf.member i hi, hf'.member i hi] at htop
  exact htop

end Forwarded

namespace Completed

variable {release release' : Bool} {h₂ h₂' g g' h' k' : Heap}
  (hc : Completed h t b live part n e starts kept tops bs vs s release h₂ g h')
  (hc' : Completed k t b live part n' e' starts' kept' tops' bs' vs s' release' h₂' g' k')
  (halike : h.Alike k (h.LiveWord t live)) (hafter : s.heap.Alike s'.heap (h.LiveWord t live))
include hc hc' halike hafter

/-- The regions are used in the same way. -/
theorem regions_congr : k'.regions = h'.regions := by
  have hsize : k.regions.size = h.regions.size := by rw [halike.regions]
  refine Heap.regions_ext (hc'.finished.refilled.size.trans
    (hsize.trans hc.finished.refilled.size.symm)) fun i hi => ?_
  rw [hc.finished.refilled.size] at hi
  rw [hc.finished.refilled.region i hi, hc'.finished.refilled.region i (by omega),
    ← Heap.finalRegion_congr fun j hj =>
      (hc.forwarded.tops_congr hc'.forwarded hafter j hj).symm]
  unfold Heap.finalRegion Heap.settledRegion
  rw [halike.layout, halike.region i]

/-- The words of the objects are the same. -/
theorem load_congr (hforwarding : s'.forwarding = s.forwarding) {a : Address} (ha : live a)
    {i : Nat} (hi : i < h.wordsFrom t a (Berth.placeOf (h.places bs vs) a)) :
    k'.memory.load ((Berth.placeOf (h.places bs vs) a).nth i)
      = h'.memory.load ((Berth.placeOf (h.places bs vs) a).nth i) := by
  have hplace := hc.forwarded.place_congr hc'.forwarded hafter hforwarding
  have hload := hc.load_word ha hi
  have hload' := hc'.load_word ha (k := i) (by
    rw [hplace, hc.surveyed.wordsFrom_congr halike ha]
    exact hi)
  rw [hplace, hforwarding] at hload'
  rw [hload, hload', hc.surveyed.wordAfter_congr halike _ _ ha]

/-- In the end the heaps are alike in the words of the live objects. -/
theorem alike (hforwarding : s'.forwarding = s.forwarding) :
    h'.Alike k' (h'.LiveWord t fun v => ∃ a, live a ∧ Berth.placeOf (h.places bs vs) a = v) := by
  refine ⟨hc'.finished.refilled.layout.trans (halike.layout.trans
      hc.finished.refilled.layout.symm),
    hc'.finished.headers.trans (halike.headers.trans hc.finished.headers.symm),
    hc.regions_congr hc' halike hafter, ?_⟩
  rintro x ⟨v, ⟨a, ha, rfl⟩, i, hi, rfl⟩
  rw [hc.wordsAt_place ha] at hi
  exact hc.load_congr hc' halike hafter hforwarding ha hi

end Completed

end ParallelCycle

/-! ### The serial style -/

theorem CycleStats.untimed_serial {s s' : CycleStats} (hsame : s'.untimed = s.untimed)
    (o : SerialOutcome) (dense freed : Nat) :
    (s'.serial o dense freed).untimed = (s.serial o dense freed).untimed := by
  show (s'.untimed.serial o dense freed).untimed = (s.untimed.serial o dense freed).untimed
  rw [hsame]

namespace SerialCycle

variable {h k : Heap} {t : ClassTable} {b : Bitmap} {live : Address → Prop} {d : Nat}
  {table : BlockOffsets} {spaces : Array Space} {bs bs' : List Berth} {release release' : Bool}
  {h₂ h₂' g g' h' k' : Heap}

theorem partFrom_congr (hregions : k.regions = h.regions) (d : Nat) :
    k.partFrom d = h.partFrom d := by
  unfold Heap.partFrom Heap.region
  rw [hregions]

/-- What is counted when live objects move. -/
theorem counted_congr (hs : Surveyed h t b live) (halike : h.Alike k (h.LiveWord t live))
    (move : Address → Address) {as : List Address} (hlive : ∀ a ∈ as, live a) :
    counted k t move as = counted h t move as := by
  have hwords : (as.filter fun a => move a != a).map (k.wordsAt t)
      = (as.filter fun a => move a != a).map (h.wordsAt t) :=
    List.map_congr_left fun a ha => hs.wordsAt_congr halike (hlive a (List.mem_filter.1 ha).1)
  unfold counted
  dsimp only
  rw [hwords]

namespace Completed

variable (hc : Completed h t b live d table spaces bs release h₂ g h')
  (hc' : Completed k t b live d table spaces bs' release' h₂' g' k')
  (halike : h.Alike k (h.LiveWord t live))
include hc hc' halike

/-- Where objects go can be read from the table. -/
theorem place_congr : Berth.placeOf bs' = Berth.placeOf bs := by
  have hpart := partFrom_congr halike.regions d
  funext a
  by_cases hin : live a ∧ h.layout.indexOf a ∈ h.partFrom d
  · obtain ⟨-, -, -, -, -, hread⟩ := hc.assigned.berth hc.surveyed hin.1 hin.2
    obtain ⟨-, -, -, -, -, hread'⟩ := hc'.assigned.berth hc'.surveyed hin.1 (by
      rw [halike.layout, hpart]
      exact hin.2)
    rw [← hread, ← hread']
  · rw [hc.assigned.placeOf_eq hin, hc'.assigned.placeOf_eq (by rwa [halike.layout, hpart])]

/-- The regions are used in the same way. -/
theorem regions_congr : k'.regions = h'.regions := by
  have hpart := partFrom_congr halike.regions d
  have hsize : k.regions.size = h.regions.size := by rw [halike.regions]
  refine Heap.regions_ext (hc'.retopped.size.trans (hsize.trans hc.retopped.size.symm))
    fun i _ => ?_
  by_cases hi : i ∈ h.partFrom d
  · obtain ⟨s, hmem⟩ := hc.exists_space hi
    rw [hc.region_part hmem, hc'.region_part (hpart ▸ hmem), halike.region]
  · rw [hc.region_other hi, hc'.region_other (hpart ▸ hi), halike.region]

/-- In the end the heaps are alike in the words of the live objects. -/
theorem alike (hclassic : h.compactHeaders = false) :
    h'.Alike k' (h'.LiveWord t fun v => ∃ a, live a ∧ Berth.placeOf bs a = v) := by
  have hplace := hc.place_congr hc' halike
  refine ⟨hc'.retopped.layout.trans (halike.layout.trans hc.retopped.layout.symm),
    hc'.headers.trans (halike.headers.trans hc.headers.symm), hc.regions_congr hc' halike, ?_⟩
  rintro x ⟨v, ⟨a, ha, rfl⟩, i, hi, rfl⟩
  rw [hc.wordsAt_place ha] at hi
  have hload' := hc'.load_word (halike.headers.trans hclassic) ha (k := i) (by
    rwa [hc.surveyed.wordsAt_congr halike ha])
  rw [hplace] at hload'
  rw [hload', hc.load_word hclassic ha hi, hc.surveyed.wordAfter_congr halike _ _ ha]

end Completed

end SerialCycle

end MarkCompact
