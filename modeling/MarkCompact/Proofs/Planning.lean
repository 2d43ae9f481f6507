/-
MarkCompact/Proofs/Planning.lean

What planning decides about every region.

The walk over the regions goes in steps of whole humongous runs, and changes the
very kinds by which it finds them.  `Walked h b index h' p` is its invariant: the
regions before `index` have been decided on, those from `index` on are still as
they were, and `index` is not inside a run.  Each step keeps it, whichever kind
the next region has (`Walked.regular`, `Walked.passed`, `Walked.keepRun`, `Walked.freeRun`).

Main results: `Plan.planned_build` (the regions that take part, the live
humongous ones, and what has been freed) and `Planned.tabled` (the table stays
one in which humongous runs are complete).
-/
import MarkCompact.Proofs.Planes
import MarkCompact.Proofs.Regions

namespace MarkCompact

/-- A region of a humongous object that is not marked. -/
def Heap.DeadRun (h : Heap) (b : Bitmap) (i : Nat) : Prop :=
  ∃ first words, h.InRun first words i ∧ b.isMarked (h.region first).bottom = false

/-- A run is freed as a whole or kept as a whole. -/
theorem Planned.deadRun_iff {h : Heap} {b : Bitmap} {first i : Nat} {words : WordCount} (hin : h.InRun first words i) :
    h.DeadRun b i ↔ b.isMarked (h.region first).bottom = false := by
  constructor
  · rintro ⟨first', words', hin', hun⟩
    rw [(Heap.HumongousRun.unique hin hin').1]
    exact hun
  · intro hun
    exact ⟨first, words, hin, hun⟩

/-- Whether a regular region is at an index. -/
def Heap.isRegularAt (h : Heap) (i : Nat) : Bool := (h.region i).kind == .regular

/-- Whether a marked humongous object begins in the region at an index. -/
def Heap.isLiveStart (h : Heap) (b : Bitmap) (i : Nat) : Bool :=
  (h.region i).kind == .humongousStart && b.isMarked (h.region i).bottom

/-- What planning makes of a heap `h`: the plan `p`, and the heap `h'` from which the regions
of dead humongous objects are gone. -/
structure Planned (h : Heap) (b : Bitmap) (p : Plan) (h' : Heap) : Prop where
  ground : h.SameGround h'
  starts : ∃ dead : List Nat, (∀ i, i ∈ dead ↔ i < h.regions.size ∧ h.DeadRun b i) ∧
    h'.starts = h.starts.forget h.layout dead
  /-- As many regions are counted as belong to dead humongous objects. -/
  counted : ∃ dead : List Nat, dead.Nodup ∧ (∀ i, i ∈ dead ↔ i < h.regions.size ∧ h.DeadRun b i) ∧
    p.freedHumongous = dead.length
  freed : ∀ i < h.regions.size, h.DeadRun b i → h'.region i = (h.region i).makeFree
  kept : ∀ i, ¬ h.DeadRun b i → h'.region i = h.region i
  dense_le : p.densePrefix ≤ h.regions.size
  /-- The dense prefix consists of regular regions. -/
  dense : ∀ i < p.densePrefix, (h.region i).kind = .regular
  /-- All their words are live. -/
  full : ∀ i < p.densePrefix,
    b.countWords (h.region i).bottom (h.region i).top = h.layout.regionWords.toNat
  /-- The next region is not like that. -/
  longest : p.densePrefix < h.regions.size → ¬ ((h.region p.densePrefix).kind = .regular ∧
    b.countWords (h.region p.densePrefix).bottom (h.region p.densePrefix).top
      = h.layout.regionWords.toNat)
  summaries : p.summaries = summarize h b
  compacting : p.compacting
    = (List.range' p.densePrefix (h.regions.size - p.densePrefix)).filter h.isRegularAt
  humongous : p.humongous
    = (List.range' p.densePrefix (h.regions.size - p.densePrefix)).filter (h.isLiveStart b)

namespace Plan

variable {h : Heap} {b : Bitmap} {d : Nat}

/-! ### The invariant of the walk -/

/-- The walk from region `d` on has come to the region `index`. -/
structure Walked (h : Heap) (b : Bitmap) (d index : Nat) (h' : Heap) (p : Plan) : Prop where
  ground : h.SameGround h'
  starts : ∃ dead : List Nat, (dead.Nodup ∧ ∀ i, i ∈ dead ↔ i < index ∧ h.DeadRun b i) ∧
    h'.starts = h.starts.forget h.layout dead ∧ p.freedHumongous = dead.length
  le : d ≤ index ∧ index ≤ h.regions.size
  outside : (h.region index).kind ≠ .humongousContinues
  ahead : ∀ i, index ≤ i → h'.region i = h.region i
  freed : ∀ i < index, h.DeadRun b i → h'.region i = (h.region i).makeFree
  kept : ∀ i < index, ¬ h.DeadRun b i → h'.region i = h.region i
  compacting : p.compacting = (List.range' d (index - d)).filter h.isRegularAt
  humongous : p.humongous = (List.range' d (index - d)).filter (h.isLiveStart b)

theorem filter_range'_snoc (f : Nat → Bool) {d index : Nat} (hd : d ≤ index) :
    (List.range' d (index + 1 - d)).filter f
      = (List.range' d (index - d)).filter f ++ if f index then [index] else [] := by
  rw [show index + 1 - d = index - d + 1 from by omega, List.range'_concat, List.filter_append]
  rw [show d + 1 * (index - d) = index from by omega]
  congr 1
  by_cases hf : f index = true
  · simp [hf]
  · simp [hf]

/-- The regions of a run after its first one are neither regular nor the start of a run. -/
theorem filter_range'_run (f : Nat → Bool) {d index n : Nat} (hd : d ≤ index) (hn : 0 < n)
    (hf : ∀ i, index < i → i < index + n → f i = false) :
    (List.range' d (index + n - d)).filter f
      = (List.range' d (index - d)).filter f ++ if f index then [index] else [] := by
  have hrest : (List.range' (index + 1) (index + n - (index + 1))).filter f = [] := by
    rw [List.filter_eq_nil_iff]
    intro i hi
    rw [List.mem_range'_1] at hi
    rw [hf i (by omega) (by omega)]
    simp
  rw [← filter_range'_snoc f hd, range'_split (show d ≤ index + 1 from by omega)
    (show index + 1 ≤ index + n from by omega), List.filter_append, hrest, List.append_nil]

/-- The region after a region that belongs to no run is not inside a run. -/
theorem outside_succ (ht : h.Tabled) {index : Nat}
    (hk : (h.region index).kind = .regular ∨ (h.region index).kind = .free) :
    (h.region (index + 1)).kind ≠ .humongousContinues := by
  intro hc
  by_cases hlt : index + 1 < h.regions.size
  · obtain ⟨first, words, hrun, h1, h2⟩ := ht.continued _ hlt hc
    have hin : h.InRun first words index := ⟨hrun, by omega, by omega⟩
    have hhum := Heap.HumongousRun.kind_of_inRun hin
    rcases hk with hk | hk <;> rw [hk] at hhum <;> cases hhum
  · rw [h.region_of_size_le (by omega)] at hc
    cases hc

theorem not_deadRun_of_kind {i : Nat}
    (hk : (h.region i).kind = .regular ∨ (h.region i).kind = .free) : ¬ h.DeadRun b i := by
  rintro ⟨first, words, hin, -⟩
  have hhum := Heap.HumongousRun.kind_of_inRun hin
  rcases hk with hk | hk <;> rw [hk] at hhum <;> cases hhum

/-- The span of a run depends on the regions after its first one only. -/
theorem span_congr {h h' : Heap} {first : Nat} (hsize : h'.regions.size = h.regions.size)
    (hahead : ∀ i, first < i → h'.region i = h.region i) : span h' first = span h first := by
  have hdrop : h'.regions.toList.drop (first + 1) = h.regions.toList.drop (first + 1) := by
    apply List.ext_getElem?
    intro i
    rw [List.getElem?_drop, List.getElem?_drop, Array.getElem?_toList, Array.getElem?_toList]
    by_cases hi : first + 1 + i < h.regions.size
    · have hi' : first + 1 + i < h'.regions.size := by omega
      have heq := hahead (first + 1 + i) (by omega)
      rw [h.region_eq_getElem hi, h'.region_eq_getElem hi'] at heq
      rw [Array.getElem?_eq_getElem hi, Array.getElem?_eq_getElem hi', heq]
    · rw [Array.getElem?_eq_none (by omega), Array.getElem?_eq_none (by omega)]
  unfold span
  rw [hdrop]

/-! ### One step of the walk -/

theorem exists_dead_succ {q : List Nat → Prop} {index : Nat}
    (hdead : ∃ dead : List Nat, (dead.Nodup ∧ ∀ i, i ∈ dead ↔ i < index ∧ h.DeadRun b i) ∧ q dead)
    (hk : ¬ h.DeadRun b index) :
    ∃ dead : List Nat, (dead.Nodup ∧ ∀ i, i ∈ dead ↔ i < index + 1 ∧ h.DeadRun b i) ∧ q dead := by
  obtain ⟨dead, ⟨hnodup, hmem⟩, hq⟩ := hdead
  refine ⟨dead, ⟨hnodup, fun i => (hmem i).trans (and_congr_left fun hi => ?_)⟩, hq⟩
  have hne : i ≠ index := fun heq => hk (heq ▸ hi)
  omega

/-- A region that belongs to no run is passed. -/
theorem Walked.pass (ht : h.Tabled) {index : Nat} {h' : Heap} {p p' : Plan}
    (hw : Walked h b d index h' p) (hlt : index < h.regions.size)
    (hk : (h.region index).kind = .regular ∨ (h.region index).kind = .free)
    (hcount : p'.freedHumongous = p.freedHumongous)
    (hcomp : p'.compacting = p.compacting ++ if h.isRegularAt index then [index] else [])
    (hhum : p'.humongous = p.humongous ++ if h.isLiveStart b index then [index] else []) :
    Walked h b d (index + 1) h' p' := by
  have hdead := not_deadRun_of_kind (b := b) hk
  have hle := hw.le
  have hstarts := hw.starts
  rw [← hcount] at hstarts
  refine ⟨hw.ground, exists_dead_succ hstarts hdead, ⟨by omega, by omega⟩, outside_succ ht hk,
    fun i hi => hw.ahead i (by omega), fun i hi hd => ?_, fun i hi hd => ?_, ?_, ?_⟩
  · rcases Nat.lt_succ_iff_lt_or_eq.1 hi with hi | rfl
    · exact hw.freed i hi hd
    · exact absurd hd hdead
  · rcases Nat.lt_succ_iff_lt_or_eq.1 hi with hi | rfl
    · exact hw.kept i hi hd
    · exact hw.ahead i (le_refl i)
  · rw [filter_range'_snoc _ hle.1, ← hw.compacting, hcomp]
  · rw [filter_range'_snoc _ hle.1, ← hw.humongous, hhum]

theorem Walked.regular (ht : h.Tabled) {index : Nat} {h' : Heap} {p : Plan}
    (hw : Walked h b d index h' p) (hlt : index < h.regions.size)
    (hk : (h.region index).kind = .regular) :
    Walked h b d (index + 1) h' { p with compacting := p.compacting ++ [index] } :=
  hw.pass ht hlt (.inl hk) rfl (by simp [Heap.isRegularAt, hk]) (by simp [Heap.isLiveStart, hk])

theorem Walked.passed (ht : h.Tabled) {index : Nat} {h' : Heap} {p : Plan}
    (hw : Walked h b d index h' p) (hlt : index < h.regions.size)
    (hk : (h.region index).kind = .free) : Walked h b d (index + 1) h' p :=
  hw.pass ht hlt (.inr hk) rfl (by simp [Heap.isRegularAt, hk]) (by simp [Heap.isLiveStart, hk])

section Run

variable {index : Nat} {h' : Heap} {p : Plan} {words : WordCount}

/-- No region of a run is regular. -/
theorem Walked.compacting_run (ht : h.Tabled) (hw : Walked h b d index h' p)
    (hlt : index < h.regions.size) (hrun : h.HumongousRun index words) :
    p.compacting = (List.range' d (index + (h.layout.regionsFor words).toNat - d)).filter
      h.isRegularAt := by
  obtain ⟨-, hpos, -⟩ := hrun.inside ht.toGridded hlt
  rw [filter_range'_run _ hw.le.1 hpos, ← hw.compacting]
  · simp [Heap.isRegularAt, hrun.start]
  · intro i h1 h2
    simp [Heap.isRegularAt, hrun.later i h1 h2]

/-- A run counts if its object is marked. -/
theorem Walked.humongous_run (ht : h.Tabled) (hw : Walked h b d index h' p)
    (hlt : index < h.regions.size) (hrun : h.HumongousRun index words) :
    p.humongous ++ (if b.isMarked (h.region index).bottom then [index] else [])
      = (List.range' d (index + (h.layout.regionsFor words).toNat - d)).filter
        (h.isLiveStart b) := by
  obtain ⟨-, hpos, -⟩ := hrun.inside ht.toGridded hlt
  rw [filter_range'_run _ hw.le.1 hpos, ← hw.humongous]
  · simp [Heap.isLiveStart, hrun.start]
  · intro i h1 h2
    simp [Heap.isLiveStart, hrun.later i h1 h2]

/-- A run whose object is marked is kept as a whole. -/
theorem Walked.keepRun (ht : h.Tabled) (hw : Walked h b d index h' p) (hlt : index < h.regions.size)
    (hrun : h.HumongousRun index words) (hm : b.isMarked (h.region index).bottom = true) :
    Walked h b d (index + (h.layout.regionsFor words).toNat) h'
      { p with humongous := p.humongous ++ [index] } := by
  obtain ⟨-, hpos, hin⟩ := hrun.inside ht.toGridded hlt
  obtain ⟨dead, ⟨hnodup, hmem⟩, hstarts, hcount⟩ := hw.starts
  have hle := hw.le
  have hcomp := hw.compacting_run ht hlt hrun
  have hhum := hw.humongous_run ht hlt hrun
  rw [if_pos hm] at hhum
  -- a run is dead in all its regions or in none
  have hdead : ∀ i, index ≤ i → i < index + (h.layout.regionsFor words).toNat →
      ¬ h.DeadRun b i := by
    intro i h1 h2
    rw [Planned.deadRun_iff ⟨hrun, h1, h2⟩, hm]
    decide
  refine ⟨hw.ground, ⟨dead, ⟨hnodup, fun i => ?_⟩, hstarts, hcount⟩, ⟨by omega, hin⟩, hrun.last,
    fun i hi => hw.ahead i (by omega), fun i hi hd => ?_, fun i hi hd => ?_, hcomp, hhum⟩
  · refine (hmem i).trans (and_congr_left fun hi => ⟨fun hlt => by omega, fun hlt => ?_⟩)
    by_contra hge
    exact hdead i (Nat.not_lt.1 hge) hlt hi
  · by_cases hi' : i < index
    · exact hw.freed i hi' hd
    · exact absurd hd (hdead i (by omega) hi)
  · by_cases hi' : i < index
    · exact hw.kept i hi' hd
    · exact hw.ahead i (by omega)

/-- A run whose object is not marked is freed as a whole. -/
theorem Walked.freeRun (ht : h.Tabled) (hw : Walked h b d index h' p) (hlt : index < h.regions.size)
    (hrun : h.HumongousRun index words) (hm : b.isMarked (h.region index).bottom = false) :
    Walked h b d (index + (h.layout.regionsFor words).toNat)
      ((List.range' index (h.layout.regionsFor words).toNat).foldl Heap.freeRegion h')
      { p with freedHumongous := p.freedHumongous + (h.layout.regionsFor words).toNat } := by
  obtain ⟨-, hpos, hin⟩ := hrun.inside ht.toGridded hlt
  have hhum := hw.humongous_run ht hlt hrun
  rw [hm, if_neg Bool.false_ne_true, List.append_nil] at hhum
  have hdead : ∀ i, index ≤ i → i < index + (h.layout.regionsFor words).toNat → h.DeadRun b i :=
    fun i h1 h2 => (Planned.deadRun_iff ⟨hrun, h1, h2⟩).2 hm
  obtain ⟨dead, ⟨hnodup, hmem⟩, hstarts, hcount⟩ := hw.starts
  have hle := hw.le
  have hlast := hrun.last
  have hcomp := hw.compacting_run ht hlt hrun
  -- from here on only the number of regions matters
  generalize (h.layout.regionsFor words).toNat = n at *
  have hfold := Heap.region_foldl_freeRegion (List.range' index n) h'
  simp only [List.mem_range'_1] at hfold
  refine ⟨hw.ground.trans (Heap.sameGround_foldl Heap.freeRegion Heap.sameGround_freeRegion _ _),
    ⟨dead ++ List.range' index n, ⟨?_, fun i => ?_⟩, ?_, ?_⟩, ⟨by omega, hin⟩, hlast,
    fun i hi => ?_, fun i hi hd => ?_, fun i hi hd => ?_, hcomp, hhum⟩
  · refine hnodup.append List.nodup_range' (List.disjoint_left.2 fun i hi hi' => ?_)
    have h1 := ((hmem i).1 hi).1
    have h2 := (List.mem_range'_1.1 hi').1
    omega
  · rw [List.mem_append, List.mem_range'_1, hmem]
    constructor
    · rintro (⟨hi, hd⟩ | ⟨h1, h2⟩)
      · exact ⟨by omega, hd⟩
      · exact ⟨h2, hdead i h1 h2⟩
    · rintro ⟨hi, hd⟩
      rcases Nat.lt_or_ge i index with hlt' | hge
      · exact .inl ⟨hlt', hd⟩
      · exact .inr ⟨hge, hi⟩
  · rw [StartTable.forget_append, ← hstarts]
    refine Heap.starts_foldl_freeRegion fun i hi => ?_
    obtain ⟨h1, h2⟩ := List.mem_range'_1.1 hi
    rw [hw.ahead i h1]
    exact ⟨ht.bottom i (by omega), ht.stop i (by omega)⟩
  · rw [List.length_append, List.length_range', ← hcount]
  · rw [hfold, if_neg (by omega)]
    exact hw.ahead i (by omega)
  · rw [hfold, hw.ground.size]
    by_cases hi' : i < index
    · rw [if_neg (by omega)]
      exact hw.freed i hi' hd
    · rw [if_pos (by omega), hw.ahead i (by omega)]
  · rw [hfold]
    by_cases hi' : i < index
    · rw [if_neg (by omega)]
      exact hw.kept i hi' hd
    · exact absurd (hdead i (by omega) hi) hd

end Run

/-! ### The walk -/

theorem walked_decide (ht : h.Tabled) (fuel : Nat) {index : Nat} {h' : Heap} {p : Plan}
    (hw : Walked h b d index h' p) (hfuel : h.regions.size ≤ fuel + index) :
    Walked h b d h.regions.size (decide b fuel index h' p).2 (decide b fuel index h' p).1 ∧
      (decide b fuel index h' p).1.densePrefix = p.densePrefix ∧
      (decide b fuel index h' p).1.summaries = p.summaries := by
  -- on the regions left to walk; the walk never stops inside a run (`Walked.outside`)
  induction fuel generalizing index h' p with
  | zero =>
    obtain rfl : index = h.regions.size := by
      have := hw.le
      omega
    exact ⟨hw, rfl, rfl⟩
  | succ fuel ih =>
    unfold decide
    by_cases hlt : index < h.regions.size
    · rw [if_pos (by rw [hw.ground.size]; exact hlt), hw.ahead index (le_refl _)]
      cases hk : (h.region index).kind with
      | free => exact ih (hw.passed ht hlt hk) (by omega)
      | regular => exact ih (hw.regular ht hlt hk) (by omega)
      | humongousContinues => exact absurd hk hw.outside
      | humongousStart =>
        obtain ⟨words, hrun⟩ := ht.runs index hlt hk
        obtain ⟨-, hpos, hin⟩ := hrun.inside ht.toGridded hlt
        have hspan : span h' index = (h.layout.regionsFor words).toNat := by
          rw [← hrun.span_eq ht.toGridded hlt]
          exact span_congr hw.ground.size fun i hi => hw.ahead i hi.le
        dsimp only
        rw [hspan]
        by_cases hm : b.isMarked (h.region index).bottom = true
        · rw [if_pos hm]
          exact ih (hw.keepRun ht hlt hrun hm) (by omega)
        · rw [if_neg hm]
          exact ih (hw.freeRun ht hlt hrun (Bool.eq_false_of_not_eq_true hm)) (by omega)
    · rw [if_neg (by rw [hw.ground.size]; exact hlt)]
      obtain rfl : index = h.regions.size := by
        have := hw.le
        omega
      exact ⟨hw, rfl, rfl⟩

/-- What the summary of a region says. -/
theorem isFull_summarize {i : Nat} (hi : i < (summarize h b).length) :
    (summarize h b)[i].isFull h.layout.regionWords.toNat = true ↔ (h.region i).kind = .regular ∧
      b.countWords (h.region i).bottom (h.region i).top = h.layout.regionWords.toNat := by
  have hsize : i < h.regions.size := by simpa [summarize] using hi
  rw [h.region_eq_getElem hsize]
  simp [RegionSummary.isFull, summarize]

theorem full_of_lt_densePrefix {i : Nat}
    (hi : i < MarkCompact.densePrefix (summarize h b) h.layout.regionWords.toNat) :
    (h.region i).kind = .regular ∧
      b.countWords (h.region i).bottom (h.region i).top = h.layout.regionWords.toNat := by
  have hle := MarkCompact.densePrefix_le (summarize h b) h.layout.regionWords.toNat
  have hlen : i < (summarize h b).length := by omega
  have hmem : (summarize h b)[i] ∈ (summarize h b).take
      (MarkCompact.densePrefix (summarize h b) h.layout.regionWords.toNat) := by
    rw [List.mem_take_iff_getElem]
    exact ⟨i, by omega, rfl⟩
  exact (isFull_summarize hlen).1 (MarkCompact.densePrefix_full _ hmem)

theorem not_isFull_densePrefix {ss : List RegionSummary} {regionWords : Nat}
    (h : MarkCompact.densePrefix ss regionWords < ss.length) :
    ss[MarkCompact.densePrefix ss regionWords].isFull regionWords = false := by
  unfold MarkCompact.densePrefix at h ⊢
  induction ss with
  | nil => simp at h
  | cons s ss ih =>
    by_cases hs : s.isFull regionWords = true
    · simp only [List.takeWhile_cons_of_pos hs, List.length_cons, Nat.add_lt_add_iff_right] at h
      simpa only [List.takeWhile_cons_of_pos hs, List.length_cons, List.getElem_cons_succ] using ih h
    · simpa only [List.takeWhile_cons_of_neg hs, List.length_nil, List.getElem_cons_zero,
        Bool.not_eq_true] using hs

/-- Planning decides on every region. -/
theorem planned_build (ht : h.Tabled) (b : Bitmap) :
    Planned h b (build h b).1 (build h b).2 := by
  have hle := MarkCompact.densePrefix_le (summarize h b) h.layout.regionWords.toNat
  have hlen : (summarize h b).length = h.regions.size := by simp [summarize]
  have hregular : ∀ i < MarkCompact.densePrefix (summarize h b) h.layout.regionWords.toNat,
      (h.region i).kind = .regular := fun i hi => (full_of_lt_densePrefix hi).1
  have hfull : ∀ i < MarkCompact.densePrefix (summarize h b) h.layout.regionWords.toNat,
      b.countWords (h.region i).bottom (h.region i).top = h.layout.regionWords.toNat :=
    fun i hi => (full_of_lt_densePrefix hi).2
  have hnext : ∀ hlt : MarkCompact.densePrefix (summarize h b) h.layout.regionWords.toNat
      < (summarize h b).length, ¬ _ := fun hlt =>
    (isFull_summarize hlt).not.1 (by simp [not_isFull_densePrefix hlt])
  rw [hlen] at hnext
  have hnotDead : ∀ i < MarkCompact.densePrefix (summarize h b) h.layout.regionWords.toNat,
      ¬ h.DeadRun b i := fun i hi => not_deadRun_of_kind (.inl (hregular i hi))
  unfold build
  dsimp only
  generalize hd : MarkCompact.densePrefix (summarize h b) h.layout.regionWords.toNat = d at *
  -- the walk begins behind the dense prefix, where no run can begin before
  have hstart : Walked h b d d h
      { summaries := summarize h b, densePrefix := d, compacting := [], humongous := []
        freedHumongous := 0 } := by
    refine ⟨Heap.SameGround.refl h, ⟨[], ⟨List.nodup_nil, fun i => ?_⟩, rfl, rfl⟩,
      ⟨le_refl _, by omega⟩, ?_, fun _ _ => rfl, ?_, fun _ _ _ => rfl, by simp, by simp⟩
    · exact ⟨fun hmem => absurd hmem List.not_mem_nil, fun hi => absurd hi.2 (hnotDead i hi.1)⟩
    · intro hc
      by_cases hlt : d < h.regions.size
      · obtain ⟨first, words, hrun, h1, h2⟩ := ht.continued _ hlt hc
        have hk := hregular first h1
        rw [hrun.start] at hk
        cases hk
      · rw [h.region_of_size_le (by omega)] at hc
        cases hc
    · intro i hi hdead
      exact absurd hdead (hnotDead i hi)
  obtain ⟨hw, hdense, hsum⟩ := walked_decide ht h.regions.size hstart (by omega)
  obtain ⟨dead, ⟨hnodup, hmem⟩, hstarts, hcount⟩ := hw.starts
  refine ⟨hw.ground, ⟨dead, hmem, hstarts⟩, ⟨dead, hnodup, hmem, hcount⟩, hw.freed, ?_, ?_, ?_, ?_, ?_,
    hsum, ?_, ?_⟩
  · intro i hdead
    by_cases hi : i < h.regions.size
    · exact hw.kept i hi hdead
    · rw [h.region_of_size_le (by omega), Heap.region_of_size_le _ (by rw [hw.ground.size]; omega)]
  · rw [hdense]
    exact hlen ▸ hle
  · rw [hdense]
    exact hregular
  · rw [hdense]
    exact hfull
  · rw [hdense]
    exact hnext
  · rw [hdense]
    exact hw.compacting
  · rw [hdense]
    exact hw.humongous

end Plan

/-! ### The table after planning -/

namespace Planned

variable {h h' : Heap} {b : Bitmap} {p : Plan}

theorem gridded (hp : Planned h b p h') (hg : h.Gridded) : h'.Gridded := by
  refine hg.congr hp.ground.layout hp.ground.size fun i hi => ?_
  by_cases hdead : h.DeadRun b i
  · rw [hp.freed i hi hdead]
    exact ⟨rfl, rfl, rfl⟩
  · rw [hp.kept i hdead]
    exact ⟨rfl, rfl, rfl⟩

/-- A run that is kept is a run of the table after planning. -/
theorem humongousRun (hp : Planned h b p h') (hg : h.Gridded) {first : Nat} {words : WordCount}
    (hrun : h.HumongousRun first words) (hlt : first < h.regions.size)
    (hmarked : b.isMarked (h.region first).bottom = true) : h'.HumongousRun first words := by
  obtain ⟨hsmall, hpos, hin⟩ := hrun.inside hg hlt
  have hkept : ∀ i, first ≤ i → i < first + (h.layout.regionsFor words).toNat →
      h'.region i = h.region i := by
    intro i h1 h2
    apply hp.kept
    rw [deadRun_iff ⟨hrun, h1, h2⟩, hmarked]
    simp
  refine ⟨hrun.nonempty, ?_, ?_, ?_, ?_, ?_⟩
  · rw [hkept first (le_refl _) (by omega)]
    exact hrun.start
  · rw [hp.ground.layout]
    exact hrun.fits
  · rw [hp.ground.layout]
    intro i h1 h2
    rw [hkept i h1.le h2]
    exact hrun.later i h1 h2
  · rw [hp.ground.layout]
    -- the region behind the run may have been freed, but does not come to continue it
    have hlast := hrun.last
    by_cases hdead : h.DeadRun b (first + (h.layout.regionsFor words).toNat)
    · by_cases hsize : first + (h.layout.regionsFor words).toNat < h.regions.size
      · rw [hp.freed _ hsize hdead]
        simp [Region.makeFree]
      · rw [Heap.region_of_size_le _ (by rw [hp.ground.size]; omega)]
        decide
    · rw [hp.kept _ hdead]
      exact hlast
  · rw [hp.ground.layout]
    intro i h1 h2
    rw [hkept i h1 h2]
    exact hrun.tops i h1 h2

theorem tabled (hp : Planned h b p h') (ht : h.Tabled) : h'.Tabled := by
  have hsize := hp.ground.size
  refine { hp.gridded ht.toGridded with top := ?_, free := ?_, runs := ?_, continued := ?_ }
  · intro i hi
    rw [hsize] at hi
    have htop := ht.top i hi
    by_cases hdead : h.DeadRun b i
    · have hi' : i ≤ h.layout.numRegions := by
        rw [← ht.count]
        exact hi.le
      have hmod := ht.layout.bottom_mod hi'
      rw [hp.freed i hi hdead]
      show (h.region i).bottom.toNat ≤ (h.region i).bottom.toNat ∧
        (h.region i).bottom.toNat ≤ (h.region i).stop.toNat ∧ (h.region i).bottom.toNat % 8 = 0
      rw [ht.bottom i hi] at htop ⊢
      exact ⟨le_refl _, by omega, hmod⟩
    · rw [hp.kept i hdead]
      exact htop
  · intro i hi hk
    rw [hsize] at hi
    by_cases hdead : h.DeadRun b i
    · rw [hp.freed i hi hdead]
      rfl
    · rw [hp.kept i hdead] at hk ⊢
      exact ht.free i hi hk
  · intro i hi hk
    rw [hsize] at hi
    by_cases hdead : h.DeadRun b i
    · rw [hp.freed i hi hdead] at hk
      cases hk
    · rw [hp.kept i hdead] at hk
      obtain ⟨words, hrun⟩ := ht.runs i hi hk
      obtain ⟨-, hpos, -⟩ := hrun.inside ht.toGridded hi
      have hin : h.InRun i words i := ⟨hrun, le_refl _, by omega⟩
      rw [deadRun_iff hin, Bool.not_eq_false] at hdead
      exact ⟨words, hp.humongousRun ht.toGridded hrun hi hdead⟩
  · intro i hi hk
    rw [hsize] at hi
    by_cases hdead : h.DeadRun b i
    · rw [hp.freed i hi hdead] at hk
      cases hk
    · rw [hp.kept i hdead] at hk
      obtain ⟨first, words, hrun, h1, h2⟩ := ht.continued i hi hk
      have hin : h.InRun first words i := ⟨hrun, h1.le, h2⟩
      rw [deadRun_iff hin, Bool.not_eq_false] at hdead
      exact ⟨first, words, hp.humongousRun ht.toGridded hrun (by omega) hdead, h1, by
        rw [hp.ground.layout]
        exact h2⟩

theorem idle (hp : Planned h b p h') (hi : ∀ i < h.regions.size, (h.region i).Idle) :
    ∀ i < h'.regions.size, (h'.region i).Idle := by
  intro i hlt
  rw [hp.ground.size] at hlt
  by_cases hdead : h.DeadRun b i
  · rw [hp.freed i hlt hdead]
    exact ⟨rfl, (hi i hlt).compacting, (hi i hlt).ready, (hi i hlt).pending⟩
  · rw [hp.kept i hdead]
    exact hi i hlt

/-- Objects stay in their places, unless they are humongous and have not been marked. -/
theorem placedAt_of_run (hp : Planned h b p h') (hg : h.Gridded) {a : Address} {words : WordCount}
    (ha : h.PlacedAt a words)
    (hmarked : ∀ i < h.regions.size, h.HumongousRun i words → a = h.layout.bottom i →
      b.isMarked (h.region i).bottom = true) : h'.PlacedAt a words := by
  rcases ha with ⟨i, hi, hk, h1, h2⟩ | ⟨i, hi, hrun, rfl⟩
  · have hkept := hp.kept i (Plan.not_deadRun_of_kind (.inl hk))
    refine .inl ⟨i, by rwa [hp.ground.size], ?_, ?_, ?_⟩
    · rw [hkept]
      exact hk
    · rw [hp.ground.layout]
      exact h1
    · rw [hkept]
      exact h2
  · exact .inr ⟨i, by rwa [hp.ground.size], hp.humongousRun hg hrun hi (hmarked i hi hrun rfl), by
      rw [hp.ground.layout]⟩

/-- Live objects stay in their places. -/
theorem placedAt (hp : Planned h b p h') (hg : h.Gridded) {a : Address} {words : WordCount}
    (ha : h.PlacedAt a words) (hmarked : b.isMarked a = true) : h'.PlacedAt a words :=
  hp.placedAt_of_run hg ha fun i hi _ heq => by
    rw [hg.bottom i hi, ← heq]
    exact hmarked

end Planned

end MarkCompact
