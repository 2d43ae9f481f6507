/-
MarkCompact/Proofs/Figures.lean

The figures of a collection.

Several parts of a collection count: tracing counts what is live, copying what has moved and
grown, and finishing adds the humongous objects.  Every object that can be reached is counted once
by those whom it concerns, with its words before the move where it is live and those after the
move where it has moved (`Accounted`).  The words in use at the end are then those that were live
and those by which objects have grown, unless an encoding has kept objects in place.

The regions that a collection frees are counted as a difference, from which those that it fills
are missing.

Main results: `Collector.collect_figures` and `Collector.collect_freedRegions`.
-/
import MarkCompact.Proofs.Gaps
import MarkCompact.Proofs.SerialCharts
import MarkCompact.Proofs.EncodingAgreement
import MarkCompact.Proofs.FreeRegions

namespace MarkCompact

/-! ### Sums -/

/-- As many elements satisfy a predicate as ones are added up. -/
theorem sum_ones {α : Type} (p : α → Bool) (as : List α) :
    (as.map fun a => if p a then 1 else 0).sum = as.countP p := by
  induction as with
  | nil => rfl
  | cons a as ih => rw [List.map_cons, List.sum_cons, ih, List.countP_cons, Nat.add_comm]

/-- What adds nothing can be left out of a sum. -/
theorem sum_filter {α : Type} (p : α → Bool) (f : α → Nat) (as : List α)
    (hnone : ∀ a ∈ as, p a = false → f a = 0) :
    ((as.filter p).map f).sum = (as.map f).sum := by
  induction as with
  | nil => rfl
  | cons a as ih =>
    have hrest := ih fun c hc => hnone c (List.mem_cons_of_mem _ hc)
    cases hp : p a with
    | true => rw [List.filter_cons_of_pos hp, List.map_cons, List.map_cons, List.sum_cons,
        List.sum_cons, hrest]
    | false => rw [List.filter_cons_of_neg (by simp [hp]), List.map_cons, List.sum_cons, hrest,
        hnone a (List.mem_cons_self ..) hp, Nat.zero_add]

/-! ### Counting moves -/

namespace MoveRecord

/-- The words of moves are added up. -/
theorem words_countAll (rs : List MoveRecord) (c : CopyCount)
    (hfits : c.words.toNat + (rs.map (·.copySize.toNat)).sum < 2 ^ 64) :
    (countAll rs c).words.toNat = c.words.toNat + (rs.map (·.copySize.toNat)).sum := by
  induction rs generalizing c with
  | nil => simp [countAll]
  | cons r rs ih =>
    rw [List.map_cons, List.sum_cons] at hfits ⊢
    have hword : (r.count c).words.toNat = c.words.toNat + r.copySize.toNat := by
      show (c.words + r.copySize).toNat = _
      rw [UInt64.toNat_add, Nat.mod_eq_of_lt (by omega)]
    have hrest := ih (r.count c) (by omega)
    rw [hword] at hrest
    exact hrest.trans (by omega)

theorem grown_countAll (rs : List MoveRecord) (c : CopyCount) :
    (countAll rs c).grown = c.grown + rs.countP grown := by
  induction rs generalizing c with
  | nil => simp [countAll]
  | cons r rs ih =>
    have hrest := ih (r.count c)
    have hone : (r.count c).grown = c.grown + if r.grown then 1 else 0 := rfl
    rw [hone] at hrest
    rw [List.countP_cons]
    exact hrest.trans (by omega)

end MoveRecord

theorem MoveRecord.grown_eq (r : MoveRecord) :
    r.grown = decide (r.size.toNat < r.copySize.toNat) := rfl

theorem HumongousMove.grown_eq (v : HumongousMove) :
    v.grown = decide (v.size.toNat < v.copySize.toNat) := rfl

/-- An object grows by one word if it grows. -/
theorem Heap.ite_lt_movedWords (h : Heap) (t : ClassTable) (a : Address) :
    (if decide (h.wordsAt t a < h.movedWords t a) = true then 1 else 0)
      = h.movedWords t a - h.wordsAt t a := by
  obtain ⟨h1, h2⟩ := Surveyed.wordsAt_le_movedWords h t a
  by_cases hlt : h.wordsAt t a < h.movedWords t a
  · rw [if_pos (by simpa using hlt)]
    omega
  · rw [if_neg (by simpa using hlt)]
    omega

/-- The figures `s` of a collection say what has become of the objects `l` of the heap `h`, which
lie in the heap `h'` where `move` says. -/
structure Accounted (h h' : Heap) (t : ClassTable) (l : List Address) (move : Address → Address)
    (s : CycleStats) : Prop where
  liveObjects : s.liveObjects = l.length
  liveWords : s.liveWords = (l.map (h.wordsAt t)).sum
  forwarded : s.forwardedObjects = (l.filter fun a => move a != a).length
  moved : s.movedObjects = (l.filter fun a => move a != a).length
  movedWords : s.movedWords
    = ((l.filter fun a => move a != a).map fun a => h'.wordsAt t (move a)).sum
  /-- No object has lost words. -/
  kept : ∀ a ∈ l, h.wordsAt t a ≤ h'.wordsAt t (move a)
  grown : s.grownObjects = (l.map fun a => h'.wordsAt t (move a) - h.wordsAt t a).sum

/-- What is live and what has been added is there at the end. -/
theorem Accounted.sum_words {h h' : Heap} {t : ClassTable} {l : List Address}
    {move : Address → Address} {s : CycleStats} (ha : Accounted h h' t l move s) :
    (l.map fun a => h'.wordsAt t (move a)).sum = s.liveWords + s.grownObjects := by
  rw [ha.liveWords, ha.grown, ← List.sum_map_add]
  refine congrArg List.sum (List.map_congr_left fun a hmem => ?_)
  have := ha.kept a hmem
  omega

/-! ### The words of the objects after a collection -/

namespace Relocated

variable {h h' : Heap} {t : ClassTable} {roots roots' : Roots} {move : Address → Address}
  {l : List Address}

/-- Tracing would find the moved objects. -/
theorem exists_surveyed (hr : Relocated h t roots h' roots' move) (hw : WellFormed h t roots)
    (hnodup : l.Nodup) (hmem : ∀ a, a ∈ l ↔ Reaches h t roots a) :
    ∃ b, Surveyed h' t b (Reaches h' t roots') ∧ (h'.liveList b).Perm (l.map move) := by
  have hw' := hr.wellFormed hw
  obtain ⟨-, -, -, -, hshows, -, -⟩ := hw'.trace
  have hs := hw'.surveyed_of_shows hshows
  refine ⟨_, hs, (List.perm_ext_iff_of_nodup
    (Surveyed.nodup_of_pairwise hs.pairwise_liveList) ?_).2 fun v => ?_⟩
  · refine hnodup.map_on fun a ha c hc heq => ?_
    exact hr.injective hw ((hmem a).1 ha) ((hmem c).1 hc) heq
  · rw [hs.mem_liveList, hr.reaches_iff hw, List.mem_map]
    simp only [hmem]

/-- The objects have no more words after a collection than the heap. -/
theorem sum_words_le (hr : Relocated h t roots h' roots' move) (hw : WellFormed h t roots)
    (hnodup : l.Nodup) (hmem : ∀ a, a ∈ l ↔ Reaches h t roots a) :
    (l.map fun a => h'.wordsAt t (move a)).sum ≤ h'.layout.heapWords.toNat := by
  obtain ⟨b, hs, hperm⟩ := hr.exists_surveyed hw hnodup hmem
  have hle := hs.sum_words_le
  rwa [(hperm.map _).sum_eq, List.map_map] at hle

/-- If there are no gaps between them, the words in use are theirs. -/
theorem usedWords_eq (hr : Relocated h t roots h' roots' move) (hw : WellFormed h t roots)
    (hnodup : l.Nodup) (hmem : ∀ a, a ∈ l ↔ Reaches h t roots a)
    (hgapless : h'.Gapless t fun v => ∃ a, Reaches h t roots a ∧ move a = v) :
    h'.usedWords.toNat = (l.map fun a => h'.wordsAt t (move a)).sum := by
  obtain ⟨b, hs, hperm⟩ := hr.exists_surveyed hw hnodup hmem
  have hused := hs.usedWords_eq fun i hi x hx h1 h2 => by
    obtain ⟨v, hv, hcovers⟩ := hgapless i hi x hx h1 h2
    exact ⟨v, (hr.reaches_iff hw).2 hv, hcovers⟩
  rwa [(hperm.map _).sum_eq, List.map_map] at hused

end Relocated

/-- The words that are live fit in a word. -/
theorem WellFormed.toNat_liveWords {h : Heap} {t : ClassTable} {roots : Roots}
    (hw : WellFormed h t roots) {l : List Address} (hnodup : l.Nodup)
    (hmem : ∀ a, a ∈ l ↔ Reaches h t roots a) :
    (h.trace t roots (.ofLayout h.layout)).liveObjects = l.length ∧
      (h.trace t roots (.ofLayout h.layout)).liveWords.toNat = (l.map (h.wordsAt t)).sum := by
  obtain ⟨met, hmet, hmetmem, -, hshows, hobjects, hwords⟩ := hw.trace
  have hs := hw.surveyed_of_shows hshows
  have hperm : met.Perm l := (List.perm_ext_iff_of_nodup hmet hnodup).2 fun a => by
    rw [hmetmem, hmem]
  have hlist : (h.liveList (h.trace t roots (.ofLayout h.layout)).bitmap).Perm l :=
    (List.perm_ext_iff_of_nodup (Surveyed.nodup_of_pairwise hs.pairwise_liveList) hnodup).2
      fun a => by rw [hs.mem_liveList, hmem]
  have hle := hs.sum_words_le
  have hlt := h.layout.heapWords.toNat_lt
  rw [(hlist.map _).sum_eq] at hle
  refine ⟨hobjects.trans hperm.length_eq, ?_⟩
  rw [hwords, (hperm.map _).sum_eq]
  exact UInt64.toNat_ofNat_of_lt' (by
    show _ < 2 ^ 64
    omega)

/-! ### What moves -/

variable {h h₂ g h' : Heap} {t : ClassTable} {b : Bitmap} {live : Address → Prop}
  {part : List Nat} {l : List Address}

/-- The objects that move are those of the part that do, and humongous ones. -/
theorem Heap.Housed.perm_moving {tops : Nat → Address} {bs : List Berth} {vs : List HumongousMove}
    (hh : h.Housed t b live part tops bs vs) (hnodup : l.Nodup) (hmem : ∀ a, a ∈ l ↔ live a) :
    (l.filter fun a => Berth.placeOf (h.places bs vs) a != a).Perm
      (((part.flatMap (h.liveIn b)).filter fun a => Berth.placeOf (h.places bs vs) a != a) ++
        vs.map fun v => h.layout.bottom v.source) := by
  have hsources : (vs.map fun v => h.layout.bottom v.source).Nodup := by
    have hobjects := hh.nodup_humongous
    rwa [List.map_map] at hobjects
  refine (List.perm_ext_iff_of_nodup (hnodup.filter _) (List.Nodup.append
    ((Surveyed.nodup_of_pairwise hh.ascending).filter _) hsources ?_)).2 fun a => ?_
  · rw [List.disjoint_left]
    intro a ha hsource
    obtain ⟨v, hv, rfl⟩ := List.mem_map.1 hsource
    exact hh.source_notMem hv (hh.mem_objects.1 (List.mem_filter.1 ha).1).2
  · rw [List.mem_append, List.mem_filter, List.mem_filter, hmem, hh.mem_objects, List.mem_map,
      bne_iff_ne]
    constructor
    · rintro ⟨ha, hmoves⟩
      rcases hh.cases ha with ⟨hin, -⟩ | ⟨v, hv, rfl, -⟩ | ⟨-, -, hstays⟩
      · exact .inl ⟨⟨ha, hin⟩, hmoves⟩
      · exact .inr ⟨v, hv, rfl⟩
      · exact absurd hstays hmoves
    · rintro (⟨⟨ha, -⟩, hmoves⟩ | ⟨v, hv, rfl⟩)
      · exact ⟨ha, hmoves⟩
      · exact ⟨(hh.resettled.rehoused v hv).live, hh.placeOf_humongous_ne hv⟩

namespace ParallelCycle.Completed

variable {n : Forwarding.Announced} {e : Encoding} {starts : StartTable} {kept : Nat}
  {tops : Nat → Address} {bs : List Berth} {vs : List HumongousMove} {s : Relocation}
  {release : Bool} (hc : Completed h t b live part n e starts kept tops bs vs s release h₂ g h')
include hc

/-- An object has the words of its copy once it has moved. -/
theorem wordsAt_of_moves {a : Address} (ha : live a)
    (hmoves : Berth.placeOf (h.places bs vs) a ≠ a) :
    h'.wordsAt t (Berth.placeOf (h.places bs vs) a) = h.movedWords t a := by
  rw [hc.wordsAt_place ha, Heap.wordsFrom, if_neg hmoves]

/-- What is added up over the objects that move is added up where they are counted. -/
theorem sum_moving (hnodup : l.Nodup) (hmem : ∀ a, a ∈ l ↔ live a) {m : Memory} {intact : Bool}
    {f : Address → Nat} {count : MoveRecord → Nat} {count' : HumongousMove → Nat}
    (hpart : ∀ a, live a → Berth.placeOf (h.places bs vs) a ≠ a →
      count (h.recordFor t m intact (Berth.placeOf (h.places bs vs)) a) = f a)
    (hhumongous : ∀ v ∈ vs, count' v = f (h.layout.bottom v.source)) :
    ((l.filter fun a => Berth.placeOf (h.places bs vs) a != a).map f).sum
      = ((h.recordsOf t m intact (Berth.placeOf (h.places bs vs))
          (part.flatMap (h.liveIn b))).map count).sum + (vs.map count').sum := by
  have hh := hc.housed
  rw [((hh.perm_moving hnodup hmem).map f).sum_eq, List.map_append, List.sum_append]
  refine congrArg₂ (· + ·) (congrArg List.sum ?_) (congrArg List.sum ?_)
  · unfold Heap.recordsOf
    rw [List.map_map]
    refine (List.map_congr_left fun a ha => ?_).symm
    obtain ⟨ha, hmoves⟩ := List.mem_filter.1 ha
    exact hpart a (hh.mem_objects.1 ha).1 (by simpa using hmoves)
  · rw [List.map_map]
    exact (List.map_congr_left hhumongous).symm

/-- Copying and the pass over humongous objects count every object that moves. -/
theorem counted (hnodup : l.Nodup) (hmem : ∀ a, a ∈ l ↔ live a)
    (hfits : (l.map fun a => h'.wordsAt t (Berth.placeOf (h.places bs vs) a)).sum < 2 ^ 64)
    (m : Memory) (intact : Bool) :
    let place := Berth.placeOf (h.places bs vs)
    let moving := l.filter fun a => place a != a
    let copied := MoveRecord.countAll
      (h.recordsOf t m intact place (part.flatMap (h.liveIn b))) .zero
    copied.objects + vs.length = moving.length ∧
      copied.words.toNat + (vs.map (·.copySize.toNat)).foldr (· + ·) 0
        = (moving.map fun a => h'.wordsAt t (place a)).sum ∧
      copied.grown + vs.countP HumongousMove.grown
        = (l.map fun a => h'.wordsAt t (place a) - h.wordsAt t a).sum := by
  intro place moving copied
  have hh := hc.housed
  have hs := hc.surveyed
  have hplace : ∀ v ∈ vs, h'.wordsAt t (place (h.layout.bottom v.source)) = v.copySize.toNat :=
    fun v hv => by
      rw [hc.wordsAt_place (hh.resettled.rehoused v hv).live, hh.placeOf_humongous hv,
        hh.wordsFrom_run hv]
  have hobjects : moving.length = (h.recordsOf t m intact place
      (part.flatMap (h.liveIn b))).length + vs.length := by
    have hlength := (hh.perm_moving hnodup hmem).length_eq
    unfold Heap.recordsOf
    rw [List.length_append, List.length_map] at hlength
    rw [List.length_map]
    exact hlength
  have hwords : (moving.map fun a => h'.wordsAt t (place a)).sum
      = ((h.recordsOf t m intact place (part.flatMap (h.liveIn b))).map (·.copySize.toNat)).sum
        + (vs.map (·.copySize.toNat)).sum :=
    hc.sum_moving hnodup hmem
      (fun a ha hmoves => by
        rw [(Heap.words_recordFor hs ha m intact _).2, hc.wordsAt_of_moves ha hmoves])
      fun v hv => (hplace v hv).symm
  have hgrown : (moving.map fun a => h'.wordsAt t (place a) - h.wordsAt t a).sum
      = (h.recordsOf t m intact place (part.flatMap (h.liveIn b))).countP MoveRecord.grown
        + vs.countP HumongousMove.grown := by
    rw [← sum_ones, ← sum_ones]
    refine hc.sum_moving hnodup hmem (fun a ha hmoves => ?_) fun v hv => ?_
    · obtain ⟨hsize, hcopy⟩ := Heap.words_recordFor hs ha m intact place
      rw [hc.wordsAt_of_moves ha hmoves, MoveRecord.grown_eq, hsize, hcopy]
      exact h.ite_lt_movedWords t a
    · have hr := hh.resettled.rehoused v hv
      rw [hplace v hv, HumongousMove.grown_eq, hr.words, hr.moved]
      exact h.ite_lt_movedWords t _
  have hstays : (moving.map fun a => h'.wordsAt t (place a) - h.wordsAt t a).sum
      = (l.map fun a => h'.wordsAt t (place a) - h.wordsAt t a).sum := by
    refine sum_filter _ _ _ fun a ha hsame => ?_
    have hsame : place a = a := by simpa using hsame
    rw [hc.wordsAt_place ((hmem a).1 ha), Heap.wordsFrom, if_pos hsame, Nat.sub_self]
  have hmoving : (moving.map fun a => h'.wordsAt t (place a)).sum < 2 ^ 64 :=
    Nat.lt_of_le_of_lt (List.Sublist.sum_le_sum ((List.filter_sublist ..).map _) (by simp)) hfits
  refine ⟨?_, ?_, ?_⟩
  · rw [hobjects, MoveRecord.objects_countAll]
    exact congrArg (· + vs.length) (Nat.zero_add _)
  · rw [MoveRecord.words_countAll _ _ (by
      rw [hwords] at hmoving
      exact Nat.lt_of_le_of_lt (by rw [show CopyCount.zero.words.toNat = 0 from rfl]; omega) hmoving),
      hwords]
    exact congrArg (· + _) (Nat.zero_add _)
  · rw [← hstays, hgrown, MoveRecord.grown_countAll]
    exact congrArg (· + _) (Nat.zero_add _)

end ParallelCycle.Completed

/-- In the serial style the objects that move are objects of the part. -/
theorem SerialCycle.Completed.perm_moving {d : Nat} {table : BlockOffsets} {spaces : Array Space}
    {bs : List Berth} {release : Bool}
    (hc : Completed h t b live d table spaces bs release h₂ g h')
    (hnodup : l.Nodup) (hmem : ∀ a, a ∈ l ↔ live a) :
    (l.filter fun a => Berth.placeOf bs a != a).Perm
      (((h.partFrom d).flatMap (h.liveIn b)).filter fun a => Berth.placeOf bs a != a) := by
  have hs := hc.surveyed
  have hasc := hs.pairwise_flatMap_liveIn hc.part.ascending hc.part.inside
  refine (List.perm_ext_iff_of_nodup (hnodup.filter _)
    ((Surveyed.nodup_of_pairwise hasc).filter _)).2 fun a => ?_
  rw [List.mem_filter, List.mem_filter, hmem, hc.mem_moved, bne_iff_ne]
  constructor
  · rintro ⟨ha, hmoves⟩
    refine ⟨⟨ha, ?_⟩, hmoves⟩
    by_contra hout
    exact hmoves (hc.place_other hout)
  · rintro ⟨⟨ha, -⟩, hmoves⟩
    exact ⟨ha, hmoves⟩

/-! ### The figures -/

namespace Collector

/-- The figures of a collection are exact, and if no object has been kept in place the words in
use afterwards are the live words and those by which objects have grown. -/
theorem collect_figures {c : Collector} (times : Durations) {h : Heap} {t : ClassTable}
    {roots : Roots} (hw : WellFormed h t roots) (hc : c.Prepared h) :
    ∃ r l move, (c.collect times h t roots).outcome = .ok r ∧
      Relocated h t roots r.heap r.roots move ∧
      l.Nodup ∧ (∀ a, a ∈ l ↔ Reaches h t roots a) ∧
      Accounted h r.heap t l move r.stats ∧
      ((c.config.style = .parallel → c.KeepsNone times h t roots) →
        r.heap.usedWords.toNat = r.stats.liveWords + r.stats.grownObjects) := by
  obtain ⟨l, hnodup, hmem, -⟩ := hw.trace
  obtain ⟨hobjects, hwords⟩ := hw.toNat_liveWords hnodup hmem
  cases hstyle : c.config.style with
  | parallel =>
    obtain ⟨r, b, p, h₁, o, n, tops, bs, s₂, h₂, g, hrun, hforward, rfl, hbuild, hplanned, -, -, -,
      -, hroots, hstats, hcompleted⟩ := collect_parallel_completed times hw hc hstyle
    have hrel := hcompleted.relocated hplanned.ground
    rw [← hroots] at hrel
    have hwordsAt : ∀ a, h₁.wordsAt t a = h.wordsAt t a := fun a =>
      Heap.wordsAt_congr hplanned.ground.memory
    have hlt := r.heap.layout.heapWords.toNat_lt
    obtain ⟨hmoved, hmovedWords, hgrown⟩ := hcompleted.counted hnodup hmem
      (Nat.lt_of_le_of_lt (hrel.sum_words_le hw hnodup hmem) hlt) s₂.heap.memory
      (!s₂.forwarding.overwritesMarks)
    simp only [hwordsAt] at hgrown
    have haccounted : Accounted h r.heap t l (Berth.placeOf (h₁.places bs o.humongous))
        r.stats := by
      refine ⟨?_, ?_, ?_, ?_, ?_, fun a ha => ?_, ?_⟩
      · exact (congrArg CycleStats.liveObjects hstats).trans hobjects
      · exact (congrArg CycleStats.liveWords hstats).trans hwords
      · exact (congrArg CycleStats.forwardedObjects hstats).trans hmoved
      · exact (congrArg CycleStats.movedObjects hstats).trans hmoved
      · exact (congrArg CycleStats.movedWords hstats).trans hmovedWords
      · rw [hcompleted.wordsAt_place ((hmem a).1 ha), ← hwordsAt]
        exact (h₁.wordsFrom_le t a _).1
      · exact (congrArg CycleStats.grownObjects hstats).trans hgrown
    refine ⟨r, l, _, hrun, hrel, hnodup, hmem, haccounted, fun hnone => ?_⟩
    obtain ⟨o', hforward', hkept⟩ := hnone rfl
    obtain rfl := Except.ok.inj ((forwardPhase_of_record hforward).symm.trans hforward')
    obtain ⟨-, -, -, -, hshows, -, -⟩ := hw.trace
    have hout := hplanned.liveOutside hw.settled.toTabled hcompleted.surveyed
      fun i hd hi hk => hplanned.mem_compacting hd hi hk
    rw [hrel.usedWords_eq hw hnodup hmem (hcompleted.gapless hkept hout), haccounted.sum_words]
  | serial =>
    obtain ⟨r, b, bs, table, spaces, h₂, g, hrun, rfl, -, -, -, -, -, hroots, hstats, hplanned,
      hcompleted⟩ := collect_completed times hw hc.toSuits hstyle
    have hrel := hcompleted.relocated hplanned.ground (hc.classic hstyle)
    rw [← hroots] at hrel
    generalize hh₁ : (Plan.build h _).2 = h₁ at *
    have hwordsAt : ∀ a, h₁.wordsAt t a = h.wordsAt t a := fun a =>
      Heap.wordsAt_congr hplanned.ground.memory
    -- nothing grows
    have hplace : ∀ a ∈ l, r.heap.wordsAt t (Berth.placeOf bs a) = h.wordsAt t a := fun a ha => by
      rw [hcompleted.wordsAt_place ((hmem a).1 ha), hwordsAt]
    have hperm := hcompleted.perm_moving hnodup hmem
    have haccounted : Accounted h r.heap t l (Berth.placeOf bs) r.stats := by
      refine ⟨?_, ?_, ?_, ?_, ?_, fun a ha => (hplace a ha).ge, ?_⟩
      · exact (congrArg CycleStats.liveObjects hstats).trans hobjects
      · exact (congrArg CycleStats.liveWords hstats).trans hwords
      · exact (congrArg CycleStats.forwardedObjects hstats).trans hperm.length_eq.symm
      · exact (congrArg CycleStats.movedObjects hstats).trans hperm.length_eq.symm
      · refine (congrArg CycleStats.movedWords hstats).trans ?_
        refine ((hperm.map (h₁.wordsAt t)).sum_eq.symm).trans (congrArg List.sum ?_)
        exact List.map_congr_left fun a ha => by
          rw [hplace a (List.mem_filter.1 ha).1, hwordsAt]
      · refine (congrArg CycleStats.grownObjects hstats).trans ?_
        show 0 = _
        rw [List.map_congr_left (g := fun _ => 0) fun a ha => by rw [hplace a ha, Nat.sub_self]]
        simp
    refine ⟨r, l, _, hrun, hrel, hnodup, hmem, haccounted, fun _ => ?_⟩
    have hpart : ∀ i, (Plan.build h (h.trace t roots (.ofLayout h.layout)).bitmap).1.densePrefix ≤ i →
        i < h₁.regions.size → (h₁.region i).kind = .regular → i ∈ h₁.partFrom _ :=
      fun i hd hi hk => (Heap.mem_partFrom hcompleted.dense i).2 ⟨hd, hi, by rw [hk]; rfl⟩
    have hout := hplanned.liveOutside hw.settled.toTabled hcompleted.surveyed hpart
    rw [hrel.usedWords_eq hw hnodup hmem (hcompleted.gapless hout), haccounted.sum_words]

/-- Full addresses in classic marks, on a heap of four regions with one object. -/
theorem collect_figures_classic : ∃ (h : Heap) (t : ClassTable) (a : Address) (c : Collector),
    WellFormed h t #[a] ∧ c.Prepared h ∧ c.config.style = .parallel ∧
      ∃ r l move, (c.collect ⟨fun _ => 0, 0⟩ h t #[a]).outcome = .ok r ∧
        (∀ x, x ∈ l ↔ Reaches h t #[a] x) ∧ a ∈ l ∧ Accounted h r.heap t l move r.stats ∧
        r.heap.usedWords.toNat = r.stats.liveWords + r.stats.grownObjects := by
  let config : Config := { regionShift := 4, numRegions := 4, blockShift := 2 }
  have hv : config.Valid := by decide
  have hb : config.Backed 0x10000 := by decide
  obtain ⟨h, t, a, c, hw, ha, -, hconfig, -, hc⟩ := exists_collector hv hb (by decide)
  have hparallel : c.config.style = .parallel := by rw [hconfig]
  obtain ⟨-, -, hheaders⟩ := hc.agrees
  rw [hconfig] at hheaders
  obtain ⟨r, l, move, hrun, -, -, hmem, haccounted, hused⟩ :=
    collect_figures ⟨fun _ => 0, 0⟩ hw hc
  exact ⟨h, t, a, c, hw, hc, hparallel, r, l, move, hrun, hmem, (hmem a).2 ha, haccounted,
    hused fun _ => keepsNone _ hw hc hparallel (.inl hheaders)⟩

end Collector

/-! ### Regions that are freed -/

/-- The regions that are in use in `h` and free in `h'`. -/
def Heap.freedIn (h h' : Heap) : Finset Nat :=
  (Finset.range h.regions.size).filter fun i =>
    (h.region i).kind ≠ .free ∧ (h'.region i).kind = .free

theorem Heap.freedIn_eq (hsize : h'.regions.size = h.regions.size) :
    h.freedIn h' = h'.freeIndices \ h.freeIndices := by
  ext i
  simp only [freedIn, freeIndices, Finset.mem_filter, Finset.mem_range, Finset.mem_sdiff, hsize]
  tauto

/-- Two counts of free regions differ by the regions that are freed and those that are filled. -/
theorem Heap.freeRegionCount_add (hsize : h'.regions.size = h.regions.size) :
    h'.freeRegionCount + (h'.freedIn h).card = h.freeRegionCount + (h.freedIn h').card := by
  rw [freeRegionCount_eq, freeRegionCount_eq, freedIn_eq hsize, freedIn_eq hsize.symm]
  have h1 := Finset.card_sdiff_add_card_inter h'.freeIndices h.freeIndices
  have h2 := Finset.card_sdiff_add_card_inter h.freeIndices h'.freeIndices
  rw [Finset.inter_comm] at h2
  omega

namespace Collector

/-- The figure of freed regions is the number of regions that have been freed less the number of
those that have been filled. So it is the number of freed regions exactly if no region that was
free is used afterwards. -/
theorem collect_freedRegions {c : Collector} (times : Durations) {h : Heap} {t : ClassTable}
    {roots : Roots} (hw : WellFormed h t roots) (hc : c.Prepared h) :
    ∃ r, (c.collect times h t roots).outcome = .ok r ∧
      r.stats.freedRegions + (r.heap.freedIn h).card = (h.freedIn r.heap).card ∧
      (r.stats.freedRegions = (h.freedIn r.heap).card ↔
        ∀ i < h.regions.size, (h.region i).kind = .free → (r.heap.region i).kind = .free) := by
  obtain ⟨r, hrun, hsize, hle, hfreed⟩ : ∃ r, (c.collect times h t roots).outcome = .ok r ∧
      r.heap.regions.size = h.regions.size ∧ h.freeRegionCount ≤ r.heap.freeRegionCount ∧
      r.stats.freedRegions = r.heap.freeRegionCount - h.freeRegionCount := by
    cases hstyle : c.config.style with
    | parallel =>
      obtain ⟨r, b, p, h₁, o, n, tops, bs, s₂, h₂, g, hrun, -, -, -, hplanned, -, -, -, -, -,
        hstats, hcompleted⟩ := collect_parallel_completed times hw hc hstyle
      exact ⟨r, hrun, hcompleted.finished.refilled.size.trans hplanned.ground.size,
        hplanned.freeRegionCount_le.trans
          (hcompleted.finished.refilled.freeRegionCount_le hcompleted.housed),
        congrArg CycleStats.freedRegions hstats⟩
    | serial =>
      obtain ⟨r, b, bs, table, spaces, h₂, g, hrun, -, -, -, -, -, -, -, hstats, hplanned,
        hcompleted⟩ := collect_completed times hw hc.toSuits hstyle
      exact ⟨r, hrun, hcompleted.retopped.size.trans hplanned.ground.size,
        hplanned.freeRegionCount_le.trans hcompleted.freeRegionCount_le,
        congrArg CycleStats.freedRegions hstats⟩
  have hcount := Heap.freeRegionCount_add hsize
  refine ⟨r, hrun, by omega, ?_⟩
  rw [show r.stats.freedRegions = (h.freedIn r.heap).card ↔ (r.heap.freedIn h).card = 0 by omega,
    Finset.card_eq_zero, Finset.eq_empty_iff_forall_notMem]
  simp only [Heap.freedIn, Finset.mem_filter, Finset.mem_range, hsize]
  exact ⟨fun hnone i hi hfree => by_contra fun hused => hnone i ⟨hi, hused, hfree⟩,
    fun hkept i hi => hi.2.1 (hkept i hi.1 hi.2.2)⟩

/-- A heap of four regions with one object, collected in the serial style. -/
theorem collect_freedRegions_serial : ∃ (h : Heap) (t : ClassTable) (a : Address) (c : Collector),
    WellFormed h t #[a] ∧ c.Prepared h ∧ c.config.style = .serial ∧
      ∃ r, (c.collect ⟨fun _ => 0, 0⟩ h t #[a]).outcome = .ok r ∧
        r.stats.freedRegions + (r.heap.freedIn h).card = (h.freedIn r.heap).card := by
  let config : Config := { style := .serial, regionShift := 4, numRegions := 4, blockShift := 2 }
  have hv : config.Valid := by decide
  have hb : config.Backed 0x10000 := by decide
  obtain ⟨h, t, a, c, hw, -, -, hconfig, -, hc⟩ := exists_collector hv hb (by decide)
  obtain ⟨r, hrun, hfreed, -⟩ := collect_freedRegions ⟨fun _ => 0, 0⟩ hw hc
  exact ⟨h, t, a, c, hw, hc, by rw [hconfig], r, hrun, hfreed⟩

end Collector

end MarkCompact
