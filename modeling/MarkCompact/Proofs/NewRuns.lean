/-
MarkCompact/Proofs/NewRuns.lean

Humongous objects move to runs that nothing else uses.

The moves are planned once all other objects have been given their places, and made once
these have moved.  In between a region of a new run can hold objects that are about to
leave it, the object itself, or one whose move comes earlier in the list
(`HumongousMove.NewRuns`).  So when the turn of a move comes nothing is lost by it: the words of
the object come to the new run, everything else stays, and of the regions that objects
have left those are free to which none comes (`HumongousMove.RunsTaken`).

A later move cannot undo what an earlier one has done.  Objects lie in the order of the
moves, and every new run lies to the left of its object, so that a move neither comes to
the run of an earlier one nor frees a region of it.

Main results: `Housed.runsTaken` (making the moves, in any heap with the grid of regions) and
`humongous_moves` (a collection from planning to the last move).
-/
import MarkCompact.Proofs.Placements

namespace MarkCompact

namespace HumongousMove

/-- Moves of the humongous objects that begin in some of the regions `starts` to runs that are
empty, or will be.  In `g` all other objects have been given their places. -/
structure NewRuns (h : Heap) (t : ClassTable) (starts : List Nat) (g : Heap)
    (vs : List HumongousMove) : Prop where
  source : ∀ v ∈ vs, v.source ∈ starts ∧ h.size t (h.layout.bottom v.source) = .ok v.size
  inside : ∀ v ∈ vs, 0 < v.regions h.layout ∧
    v.source + v.regions h.layout ≤ h.regions.size
  left : ∀ v ∈ vs, v.target < v.source
  /-- A hash word does not need another region. -/
  copied : ∀ v ∈ vs, (h.layout.regionsFor v.copySize).toNat = v.regions h.layout
  disjoint : vs.Pairwise fun v w => ∀ i, v.Comes h.layout i → ¬ w.Comes h.layout i
  /-- A region of a new run is free, or nothing has been placed in it, or an object whose turn
  comes earlier leaves it, or the object itself does. -/
  room : ∀ done v rest, vs = done ++ v :: rest → ∀ i, v.Comes h.layout i →
    (g.region i).kind = .free ∨
    ((g.region i).kind = .regular ∧ (g.region i).compacting = true ∧
      (g.region i).compactionTop = (g.region i).bottom) ∨
    (∃ w ∈ done, w.Leaves h.layout i) ∨ v.Leaves h.layout i

/-- What the moves make of the heap `g`. -/
structure RunsTaken (l : Layout) (intact : Bool) (vs : List HumongousMove) (g g' : Heap) :
    Prop where
  /-- All words after the mark come along. -/
  words : ∀ v ∈ vs, ∀ k, 0 < k → k < v.size.toNat →
    g'.memory.load ((l.bottom v.target).nth k) = g.memory.load ((l.bottom v.source).nth k)
  hash : ∀ v ∈ vs, v.grown = true →
    g'.memory.load ((l.bottom v.target).nth v.size.toNat)
      = (l.bottom v.source).identityHash.toUInt64
  mark : ∀ v ∈ vs, g'.memory.loadMark (l.bottom v.target)
    = relocatedMark v.mark g.compactHeaders v.grown intact
  /-- No word is written elsewhere. -/
  elsewhere : ∀ x : Address, (∀ v ∈ vs, x.toNat < (l.bottom v.target).toNat ∨
    (l.bottom v.target).toNat + 8 * v.copySize.toNat ≤ x.toNat) →
      g'.memory.load x = g.memory.load x
  run : ∀ v ∈ vs, ∀ i, v.Comes l i →
    (g'.region i).kind = if i = v.target then .humongousStart else .humongousContinues
  /-- A region that objects leave is free unless one comes, and no other one becomes free. -/
  free : ∀ i, (g'.region i).kind = .free ↔ (∀ v ∈ vs, ¬ v.Comes l i) ∧
    ((∃ v ∈ vs, v.Leaves l i) ∨ (g.region i).kind = .free)
  other : ∀ i, (∀ v ∈ vs, ¬ v.Comes l i) → (∀ v ∈ vs, ¬ v.Leaves l i) →
    g'.region i = g.region i

end HumongousMove

open HumongousMove

/-- The list of the pass holds the regions in which live humongous objects begin. -/
theorem Surveyed.mem_humongous {h h' : Heap} {t : ClassTable} {b : Bitmap}
    {live : Address → Prop} {p : Plan} (hs : Surveyed h t b live) (hp : Planned h b p h')
    {i : Nat} : i ∈ p.humongous ↔
      i < h.regions.size ∧ (h.region i).kind = .humongousStart ∧ live (h.layout.bottom i) := by
  rw [hp.humongous, List.mem_filter, List.mem_range'_1]
  constructor
  · rintro ⟨⟨-, hi⟩, hstart⟩
    have hlt : i < h.regions.size := by
      have := hp.dense_le
      omega
    refine ⟨hlt, ?_, (hs.humongous hlt hstart).1⟩
    unfold Heap.isLiveStart at hstart
    exact beq_iff_eq.1 (Bool.and_eq_true_iff.1 hstart).1
  · rintro ⟨hlt, hk, hlive⟩
    -- the dense prefix has regular regions only
    have hdense : p.densePrefix ≤ i := by
      by_contra hin
      have := hp.dense i (Nat.not_le.1 hin)
      rw [hk] at this
      cases this
    refine ⟨⟨hdense, by omega⟩, ?_⟩
    unfold Heap.isLiveStart
    rw [hk, hs.tabled.bottom i hlt, (hs.shows.starts _ (hs.isWord hlive)).2 hlive]
    rfl

namespace Heap

variable {h g g' : Heap} {t : ClassTable} {b : Bitmap} {live : Address → Prop} {part : List Nat}
  {tops : Nat → Address} {bs : List Berth} {vs : List HumongousMove}

/-! ### Room for the new runs -/

/-- What planning has picked is room. -/
theorem Resettled.newRuns (hr : h.Resettled t live (h.isVacant part tops) vs) (ht : h.Tabled)
    (hen : h.Enlisted part tops g) (hidle : ∀ i < h.regions.size, (h.region i).Idle)
    (hregular : ∀ i ∈ part, (h.region i).kind = .regular) {starts : List Nat}
    (hstarts : ∀ v ∈ vs, v.source ∈ starts)
    (hsize : ∀ v ∈ vs, h.size t (h.layout.bottom v.source) = .ok v.size) :
    NewRuns h t starts g vs := by
  have hg := ht.toGridded
  refine ⟨fun v hv => ⟨hstarts v hv, hsize v hv⟩, fun v hv => ?_,
    fun v hv => (hr.rehoused v hv).left, fun v hv => (hr.rehoused v hv).regions, hr.targets, ?_⟩
  · have hrv := hr.rehoused v hv
    exact ⟨hrv.regions_pos hg, hg.count ▸ hrv.source_le hg⟩
  · rintro done v rest rfl i hi
    have hv : v ∈ done ++ v :: rest := by simp
    have hrv := hr.rehoused v hv
    have hin : i < h.regions.size := by
      have h1 := hrv.source_le hg
      have h2 := hrv.left
      have h3 := hi.2
      rw [hg.count]
      omega
    rcases hr.vacant v hv i hi with hvacant | ⟨w, hw, hleaves, hle⟩
    · rw [← hen.isRoom ht hidle hregular hin] at hvacant
      unfold Region.isRoom at hvacant
      cases hk : (g.region i).kind with
      | free => exact .inl rfl
      | regular =>
        rw [hk] at hvacant
        simp only [Bool.and_eq_true, beq_iff_eq] at hvacant
        exact .inr (.inl ⟨rfl, hvacant⟩)
      | humongousStart => simp [hk] at hvacant
      | humongousContinues => simp [hk] at hvacant
    · -- an object that begins no later has an earlier move, or is the same one
      rcases List.mem_append.1 hw with hw | hw
      · exact .inr (.inr (.inl ⟨w, hw, hleaves⟩))
      · rcases List.mem_cons.1 hw with rfl | hw
        · exact .inr (.inr (.inr hleaves))
        · have hlater := (List.pairwise_cons.1 (List.pairwise_append.1 hr.sources).2.1).1 w hw
          have hpos := hrv.regions_pos hg
          omega

/-- Planning frees regions, and nothing else matters to the moves. -/
theorem SameGround.newRuns (hg : h.SameGround g') {starts : List Nat}
    (hn : NewRuns g' t starts g vs) : NewRuns h t starts g vs := by
  have hsize : ∀ a, h.size t a = g'.size t a := fun a => (size_congr hg.memory).symm
  obtain ⟨hsource, hinside, hleft, hcopied, hdisjoint, hroom⟩ := hn
  simp only [hg.layout, hg.size] at hsource hinside hcopied hdisjoint hroom
  exact ⟨by simpa only [hsize] using hsource, hinside, hleft, hcopied, hdisjoint, hroom⟩

/-! ### Making the moves -/

namespace Resettled

variable {vacant : Nat → Bool}

/-- A region to which an object comes is one of its new run at the end. -/
theorem kind_of_comes (hr : h.Resettled t live vacant vs) {v : HumongousMove} (hv : v ∈ vs) {i : Nat}
    (hi : v.Comes h.layout i) (r : Region) :
    (vs.foldl (fun r v => v.regionAfter h.layout i r) r).kind
      = if i = v.target then .humongousStart else .humongousContinues := by
  obtain ⟨before, after, rfl⟩ := List.append_of_mem hv
  rw [hr.foldl_regionAfter_of_mem (.inl hi) (hr.not_comes_of_comes hi), HumongousMove.regionAfter,
    if_pos hi]

/-- A region that an object leaves, and to which none comes, is free at the end. -/
theorem kind_of_leaves (hr : h.Resettled t live vacant vs) {i : Nat}
    (hcomes : ∀ v ∈ vs, ¬ v.Comes h.layout i) {v : HumongousMove} (hv : v ∈ vs)
    (hi : v.Leaves h.layout i) (r : Region) :
    (vs.foldl (fun r v => v.regionAfter h.layout i r) r).kind = .free := by
  obtain ⟨before, after, rfl⟩ := List.append_of_mem hv
  have hlater : ∀ w ∈ after, ¬ w.Comes h.layout i := fun w hw =>
    hcomes w (List.mem_append_right _ (List.mem_cons_of_mem _ hw))
  rw [hr.foldl_regionAfter_of_mem (.inr hi) hlater, HumongousMove.regionAfter, if_neg (hcomes v hv),
    if_pos hi]
  rfl

/-- What becomes of the regions. -/
theorem kind_eq_free_iff (hr : h.Resettled t live vacant vs) (i : Nat) (r : Region) :
    (vs.foldl (fun r v => v.regionAfter h.layout i r) r).kind = .free ↔
      (∀ v ∈ vs, ¬ v.Comes h.layout i) ∧ ((∃ v ∈ vs, v.Leaves h.layout i) ∨ r.kind = .free) := by
  by_cases hcomes : ∃ v ∈ vs, v.Comes h.layout i
  · obtain ⟨v, hv, hi⟩ := hcomes
    rw [hr.kind_of_comes hv hi]
    refine ⟨fun hfree => ?_, fun hnone => absurd hi (hnone.1 v hv)⟩
    split at hfree <;> cases hfree
  · have hnone : ∀ v ∈ vs, ¬ v.Comes h.layout i := fun v hv hi => hcomes ⟨v, hv, hi⟩
    by_cases hleaves : ∃ v ∈ vs, v.Leaves h.layout i
    · obtain ⟨v, hv, hi⟩ := hleaves
      exact ⟨fun _ => ⟨hnone, .inl ⟨v, hv, hi⟩⟩, fun _ => hr.kind_of_leaves hnone hv hi r⟩
    · rw [foldl_regionAfter_of_neither hnone fun v hv hi => hleaves ⟨v, hv, hi⟩]
      exact ⟨fun hfree => ⟨hnone, .inr hfree⟩, fun hfree => hfree.2.resolve_left hleaves⟩

end Resettled

namespace Housed

variable (hh : h.Housed t b live part tops bs vs)
include hh

/-- All moves are made, and each object takes its new run. -/
theorem runsTaken (hgrid : g.Gridded) (hlayout : g.layout = h.layout)
    (hheaders : g.compactHeaders = h.compactHeaders) (hspan : h.memory.SameSpan g.memory)
    (intact : Bool) :
    ∃ words g', MarkCompact.applyHumongousMoves g vs intact = .ok (words, g') ∧
      RunsTaken h.layout intact vs g g' := by
  obtain ⟨g', hrun, -, -, -, hregion, -, hmemory⟩ :=
    hh.applyHumongousMoves hgrid hlayout hheaders hspan intact
  rw [← hheaders] at hmemory
  have hr := hh.resettled
  -- each word of a new run is one of its planned move
  have hword : ∀ v ∈ vs, ∀ k < v.copySize.toNat,
      g'.memory.load ((h.layout.bottom v.target).nth k)
        = (v.record h.layout g.compactHeaders intact).word g.memory k := fun v hv =>
    hmemory.there _ (List.mem_map_of_mem (List.mem_map_of_mem hv))
  have hle : ∀ v ∈ vs, v.size.toNat ≤ v.copySize.toNat := fun v hv => by
    have hrv := hr.rehoused v hv
    rw [hrv.words, hrv.moved]
    exact (Surveyed.wordsAt_le_movedWords h t _).1
  have hpos : ∀ v ∈ vs, 0 < v.size.toNat := fun v hv => by
    have hrv := hr.rehoused v hv
    rw [hrv.words]
    exact hh.surveyed.wordsAt_pos hrv.live
  refine ⟨_, g', hrun, fun v hv k h0 hk => ?_, fun v hv hgrown => ?_, fun v hv => ?_,
    fun x hx => ?_, fun v hv i hi => ?_, fun i => ?_, fun i hcomes hleaves => ?_⟩
  · rw [hword v hv k (hk.trans_le (hle v hv))]
    exact (if_neg h0.ne').trans (if_pos hk)
  · rw [hword v hv _ (UInt64.lt_iff_toNat_lt.1 ((grown_iff v).1 hgrown))]
    exact (if_neg (hpos v hv).ne').trans (if_neg (Nat.lt_irrefl v.size.toNat))
  · have hmark := hword v hv 0 ((hpos v hv).trans_le (hle v hv))
    rw [Address.nth_zero] at hmark
    exact congrArg Mark.mk hmark
  · refine hmemory.elsewhere x fun r hrm => ?_
    obtain ⟨q, hq, rfl⟩ := List.mem_map.1 hrm
    obtain ⟨v, hv, rfl⟩ := List.mem_map.1 hq
    exact hx v hv
  · rw [hregion i]
    exact hr.kind_of_comes hv hi _
  · rw [hregion i]
    exact hr.kind_eq_free_iff i _
  · rw [hregion i]
    exact foldl_regionAfter_of_neither hcomes hleaves _

/-- An object that does not go to a new run is left alone, and so are its regions. -/
theorem kept_of_runsTaken {intact : Bool} (hr : RunsTaken h.layout intact vs g g') {a : Address} (ha : live a)
    (hne : ∀ v ∈ vs, a ≠ h.layout.bottom v.source) {k : Nat}
    (hk : k < h.wordsFrom t a (Berth.placeOf (h.places bs vs) a)) :
    let x := (Berth.placeOf (h.places bs vs) a).nth k
    g'.memory.load x = g.memory.load x ∧
      g'.region (h.layout.indexOf x) = g.region (h.layout.indexOf x) := by
  intro x
  obtain ⟨first, count, -, hin, hwithin, hcases⟩ := hh.stretch ha
  have hl := hh.surveyed.tabled.layout
  have hfits : (Berth.placeOf (h.places bs vs) a).toNat + 8 * k < 2 ^ 64 := by
    have hstop := hwithin.stop
    have := (h.layout.bottom (first + count)).toNat_lt
    omega
  have hx : x.toNat = (Berth.placeOf (h.places bs vs) a).toNat + 8 * k := Address.toNat_nth hfits
  constructor
  · refine hr.elsewhere x fun v hv => ?_
    have hapart := hh.apart_run ha hv (hne v hv)
    unfold Address.Apart at hapart
    omega
  · have hsteady := hcases.resolve_left fun ⟨v, hv, heq, _⟩ => hne v hv heq
    obtain ⟨i, h1, h2, h3, h4⟩ := hwithin.exists_region hl hin (x := x) (by omega) (by omega)
    have hkept := hsteady i h1 h2
    rw [hl.toNat_regionStop (by omega)] at h4
    rw [hl.indexOf_eq (by omega) h3 h4]
    exact hr.other i hkept.taken hkept.left

end Housed

end Heap

namespace ParallelCycle

open Forwarding

/-! ### A collection -/

/-- Meets a request of the encoding to grow, between two phases. -/
def growIfRequested (c : ParallelCycle) : ParallelCycle :=
  { c with state := { c.state with forwarding := c.state.forwarding.growIfRequested.2 } }

/-- The heap in which humongous objects are moved: all others have been, and the tops of the
regions that took part are set. -/
def settled (c : ParallelCycle) (p : Plan) : Heap := p.compacting.foldl settleTop c.state.heap

variable {h : Heap} {t : ClassTable} {b : Bitmap} {live : Address → Prop} {part : List Nat}
  {n : Announced} {e : Encoding} {starts : StartTable} {kept : Nat} {tops : Nat → Address}
  {bs : List Berth} {vs : List HumongousMove} {s : Relocation} {slots : List Address}
  {c₀ c : ParallelCycle} {p : Plan}

/-- Setting the tops touches no word, and leaves the grid of regions. -/
theorem Emptied.settled (hc : Emptied h t b s.heap.memory (!s.forwarding.overwritesMarks)
      (Berth.placeOf (h.places bs vs)) c₀ part c)
    (hf : Forwarded h t b live part n e starts kept tops bs vs s)
    (hadj : s.heap.Adjusted c₀.state.heap slots (Berth.placeOf (h.places bs vs))) (hpart : p.compacting = part) :
    (c.settled p).Gridded ∧ c.state.heap.SameGround (c.settled p) := by
  have hg := hf.housed.surveyed.tabled.toGridded
  obtain ⟨hlayout, hsize, -, -, hmember, hother⟩ := hc.table hf hadj
  obtain ⟨hground, -, hregion⟩ :=
    Heap.settled_foldl_settleTop hg hf.idle hf.housed.isPart hsize hmember hother
  subst hpart
  refine ⟨?_, hground⟩
  refine Heap.gridded_of_ended hg (hground.layout.trans hlayout) (hground.size.trans hsize)
    fun i hi => ?_
  rw [show ((c.settled p).region i).ended = _ from hregion i hi]
  exact Heap.exists_settledRegion (hf.idle i hi) _ tops

/-- The moves of humongous objects that planning has picked have sources of live ones. -/
theorem Forwarded.source_mem (hf : Forwarded h t b live part n e starts kept tops bs vs s)
    {v : HumongousMove} (hv : v ∈ vs) : v.source ∈ h.liveStartsFrom b 0 := by
  have hs := hf.housed.surveyed
  have hrv := hf.housed.resettled.rehoused v hv
  unfold Heap.liveStartsFrom
  rw [List.mem_filter, List.mem_range'_1]
  refine ⟨⟨Nat.zero_le _, by have := hrv.inside; omega⟩, ?_⟩
  unfold Heap.isLiveStart
  rw [hrv.run.start, hs.tabled.bottom _ hrv.inside,
    (hs.shows.starts _ (hs.isWord hrv.live)).2 hrv.live]
  rfl

theorem Forwarded.size_eq (hf : Forwarded h t b live part n e starts kept tops bs vs s)
    {v : HumongousMove} (hv : v ∈ vs) : h.size t (h.layout.bottom v.source) = .ok v.size := by
  have hrv := hf.housed.resettled.rehoused v hv
  have hsize := (hf.housed.surveyed.size_moveTo v.target hrv.live).1
  rwa [← hrv.move] at hsize

/-- From planning on, a collection gives humongous objects new runs for which there is room when
they move, and their moves leave all other objects where they are. -/
theorem humongous_moves {c : ParallelCycle} {h : Heap} {roots : Roots}
    (hw : WellFormed h c.classes roots) (hheap : c.state.heap = h)
    (hbitmap : c.bitmap = (h.trace c.classes roots (.ofLayout h.layout)).bitmap)
    (hsaved : c.state.saved = #[])
    (hready : c.state.forwarding.Ready h.layout h.compactHeaders) :
    ∃ p c₁ count s vs c₂ changed roots' c₃ c₄ words g',
      -- planning: the live humongous objects
      c.plan = .ok (p, c₁) ∧
      p.humongous.Pairwise (· < ·) ∧
      (∀ i, i ∈ p.humongous ↔ i < h.regions.size ∧ (h.region i).kind = .humongousStart ∧
        Reaches h c.classes roots (h.layout.bottom i)) ∧
      -- new addresses, of the other objects first
      c₁.growIfRequested.placeRegular p = .ok (count, s) ∧
      s.placeAllHumongous c.classes p.humongous = .ok (vs, c₂.state) ∧
      c₁.growIfRequested.forward p = .ok (⟨count, vs⟩, c₂) ∧
      NewRuns h c.classes p.humongous s.heap vs ∧
      -- the other objects move, and humongous ones are not touched by that
      c₂.growIfRequested.adjust roots = .ok (changed, roots', c₃) ∧
      c₃.compact p.compacting = .ok c₄ ∧
      (∀ a, Reaches h c.classes roots a → h.layout.indexOf a ∉ p.compacting →
        ∀ k < h.wordsAt c.classes a,
          (c₄.settled p).memory.load (a.nth k) = c₃.state.heap.memory.load (a.nth k)) ∧
      -- humongous objects move, and the others are not touched by that
      applyHumongousMoves (c₄.settled p) vs (!c₄.state.forwarding.overwritesMarks)
        = .ok (words, g') ∧
      RunsTaken h.layout (!c₄.state.forwarding.overwritesMarks) vs (c₄.settled p) g' ∧
      ∀ a, Reaches h c.classes roots a → (∀ v ∈ vs, a ≠ h.layout.bottom v.source) →
        ∃ place, c₂.state.forwarding.forwardee c₂.state.heap.memory a = .ok place ∧
          ∀ k < h.wordsFrom c.classes a (place.getD a),
            let x := (place.getD a).nth k
            g'.memory.load x = (c₄.settled p).memory.load x ∧
              g'.region (h.layout.indexOf x) = (c₄.settled p).region (h.layout.indexOf x) := by
  obtain ⟨-, -, -, -, hshows, -, -⟩ := hw.trace
  rw [← hbitmap] at hshows
  have hplanned := Plan.planned_build hw.settled.toTabled c.bitmap
  have hs₀ := hw.surveyed_of_shows hshows
  have hs := hw.surveyed hshows hplanned
  have hidle := hplanned.idle hw.settled.idle
  have hbuild : Plan.build h c.bitmap = ((Plan.build h c.bitmap).1, (Plan.build h c.bitmap).2) := rfl
  generalize (Plan.build h c.bitmap).2 = h₁ at *
  generalize (Plan.build h c.bitmap).1 = p at *
  have hground := hplanned.ground
  -- plan
  obtain ⟨n, f, g₁, hplan, hlists, htotal, hen, hmem, -, hrec, -⟩ :=
    plan_spec hheap hbuild hplanned hs₀ hs hready
  obtain ⟨hrec, -⟩ := hrec.growIfRequested
  let c₁ : ParallelCycle := { c with state := { c.state with heap := g₁, forwarding := f } }
  -- forward
  have hregular : ∀ i ∈ p.compacting, (h₁.region i).kind = .regular := fun i hi =>
    (hplanned.region_compacting hi).2.2.2
  obtain ⟨count, s, s₂, n', tops, bs, vs, hplaced, hen₁, hpass, hf, -⟩ :=
    placeRegular_spec (c := c₁.growIfRequested) (p := p) rfl rfl rfl hplanned.humongous_eq hs
      (mustered hplanned hs₀ hs hlists htotal) hlists hidle hregular hen
      (by rw [← hmem] at hrec ⊢; exact hrec) rfl hsaved
  have hforwardee := fun a ha => hf.forwardee (a := a) ha rfl
  have hr := hf.housed.resettled
  let c₂ : ParallelCycle := { c₁.growIfRequested with state := s₂ }
  have hf := hf.growIfRequested
  -- adjust
  obtain ⟨changed, h₂, hadjust, hadj⟩ := adjust_spec (c := c₂.growIfRequested) rfl rfl hf
    fun r => hground.reaches_or_outside
  -- compact
  obtain ⟨c₄, hcompact, hemptied⟩ := compact_spec
    (c := { c₂.growIfRequested with state := { c₂.growIfRequested.state with
      heap := h₂
      saved := c₂.growIfRequested.state.saved.map fun x =>
        { x with object := Berth.placeOf (h₁.places bs vs) x.object } } }) hf rfl rfl rfl hadj
    fun x hx => by
      obtain ⟨e, he, hx⟩ := List.mem_flatMap.1 hx
      exact ⟨e, (hs.mem_liveList e).1 he, hx⟩
  obtain ⟨hgrid, hsettled⟩ := hemptied.settled (p := p) hf hadj rfl
  obtain ⟨hlayout, -, hheaders, hspan, -, -⟩ := hemptied.table hf hadj
  -- finish
  obtain ⟨words, g', happly, htaken⟩ := hf.housed.runsTaken hgrid (hsettled.layout.trans hlayout)
    (hsettled.headers.trans hheaders) (by rw [hsettled.memory]; exact hspan)
    (!c₄.state.forwarding.overwritesMarks)
  refine ⟨p, c₁, count, s, vs, c₂, changed, _, _, c₄, words, g', hplan, ?_,
    fun i => hs₀.mem_humongous hplanned, hplaced, hpass, forward_eq_ok hplaced hpass, ?_, hadjust,
    hcompact, fun a ha hout k hk => ?_, happly, hground.layout ▸ htaken, fun a ha hne => ?_⟩
  · rw [hplanned.humongous_eq]
    exact List.Pairwise.filter _ (List.pairwise_lt_range' ..)
  · exact hground.newRuns (hr.newRuns hs.tabled hen₁ hidle hregular
      (fun v hv => hplanned.humongous_eq ▸ hf.source_mem hv) fun v hv => hf.size_eq hv)
  · rw [hsettled.memory]
    rw [← hground.layout] at hout
    exact hf.housed.load_outside hemptied.memory ha hout (by rwa [Heap.wordsAt_congr hground.memory])
  · refine ⟨_, hforwardee a ha, ?_⟩
    have hplace : (if Berth.placeOf (h₁.places bs vs) a = a then none
        else some (Berth.placeOf (h₁.places bs vs) a)).getD a = Berth.placeOf (h₁.places bs vs) a := by
      split
      case isTrue hstays => exact hstays.symm
      case isFalse => rfl
    rw [hplace, ← hground.layout]
    rw [← hground.layout] at hne
    intro k hk
    rw [← Heap.wordsFrom_of_memory hground.headers hground.memory] at hk
    exact hf.housed.kept_of_runsTaken htaken ha hne hk

/-- A heap of four regions, in which an object of 20 words lies in the last two, and a cycle that is
about to plan. -/
theorem humongous_moves_block : ∃ (c : ParallelCycle) (h : Heap) (a : Address),
    WellFormed h c.classes #[a] ∧ c.state.heap = h ∧
      c.bitmap = (h.trace c.classes #[a] (.ofLayout h.layout)).bitmap ∧ c.state.saved = #[] ∧
      c.state.forwarding.Ready h.layout h.compactHeaders ∧
      ∃ (p : Plan) (c₁ c₂ c₄ : ParallelCycle) (count : PlacementCount) (s : Relocation)
        (vs : List HumongousMove) (words : Nat) (g' : Heap), c.plan = .ok (p, c₁) ∧
        p.humongous = [2] ∧ h.layout.bottom 2 = a ∧
        c₁.growIfRequested.placeRegular p = .ok (count, s) ∧
        s.placeAllHumongous c.classes p.humongous = .ok (vs, c₂.state) ∧
        NewRuns h c.classes p.humongous s.heap vs ∧
        applyHumongousMoves (c₄.settled p) vs (!c₄.state.forwarding.overwritesMarks)
          = .ok (words, g') ∧
        RunsTaken h.layout (!c₄.state.forwarding.overwritesMarks) vs (c₄.settled p) g' := by
  let config : Config :=
    { compactHeaders := true, regionShift := 4, numRegions := 4, blockShift := 2 }
  let block : ClassInfo := ⟨"Block", 20, []⟩
  let t : ClassTable := ⟨true, #[block]⟩
  have hv : config.Valid := by decide
  have hb : config.Backed 0x10000 := by decide
  have hblock : (ClassTable.empty true).register block = .ok (0, t) := rfl
  have ht : t.Sound := ClassTable.sound_register (ClassTable.sound_empty true) hblock
  obtain ⟨h₀, -, hlayout, hheaders, hnew, hw₀⟩ := wellFormed_new hv hb ht rfl
  have hfew : h₀.layout.heapWords.toNat < 2 ^ 32 := by
    rw [hlayout]
    decide
  have hcount : h₀.regions.size = 4 := by
    rw [hw₀.settled.count, hlayout]
    rfl
  have hruns : (h₀.layout.regionsFor block.words).toNat = 2 := by
    rw [hlayout]
    decide
  have hr : h₀.FreeRun 2 block.words := by
    refine ⟨by decide, by decide, by omega, fun i _ hi => ?_⟩
    rw [hnew i (by omega)]
    rfl
  have hinfo : t.info 0 = some block := rfl
  obtain ⟨h, hlayout', hheaders', hstart, hw, hreach⟩ := hw₀.instantiate_run hfew hinfo hr
  obtain ⟨c, -, -, hc, -⟩ := Collector.exists_new (h := h) hv
    (Collector.refusal_eq_none_iff.2 ⟨by rw [hlayout', hlayout], by rw [hlayout', hlayout],
      hheaders'.trans hheaders⟩)
  let c₀ : ParallelCycle := (c.marked ⟨fun _ => 0, 0⟩ h t #[h₀.layout.bottom 2]).begun t
    (h.trace t #[h₀.layout.bottom 2] (.ofLayout h.layout)).bitmap
  obtain ⟨p, c₁, count, s, vs, c₂, _, _, _, c₄, words, g', hplan, hsorted, hmem, hplaced, hpass, -,
    hnewRuns, -, -, -, happly, htaken, -⟩ :=
    humongous_moves (c := c₀) hw rfl rfl hc.saved hc.ready
  have hlist : p.humongous = [2] := by
    have hnodup : p.humongous.Nodup := hsorted.imp Nat.ne_of_lt
    refine List.perm_singleton.1 ((List.perm_ext_iff_of_nodup hnodup (List.nodup_singleton 2)).2
      fun i => ?_)
    rw [hmem, List.mem_singleton]
    constructor
    · rintro ⟨hi, -, hlive⟩
      rw [hw.settled.count] at hi
      refine hw.settled.layout.bottom_injective hi.le (by rw [hlayout', hlayout]; decide) ?_
      rw [hlayout']
      exact hlayout' ▸ (hreach _).1 hlive
    · rintro rfl
      refine ⟨by rw [hw.settled.count, hlayout', hlayout]; decide, hstart, ?_⟩
      exact (hreach _).2 (by rw [hlayout'])
  exact ⟨c₀, h, h₀.layout.bottom 2, hw, rfl, rfl, hc.saved, hc.ready, p, c₁, c₂, c₄, count, s, vs,
    words, g', hplan, hlist, by rw [hlayout'], hplaced, hpass, hnewRuns, happly, htaken⟩

end ParallelCycle

end MarkCompact
