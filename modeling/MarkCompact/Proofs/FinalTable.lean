/-
MarkCompact/Proofs/FinalTable.lean

The region table at the end of a parallel collection.

A region of the part gets the top up to which it has been filled, or is freed if it has stayed
empty.  Then the humongous objects come to their new runs and leave their old ones, one after
the other.  `Heap.finalRegion` says what becomes of each region; no move of a humongous object
undoes an earlier one, so that three cases are left (`Resettled.finalRegion_of_comes`,
`Resettled.finalRegion_of_leaves` and `finalRegion_of_neither`).

Main results: `Refilled.settled` (the table is one of a heap between two collections),
`Refilled.run_moved` and `Refilled.run_kept` (the runs of humongous objects).
-/
import MarkCompact.Proofs.Places

namespace MarkCompact

namespace Region

/-- The region when a collection has ended. -/
def ended (r : Region) : Region := if r.compacting then r.endCompaction else r

theorem Idle.ended {r : Region} (hr : r.Idle) : r.ended = r := by
  unfold Region.ended
  rw [hr.compacting]
  rfl

/-- What a collection has noted in an idle region is gone when it has ended. -/
theorem Idle.ended_noted {r : Region} (hr : r.Idle) (top : Address) (ready : Bool) :
    ({ r with compactionTop := top, compacting := true, ready := ready } : Region).ended = r := by
  obtain ⟨h1, h2, h3, -⟩ := hr
  cases r
  dsimp only at h1 h2 h3
  subst h1 h2 h3
  rfl

theorem ended_use (r : Region) (kind : RegionKind) (top : Address) :
    ({ r with kind := kind, top := top } : Region).ended
      = { r.ended with kind := kind, top := top } := by
  cases hc : r.compacting <;> simp [ended, endCompaction, hc]

theorem ended_makeFree (r : Region) : r.makeFree.ended = r.ended.makeFree := by
  unfold ended
  rw [show r.makeFree.compacting = r.compacting from rfl]
  split <;> rfl

theorem stop_ended (r : Region) : r.ended.stop = r.stop := by
  unfold ended
  split <;> rfl

theorem extent_ended (r : Region) : r.ended.index = r.index ∧ r.ended.bottom = r.bottom := by
  unfold ended
  split <;> exact ⟨rfl, rfl⟩

theorem kind_ended (r : Region) : r.ended.kind = r.kind := by
  unfold ended
  split <;> rfl

/-- An idle region stays idle if it is used for something else. -/
theorem Idle.use {r : Region} (hr : r.Idle) (kind : RegionKind) (top : Address) :
    ({ r with kind := kind, top := top } : Region).Idle :=
  ⟨hr.compactionTop, hr.compacting, hr.ready, hr.pending⟩

theorem Idle.makeFree_eq {r : Region} (hr : r.Idle) :
    r.makeFree = { r with kind := .free, top := r.bottom } := by
  unfold makeFree
  rw [← hr.compactionTop]

end Region

namespace HumongousMove

variable (l : Layout) (v : HumongousMove) (i : Nat)

instance : Decidable (v.Comes l i) := inferInstanceAs (Decidable (_ ∧ _))

instance : Decidable (v.Leaves l i) := inferInstanceAs (Decidable (_ ∧ _))

/-- What becomes of a region when the object moves. -/
def regionAfter (r : Region) : Region :=
  if v.Comes l i then
    { r with
      kind := if i = v.target then .humongousStart else .humongousContinues
      top := min ((l.bottom v.target).offset v.copySize) r.stop }
  else if v.Leaves l i then r.makeFree
  else r

/-- What becomes of the table of starts when the object moves. -/
def startsAfter (s : StartTable) : StartTable :=
  let n := v.regions l
  let left := (List.range' v.source n).filter (v.target + n ≤ ·)
  let s := s.forget l left
  (s.clearRange (l.bottom v.source) (l.regionStop (v.source + n - 1))).record (l.bottom v.target)

theorem mem_vacated {v : HumongousMove} {l : Layout} {i : Nat} :
    i ∈ (List.range' v.source (v.regions l)).filter (v.target + v.regions l ≤ ·) ↔
      v.Leaves l i ∧ v.target + v.regions l ≤ i := by
  rw [List.mem_filter, List.mem_range'_1, decide_eq_true_eq]
  rfl

/-- An object that moves to the left leaves the regions of its old run behind its new one. -/
theorem regionAfter_eq {v : HumongousMove} (hleft : v.target < v.source) (l : Layout) (i : Nat)
    (r : Region) :
    v.regionAfter l i r = if v.Comes l i then
        { r with
          kind := if i = v.target then .humongousStart else .humongousContinues
          top := min ((l.bottom v.target).offset v.copySize) r.stop }
      else if i ∈ (List.range' v.source (v.regions l)).filter (v.target + v.regions l ≤ ·) then
        r.makeFree
      else r := by
  unfold regionAfter
  by_cases hcomes : v.Comes l i
  · rw [if_pos hcomes, if_pos hcomes]
  · rw [if_neg hcomes, if_neg hcomes]
    refine if_congr (Iff.trans ⟨fun hleaves => ⟨hleaves, ?_⟩, And.left⟩ mem_vacated.symm) rfl rfl
    by_contra hlt
    exact hcomes ⟨hleft.le.trans hleaves.1, Nat.not_le.1 hlt⟩

theorem ended_regionAfter (r : Region) :
    (v.regionAfter l i r).ended = v.regionAfter l i r.ended := by
  unfold regionAfter
  split
  · rw [r.ended_use, ← r.stop_ended]
  · split
    · exact r.ended_makeFree
    · rfl

/-- A move uses the region for something else, if anything. -/
theorem exists_regionAfter {r : Region} (hr : r.Idle) :
    ∃ kind top, v.regionAfter l i r = { r with kind := kind, top := top } := by
  unfold regionAfter
  split
  · exact ⟨_, _, rfl⟩
  · split
    · exact ⟨_, _, hr.makeFree_eq⟩
    · exact ⟨r.kind, r.top, rfl⟩

end HumongousMove

namespace Heap

variable {h h' : Heap} {t : ClassTable} {b : Bitmap} {live : Address → Prop} {part : List Nat}
  {tops : Nat → Address} {bs : List Berth} {vs : List HumongousMove}

/-- What becomes of a region before humongous objects move. -/
def settledRegion (h : Heap) (part : List Nat) (tops : Nat → Address) (i : Nat) : Region :=
  if i ∈ part then
    if tops i = h.layout.bottom i then (h.region i).makeFree else { h.region i with top := tops i }
  else h.region i

/-- What becomes of a region. -/
def finalRegion (h : Heap) (part : List Nat) (tops : Nat → Address) (vs : List HumongousMove)
    (i : Nat) : Region :=
  vs.foldl (fun r v => v.regionAfter h.layout i r) (h.settledRegion part tops i)

/-- What becomes of the table of starts before humongous objects move. -/
def settledStarts (h : Heap) (part : List Nat) (tops : Nat → Address) (s : StartTable) :
    StartTable :=
  s.forget h.layout (part.filter fun i => tops i = h.layout.bottom i)

/-- What becomes of the table of starts. -/
def finalStarts (h : Heap) (part : List Nat) (tops : Nat → Address) (vs : List HumongousMove)
    (s : StartTable) : StartTable :=
  vs.foldl (fun s v => v.startsAfter h.layout s) (h.settledStarts part tops s)

/-- The moves change how a region is used, if anything. -/
theorem exists_foldl_regionAfter (l : Layout) (i : Nat) (vs : List HumongousMove) {r : Region}
    (hr : r.Idle) : ∃ kind top, vs.foldl (fun r v => v.regionAfter l i r) r
      = { r with kind := kind, top := top } := by
  obtain ⟨kind, top, heq⟩ := foldl_induct (f := fun r (v : HumongousMove) => v.regionAfter l i r)
    (fun _ r' => ∃ kind top, r' = { r with kind := kind, top := top }) vs r ⟨r.kind, r.top, rfl⟩
    (by
      rintro done v rest r' - ⟨kind, top, rfl⟩
      obtain ⟨kind', top', heq⟩ := v.exists_regionAfter l i (hr.use kind top)
      exact ⟨kind', top', heq⟩)
  exact ⟨kind, top, heq⟩

/-- Where the region lies does not change. -/
theorem extent_foldl_regionAfter (l : Layout) (i : Nat) (vs : List HumongousMove) (r : Region) :
    let r' := vs.foldl (fun r v => v.regionAfter l i r) r
    r'.index = r.index ∧ r'.bottom = r.bottom ∧ r'.stop = r.stop := by
  refine foldl_induct (f := fun r (v : HumongousMove) => v.regionAfter l i r)
    (fun _ r' => r'.index = r.index ∧ r'.bottom = r.bottom ∧ r'.stop = r.stop) vs r ⟨rfl, rfl, rfl⟩ ?_
  intro done v rest r' _ hr'
  unfold HumongousMove.regionAfter
  split
  · exact hr'
  · split
    · exact hr'
    · exact hr'

theorem ended_foldl_regionAfter (l : Layout) (i : Nat) (vs : List HumongousMove) (r : Region) :
    (vs.foldl (fun r v => v.regionAfter l i r) r).ended
      = vs.foldl (fun r v => v.regionAfter l i r) r.ended := by
  induction vs generalizing r with
  | nil => rfl
  | cons v vs ih => rw [List.foldl_cons, List.foldl_cons, ih, v.ended_regionAfter]

theorem exists_settledRegion {i : Nat} (hr : (h.region i).Idle) (part : List Nat)
    (tops : Nat → Address) :
    ∃ kind top, h.settledRegion part tops i = { h.region i with kind := kind, top := top } := by
  unfold settledRegion
  split
  · split
    · exact ⟨_, _, hr.makeFree_eq⟩
    · exact ⟨(h.region i).kind, tops i, rfl⟩
  · exact ⟨(h.region i).kind, (h.region i).top, rfl⟩

theorem exists_finalRegion {i : Nat} (hr : (h.region i).Idle) (part : List Nat)
    (tops : Nat → Address) (vs : List HumongousMove) :
    ∃ kind top, h.finalRegion part tops vs i = { h.region i with kind := kind, top := top } := by
  obtain ⟨kind, top, heq⟩ := exists_settledRegion hr part tops
  unfold finalRegion
  rw [heq]
  exact exists_foldl_regionAfter h.layout i vs (hr.use kind top)

/-- Moves that neither come to a region nor leave it do not change it. -/
theorem foldl_regionAfter_of_neither {l : Layout} {i : Nat} {vs : List HumongousMove}
    (hcomes : ∀ v ∈ vs, ¬ v.Comes l i) (hleaves : ∀ v ∈ vs, ¬ v.Leaves l i) (r : Region) :
    vs.foldl (fun r v => v.regionAfter l i r) r = r := by
  induction vs with
  | nil => rfl
  | cons v vs ih =>
    rw [List.foldl_cons, HumongousMove.regionAfter, if_neg (hcomes v List.mem_cons_self),
      if_neg (hleaves v List.mem_cons_self)]
    exact ih (fun w hw => hcomes w (List.mem_cons_of_mem _ hw))
      fun w hw => hleaves w (List.mem_cons_of_mem _ hw)

theorem finalRegion_of_neither {i : Nat} (hcomes : ∀ v ∈ vs, ¬ v.Comes h.layout i)
    (hleaves : ∀ v ∈ vs, ¬ v.Leaves h.layout i) :
    h.finalRegion part tops vs i = h.settledRegion part tops i :=
  foldl_regionAfter_of_neither hcomes hleaves _

namespace Resettled

variable {vacant : Nat → Bool}

/-- No move changes what an earlier one has made of a region, unless its object comes there. -/
theorem foldl_regionAfter_of_mem {before after : List HumongousMove} {v : HumongousMove}
    (hr : h.Resettled t live vacant (before ++ v :: after)) {i : Nat}
    (hi : v.Comes h.layout i ∨ v.Leaves h.layout i) (hlater : ∀ w ∈ after, ¬ w.Comes h.layout i)
    (r : Region) :
    (before ++ v :: after).foldl (fun r v => v.regionAfter h.layout i r) r
      = v.regionAfter h.layout i (before.foldl (fun r v => v.regionAfter h.layout i r) r) := by
  have hsources := (List.pairwise_cons.1 (List.pairwise_append.1 hr.sources).2.1).1
  have hleft := (hr.rehoused v (by simp)).left
  have hbelow : i < v.source + v.regions h.layout := by
    rcases hi with hi | hi
    · have := hi.2
      omega
    · exact hi.2
  rw [List.foldl_append, List.foldl_cons]
  refine foldl_regionAfter_of_neither hlater (fun w hw hleaves => ?_) _
  have h1 := hsources w hw
  have h2 := hleaves.1
  omega

/-- To a region to which an object comes no later one does. -/
theorem not_comes_of_comes {before after : List HumongousMove} {v : HumongousMove}
    (hr : h.Resettled t live vacant (before ++ v :: after)) {i : Nat} (hi : v.Comes h.layout i) :
    ∀ w ∈ after, ¬ w.Comes h.layout i :=
  fun w hw => (List.pairwise_cons.1 (List.pairwise_append.1 hr.targets).2.1).1 w hw i hi

/-- A region to which an object comes belongs to it at the end. -/
theorem finalRegion_of_comes (hr : h.Resettled t live vacant vs) {i : Nat}
    (hidle : (h.region i).Idle) {v : HumongousMove} (hv : v ∈ vs) (hi : v.Comes h.layout i) :
    h.finalRegion part tops vs i = { h.region i with
      kind := if i = v.target then .humongousStart else .humongousContinues
      top := min ((h.layout.bottom v.target).offset v.copySize) (h.region i).stop } := by
  obtain ⟨before, after, rfl⟩ := List.append_of_mem hv
  obtain ⟨kind, top, hbefore⟩ := exists_finalRegion hidle part tops before
  unfold finalRegion at hbefore ⊢
  rw [hr.foldl_regionAfter_of_mem (.inl hi) (hr.not_comes_of_comes hi), hbefore,
    HumongousMove.regionAfter, if_pos hi]

/-- A region that an object leaves is free at the end unless another one comes. -/
theorem finalRegion_of_leaves (hr : h.Resettled t live vacant vs) {i : Nat}
    (hidle : (h.region i).Idle) (hcomes : ∀ v ∈ vs, ¬ v.Comes h.layout i) {v : HumongousMove}
    (hv : v ∈ vs) (hi : v.Leaves h.layout i) :
    h.finalRegion part tops vs i = { h.region i with kind := .free, top := (h.region i).bottom } := by
  obtain ⟨before, after, rfl⟩ := List.append_of_mem hv
  obtain ⟨kind, top, hbefore⟩ := exists_finalRegion hidle part tops before
  unfold finalRegion at hbefore ⊢
  have hlater : ∀ w ∈ after, ¬ w.Comes h.layout i := fun w hw =>
    hcomes w (List.mem_append_right _ (List.mem_cons_of_mem _ hw))
  rw [hr.foldl_regionAfter_of_mem (.inr hi) hlater, hbefore, HumongousMove.regionAfter,
    if_neg (hcomes v hv), if_pos hi, (hidle.use kind top).makeFree_eq]

end Resettled

/-! ### The table -/

/-- The region table of `h'` is what is left of the one of `h`. -/
structure Refilled (h : Heap) (part : List Nat) (tops : Nat → Address) (vs : List HumongousMove)
    (h' : Heap) : Prop where
  layout : h'.layout = h.layout
  size : h'.regions.size = h.regions.size
  idle : ∀ i < h.regions.size, (h.region i).Idle
  region : ∀ i < h.regions.size, h'.region i = h.finalRegion part tops vs i

namespace Refilled

variable (hr : h.Refilled part tops vs h')
include hr

theorem exists_region {i : Nat} (hi : i < h.regions.size) :
    ∃ kind top, h'.region i = { h.region i with kind := kind, top := top } := by
  rw [hr.region i hi]
  exact exists_finalRegion (hr.idle i hi) part tops vs

theorem gridded (hg : h.Gridded) : h'.Gridded := by
  refine hg.congr hr.layout hr.size fun i hi => ?_
  obtain ⟨kind, top, heq⟩ := hr.exists_region hi
  rw [heq]
  exact ⟨rfl, rfl, rfl⟩

theorem idle' : ∀ i < h'.regions.size, (h'.region i).Idle := by
  intro i hi
  rw [hr.size] at hi
  obtain ⟨kind, top, heq⟩ := hr.exists_region hi
  rw [heq]
  exact (hr.idle i hi).use kind top

variable (hh : h.Housed t b live part tops bs vs)
include hh

/-- A region of a new run. -/
theorem region_taken {v : HumongousMove} (hv : v ∈ vs) {i : Nat} (hi : v.Comes h.layout i) :
    i < h.regions.size ∧ h'.region i = { h.region i with
      kind := if i = v.target then .humongousStart else .humongousContinues
      top := min ((h.layout.bottom v.target).offset v.copySize) (h.region i).stop } := by
  have hrv := hh.resettled.rehoused v hv
  have hg := hh.surveyed.tabled.toGridded
  have hlt : i < h.regions.size := by
    have h1 := hrv.source_le hg
    have h2 := hrv.left
    have h3 := hi.2
    rw [hg.count]
    omega
  refine ⟨hlt, ?_⟩
  rw [hr.region i hlt]
  exact hh.resettled.finalRegion_of_comes (hr.idle i hlt) hv hi

/-- Objects that come leave humongous regions. -/
theorem not_comes {i : Nat} (hk : (h'.region i).isHumongous = false) :
    ∀ v ∈ vs, ¬ v.Comes h.layout i := by
  intro v hv hvi
  rw [(hr.region_taken hh hv hvi).2] at hk
  change (if i = v.target then RegionKind.humongousStart else .humongousContinues).isHumongous
    = false at hk
  split at hk <;> cases hk

/-- A region that is left, and to which no other object comes. -/
theorem region_left {v : HumongousMove} (hv : v ∈ vs) {i : Nat} (hi : v.Leaves h.layout i)
    (hcomes : ∀ v ∈ vs, ¬ v.Comes h.layout i) :
    h'.region i = { h.region i with kind := .free, top := (h.region i).bottom } := by
  have hrv := hh.resettled.rehoused v hv
  have hg := hh.surveyed.tabled.toGridded
  have hlt : i < h.regions.size := by
    have h1 := hrv.source_le hg
    have h3 := hi.2
    rw [hg.count]
    omega
  rw [hr.region i hlt]
  exact hh.resettled.finalRegion_of_leaves (hr.idle i hlt) hcomes hv hi

omit hh in
/-- A region that humongous objects pass by. -/
theorem region_passed {i : Nat} (hi : i < h.regions.size) (hcomes : ∀ v ∈ vs, ¬ v.Comes h.layout i)
    (hleaves : ∀ v ∈ vs, ¬ v.Leaves h.layout i) :
    h'.region i = h.settledRegion part tops i := by
  rw [hr.region i hi]
  exact finalRegion_of_neither hcomes hleaves

/-- A region of the part that holds objects. -/
theorem region_part {i : Nat} (hi : i ∈ part) (hkept : h.Steady part tops vs i) :
    h'.region i = { h.region i with top := tops i } := by
  rw [hr.region_passed (hh.isPart.inside i hi) hkept.taken hkept.left]
  unfold settledRegion
  have hfull := hkept.occupied
  unfold isVacant at hfull
  rw [List.contains_iff_mem.2 hi, Bool.true_and, Bool.or_eq_false_iff] at hfull
  rw [if_pos hi, if_neg (by simpa using hfull.2)]

omit hh in
/-- Any other region that holds objects. -/
theorem region_kept {i : Nat} (hi : i < h.regions.size) (hout : i ∉ part)
    (hkept : h.Steady part tops vs i) : h'.region i = h.region i := by
  rw [hr.region_passed hi hkept.taken hkept.left]
  unfold settledRegion
  rw [if_neg hout]

/-- What becomes of any region. -/
theorem region_cases {i : Nat} (hi : i < h.regions.size) :
    (∃ v ∈ vs, v.Comes h.layout i ∧ h'.region i = { h.region i with
      kind := if i = v.target then .humongousStart else .humongousContinues
      top := min ((h.layout.bottom v.target).offset v.copySize) (h.region i).stop }) ∨
    h'.region i = { h.region i with kind := .free, top := (h.region i).bottom } ∨
    (i ∈ part ∧ h'.region i = { h.region i with top := tops i }) ∨
    (i ∉ part ∧ (∀ v ∈ vs, ¬ v.Leaves h.layout i) ∧ h'.region i = h.region i) := by
  by_cases hcomes : ∃ v ∈ vs, v.Comes h.layout i
  · obtain ⟨v, hv, hvi⟩ := hcomes
    exact .inl ⟨v, hv, hvi, (hr.region_taken hh hv hvi).2⟩
  have hfree : ∀ v ∈ vs, ¬ v.Comes h.layout i := fun v hv hvi => hcomes ⟨v, hv, hvi⟩
  by_cases hleaves : ∃ v ∈ vs, v.Leaves h.layout i
  · obtain ⟨v, hv, hvi⟩ := hleaves
    exact .inr (.inl (hr.region_left hh hv hvi hfree))
  have hstays : ∀ v ∈ vs, ¬ v.Leaves h.layout i := fun v hv hvi => hleaves ⟨v, hv, hvi⟩
  have hpassed := hr.region_passed hi hfree hstays
  unfold settledRegion at hpassed
  by_cases hin : i ∈ part
  · rw [if_pos hin] at hpassed
    split at hpassed
    · exact .inr (.inl (hpassed.trans (hr.idle i hi).makeFree_eq))
    · exact .inr (.inr (.inl ⟨hin, hpassed⟩))
  · rw [if_neg hin] at hpassed
    exact .inr (.inr (.inr ⟨hin, hstays, hpassed⟩))

/-! ### Runs -/

/-- Where a run begins an object has come, or stays. -/
theorem start_cases {i : Nat} (hi : i < h.regions.size)
    (hk : (h'.region i).kind = .humongousStart) :
    (∃ v ∈ vs, v.target = i) ∨
    ((h.region i).kind = .humongousStart ∧ i ∉ part ∧ ∀ v ∈ vs, ¬ v.Leaves h.layout i) := by
  rcases hr.region_cases hh hi with ⟨v, hv, -, heq⟩ | heq | ⟨hin, heq⟩ | ⟨hout, hstays, heq⟩
  · rw [heq] at hk
    dsimp only at hk
    split at hk
    · rename_i hfirst
      exact .inl ⟨v, hv, hfirst.symm⟩
    · cases hk
  · rw [heq] at hk
    cases hk
  · rw [heq] at hk
    have hregular := hh.regular i hin
    rw [show (h.region i).kind = .humongousStart from hk] at hregular
    cases hregular
  · rw [heq] at hk
    exact .inr ⟨hk, hout, hstays⟩

/-- A region that continues a run belongs to a new run, or to a run that has stayed. -/
theorem continues_cases {i : Nat} (hi : i < h.regions.size)
    (hk : (h'.region i).kind = .humongousContinues) :
    (∃ v ∈ vs, v.Comes h.layout i ∧ v.target < i) ∨
      ∃ f words, h.InRun f words i ∧ f < i ∧ ∀ v ∈ vs, v.source ≠ f := by
  rcases hr.region_cases hh hi with ⟨v, hv, hvi, heq⟩ | heq | ⟨hin, heq⟩ | ⟨-, hstays, heq⟩
  · rw [heq] at hk
    have hne : i ≠ v.target := fun hsame => by
      rw [show (if i = v.target then RegionKind.humongousStart else .humongousContinues)
        = .humongousStart from if_pos hsame] at hk
      cases hk
    exact .inl ⟨v, hv, hvi, Nat.lt_of_le_of_ne hvi.1 (Ne.symm hne)⟩
  · rw [heq] at hk
    cases hk
  · rw [heq, show ({ h.region i with top := tops i } : Region).kind = (h.region i).kind from rfl,
      hh.regular i hin] at hk
    cases hk
  · rw [heq] at hk
    obtain ⟨f, words, hrun, h1, h2⟩ := hh.surveyed.tabled.continued i hi hk
    refine .inr ⟨f, words, ⟨hrun, h1.le, h2⟩, h1, fun v hv hsource => hstays v hv ?_⟩
    have hrv := hh.resettled.rehoused v hv
    have hcount := (HumongousRun.unique (hrv.inRun ⟨Nat.le_refl _, Nat.lt_add_of_pos_right
      (hrv.regions_pos hh.surveyed.tabled.toGridded)⟩) (i := v.source)
      ⟨hrun, hsource.ge, by rw [hsource]; omega⟩).2
    refine ⟨by omega, ?_⟩
    show i < v.source + (h.layout.regionsFor v.size).toNat
    rw [hsource, hcount]
    exact h2

/-- Nothing continues the new run of an object. -/
theorem run_moved {v : HumongousMove} (hv : v ∈ vs) : h'.HumongousRun v.target v.copySize := by
  have hrv := hh.resettled.rehoused v hv
  have hg := hh.surveyed.tabled.toGridded
  have hl := hg.layout
  have hpos := hrv.regions_pos hg
  have hsource := hrv.source_le hg
  have hleft := hrv.left
  have hwithin := (hrv.within_target hg).stop
  have hstop := hl.bottom_le_stop (i := v.target + v.regions h.layout) (by omega)
  have hregion := fun i hi => (hr.region_taken hh (v := v) (i := i) hv hi).2
  have hbefore : v.Comes h.layout (v.target + v.regions h.layout - 1) := ⟨by omega, by omega⟩
  have hwords : 0 < v.copySize.toNat := by
    have h1 := hh.surveyed.wordsAt_pos hrv.live
    have h2 := (Surveyed.wordsAt_le_movedWords h t (h.layout.bottom v.source)).1
    rw [hrv.moved]
    omega
  have hcount : (h'.layout.regionsFor v.copySize).toNat = v.regions h.layout := by
    rw [hr.layout]
    exact hrv.regions
  refine ⟨hwords, ?_, ?_, ?_, ?_, ?_⟩
  · rw [hregion v.target ⟨Nat.le_refl _, by omega⟩]
    exact if_pos rfl
  · rw [hr.layout]
    omega
  · intro i h1 h2
    rw [hcount] at h2
    rw [hregion i ⟨h1.le, h2⟩]
    exact if_neg (by omega)
  · rw [hcount]
    intro hk
    by_cases hlt : v.target + v.regions h.layout < h.regions.size
    · rcases hr.continues_cases hh hlt hk with ⟨w, hw, hcomes, hlater⟩ | ⟨f, words, hin, hlater, hstays⟩
      · -- another new run that begins before would have a region in common with this one
        have hne : v ≠ w := fun heq => by
          have := hcomes.2
          rw [← heq] at this
          omega
        refine hh.resettled.comes_unique hv hw hne hbefore ⟨by omega, ?_⟩
        have := hcomes.2
        omega
      · have hrun : h.InRun f words (v.target + v.regions h.layout - 1) :=
          ⟨hin.1, by omega, by have := hin.2.2; omega⟩
        obtain ⟨w, hw, hleaves⟩ := hh.leaves_of_inRun hrun hv hbefore
        have hfirst := hleaves f ⟨hin.1, Nat.le_refl _, by have := hin.2.2; omega⟩
        have hsame := (HumongousRun.unique ((hh.resettled.rehoused w hw).inRun hfirst)
          ⟨hin.1, Nat.le_refl f, by have := hin.2.2; omega⟩).1
        exact hstays w hw hsame
    · rw [h'.region_of_size_le (by rw [hr.size]; omega)] at hk
      cases hk
  · intro i h1 h2
    rw [hcount] at h2
    have hlt := (hr.region_taken hh hv (i := i) ⟨h1, h2⟩).1
    rw [hregion i ⟨h1, h2⟩, hr.layout]
    show (min _ _ : Address).toNat = _
    have hfit : (h.layout.bottom v.target).toNat + 8 * v.copySize.toNat < 2 ^ 64 := by
      have := h.layout.stop.toNat_lt
      omega
    rw [toNat_min, Address.toNat_offset hfit, hg.stop i hlt]

/-- A run that has stayed. -/
theorem run_kept {f : Nat} {words : WordCount} (hrun : h.HumongousRun f words)
    (hf : f < h.regions.size) (hstays : ∀ v ∈ vs, v.source ≠ f) : h'.HumongousRun f words := by
  have hg := hh.surveyed.tabled.toGridded
  obtain ⟨-, hpos, hin⟩ := hrun.inside hg hf
  have hkept : ∀ i, f ≤ i → i < f + (h.layout.regionsFor words).toNat →
      h.Steady part tops vs i ∧ h'.region i = h.region i := by
    intro i h1 h2
    have hk := hh.steady_of_inRun ⟨hrun, h1, h2⟩ hstays
    exact ⟨hk, hr.region_kept (by omega) (hh.notVacant_of_inRun ⟨hrun, h1, h2⟩).1 hk⟩
  refine ⟨hrun.nonempty, ?_, ?_, ?_, ?_, ?_⟩
  · rw [(hkept f (Nat.le_refl _) (by omega)).2]
    exact hrun.start
  · rw [hr.layout]
    exact hrun.fits
  · rw [hr.layout]
    intro i h1 h2
    rw [(hkept i h1.le h2).2]
    exact hrun.later i h1 h2
  · rw [hr.layout]
    intro hk
    by_cases hlt : f + (h.layout.regionsFor words).toNat < h.regions.size
    · rcases hr.continues_cases hh hlt hk with ⟨w, hw, hcomes, hbegun⟩ | ⟨f', words', hin', hlater, -⟩
      · have h1 := hcomes.2
        have hlast := (hkept (f + (h.layout.regionsFor words).toNat - 1) (by omega) (by omega)).1
        exact hlast.taken w hw ⟨by omega, by omega⟩
      · exact hrun.last (hin'.1.later _ hlater hin'.2.2)
    · rw [h'.region_of_size_le (by rw [hr.size]; omega)] at hk
      cases hk
  · rw [hr.layout]
    intro i h1 h2
    rw [(hkept i h1 h2).2]
    exact hrun.tops i h1 h2

/-! ### The whole table -/

/-- Regions end where they did, or where what has come to lie there ends. -/
theorem top {i : Nat} (hi : i < h.regions.size) :
    (h'.region i).bottom.toNat ≤ (h'.region i).top.toNat ∧
      (h'.region i).top.toNat ≤ (h'.region i).stop.toNat ∧ (h'.region i).top.toNat % 8 = 0 := by
  have hg := hh.surveyed.tabled.toGridded
  have hl := hg.layout
  have hg' := hr.gridded hg
  have hi' : i < h.layout.numRegions := by rwa [← hg.count]
  have hbottom := hl.bottom_mod hi'.le
  have hstop := hl.toNat_regionStop hi'
  have hstride := h.layout.stride_mod
  have hbottomi := hg.bottom i hi
  have hstopi := hg.stop i hi
  rcases hr.region_cases hh hi with ⟨v, hv, hvi, heq⟩ | heq | ⟨hin, heq⟩ | ⟨-, -, heq⟩
  · -- the object that has come ends in this region or behind it
    have hrv := hh.resettled.rehoused v hv
    have hrun := hr.run_moved hh hv
    have hlt : v.target < h'.regions.size := by
      have := hvi.1
      rw [hr.size]
      omega
    have hlast := (hrun.end_le hg' hlt).2
    have htop := hrun.tops i hvi.1 (by rw [hr.layout, hrv.regions]; exact hvi.2)
    rw [hr.layout] at hlast htop
    rw [hrv.regions] at hlast
    have hle := hl.bottom_mono (i := i) (j := v.target + (v.regions h.layout - 1))
      (by have := hvi.2; omega) (by
        have := hrv.source_le hg
        have := hrv.left
        omega)
    have hbottomv := hl.bottom_mod (i := v.target) (by have := hvi.1; omega)
    rw [htop, heq, hbottomi, hstopi]
    show _ ≤ min _ _ ∧ min _ _ ≤ (h.layout.regionStop i).toNat ∧ _
    omega
  · rw [heq, hbottomi, hstopi]
    refine ⟨Nat.le_refl _, ?_, hbottom⟩
    show (h.layout.bottom i).toNat ≤ _
    omega
  · obtain ⟨h4, h5, h6⟩ := hh.laid.extent i hin
    rw [heq, hbottomi, hstopi]
    exact ⟨h4, h5, h6⟩
  · rw [heq]
    exact hh.surveyed.tabled.top i hi

/-- Nothing is left in a free region. -/
theorem top_of_free {i : Nat} (hi : i < h.regions.size) (hfree : (h'.region i).kind = .free) :
    (h'.region i).top = (h'.region i).bottom := by
  rcases hr.region_cases hh hi with ⟨v, hv, hvi, heq⟩ | heq | ⟨hin, heq⟩ | ⟨-, -, heq⟩
  · rw [heq] at hfree
    dsimp only at hfree
    split at hfree <;> cases hfree
  · rw [heq]
  · rw [heq] at hfree
    have hregular := hh.regular i hin
    rw [show (h.region i).kind = .free from hfree] at hregular
    cases hregular
  · rw [heq] at hfree ⊢
    exact hh.surveyed.tabled.free i hi hfree

/-- Where a run begins there is one. -/
theorem exists_run {i : Nat} (hi : i < h.regions.size)
    (hk : (h'.region i).kind = .humongousStart) : ∃ words, h'.HumongousRun i words := by
  rcases hr.start_cases hh hi hk with ⟨v, hv, rfl⟩ | ⟨hk, -, hstays⟩
  · exact ⟨_, hr.run_moved hh hv⟩
  · obtain ⟨words, hrun⟩ := hh.surveyed.tabled.runs i hi hk
    refine ⟨words, hr.run_kept hh hrun hi fun v hv hsource => hstays v hv ⟨hsource.le, ?_⟩⟩
    have := (hh.resettled.rehoused v hv).regions_pos hh.surveyed.tabled.toGridded
    omega

theorem tabled : h'.Tabled := by
  have hg := hh.surveyed.tabled.toGridded
  refine { hr.gridded hg with
    top := fun i hi => hr.top hh (hr.size ▸ hi)
    free := fun i hi => hr.top_of_free hh (hr.size ▸ hi)
    runs := fun i hi => hr.exists_run hh (hr.size ▸ hi)
    continued := ?_ }
  · intro i hi hk
    rw [hr.size] at hi
    rcases hr.continues_cases hh hi hk with ⟨v, hv, hvi, hlater⟩ | ⟨f, words, hin, hlater, hstays⟩
    · refine ⟨v.target, v.copySize, hr.run_moved hh hv, hlater, ?_⟩
      rw [hr.layout, (hh.resettled.rehoused v hv).regions]
      exact hvi.2
    · refine ⟨f, words, hr.run_kept hh hin.1 (by omega) hstays, hlater, ?_⟩
      rw [hr.layout]
      exact hin.2.2

/-- The table is one of a heap between two collections. -/
theorem settled : h'.Settled :=
  { hr.tabled hh with idle := hr.idle' }

end Refilled

end Heap

end MarkCompact
