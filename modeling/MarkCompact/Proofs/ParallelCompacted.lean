/-
MarkCompact/Proofs/ParallelCompacted.lean

A collection in the parallel style that finds what one has left.

One collection leaves the objects of the part in rows, with a region opened only where the first
object does not fit behind those of the region before (`Heap.NextFit`), and humongous objects as
far left as they can go (`Heap.Leftmost`).  Another one starts from a longer dense prefix and
from other free regions, but where that is so it gives every object the place that it has, and
no humongous object a new run.

Main results: `Completed.compacted`, `Completed.nextFit` and `Completed.leftmost` (what one
collection leaves), `Completed.same` (what the next one does).
-/
import MarkCompact.Proofs.Compacted
import MarkCompact.Proofs.LeftmostRuns

namespace MarkCompact

open Forwarding

variable {h h₂ g h' : Heap} {t : ClassTable} {b : Bitmap} {live : Address → Prop}
  {part : List Nat} {d : Nat} {n : Announced} {e : Encoding} {kept : Nat} {tops : Nat → Address}
  {bs : List Berth} {vs : List HumongousMove} {s : Relocation} {release : Bool}

namespace Heap

/-- The first object of a regular region would not fit behind those of the regular region
before. -/
def NextFit (h : Heap) (t : ClassTable) : Prop :=
  ∀ k i, k < i → i < h.regions.size → (h.region k).kind = .regular → (h.region i).kind = .regular →
    (∀ m, k < m → m < i → (h.region m).kind ≠ .regular) →
    (h.region k).top = h.layout.regionStop k ∨
      (h.layout.regionStop k).toNat
        < (h.region k).top.toNat + 8 * h.movedWords t (h.layout.bottom i)

/-- No humongous object that could move has room before it. -/
def Leftmost (h : Heap) (t : ClassTable) : Prop :=
  ∀ f < h.regions.size, (h.region f).kind = .humongousStart →
    (h.layout.regionsFor (h.moveTo t f f).copySize).toNat = (h.moveTo t f f).regions h.layout →
    ¬ RunBefore (fun i => (h.region i).kind = .free) ((h.moveTo t f f).regions h.layout) f

/-! ### Regions that are used at the end -/

/-- A region that is regular at the end has been filled, or left alone. -/
theorem Refilled.regular_cases (hr : h.Refilled part tops vs h')
    (hh : h.Housed t b live part tops bs vs) {i : Nat} (hi : i < h.regions.size)
    (hk : (h'.region i).kind = .regular) : h.Steady part tops vs i ∧
      (i ∈ part ∧ tops i ≠ h.layout.bottom i ∧ h'.region i = { h.region i with top := tops i } ∨
        i ∉ part ∧ (h.region i).kind = .regular ∧ h'.region i = h.region i) := by
  have hcomes := hr.not_comes hh (i := i) (by
    unfold Region.isHumongous
    rw [hk]
    rfl)
  have hleaves : ∀ v ∈ vs, ¬ v.Leaves h.layout i := by
    intro v hv hvi
    rw [hr.region_left hh hv hvi hcomes] at hk
    cases hk
  have hpassed := hr.region_passed hi hcomes hleaves
  unfold settledRegion at hpassed
  by_cases hin : i ∈ part
  · rw [if_pos hin] at hpassed
    split at hpassed
    · rw [hpassed] at hk
      cases hk
    · rename_i hfull
      exact ⟨hh.steady_of_regular (hh.regular i hin) fun _ => hfull, .inl ⟨hin, hfull, hpassed⟩⟩
  · rw [if_neg hin] at hpassed
    rw [hpassed] at hk
    exact ⟨hh.steady_of_regular hk fun hmem => absurd hmem hin, .inr ⟨hin, hk, hpassed⟩⟩

/-- A region that is free at the end was vacant, or has been left. -/
theorem Refilled.roomAfter_of_free (hr : h.Refilled part tops vs h')
    (hh : h.Housed t b live part tops bs vs) {i : Nat} (hi : i < h.regions.size)
    (hk : (h'.region i).kind = .free) : h.RoomAfter (h.isVacant part tops) vs i := by
  have hcomes := hr.not_comes hh (i := i) (by
    unfold Region.isHumongous
    rw [hk]
    rfl)
  refine ⟨?_, hcomes⟩
  by_cases hleaves : ∃ v ∈ vs, v.Leaves h.layout i
  · exact .inr hleaves
  have hpassed := hr.region_passed hi hcomes fun v hv hvi => hleaves ⟨v, hv, hvi⟩
  refine .inl ?_
  unfold settledRegion at hpassed
  unfold isVacant
  rw [Bool.or_eq_true, Bool.and_eq_true]
  by_cases hin : i ∈ part
  · rw [if_pos hin] at hpassed
    split at hpassed
    · rename_i hempty
      exact .inr ⟨List.contains_iff_mem.2 hin, beq_iff_eq.2 hempty⟩
    · rw [hpassed] at hk
      change (h.region i).kind = .free at hk
      rw [hh.regular i hin] at hk
      cases hk
  · rw [if_neg hin] at hpassed
    rw [hpassed] at hk
    exact .inl (by simpa [Region.isFree] using hk)

end Heap

/-! ### Starts that a move of a humongous object leaves alone -/

namespace HumongousMove

variable {v : HumongousMove} {l : Layout} {starts : StartTable}

theorem sameBlocks_startsAfter (v : HumongousMove) (l : Layout) (starts : StartTable) :
    StartTable.SameBlocks starts (v.startsAfter l starts) :=
  ((StartTable.SameBlocks.forget starts l _).trans (.clearRange ..)).trans (.record ..)

/-- Outside the runs of the object the table answers as before. -/
theorem startInBlock_startsAfter (hs : starts.Serves l) (hl : l.Sound) (hpos : 0 < v.regions l)
    (hsource : v.source + v.regions l ≤ l.numRegions) (htarget : v.target < l.numRegions)
    {x : Address} (hx : l.contains x = true) (hleaves : ¬ v.Leaves l (l.indexOf x))
    (hcomes : ¬ v.Comes l (l.indexOf x)) :
    (v.startsAfter l starts).startInBlock x = starts.startInBlock x := by
  have hleft : ∀ i ∈ (List.range' v.source (v.regions l)).filter (v.target + v.regions l ≤ ·),
      v.Leaves l i := fun i hi => List.mem_range'_1.1 (List.mem_filter.1 hi).1
  have hin : ∀ i ∈ (List.range' v.source (v.regions l)).filter (v.target + v.regions l ≤ ·),
      i < l.numRegions := fun i hi => by
    have := (hleft i hi).2
    omega
  have hforgot := hs.forget ((List.range' v.source (v.regions l)).filter
    (v.target + v.regions l ≤ ·))
  have hcleared := hforgot.clearRange (l.bottom v.source)
    (l.regionStop (v.source + v.regions l - 1))
  obtain ⟨h1, h2⟩ := hl.bottom_indexOf hx
  have hindex := hl.indexOf_lt hx
  obtain ⟨hbase, hstop⟩ := (hl.contains_iff x).1 hx
  unfold startsAfter
  dsimp only
  rw [StartTable.startInBlock_record, if_neg, StartTable.startInBlock_clearRange hforgot hl (by omega)
    (by omega) hbase, if_neg, StartTable.startInBlock_forget hs hl hin hx,
    if_neg fun hmem => hleaves (hleft _ hmem)]
  · -- the address does not lie in the old run
    rintro ⟨h3, h4⟩
    refine hleaves ⟨?_, ?_⟩
    · by_contra hlt
      have := hl.regionStop_le_bottom (Nat.not_le.1 hlt) (by omega)
      have := hl.toNat_regionStop hindex
      omega
    · by_contra hge
      have := hl.bottom_mono (Nat.not_lt.1 hge) hindex.le
      rw [Layout.regionStop_eq_bottom_succ,
        show v.source + v.regions l - 1 + 1 = v.source + v.regions l by omega] at h4
      omega
  · -- nor in the block of the new place
    intro hblock
    have hbottom := hl.base_le_bottom htarget.le
    obtain ⟨h3, h4⟩ := hcleared.mem_region hl hindex hbottom h1
      (by rw [hl.toNat_regionStop hindex]; exact h2) hblock
    rw [← hl.toNat_regionStop hindex] at h2
    have hsame := hl.indexOf_eq hindex h3 (by rw [hl.toNat_regionStop hindex] at h4; exact h4)
    rw [hl.indexOf_bottom htarget] at hsame
    exact hcomes ⟨hsame.le, by omega⟩
  · have hwide := l.stride_pos
    exact StartTable.ne_greatest_of_contains hl
      ((hl.mem_region_iff htarget).1 ⟨Nat.le_refl _, by omega⟩).1
  · exact hcleared.blockOf_lt hl hbase hstop

end HumongousMove

/-! ### What a collection leaves -/

namespace ParallelCycle.Completed

variable (hc : Completed h t b live part n e (h.clearedStarts part) kept tops bs vs s release h₂ g h')
include hc

/-- The table of starts has the blocks that it had. -/
theorem sameBlocks : StartTable.SameBlocks h.starts h'.starts := by
  have hmoved : StartTable.SameBlocks h.starts g.starts := by
    rw [hc.starts_moved]
    exact (StartTable.SameBlocks.forget ..).trans (.foldl_record ..)
  rw [hc.finished.starts]
  exact foldl_induct (fun _ starts => StartTable.SameBlocks h.starts starts) vs _
    (hmoved.trans (.forget ..)) fun _ v _ _ _ hsame => hsame.trans (v.sameBlocks_startsAfter _ _)

/-- Regions that are used at the end answer as they did when their objects had been recorded. -/
theorem startInBlock_of_steady (hserves : h.starts.Serves h.layout) {i : Nat}
    (hi : h.Steady part tops vs i) {x : Address} (hx : h.layout.contains x = true)
    (hix : h.layout.indexOf x = i) :
    h'.starts.startInBlock x = g.starts.startInBlock x := by
  have hh := hc.housed
  have ht := hh.surveyed.tabled
  have hmoved : g.starts.Serves h.layout := by
    rw [hc.starts_moved]
    exact (hserves.forget part).foldl_record _
  have hempty : ∀ j ∈ part.filter fun j => tops j = h.layout.bottom j, j < h.layout.numRegions :=
    fun j hj => hc.part_inside j (List.mem_filter.1 hj).1
  have hsettled : (h.settledStarts part tops g.starts).startInBlock x
      = g.starts.startInBlock x := by
    unfold Heap.settledStarts
    rw [StartTable.startInBlock_forget hmoved ht.layout hempty hx, if_neg]
    intro hmem
    obtain ⟨hmem, hbare⟩ := List.mem_filter.1 hmem
    have hoccupied := hi.occupied
    unfold Heap.isVacant at hoccupied
    rw [← hix, List.contains_iff_mem.2 hmem, Bool.true_and, Bool.or_eq_false_iff] at hoccupied
    exact beq_eq_false_iff_ne.1 hoccupied.2 (of_decide_eq_true hbare)
  rw [hc.finished.starts, ← hsettled]
  refine (foldl_induct (f := fun starts (v : HumongousMove) => v.startsAfter h.layout starts)
    (fun _ (starts : StartTable) => starts.Serves h.layout ∧
      starts.startInBlock x = (h.settledStarts part tops g.starts).startInBlock x) vs _
    ⟨hmoved.forget _, rfl⟩ ?_).2
  rintro done v rest starts heq ⟨hs, hsame⟩
  have hv : v ∈ vs := by simp [heq]
  have hr := hh.resettled.rehoused v hv
  have hsource := hr.source_le ht.toGridded
  have hleft := hr.left
  refine ⟨v.serves_startsAfter hs, ?_⟩
  rw [HumongousMove.startInBlock_startsAfter hs ht.layout (hr.regions_pos ht.toGridded) hsource
    (by omega) hx (by rw [hix]; exact hi.left v hv) (by rw [hix]; exact hi.taken v hv), hsame]

/-- The regions of the part answer with the lowest of the objects that have been placed there. -/
theorem recorded (hserves : h.starts.Serves h.layout) {i : Nat} (hi : i ∈ part)
    (hsteady : h.Steady part tops vs i) :
    h'.Recorded (fun v => ∃ a, live a ∧ Berth.placeOf (h.places bs vs) a = v) i := by
  have hh := hc.housed
  have ht := hh.surveyed.tabled
  have hsame := hc.layout
  refine Heap.recorded_of_foldl_record (s := h.starts) (by rw [hsame]; exact ht.layout)
    (by rw [hsame]; exact hserves) hc.sameBlocks part (by rw [hsame]; exact hc.part_inside) hi
    (bs.map Berth.target) ?_ ?_ ?_ ?_
  · rintro v ⟨a, ha, rfl⟩
    rw [hsame]
    exact hc.contains_place ha
  · intro v hv
    obtain ⟨p, hp, rfl⟩ := List.mem_map.1 hv
    exact ⟨p.object, (hh.live_object hp).1, hh.placeOf_object hp⟩
  · rintro v ⟨a, ha, rfl⟩ hindex
    rw [hsame] at hindex
    -- only berths lie in the region
    rcases hh.cases ha with ⟨hin, -⟩ | ⟨v, hv, rfl, heq⟩ | ⟨hout, -, heq⟩
    · obtain ⟨p, hp, rfl⟩ := hh.exists_berth ha hin
      rw [hh.placeOf_object hp]
      exact List.mem_map_of_mem hp
    · have hr := hh.resettled.rehoused v hv
      have hsource := hr.source_le ht.toGridded
      have hleft := hr.left
      have hpos := hr.regions_pos ht.toGridded
      rw [heq, ht.layout.indexOf_bottom (by omega)] at hindex
      exact absurd ⟨hindex.le, by omega⟩ (hsteady.taken v hv)
    · rw [heq] at hindex
      exact absurd (hindex ▸ hi) hout
  · intro x hx hix
    rw [hsame] at hx hix ⊢
    rw [hc.startInBlock_of_steady hserves hsteady hx hix, hc.starts_moved]

/-- An object that has moved takes no fewer words if it moves once more. -/
theorem movedWords_place_le {a : Address} (ha : live a) :
    h.movedWords t a ≤ h'.movedWords t (Berth.placeOf (h.places bs vs) a) := by
  have hwords := hc.wordsAt_place ha
  unfold Heap.wordsFrom at hwords
  by_cases hstays : Berth.placeOf (h.places bs vs) a = a
  · rw [if_pos hstays] at hwords
    have hmark := hc.loadMark_stays ha hstays
    have hheaders := hc.finished.headers
    rw [hstays] at hwords ⊢
    unfold Heap.movedWords Heap.growsAt Heap.grows
    rw [hwords, hmark, hheaders]
  · rw [if_neg hstays] at hwords
    rw [← hwords]
    exact (Surveyed.wordsAt_le_movedWords h' t _).1

section

variable (hpart : ∀ i, i ∈ part ↔ d ≤ i ∧ i < h.regions.size ∧ (h.region i).kind = .regular)
  (hdense : ∀ i < d, (h.region i).kind = .regular ∧ (h.region i).top = h.layout.regionStop i)
include hpart hdense

/-- The regions before the part are as they were. -/
theorem region_dense {i : Nat} (hi : i < d) (hd : d ≤ h.regions.size) :
    h'.region i = h.region i := by
  have hout : i ∉ part := fun hmem => Nat.not_le.2 hi ((hpart i).1 hmem).1
  exact hc.finished.refilled.region_kept (hi.trans_le hd) hout
    (hc.housed.steady_of_regular (hdense i hi).1 fun hmem => absurd hmem hout)

/-- A regular region is one of the part, or full. -/
theorem regular_cases {i : Nat} (hi : i < h.regions.size) (hk : (h'.region i).kind = .regular) :
    i ∈ part ∧ h.Steady part tops vs i ∧ (h.layout.bottom i).toNat < (tops i).toNat ∧
        (h'.region i).top = tops i ∨
      i < d ∧ (h'.region i).top = h.layout.regionStop i := by
  obtain ⟨hsteady, ⟨hin, hfull, heq⟩ | ⟨hout, hregular, heq⟩⟩ :=
    hc.finished.refilled.regular_cases hc.housed hi hk
  · have hle := (hc.housed.laid.extent i hin).1
    refine .inl ⟨hin, hsteady, Nat.lt_of_le_of_ne hle fun hsame => ?_, by rw [heq]⟩
    exact hfull (UInt64.toNat_inj.1 hsame.symm)
  · have hlt : i < d := Nat.lt_of_not_le fun hle => hout ((hpart i).2 ⟨hle, hi, hregular⟩)
    exact .inr ⟨hlt, by rw [heq, (hdense i hlt).2]⟩

/-- No gaps and no empty regions are left, and what is free has been given back. -/
theorem compacted (hserves : h.starts.Serves h.layout) (hd : d ≤ h.regions.size)
    (hkept : kept = 0) (hout : h.LiveOutside b live part) :
    h'.Compacted t (fun v => ∃ a, live a ∧ Berth.placeOf (h.places bs vs) a = v) d release := by
  have ht := hc.surveyed.tabled
  have hsize := hc.finished.refilled.size
  obtain ⟨m, -, hback⟩ := hc.finished.memory
  refine ⟨hc.gapless hkept hout, fun i hi hk => ?_, by rwa [hsize], fun i hi => ?_, ?_,
    hback.given⟩
  · rw [hsize] at hi
    rw [hc.layout]
    rcases hc.regular_cases hpart hdense hi hk with ⟨-, -, hlt, heq⟩ | ⟨-, heq⟩
    · rwa [heq]
    · rw [heq, ht.layout.toNat_regionStop (ht.count ▸ hi)]
      exact Nat.lt_add_of_pos_right h.layout.stride_pos
  · rw [hc.region_dense hpart hdense hi hd, hc.layout]
    exact hdense i hi
  · rw [hc.layout]
    exact hc.sameBlocks.serves hserves

/-- A region is opened only where the first object does not fit in the region before. -/
theorem nextFit (hkept : kept = 0) : h'.NextFit t := by
  have hh := hc.housed
  intro k i hki hi hkk hki' hnone
  rw [hc.finished.refilled.size] at hi
  rw [hc.layout]
  rcases hc.regular_cases hpart hdense (hki.trans hi) hkk with ⟨hk, -, hkfull, hktop⟩ | ⟨-, hktop⟩
  swap
  · exact .inl hktop
  rcases hc.regular_cases hpart hdense hi hki' with ⟨hin, -, hifull, -⟩ | ⟨hid, -⟩
  swap
  · exact absurd ((hpart k).1 hk).1 (Nat.not_le.2 (hki.trans hid))
  -- both regions have berths
  have hberth : ∀ j ∈ part, (h.layout.bottom j).toNat < (tops j).toNat →
      ∃ p ∈ bs, p.space = j := by
    intro j hj hfull
    by_contra hbare
    rw [hh.laid.tops j hj, ← List.nil_append bs,
      h.topOf_append [] fun p hp hpj => hbare ⟨p, hp, hpj⟩] at hfull
    exact Nat.lt_irrefl _ hfull
  obtain ⟨p, hp, rfl⟩ := hberth k hk hkfull
  obtain ⟨r, hr, rfl⟩ := hberth i hin hifull
  have hrow := Heap.rowed_layOut (h := h) (t := t) hh.isPart.ascending (part.flatMap (h.liveIn b))
  rw [← hc.forwarded.fits hkept] at hrow
  obtain ⟨q, hq, -, htarget, htight⟩ := hrow.tight r hr
  have htight := htight p hp hki fun x hx => by
    by_contra hboth
    push Not at hboth
    obtain ⟨-, -, -, hsteady⟩ := hh.within_berth hx
    have hspace := (hh.laid.berthed x hx).space
    refine hnone x.space hboth.1 hboth.2 ?_
    rw [hc.finished.refilled.region_part hh hspace hsteady]
    exact hh.regular _ hspace
  have hmoved := hc.movedWords_place_le (hh.live_object hq).1
  rw [hh.placeOf_object hq, htarget] at hmoved
  rw [← hh.laid.tops _ hk] at htight
  rw [hktop]
  exact .inr (by omega)

end

/-- Humongous objects lie as far left as they can. -/
theorem leftmost (hout : h.LiveOutside b live part) : h'.Leftmost t := by
  have hh := hc.housed
  have hs := hh.surveyed
  have ht := hs.tabled
  have hlayout := hc.layout
  obtain ⟨hmoved, hstayed⟩ := hs.rehoused_leftmost part tops
    fun f words i hin => (hh.notVacant_of_inRun hin).2
  rw [← hc.forwarded.chosen] at hmoved hstayed
  have hroom : ∀ f < h.regions.size, ∀ i < f, (h'.region i).kind = .free →
      h.RoomAfter (h.isVacant part tops) vs i := fun f hf i hi hk =>
    hc.finished.refilled.roomAfter_of_free hh (hi.trans hf) hk
  intro f hf hk hfits hbefore
  rw [hc.finished.refilled.size] at hf
  have hbefore := hbefore.mono (hroom f hf)
  rw [hlayout] at hfits hbefore
  rcases hc.finished.refilled.start_cases hh hf hk with ⟨v, hv, rfl⟩ | ⟨hk, hnot, hstays⟩
  · -- an object that has moved
    have hr := hh.resettled.rehoused v hv
    have hwords := hc.wordsAt_place hr.live
    rw [hh.placeOf_humongous hv, hh.wordsFrom_run hv] at hwords
    have hregions : (h'.moveTo t v.target v.target).regions h.layout = v.regions h.layout := by
      unfold Heap.moveTo HumongousMove.regions
      dsimp only
      rw [hlayout, hwords]
      show (h.layout.regionsFor (UInt64.ofNat v.copySize.toNat)).toNat = _
      rw [UInt64.ofNat_toNat]
      exact hr.regions
    rw [hregions] at hbefore
    exact hmoved v hv hbefore
  · -- one that has stayed
    have hf' : f < h.layout.numRegions := ht.count ▸ hf
    have hlive := hout.start f hf hk
    have hindex := ht.layout.indexOf_bottom hf'
    have hplace := hc.stays_of_indexOf hlive (by rwa [hindex]) (by rwa [hindex])
    have hwords := hc.wordsAt_place hlive
    unfold Heap.wordsFrom at hwords
    rw [hplace, if_pos rfl] at hwords
    have hmark := hc.loadMark_stays hlive hplace
    have hcopied : h'.movedWords t (h.layout.bottom f) = h.movedWords t (h.layout.bottom f) := by
      unfold Heap.movedWords Heap.growsAt Heap.grows
      rw [hwords, hmark, hc.finished.headers]
    have hsame : h'.moveTo t f f = h.moveTo t f f := by
      unfold Heap.moveTo
      dsimp only
      rw [hlayout, hwords, hcopied, hmark]
    rw [hsame] at hfits hbefore
    have hstart : h.isLiveStart b f = true := by
      unfold Heap.isLiveStart
      rw [hk, ht.bottom f hf, (hs.shows.starts _ (hs.isWord hlive)).2 hlive]
      rfl
    refine hstayed f hf hstart (fun v hv hsource => ?_) hfits hbefore
    have hr := hh.resettled.rehoused v hv
    exact hstays v hv ⟨hsource.le, by
      have := hr.regions_pos ht.toGridded
      omega⟩

end ParallelCycle.Completed

/-! ### What the next one does -/

/-- A region is filled up to its bottom or to the end of an object that has been placed in it. -/
theorem Heap.topOf_cases (h : Heap) (bs : List Berth) (i : Nat) :
    h.topOf bs i = (h.layout.bottom i).toNat ∨ ∃ p ∈ bs, p.space = i ∧ h.topOf bs i = p.stop := by
  induction bs using List.reverseRecOn with
  | nil => exact .inl rfl
  | append_singleton bs p ih =>
    rw [topOf_snoc]
    by_cases hspace : p.space = i
    · rw [if_pos hspace]
      exact .inr ⟨p, by simp, hspace, rfl⟩
    · rw [if_neg hspace]
      exact ih.imp id fun ⟨q, hq, hqi, heq⟩ => ⟨q, List.mem_append_left _ hq, hqi, heq⟩

namespace ParallelCycle.Completed

variable (hc : Completed h t b live part n e (h.clearedStarts part) kept tops bs vs s release h₂ g h')
  (hcompacted : h.Compacted t live d release)
include hc hcompacted

/-- Every object of the part stays. -/
theorem stays_part {d' : Nat} (hpart : ∀ i, i ∈ part ↔
      d' ≤ i ∧ i < h.regions.size ∧ (h.region i).kind = .regular) (hfit : h.NextFit t) {a : Address}
    (ha : live a) (hin : h.layout.indexOf a ∈ part) : Berth.placeOf (h.places bs vs) a = a := by
  have hh := hc.housed
  have hs := hh.surveyed
  have hl := hs.tabled.layout
  have horder : ∀ a c, live a → h.layout.indexOf a ∈ part → live c → h.layout.indexOf c ∈ part →
      a.toNat < c.toNat → (Berth.placeOf (h.places bs vs) a).toNat + 8 * h.wordsAt t a
        ≤ (Berth.placeOf (h.places bs vs) c).toNat := by
    intro a c ha hina hlive hinc hlt
    have hapart := hh.laid.apart hh.ascending (hh.mem_objects.2 ⟨ha, hina⟩)
      (hh.mem_objects.2 ⟨hlive, hinc⟩) hlt
    have hle := (h.wordsFrom_le t a (Berth.placeOf bs a)).1
    rw [hh.placeOf_part ha hina, hh.placeOf_part hlive hinc]
    omega
  refine hs.stays hcompacted.gapless hh.isPart (fun a ha _ => hh.placeOf_le ha) horder ?_ a ha hin
  intro i hi hlive hbefore
  by_contra hmoves
  have hi' : i < h.layout.numRegions := hs.tabled.count ▸ hh.isPart.inside i hi
  obtain ⟨p, hp, hobject⟩ := hh.exists_berth hlive (by rwa [hl.indexOf_bottom hi'])
  have hplace := hh.placeOf_object hp
  have hberthed := hh.laid.berthed p hp
  have hpos := hh.words_pos hp
  have hextent := (hh.laid.extent _ hberthed.space).2.1
  have hstop := hberthed.stop
  have hleft := hberthed.left
  have hwords := hberthed.words
  unfold Berth.stop at hstop
  rw [hobject] at hplace hwords hleft
  rw [hplace] at hmoves
  unfold Heap.wordsFrom at hwords
  rw [if_neg hmoves] at hwords
  -- the object would have to fit in the region before
  obtain ⟨j, hj, hji, hnone, hbehind⟩ := hs.opens hcompacted.gapless hh.isPart
    hcompacted.occupied horder hi hlive hbefore hberthed.space (by rw [hplace]; exact hberthed.bottom)
    (by rw [hplace]; omega) (by
      rw [hplace]
      exact Nat.lt_of_le_of_ne hleft fun heq => hmoves (UInt64.toNat_inj.1 heq))
  obtain ⟨hspace, htop⟩ := hbehind (hh.regular j hj)
  rw [hplace] at htop
  rw [hspace] at hextent hstop
  have hsize := hh.isPart.inside i hi
  rcases hfit j i hji hsize (hh.regular j hj) (hh.regular i hi) (fun m hjm hmi hk => by
    have hm := hnone m ((hpart m).2 ⟨((hpart j).1 hj).1.trans hjm.le, hmi.trans hsize, hk⟩)
    omega) with hfull | hfull
  · rw [hfull] at htop
    omega
  · omega

section

variable (hstays : ∀ a, live a → h.layout.indexOf a ∈ part → Berth.placeOf (h.places bs vs) a = a)
include hstays

omit hcompacted in
theorem berth_stays {p : Berth} (hp : p ∈ bs) : p.target = p.object := by
  obtain ⟨hlive, hin⟩ := hc.housed.live_object hp
  rw [← hc.housed.placeOf_object hp, hstays _ hlive hin]

/-- The regions of the part are filled as before. -/
theorem tops_eq {i : Nat} (hi : i ∈ part) : tops i = (h.region i).top := by
  have hh := hc.housed
  have hs := hh.surveyed
  have hsize := hh.isPart.inside i hi
  have hk := hh.regular i hi
  have hwords : ∀ p ∈ bs, p.stop = p.object.toNat + 8 * h.wordsAt t p.object := fun p hp => by
    have htarget := hc.berth_stays hstays hp
    unfold Berth.stop
    rw [(hh.laid.berthed p hp).words, htarget, Heap.wordsFrom, if_pos rfl]
  refine UInt64.toNat_inj.1 (Nat.le_antisymm ?_ ?_)
  · rw [hh.laid.tops i hi]
    rcases h.topOf_cases bs i with heq | ⟨p, hp, rfl, heq⟩
    · rw [heq, ← hs.tabled.bottom i hsize]
      exact (hs.tabled.top i hsize).1
    · have hspace := (hh.within_berth hp).2.2.1
      have hlive := (hh.live_object hp).1
      rw [hc.berth_stays hstays hp] at hspace
      have hend := hs.end_le_top hlive (by rw [hspace, hk]; rfl)
      rw [heq, hwords p hp, ← hspace]
      exact hend
  · obtain ⟨c, hlive, hindex, hend⟩ := hs.exists_last hcompacted.gapless hsize hk
      (hcompacted.occupied i hsize hk)
    obtain ⟨p, hp, rfl⟩ := hh.exists_berth hlive (by rwa [hindex])
    have hspace := (hh.within_berth hp).2.2.1
    rw [hc.berth_stays hstays hp, hindex] at hspace
    rw [← hend, ← hwords p hp, hspace]
    exact (hh.laid.berthed p hp).stop

/-- No humongous object gets a new run. -/
theorem no_moves (hleftmost : h.Leftmost t) : vs = [] := by
  have hh := hc.housed
  have hs := hh.surveyed
  rcases hvs : vs with - | ⟨v, rest⟩
  · rfl
  exfalso
  have hv : v ∈ vs := by simp [hvs]
  have hr := hh.resettled.rehoused v hv
  have hpos := hr.regions_pos hs.tabled.toGridded
  have hmove := hr.move
  have hregions : (h.moveTo t v.source v.source).regions h.layout = v.regions h.layout := by
    rw [hmove]
    rfl
  have hcopied : (h.moveTo t v.source v.source).copySize = v.copySize := by
    rw [hmove]
    rfl
  refine hleftmost v.source hr.inside hr.run.start (by rw [hcopied, hregions]; exact hr.regions) ?_
  rw [hregions]
  refine ⟨v.target, hr.left, fun i h1 h2 h3 => ?_⟩
  -- nothing has been left before the first move
  rcases hh.resettled.vacant v hv i ⟨h1, h2⟩ with hvacant | ⟨w, hw, hleaves, hle⟩
  · unfold Heap.isVacant at hvacant
    rw [Bool.or_eq_true, Bool.and_eq_true] at hvacant
    rcases hvacant with hfree | ⟨hin, hempty⟩
    · simpa [Region.isFree] using hfree
    · have hin := List.contains_iff_mem.1 hin
      have hsize := hh.isPart.inside i hin
      have hfull := hcompacted.occupied i hsize (hh.regular i hin)
      rw [← hc.tops_eq hcompacted hstays hin, beq_iff_eq.1 hempty] at hfull
      exact absurd hfull (Nat.lt_irrefl _)
  · have hsources := hh.resettled.sources
    rw [hvs] at hw hsources
    rcases List.mem_cons.1 hw with rfl | hw
    · exact absurd hleaves.1 (Nat.not_le.2 h3)
    · have := (List.pairwise_cons.1 hsources).1 w hw
      omega

/-- The objects of the part are recorded where they were. -/
theorem starts_same (hvs : vs = []) (hrecorded : ∀ i ∈ part, h.Recorded live i) :
    h'.starts = h.starts := by
  have hh := hc.housed
  have hs := hh.surveyed
  have hempty : (part.filter fun i => tops i = h.layout.bottom i) = [] :=
    List.filter_eq_nil_iff.2 fun i hi hbare => by
      have hfull := hcompacted.occupied i (hh.isPart.inside i hi) (hh.regular i hi)
      rw [← hc.tops_eq hcompacted hstays hi, of_decide_eq_true hbare] at hfull
      exact Nat.lt_irrefl _ hfull
  rw [hc.finished.starts, hvs]
  unfold Heap.finalStarts Heap.settledStarts
  rw [hempty]
  show g.starts = _
  rw [hc.starts_moved]
  refine Heap.foldl_record_recorded hs.tabled.layout hcompacted.serves hc.part_inside hrecorded
    _ (fun a => ?_) fun a ha => hs.contains ha
  constructor
  · intro ha
    obtain ⟨p, hp, rfl⟩ := List.mem_map.1 ha
    rw [hc.berth_stays hstays hp]
    exact hh.live_object hp
  · rintro ⟨ha, hin⟩
    obtain ⟨p, hp, rfl⟩ := hh.exists_berth ha hin
    rw [← hc.berth_stays hstays hp]
    exact List.mem_map_of_mem hp

/-- The regions of the part get the tops that they had. -/
theorem region_same (hvs : vs = []) {i : Nat} (hi : i < h.regions.size) :
    h'.region i = h.region i := by
  rw [hc.finished.refilled.region i hi,
    Heap.finalRegion_of_neither (by simp [hvs]) (by simp [hvs])]
  unfold Heap.settledRegion
  by_cases hin : i ∈ part
  · have hfull := hcompacted.occupied i hi (hc.housed.regular i hin)
    rw [if_pos hin, hc.tops_eq hcompacted hstays hin, if_neg fun heq => by
      rw [heq] at hfull
      exact Nat.lt_irrefl _ hfull]
  · rw [if_neg hin]

end

/-- If no object moves, nothing is written but zeros where there are zeros. -/
theorem load_same (hplace : ∀ a, Berth.placeOf (h.places bs vs) a = a) (hvs : vs = [])
    (hregion : ∀ i < h.regions.size, h'.region i = h.region i) (x : Address) :
    h'.memory.load x = h.memory.load x := by
  have hmoves : Berth.moves (h.places bs vs) = [] :=
    List.eq_nil_iff_forall_not_mem.2 fun ⟨a, v⟩ hmem => by
      obtain ⟨heq, hne⟩ := (Berth.mem_moves_iff hc.housed.nodup).1 hmem
      exact hne (heq.symm.trans (hplace a))
  have hrecorded : s.heap.memory.load x = h.memory.load x :=
    hc.forwarded.records.elsewhere x (by rw [hmoves]; exact List.not_mem_nil)
  have hadjusted : h₂.memory.load x = s.heap.memory.load x := by
    rw [hc.adjusted.load]
    split
    · exact hplace _
    · rfl
  have hmoved : g.memory.load x = h₂.memory.load x := by
    refine hc.moved.elsewhere x fun r hr => ?_
    obtain ⟨q, hq, rfl⟩ := List.mem_map.1 hr
    obtain ⟨a, -, hne, -⟩ := Heap.mem_recordsOf.1 hq
    exact absurd (hplace a) hne
  have hsaved : s.saved = #[] := by
    have hlist := hc.forwarded.saved
    rw [hmoves] at hlist
    refine Array.toList_eq_nil_iff.1 (hlist.trans ?_)
    split <;> rfl
  obtain ⟨m, hm, hback⟩ := hc.finished.memory
  have hrest : m.load x = g.memory.load x := hm.elsewhere x (by simp [hvs])
  rw [hsaved, Array.map_empty] at hback
  by_cases hfree : release = true ∧ ∃ i < h'.regions.size, (h'.region i).kind = .free ∧
      h'.layout.InPages i x
  · obtain ⟨hrelease, i, hi, hk, hpage⟩ := hfree
    rw [hback.given hrelease i hi hk x hpage]
    rw [hc.finished.refilled.size] at hi
    rw [hregion i hi] at hk
    rw [hc.layout] at hpage
    exact (hcompacted.released hrelease i hi hk x hpage).symm
  · have hlast := hback.kept x fun hrelease i hi hk hpage => hfree ⟨hrelease, i, hi, hk, hpage⟩
    refine hlast.trans (Eq.trans ?_ (hrest.trans (hmoved.trans (hadjusted.trans hrecorded))))
    rfl

/-- Another collection changes nothing. -/
theorem same {d' : Nat} (hpart : ∀ i, i ∈ part ↔
      d' ≤ i ∧ i < h.regions.size ∧ (h.region i).kind = .regular) (hfit : h.NextFit t)
    (hleftmost : h.Leftmost t) (hrecorded : ∀ i ∈ part, h.Recorded live i) :
    vs = [] ∧ (∀ a, Berth.placeOf (h.places bs vs) a = a) ∧ h.Unchanged h' := by
  have hh := hc.housed
  have hstays := fun a ha hin => hc.stays_part hcompacted hpart hfit (a := a) ha hin
  have hvs := hc.no_moves hcompacted hstays hleftmost
  have hplace : ∀ a, Berth.placeOf (h.places bs vs) a = a := by
    intro a
    by_cases ha : live a
    · rcases hh.cases ha with ⟨hin, -⟩ | ⟨v, hv, -⟩ | ⟨-, -, heq⟩
      · exact hstays a ha hin
      · rw [hvs] at hv
        cases hv
      · exact heq
    · exact hh.placeOf_eq ha
  have hregion := fun i hi => hc.region_same hcompacted hstays hvs (i := i) hi
  exact ⟨hvs, hplace, Heap.regions_eq_of_region hc.finished.refilled.size hregion,
    hc.starts_same hcompacted hstays hvs hrecorded,
    fun x _ => hc.load_same hcompacted hplace hvs hregion x⟩

end ParallelCycle.Completed

end MarkCompact
