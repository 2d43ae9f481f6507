/-
MarkCompact/Proofs/ParallelFinish.lean

What a parallel collection leaves.

At the end the tops of the regions of the part are set, humongous objects are moved one after
the other, the marks that have been kept aside are written back, and the pages of free regions
may be given back.  A humongous object moves to the left, into regions that nothing occupies any
more but the object itself, so that no move disturbs what another one reads or leaves.

Main result: `ParallelCycle.finish_spec`.
-/
import MarkCompact.Proofs.ParallelMoves
import MarkCompact.Proofs.FinalTable
import MarkCompact.Proofs.Allocation

namespace MarkCompact

namespace Heap

variable {h g : Heap} {t : ClassTable} {b : Bitmap} {live : Address → Prop} {part : List Nat}
  {tops : Nat → Address} {bs : List Berth} {vs : List HumongousMove}

/-! ### Tops -/

/-- What becomes of a region of the part. -/
def settleRegion (r : Region) : Region :=
  if r.compactionTop = r.bottom then r.makeFree else { r with top := r.compactionTop }

theorem region_settleTop (h : Heap) (i j : Nat) :
    (ParallelCycle.settleTop h i).region j
      = if i = j ∧ j < h.regions.size then settleRegion (h.region j) else h.region j := by
  unfold ParallelCycle.settleTop settleRegion
  dsimp only
  by_cases hempty : (h.region i).compactionTop = (h.region i).bottom
  · rw [if_pos hempty, region_freeRegion]
    by_cases hij : i = j ∧ j < h.regions.size
    · rw [if_pos hij, if_pos hij, if_pos (hij.1 ▸ hempty)]
    · rw [if_neg hij, if_neg hij]
  · rw [if_neg hempty, region_modifyRegion]
    by_cases hij : i = j ∧ j < h.regions.size
    · rw [if_pos hij, if_pos hij, if_neg (hij.1 ▸ hempty)]
    · rw [if_neg hij, if_neg hij]

theorem sameGround_settleTop (h : Heap) (i : Nat) :
    h.SameGround (ParallelCycle.settleTop h i) := by
  unfold ParallelCycle.settleTop
  dsimp only
  split
  · exact sameGround_freeRegion h i
  · exact sameGround_modifyRegion h i _

theorem starts_settleTop (h : Heap) (i : Nat) :
    (ParallelCycle.settleTop h i).starts
      = if (h.region i).compactionTop = (h.region i).bottom then
          h.starts.clearRange (h.region i).bottom (h.region i).stop else h.starts := by
  unfold ParallelCycle.settleTop
  dsimp only
  split <;> rfl

/-- The regions of the part are settled. -/
theorem settled_foldl_settleTop (hg : h.Gridded) (hidle : ∀ i < h.regions.size, (h.region i).Idle)
    (hp : h.Part part) (hsize : g.regions.size = h.regions.size)
    (hmember : ∀ i ∈ part, g.region i = { (h.region i).enlisted (tops i) with ready := true })
    (hother : ∀ i < h.regions.size, i ∉ part → (g.region i).ended = h.region i) :
    let g' := part.foldl ParallelCycle.settleTop g
    g.SameGround g' ∧ g'.starts = h.settledStarts part tops g.starts ∧
      ∀ i < h.regions.size, (g'.region i).ended = h.settledRegion part tops i := by
  -- a region is settled once, and until then it is as the copies have left it
  obtain ⟨hground, hstarts, hdone, hrest⟩ := foldl_induct (f := ParallelCycle.settleTop)
    (fun done g' => g.SameGround g' ∧ g'.starts = h.settledStarts done tops g.starts ∧
      (∀ i ∈ done, (g'.region i).ended = h.settledRegion part tops i) ∧
      ∀ i, i ∉ done → g'.region i = g.region i) part g
    ⟨SameGround.refl g, rfl, by simp, fun _ _ => rfl⟩ (by
      rintro done i rest g' heq ⟨hground, hstarts, hdone, hrest⟩
      have hi : i ∈ part := by simp [heq]
      have hlt := hp.inside i hi
      have hnew : i ∉ done := by
        have hasc := hp.ascending
        rw [heq] at hasc
        exact fun hin =>
          absurd ((List.pairwise_append.1 hasc).2.2 i hin i (by simp)) (Nat.lt_irrefl i)
      have hcur := (hrest i hnew).trans (hmember i hi)
      have hbottom := hg.bottom i hlt
      refine ⟨hground.trans (sameGround_settleTop g' i), ?_, fun j hj => ?_, fun j hj => ?_⟩
      · unfold settledStarts
        rw [starts_settleTop, List.filter_append, StartTable.forget_append, hcur, hstarts]
        show (if tops i = (h.region i).bottom then
          (h.settledStarts done tops g.starts).clearRange (h.region i).bottom (h.region i).stop
          else _) = _
        rw [hbottom, hg.stop i hlt]
        by_cases hempty : tops i = h.layout.bottom i
        · rw [if_pos hempty, List.filter_cons_of_pos (by simpa using hempty)]
          rfl
        · rw [if_neg hempty, List.filter_cons_of_neg (by simpa using hempty)]
          rfl
      · rw [region_settleTop]
        rcases List.mem_append.1 hj with hj | hj
        · rw [if_neg fun hh : i = j ∧ _ => hnew (hh.1 ▸ hj)]
          exact hdone j hj
        · rw [List.mem_singleton.1 hj, if_pos ⟨rfl, by rw [hground.size, hsize]; exact hlt⟩, hcur]
          unfold settleRegion settledRegion
          rw [if_pos hi]
          show (if tops i = (h.region i).bottom then _ else _ : Region).ended = _
          rw [hbottom]
          split
          · rw [Region.ended_makeFree]
            exact congrArg Region.makeFree ((hidle i hlt).ended_noted (tops i) true)
          · refine (Region.ended_use _ _ _).trans ?_
            have hended := (hidle i hlt).ended_noted (tops i) true
            unfold Region.enlisted
            rw [hended]
      · rw [List.mem_append, not_or, List.mem_singleton] at hj
        rw [region_settleTop, if_neg fun hh : i = j ∧ _ => hj.2 hh.1.symm]
        exact hrest j hj.1)
  refine ⟨hground, hstarts, fun i hi => ?_⟩
  by_cases hin : i ∈ part
  · exact hdone i hin
  · rw [hrest i hin, hother i hi hin]
    unfold settledRegion
    rw [if_neg hin]

/-- The grid is that of the regions once the collection has ended. -/
theorem gridded_of_ended (hg : h.Gridded) (hlayout : g.layout = h.layout)
    (hsize : g.regions.size = h.regions.size)
    (hregion : ∀ i < h.regions.size, ∃ kind top,
      (g.region i).ended = { h.region i with kind := kind, top := top }) : g.Gridded := by
  refine hg.congr hlayout hsize fun i hi => ?_
  obtain ⟨kind, top, heq⟩ := hregion i hi
  rw [← (g.region i).extent_ended.1, ← (g.region i).extent_ended.2, ← (g.region i).stop_ended, heq]
  exact ⟨rfl, rfl, rfl⟩

/-! ### Moves of humongous objects -/

end Heap

/-- What moving the object is to do in memory. -/
def HumongousMove.record (l : Layout) (compact intact : Bool) (v : HumongousMove) : MoveRecord :=
  ⟨l.bottom v.source, l.bottom v.target, v.size, v.copySize,
    relocatedMark v.mark compact v.grown intact⟩

namespace Heap

variable {h g : Heap} {t : ClassTable} {b : Bitmap} {live : Address → Prop} {part : List Nat}
  {tops : Nat → Address} {bs : List Berth} {vs : List HumongousMove}

/-- A humongous object is moved, and its old regions are freed. -/
theorem Rehoused.apply {v : HumongousMove} (hv : h.Rehoused t live v) (hg : g.Gridded)
    (hgh : h.Gridded) (hlayout : g.layout = h.layout) {intact : Bool} {m : Memory}
    (hcopy : (v.record h.layout g.compactHeaders intact).copy g.memory = .ok m) :
    ∃ g', v.apply g intact = .ok g' ∧ (g.withMemory m).SameGround g' ∧
      g'.starts = v.startsAfter h.layout g.starts ∧
      ∀ i, g'.region i = v.regionAfter h.layout i (g.region i) := by
  have hsource := hv.source_le hgh
  have hpos := hv.regions_pos hgh
  have hleft := hv.left
  have hcount : g.regions.size = h.layout.numRegions := by rw [hg.count, hlayout]
  have hbottom : ∀ i < h.layout.numRegions, (g.region i).bottom = h.layout.bottom i := by
    intro i hi
    rw [hg.bottom i (by omega), hlayout]
  have hrecord : (⟨(g.region v.source).bottom, (g.region v.target).bottom, v.size, v.copySize,
      relocatedMark v.mark g.compactHeaders v.grown intact⟩ : MoveRecord)
      = v.record h.layout g.compactHeaders intact := by
    rw [hbottom v.source (by omega), hbottom v.target (by omega)]
    rfl
  -- the regions of the old run that the new one does not cover are freed first
  let left := (List.range' v.source (v.regions h.layout)).filter
    (v.target + v.regions h.layout ≤ ·)
  have hinside : ∀ i ∈ left, i < g.regions.size := fun i hi => by
    have h1 := (HumongousMove.mem_vacated.1 hi).1.2
    omega
  let g₁ := left.foldl freeRegion (g.withMemory m)
  have hground₁ : (g.withMemory m).SameGround g₁ :=
    sameGround_foldl freeRegion sameGround_freeRegion left (g.withMemory m)
  have hregion₁ : ∀ i, g₁.region i = if i ∈ left then (g.region i).makeFree else g.region i :=
    fun i => (region_foldl_freeRegion left (g.withMemory m) i).trans
      (if_congr (and_iff_left_of_imp (hinside i)) rfl rfl)
  have hextent : ∀ i < h.layout.numRegions, (g₁.region i).bottom = h.layout.bottom i ∧
      (g₁.region i).stop = h.layout.regionStop i := by
    intro i hi
    have hstop := hg.stop i (by omega)
    rw [hlayout] at hstop
    rw [hregion₁]
    split
    · exact ⟨hbottom i hi, hstop⟩
    · exact ⟨hbottom i hi, hstop⟩
  -- then what is recorded in the old run is forgotten, and the new run set up
  let last := g₁.region (v.source + v.regions h.layout - 1)
  let g₂ : Heap :=
    { g₁ with starts := g₁.starts.clearRange (g.region v.source).bottom last.stop }
  have hlayout₂ : g₂.layout = h.layout := hground₁.layout.trans hlayout
  refine ⟨g₂.installHumongous v.target v.copySize, ?_, ?_, ?_, ?_⟩
  · unfold HumongousMove.apply
    dsimp only
    rw [hrecord, hlayout]
    exact bind_eq_ok hcopy rfl
  · have hinstall := sameGround_installHumongous g₂ v.target v.copySize
    exact ⟨hinstall.layout.trans hground₁.layout, hinstall.size.trans hground₁.size,
      hinstall.headers.trans hground₁.headers, hinstall.memory.trans hground₁.memory⟩
  · have hstarts₁ := starts_foldl_freeRegion (g := g.withMemory m) fun i hi =>
      ⟨hg.bottom i (hinside i hi), hg.stop i (hinside i hi)⟩
    rw [starts_installHumongous]
    show (g₁.starts.clearRange (g.region v.source).bottom _).record (g₁.region v.target).bottom = _
    rw [hbottom v.source (by omega), (hextent v.target (by omega)).1,
      (hextent (v.source + v.regions h.layout - 1) (by omega)).2, hstarts₁, hlayout]
    rfl
  · intro i
    rw [region_installHumongous, hlayout₂, hv.regions]
    have hsize₂ : g₂.regions.size = h.layout.numRegions := hground₁.size.trans hcount
    show (if _ then g₂.humongousPart v.target v.copySize i (g₁.region i) else g₁.region i) = _
    rw [hregion₁ i, HumongousMove.regionAfter_eq hleft]
    by_cases hcomes : v.Comes h.layout i
    · have hend := hcomes.2
      have hout : i ∉ left := fun hin => Nat.not_le.2 hend (HumongousMove.mem_vacated.1 hin).2
      rw [if_pos ⟨hcomes, by rw [hsize₂]; omega⟩, if_neg hout, if_pos hcomes]
      unfold humongousPart
      rw [show (g₂.region v.target).bottom = _ from (hextent v.target (by omega)).1]
    · rw [if_neg fun hh => hcomes hh.1, if_neg hcomes]

namespace Housed

variable (hh : h.Housed t b live part tops bs vs)
include hh

/-- The move of a humongous object is that of any object, its mark read at first. -/
theorem record_eq (intact : Bool) {v : HumongousMove} (hv : v ∈ vs) :
    v.record h.layout h.compactHeaders intact = h.recordFor t h.memory intact
      (Berth.placeOf (h.places bs vs)) (h.layout.bottom v.source) := by
  have hrv := hh.resettled.rehoused v hv
  have hgrown := (hh.surveyed.size_moveTo v.target hrv.live).2.2.2.2
  rw [← hrv.move] at hgrown
  have hsize : v.size = (h.wordsAt t (h.layout.bottom v.source)).toUInt64 := by
    rw [← hrv.words]
    exact UInt64.ofNat_toNat.symm
  have hcopy : v.copySize = (h.movedWords t (h.layout.bottom v.source)).toUInt64 := by
    rw [← hrv.moved]
    exact UInt64.ofNat_toNat.symm
  have hmark : v.mark = h.memory.loadMark (h.layout.bottom v.source) :=
    congrArg HumongousMove.mark hrv.move
  unfold HumongousMove.record recordFor HumongousMove.grown
  rw [hgrown, hh.placeOf_humongous hv, hmark, ← hsize, ← hcopy]

/-- The moves of humongous objects do not disturb each other. -/
theorem clear_records (intact : Bool) :
    (vs.map (HumongousMove.record h.layout h.compactHeaders intact)).Pairwise
      MoveRecord.Clear := by
  have hg := hh.surveyed.tabled.toGridded
  rw [List.pairwise_map]
  refine (hh.resettled.sources.and hh.resettled.targets).imp_of_mem fun {v w} hv hw hvw => ?_
  obtain ⟨hlater, hdisjoint⟩ := hvw
  have hrv := hh.resettled.rehoused v hv
  have hrw := hh.resettled.rehoused w hw
  have hv1 := hrv.source_le hg
  have hw1 := hrw.source_le hg
  have hv2 := hrv.left
  have hw2 := hrw.left
  have htarget := hrv.within_target hg
  -- the new run overlaps neither the old runs of later objects nor their new ones
  constructor
  · have hsource := hrw.within_source hg
    rw [← hrw.words] at hsource
    exact htarget.apart hg.layout hsource (by omega) (by omega) (hrv.regions_pos hg)
      (hrw.regions_pos hg) fun i h1 h2 h3 h4 => by omega
  · exact htarget.apart hg.layout (hrw.within_target hg) (by omega) (by omega)
      (hrv.regions_pos hg) (hrw.regions_pos hg)
      fun i h1 h2 h3 h4 => hdisjoint i ⟨h1, h2⟩ ⟨h3, h4⟩

end Housed

/-- What the moves `done` leave of `g`: each of them changes the regions and the starts in its turn,
and the memory holds the copies. -/
structure Applied (h g : Heap) (intact : Bool) (done : List HumongousMove) (g' : Heap) : Prop where
  layout : g'.layout = h.layout
  size : g'.regions.size = g.regions.size
  headers : g'.compactHeaders = h.compactHeaders
  region : ∀ i, g'.region i = done.foldl (fun r v => v.regionAfter h.layout i r) (g.region i)
  starts : g'.starts = done.foldl (fun s v => v.startsAfter h.layout s) g.starts
  memory : g.memory.Transferred g'.memory
    ((done.map (HumongousMove.record h.layout h.compactHeaders intact)).map (·.transfer g.memory))

namespace Housed

variable (hh : h.Housed t b live part tops bs vs)
include hh

theorem sound_record (intact : Bool) {v : HumongousMove} (hv : v ∈ vs)
    (hspan : h.memory.SameSpan g.memory) :
    (v.record h.layout h.compactHeaders intact).Sound g.memory := by
  rw [hh.record_eq intact hv]
  exact hh.sound_recordFor (hh.resettled.rehoused v hv).live (hh.placeOf_humongous_ne hv) hspan

/-- One more humongous object is moved: the moves before it have left what it reads. -/
theorem applied_snoc (hgrid : g.Gridded) (hlayout : g.layout = h.layout)
    (hspan : h.memory.SameSpan g.memory) {intact : Bool} {done rest : List HumongousMove}
    {v : HumongousMove} {g' : Heap} (hsplit : vs = done ++ v :: rest)
    (ha : Applied h g intact done g') :
    ∃ g'', v.apply g' intact = .ok g'' ∧ Applied h g intact (done ++ [v]) g'' := by
  have hv : v ∈ vs := by simp [hsplit]
  have hgrid' : g'.Gridded := by
    refine hgrid.congr (ha.layout.trans hlayout.symm) ha.size fun i _ => ?_
    rw [ha.region i]
    exact extent_foldl_regionAfter h.layout i done (g.region i)
  have hclear := hh.clear_records intact
  rw [hsplit, List.map_append, List.map_cons] at hclear
  obtain ⟨m, hcopy, hmoved⟩ := MoveRecord.copy_transferred ha.memory
    (hh.sound_record intact hv hspan)
    (fun q hq => by
      obtain ⟨w, hw, rfl⟩ := List.mem_map.1 hq
      exact hh.sound_record intact (by rw [hsplit]; exact List.mem_append_left _ hw) hspan)
    fun q hq => (List.pairwise_append.1 hclear).2.2 q hq _ List.mem_cons_self
  obtain ⟨g'', happly, hground, hstarts, hregion⟩ := (hh.resettled.rehoused v hv).apply hgrid'
    hh.surveyed.tabled.toGridded ha.layout (by rw [ha.headers]; exact hcopy)
  refine ⟨g'', happly, hground.layout.trans ha.layout, hground.size.trans ha.size,
    hground.headers.trans ha.headers, fun i => ?_, ?_, ?_⟩
  · rw [hregion, ha.region i, List.foldl_append]
    rfl
  · rw [hstarts, ha.starts, List.foldl_append]
    rfl
  · rw [List.map_append, List.map_singleton, hground.memory]
    exact hmoved

/-- All humongous objects are moved, whatever the regions have been used for. -/
theorem applyHumongousMoves (hgrid : g.Gridded) (hlayout : g.layout = h.layout)
    (hheaders : g.compactHeaders = h.compactHeaders) (hspan : h.memory.SameSpan g.memory)
    (intact : Bool) :
    ∃ g', MarkCompact.applyHumongousMoves g vs intact
        = .ok ((vs.map (·.copySize.toNat)).foldr (· + ·) 0, g') ∧ Applied h g intact vs g' := by
  have hnone : Applied h g intact [] g :=
    ⟨hlayout, rfl, hheaders, fun _ => rfl, rfl, Memory.transferred_nil _⟩
  obtain ⟨g', hrun, ha⟩ := foldlM_induct
    (f := fun (g : Heap) (v : HumongousMove) => v.apply g intact) (Applied h g intact) vs g hnone
    fun _ _ _ _ hsplit ha => hh.applied_snoc hgrid hlayout hspan hsplit ha
  exact ⟨g', bind_eq_ok hrun rfl, ha⟩

end Housed

/-! ### The end -/

/-- Giving back the memory of free regions clears their pages, and nothing else. -/
theorem load_releaseRegion (hg : g.Gridded) (m : Memory) :
    let s := (g.regions.toList.filter Region.isFree).foldl ParallelCycle.releaseRegion (0, m)
    m.SameSpan s.2 ∧ ∀ x, s.2.load x
      = if ∃ r ∈ g.regions.toList.filter Region.isFree, g.layout.InPages r.index x then 0
        else m.load x := by
  refine foldl_induct (f := ParallelCycle.releaseRegion)
    (fun done s => m.SameSpan s.2 ∧ ∀ x, s.2.load x
      = if ∃ r ∈ done, g.layout.InPages r.index x then 0 else m.load x) _ _
    ⟨Memory.SameSpan.refl m, fun _ => by simp⟩ ?_
  rintro done r rest ⟨bytes, m'⟩ heq ⟨hspan, hload⟩
  have hr : r ∈ g.regions.toList.filter Region.isFree := by simp [heq]
  obtain ⟨j, hj, rfl⟩ := Array.mem_iff_getElem.1
    (Array.mem_toList_iff.1 (List.mem_filter.1 hr).1)
  rw [← g.region_eq_getElem hj]
  refine ⟨hspan.trans (Memory.sameSpan_release ..), fun x => ?_⟩
  show (m'.release (g.region j).bottom ((g.region j).stop - (g.region j).bottom)).2.load x = _
  rw [hg.bottom j hj, hg.stop j hj, Layout.load_release]
  simp only [List.mem_append, List.mem_singleton, or_and_right, exists_or, exists_eq_left,
    hg.index j hj]
  by_cases hlast : g.layout.InPages j x
  · rw [if_pos hlast, if_pos (.inr hlast)]
  · rw [if_neg hlast]
    simpa [hlast] using hload x

/-- The regions that are given back are the free ones. -/
theorem givenBack_releaseRegion (hg : g.Gridded) {k : Heap} {m : Memory} (release : Bool)
    (hlayout : k.layout = g.layout) (hsize : k.regions.size = g.regions.size)
    (hkind : ∀ i, (k.region i).kind = (g.region i).kind)
    (hmemory : k.memory = (if release then
      (g.regions.toList.filter Region.isFree).foldl ParallelCycle.releaseRegion (0, m)
      else (0, m)).2) : k.GivenBack release m ∧ m.SameSpan k.memory := by
  obtain ⟨hspan, hload⟩ := load_releaseRegion hg m
  have hfree : ∀ x, (∃ r ∈ g.regions.toList.filter Region.isFree, g.layout.InPages r.index x) ↔
      ∃ i < k.regions.size, (k.region i).kind = .free ∧ k.layout.InPages i x := by
    intro x
    rw [hsize, hlayout]
    constructor
    · rintro ⟨r, hr, hx⟩
      obtain ⟨hr, hk⟩ := List.mem_filter.1 hr
      obtain ⟨j, hj, rfl⟩ := Array.mem_iff_getElem.1 (Array.mem_toList_iff.1 hr)
      rw [← g.region_eq_getElem hj] at hk hx
      rw [hg.index j hj] at hx
      exact ⟨j, hj, by rw [hkind]; simpa [Region.isFree] using hk, hx⟩
    · rintro ⟨j, hj, hk, hx⟩
      rw [hkind] at hk
      refine ⟨g.region j, List.mem_filter.2 ⟨?_, by simp [Region.isFree, hk]⟩, ?_⟩
      · rw [g.region_eq_getElem hj]
        exact Array.mem_toList_iff.2 (Array.getElem_mem hj)
      · rw [hg.index j hj]
        exact hx
  cases release with
  | false =>
    rw [if_neg Bool.false_ne_true] at hmemory
    rw [hmemory]
    refine ⟨⟨fun _ _ => by rw [hmemory], fun hrelease => ?_⟩, Memory.SameSpan.refl m⟩
    cases hrelease
  | true =>
    rw [if_pos rfl] at hmemory
    rw [hmemory]
    refine ⟨⟨fun x hx => ?_, fun _ i hi hk x hx => ?_⟩, hspan⟩
    · rw [hmemory, hload, if_neg]
      rw [hfree]
      rintro ⟨i, hi, hk, hpage⟩
      exact hx rfl i hi hk hpage
    · rw [hmemory, hload, if_pos ((hfree x).2 ⟨i, hi, hk, hx⟩)]

theorem sameSpan_restore (s : SavedMarks) (m : Memory) : m.SameSpan (s.restore m) := by
  unfold SavedMarks.restore
  exact foldl_induct (fun _ m' => m.SameSpan m') _ _ (Memory.SameSpan.refl m)
    fun _ _ _ _ _ hspan => hspan.trans (Memory.sameSpan_store ..)

/-- The regions once a collection has ended. -/
theorem region_map_ended (g : Heap) (i : Nat) :
    ({ g with regions := g.regions.map fun (r : Region) =>
      if r.compacting then r.endCompaction else r } : Heap).region i = (g.region i).ended := by
  unfold region
  dsimp only
  rw [Array.getElem?_map]
  cases g.regions[i]? with
  | none => rfl
  | some r => rfl

end Heap

namespace ParallelCycle

variable {h : Heap} {t : ClassTable} {b : Bitmap} {live : Address → Prop} {part : List Nat}
  {tops : Nat → Address} {bs : List Berth} {vs : List HumongousMove}

/-- What a collection makes of the heap `g` in which the objects of the part have moved. -/
structure Finished (h : Heap) (part : List Nat) (tops : Nat → Address) (vs : List HumongousMove)
    (intact : Bool) (saved : SavedMarks) (release : Bool) (g h' : Heap) : Prop where
  headers : h'.compactHeaders = h.compactHeaders
  refilled : h.Refilled part tops vs h'
  starts : h'.starts = h.finalStarts part tops vs g.starts
  span : g.memory.SameSpan h'.memory
  memory : ∃ m, g.memory.Transferred m
      ((vs.map (HumongousMove.record h.layout h.compactHeaders intact)).map
        (·.transfer g.memory)) ∧ h'.GivenBack release (saved.restore m)

/-- What a collection counts: `copied` are the objects of the part that have moved, `vs` the
humongous ones. -/
structure Counted (o : CompactOutcome) (copied : CopyCount) (vs : List HumongousMove)
    (shadows freed : Nat) : Prop where
  moved : o.movedObjects = copied.objects + vs.length
  words : o.movedWords = copied.words.toNat + (vs.map (·.copySize.toNat)).foldr (· + ·) 0
  grown : o.grownObjects = copied.grown + vs.countP HumongousMove.grown
  shadows : o.shadowRegions = shadows
  freed : o.freedRegions = freed

/-- The end of a collection. -/
theorem finish_spec {c : ParallelCycle} {p : Plan} (hh : h.Housed t b live part tops bs vs)
    (hidle : ∀ i < h.regions.size, (h.region i).Idle) (hpart : p.compacting = part)
    (hlayout : c.state.heap.layout = h.layout)
    (hsize : c.state.heap.regions.size = h.regions.size)
    (hheaders : c.state.heap.compactHeaders = h.compactHeaders)
    (hspan : h.memory.SameSpan c.state.heap.memory)
    (hmember : ∀ i ∈ part,
      c.state.heap.region i = { (h.region i).enlisted (tops i) with ready := true })
    (hother : ∀ i < h.regions.size, i ∉ part → (c.state.heap.region i).ended = h.region i)
    (free : Nat) :
    ∃ o h', c.finish p vs free = .ok (o, { c with
        bitmap := c.bitmap.clear
        state := { heap := h', forwarding := c.state.forwarding.finish, saved := #[] } }) ∧
      Counted o c.copied vs c.shadows (h'.freeRegionCount - free) ∧
      Finished h part tops vs (!c.state.forwarding.overwritesMarks) c.state.saved
        c.settings.releaseFreeRegions c.state.heap h' := by
  have hgh := hh.surveyed.tabled.toGridded
  obtain ⟨hground, hstarts, hregion⟩ := Heap.settled_foldl_settleTop hgh hidle hh.isPart hsize
    hmember hother
  have hgrid := Heap.gridded_of_ended hgh (hground.layout.trans hlayout) (hground.size.trans hsize)
    fun i hi => by
      rw [hregion i hi]
      exact Heap.exists_settledRegion (hidle i hi) part tops
  obtain ⟨g', hrun, hlayout', hsize', hheaders', hregion', hstarts', hmemory'⟩ :=
    hh.applyHumongousMoves hgrid (hground.layout.trans hlayout)
      (hground.headers.trans hheaders) (by rw [hground.memory]; exact hspan)
      (!c.state.forwarding.overwritesMarks)
  have hsize' := hsize'.trans (hground.size.trans hsize)
  have hregion' : ∀ i < h.regions.size, (g'.region i).ended = h.finalRegion part tops vs i := by
    intro i hi
    rw [hregion' i, Heap.ended_foldl_regionAfter, hregion i hi]
    rfl
  rw [hstarts] at hstarts'
  rw [hground.memory] at hmemory'
  have hgrid' : g'.Gridded := Heap.gridded_of_ended hgh hlayout' hsize' fun i hi => by
    rw [hregion' i hi]
    exact Heap.exists_finalRegion (hidle i hi) part tops vs
  generalize hreleased : (if c.settings.releaseFreeRegions then
      (g'.regions.toList.filter Region.isFree).foldl releaseRegion
        (0, c.state.saved.restore g'.memory)
    else (0, c.state.saved.restore g'.memory)) = released
  let h' : Heap := { g' with
    memory := released.2
    regions := g'.regions.map fun (r : Region) => if r.compacting then r.endCompaction else r }
  have hregionh : ∀ i, h'.region i = (g'.region i).ended := Heap.region_map_ended g'
  have hsizeh : h'.regions.size = g'.regions.size := Array.size_map ..
  obtain ⟨hback, hkept⟩ := Heap.givenBack_releaseRegion hgrid' (k := h')
    c.settings.releaseFreeRegions rfl hsizeh
    (fun i => by rw [hregionh, Region.kind_ended]) (congrArg Prod.snd hreleased.symm)
  let o : CompactOutcome :=
    { movedObjects := c.copied.objects + vs.length
      movedWords := c.copied.words.toNat + (vs.map (·.copySize.toNat)).foldr (· + ·) 0
      grownObjects := c.copied.grown + vs.countP HumongousMove.grown
      shadowRegions := c.shadows
      humongousWords := (vs.map (·.copySize.toNat)).foldr (· + ·) 0
      freedRegions := h'.freeRegionCount - free
      releasedBytes := released.1 }
  refine ⟨o, h', ?run, ⟨rfl, rfl, rfl, rfl, rfl⟩, hheaders',
    ⟨hlayout', hsizeh.trans hsize', hidle, fun i hi => by rw [hregionh, hregion' i hi]⟩, hstarts',
    hmemory'.span.trans ((Heap.sameSpan_restore c.state.saved g'.memory).trans hkept), g'.memory,
    hmemory', hback⟩
  case run =>
    unfold finish
    rw [hpart]
    refine bind_eq_ok hrun ?_
    dsimp only
    rw [hreleased]
    rfl

end ParallelCycle

end MarkCompact
