/-
MarkCompact/Proofs/AlikePhases.lean

The forward phase on two heaps that are alike.

Planning reads no word, and the forward phase reads the headers of live objects only.  So if two
heaps have the same regions and the same words in their live objects, every step that goes through
on one of them goes through on the other, with the same answer, and leaves heaps that are alike
again.  There is one lemma for each function, from the writing of one mark up to the whole phase.

Main result: `Collected.recorded_alike`.
-/
import MarkCompact.Proofs.Determinacy

namespace MarkCompact

/-- Loops over the same list go through together if their steps do. -/
theorem foldlM_alike {σ τ α ε : Type} {f : σ → α → Except ε σ} {f' : τ → α → Except ε τ}
    (R : σ → τ → Prop) {as : List α}
    (hstep : ∀ a ∈ as, ∀ s s' r, R s s' → f s a = .ok r → ∃ r', f' s' a = .ok r' ∧ R r r')
    {s r : σ} {s' : τ} (hs : R s s') (hrun : as.foldlM f s = .ok r) :
    ∃ r', as.foldlM f' s' = .ok r' ∧ R r r' := by
  induction as generalizing s s' with
  | nil =>
    obtain rfl := Except.ok.inj hrun
    exact ⟨s', rfl, hs⟩
  | cons a as ih =>
    rw [List.foldlM_cons] at hrun
    obtain ⟨s₁, hfirst, hrest⟩ := exists_of_bind_eq_ok hrun
    obtain ⟨s₁', hfirst', hs₁⟩ := hstep a List.mem_cons_self s s' s₁ hs hfirst
    obtain ⟨r', hrest', hr⟩ :=
      ih (fun a ha => hstep a (List.mem_cons_of_mem _ ha)) hs₁ hrest
    refine ⟨r', ?_, hr⟩
    rw [List.foldlM_cons]
    exact bind_eq_ok hfirst' hrest'

variable {here : Address → Prop}

namespace Heap.Alike

variable {h k : Heap}

theorem modifyRegion (ha : h.Alike k here) (i : Nat) (change : Region → Region) :
    (h.modifyRegion i change).Alike (k.modifyRegion i change) here := by
  refine ⟨ha.layout, ha.headers, ?_, ha.load⟩
  unfold Heap.modifyRegion
  rw [ha.regions]

theorem withStarts (ha : h.Alike k here) (s s' : StartTable) :
    ({ h with starts := s } : Heap).Alike { k with starts := s' } here :=
  ⟨ha.layout, ha.headers, ha.regions, ha.load⟩

theorem withMemory (ha : h.Alike k here) {m m' : Memory}
    (hload : ∀ x, here x → m'.load x = m.load x) :
    (h.withMemory m).Alike (k.withMemory m') here :=
  ⟨ha.layout, ha.headers, ha.regions, hload⟩

theorem freeRegion (ha : h.Alike k here) (i : Nat) :
    (h.freeRegion i).Alike (k.freeRegion i) here :=
  (ha.modifyRegion i Region.makeFree).withStarts _ _

theorem foldl_modifyRegion (ha : h.Alike k here) (is : List Nat) (change : Region → Region) :
    (is.foldl (fun h i => h.modifyRegion i change) h).Alike
      (is.foldl (fun h i => h.modifyRegion i change) k) here := by
  induction is generalizing h k with
  | nil => exact ha
  | cons i is ih => exact ih (ha.modifyRegion i change)

theorem foldl_freeRegion (ha : h.Alike k here) (is : List Nat) :
    (is.foldl Heap.freeRegion h).Alike (is.foldl Heap.freeRegion k) here := by
  induction is generalizing h k with
  | nil => exact ha
  | cons i is ih => exact ih (ha.freeRegion i)

end Heap.Alike

/-- Only the regions matter. -/
theorem Heap.SameUse.of_regions {h g g' : Heap} (hu : h.SameUse g) (hlayout : g'.layout = g.layout)
    (hregions : g'.regions = g.regions) (hheaders : g'.compactHeaders = g.compactHeaders) :
    h.SameUse g' := by
  have hregion : ∀ i, g'.region i = g.region i := fun i => by
    unfold Heap.region
    rw [hregions]
  refine ⟨hlayout.trans hu.layout, by rw [hregions]; exact hu.size, hheaders.trans hu.headers,
    fun i => ?_, fun i => ?_⟩
  · rw [hregion]
    exact hu.extent i
  · rw [hregion]
    exact hu.use i

theorem Heap.SameUse.foldl_modifyRegion {h g : Heap} (hu : h.SameUse g) (is : List Nat)
    {change : Region → Region}
    (hextent : ∀ r, (change r).index = r.index ∧ (change r).bottom = r.bottom ∧
      (change r).stop = r.stop)
    (huse : ∀ r, (change r).kind = r.kind ∧ (change r).top = r.top) :
    h.SameUse (is.foldl (fun g i => g.modifyRegion i change) g) := by
  induction is generalizing g with
  | nil => exact hu
  | cons i is ih => exact ih (hu.trans (.modifyRegion g i hextent huse))

/-! ### Planning -/

namespace Plan

theorem decide_alike (b : Bitmap) (fuel index : Nat) {h k : Heap} (ha : h.Alike k here)
    (p : Plan) :
    (decide b fuel index k p).1 = (decide b fuel index h p).1 ∧
      (decide b fuel index h p).2.Alike (decide b fuel index k p).2 here := by
  induction fuel generalizing index h k p with
  | zero => exact ⟨rfl, ha⟩
  | succ fuel ih =>
    have hspan : span k index = span h index := by
      unfold span
      rw [ha.regions]
    unfold decide
    rw [ha.regions, ha.region index]
    split
    · split
      · exact ih _ ha _
      · dsimp only
        rw [hspan]
        split
        · exact ih _ ha _
        · exact ih _ (ha.foldl_freeRegion _) _
      · exact ih _ ha _
      · exact ih _ ha _
    · exact ⟨rfl, ha⟩

/-- The same is planned. -/
theorem build_alike {h k : Heap} (ha : h.Alike k here) (b : Bitmap) :
    (build k b).1 = (build h b).1 ∧ (build h b).2.Alike (build k b).2 here := by
  unfold build summarize
  dsimp only
  rw [ha.regions, ha.layout]
  exact decide_alike b _ _ ha _

end Plan

/-- The serial style computes the same new addresses. -/
theorem SerialCycle.filled_alike {h k : Heap} {here : Address → Prop} (ha : h.Alike k here)
    (t : ClassTable) (b : Bitmap) (blockShift : UInt32) :
    filled k t b blockShift = filled h t b blockShift := by
  obtain ⟨hplan, halike⟩ := Plan.build_alike ha b
  unfold filled new
  rw [ha.headers, ha.layout]
  split
  · rfl
  · unfold plan
    dsimp only [bind, Except.bind]
    -- the same regions are filled; the rest reads neither heap
    generalize Plan.build k b = built' at hplan halike
    generalize Plan.build h b = built at hplan halike
    obtain ⟨p, h₁⟩ := built
    obtain ⟨p', k₁⟩ := built'
    dsimp only at hplan halike ⊢
    subst hplan
    unfold forward Heap.region
    rw [halike.regions]
    generalize List.filter _ _ = part
    dsimp only
    by_cases hempty : (part.map fun r => Space.new r.bottom r.stop).toArray.isEmpty = true
    · rw [if_pos hempty, if_pos hempty]
    · rw [if_neg hempty, if_neg hempty]
      generalize BlockOffsets.build _ _ _ _ = filling
      cases filling <;> rfl

/-! ### Recording -/

/-- Giving an object a new address reads its mark and writes nothing else. -/
theorem Forwarding.forwardTo_alike {f f₁ : Forwarding} {m m' m₁ : Memory} {object target : Address}
    (hload : ∀ x, here x → m'.load x = m.load x) (hobject : here object)
    (hrun : f.forwardTo m object target = .ok (f₁, m₁)) :
    ∃ m₁', f.forwardTo m' object target = .ok (f₁, m₁') ∧
      ∀ x, here x → m₁'.load x = m₁.load x := by
  have hmark : m'.loadMark object = m.loadMark object := by
    unfold Memory.loadMark
    rw [hload object hobject]
  have hstore : ∀ mark : Mark, ∀ x, here x →
      (m'.storeMark object mark).load x = (m.storeMark object mark).load x := by
    intro mark x hx
    unfold Memory.storeMark
    rw [Memory.load_store, Memory.load_store, hload x hx]
  -- an encoding goes by the mark and by what it keeps itself, and writes to the mark at most
  cases f with
  | header =>
    obtain ⟨rfl, rfl⟩ := Prod.mk.inj (Except.ok.inj hrun)
    exact ⟨_, rfl, hstore _⟩
  | sliding s =>
    unfold forwardTo Sliding.forwardTo at hrun ⊢
    dsimp only at hrun ⊢
    rw [hmark]
    cases hmerge : s.merge (m.loadMark object) object target with
    | error e =>
      rw [hmerge] at hrun
      cases hrun
    | ok r =>
      rw [hmerge] at hrun
      obtain ⟨rfl, rfl⟩ := Prod.mk.inj (Except.ok.inj hrun)
      exact ⟨_, rfl, hstore _⟩
  | hashed s =>
    unfold forwardTo Hashed.forwardTo at hrun ⊢
    dsimp only at hrun ⊢
    rw [hmark]
    cases hinsert : s.insert object target with
    | error e =>
      rw [hinsert] at hrun
      cases hrun
    | ok r =>
      rw [hinsert] at hrun
      obtain ⟨existing, s₁⟩ := r
      cases existing with
      | none =>
        obtain ⟨rfl, rfl⟩ := Prod.mk.inj (Except.ok.inj hrun)
        exact ⟨_, rfl, hstore _⟩
      | some existing =>
        obtain ⟨rfl, rfl⟩ := Prod.mk.inj (Except.ok.inj hrun)
        exact ⟨_, rfl, hload⟩
  | dense d =>
    unfold forwardTo at hrun ⊢
    dsimp only at hrun ⊢
    cases hdense : d.forwardTo object target with
    | error e =>
      rw [hdense] at hrun
      cases hrun
    | ok d₁ =>
      rw [hdense] at hrun
      obtain ⟨rfl, rfl⟩ := Prod.mk.inj (Except.ok.inj hrun)
      exact ⟨_, rfl, hload⟩

/-- Two relocations of heaps that are alike have recorded the same. The regions are used as in
`h`. -/
structure Relocation.Alike (h : Heap) (here : Address → Prop) (s s' : Relocation) : Prop where
  heap : s.heap.Alike s'.heap here
  use : h.SameUse s.heap
  forwarding : s'.forwarding = s.forwarding
  saved : s'.saved = s.saved

variable {h : Heap}

namespace CompactionPoint

theorem sameUse_saveTop (p : CompactionPoint) {g : Heap} (hu : h.SameUse g) :
    h.SameUse (p.saveTop g) :=
  hu.trans (.modifyRegion _ _ (fun _ => ⟨rfl, rfl, rfl⟩) fun _ => ⟨rfl, rfl⟩)

theorem makeRoom_alike {p : CompactionPoint} {g g' : Heap} {object : Address}
    {size copySize : WordCount} {r : CompactionPoint × Heap} (ha : g.Alike g' here)
    (hu : h.SameUse g) (hrun : p.makeRoom g object size copySize = .ok r) :
    ∃ g₁', p.makeRoom g' object size copySize = .ok (r.1, g₁') ∧ r.2.Alike g₁' here ∧
      h.SameUse r.2 := by
  fun_induction makeRoom p g object size copySize generalizing g' with
  | case1 p g hfits =>
    obtain rfl := Except.ok.inj hrun
    refine ⟨g', ?_, ha, hu⟩
    unfold fits at hfits
    unfold makeRoom fits
    rw [ha.region, if_pos hfits]
  | case2 p g hfits hnext ih =>
    obtain ⟨g₁', hrun', ha₁, hu₁⟩ := ih (ha.modifyRegion p.openRegion _) (p.sameUse_saveTop hu) hrun
    refine ⟨g₁', ?_, ha₁, hu₁⟩
    unfold fits at hfits
    unfold makeRoom fits
    rw [ha.region, if_neg hfits, if_pos hnext, ← hrun']
    unfold resumeAt saveTop
    rw [(ha.modifyRegion p.openRegion fun r => { r with compactionTop := p.top }).region]
  | case3 => cases hrun

theorem keepInPlace_alike {p : CompactionPoint} {g g' : Heap} {source : Nat} {object : Address}
    {r : CompactionPoint × Heap} (ha : g.Alike g' here) (hu : h.SameUse g)
    (hrun : p.keepInPlace g source object = .ok r) :
    ∃ g₁', p.keepInPlace g' source object = .ok (r.1, g₁') ∧ r.2.Alike g₁' here ∧
      h.SameUse r.2 := by
  unfold keepInPlace at hrun ⊢
  by_cases hopen : p.openRegion = source
  · rw [if_pos hopen] at hrun ⊢
    obtain rfl := Except.ok.inj hrun
    exact ⟨g', rfl, ha, hu⟩
  · rw [if_neg hopen] at hrun ⊢
    split at hrun
    · obtain rfl := Except.ok.inj hrun
      exact ⟨_, rfl, ha.modifyRegion _ _, p.sameUse_saveTop hu⟩
    · cases hrun

theorem choose_alike {p : CompactionPoint} {s s' : Relocation} {source : Nat} {object : Address}
    {r : CompactionPoint × Heap} (hs : s.Alike h here s')
    (hrun : p.choose s source object = .ok r) :
    ∃ g₁', p.choose s' source object = .ok (r.1, g₁') ∧ r.2.Alike g₁' here ∧ h.SameUse r.2 := by
  unfold choose at hrun ⊢
  rw [hs.forwarding, hs.heap.layout]
  by_cases hleft : (p.top ≠ object && !p.mayEnter s.forwarding (s.heap.layout.indexOf p.top)) = true
  · rw [if_pos hleft] at hrun ⊢
    obtain ⟨q, hkeep, hrun⟩ := exists_of_bind_eq_ok hrun
    obtain rfl := Except.ok.inj hrun
    obtain ⟨g₁', hkeep', ha, hu⟩ := keepInPlace_alike hs.heap hs.use hkeep
    exact ⟨g₁', bind_eq_ok hkeep' rfl, ha, hu⟩
  · rw [if_neg hleft] at hrun ⊢
    obtain rfl := Except.ok.inj hrun
    exact ⟨s'.heap, rfl, hs.heap, hs.use⟩

theorem moveToTop_alike {p : CompactionPoint} {s s' : Relocation} {object : Address} {mark : Mark}
    {grown : Bool} {r : CompactionPoint × Relocation} (hs : s.Alike h here s')
    (hobject : here object) (hrun : p.moveToTop s object mark grown = .ok r) :
    ∃ s₁', p.moveToTop s' object mark grown = .ok (r.1, s₁') ∧ r.2.Alike h here s₁' := by
  unfold moveToTop at hrun ⊢
  rw [hs.forwarding, hs.heap.layout, hs.heap.headers, hs.saved]
  obtain ⟨⟨f, m⟩, hforward, hrun⟩ := exists_of_bind_eq_ok hrun
  obtain rfl := Except.ok.inj hrun
  obtain ⟨m', hforward', hload⟩ := Forwarding.forwardTo_alike hs.heap.load hobject hforward
  exact ⟨_, bind_eq_ok hforward' rfl, hs.heap.withMemory hload, hs.use.of_regions rfl rfl rfl, rfl,
    rfl⟩

variable {t : ClassTable} {b : Bitmap} {live : Address → Prop}

theorem place_alike (hv : Surveyed h t b live) {p : CompactionPoint} {s s' : Relocation}
    {object : Address} {size : WordCount} {r : PlacedObject × CompactionPoint × Relocation}
    (hs : s.Alike h (h.LiveWord t live) s') (hobject : live object)
    (hrun : p.place s t object size = .ok r) :
    ∃ s₁', p.place s' t object size = .ok (r.1, r.2.1, s₁') ∧
      r.2.2.Alike h (h.LiveWord t live) s₁' := by
  have hhere : h.LiveWord t live object := by
    have hfirst := Surveyed.liveWord_nth hobject (hv.wordsAt_pos hobject)
    rwa [Address.nth_zero] at hfirst
  unfold place at hrun ⊢
  by_cases hactive : p.stage ≠ .active
  · rw [if_pos hactive] at hrun
    cases hrun
  rw [if_neg hactive] at hrun ⊢
  dsimp only at hrun ⊢
  rw [hv.loadMark_congr hs.heap hobject, hv.copySize_congr hs.heap hobject, hs.heap.layout]
  obtain ⟨copySize, hcopy, hrun⟩ := exists_of_bind_eq_ok hrun
  obtain ⟨⟨p₁, g₁⟩, hroom, hrun⟩ := exists_of_bind_eq_ok hrun
  obtain ⟨g₁', hroom', ha₁, hu₁⟩ := makeRoom_alike hs.heap hs.use hroom
  obtain ⟨⟨p₂, g₂⟩, hchoose, hrun⟩ := exists_of_bind_eq_ok hrun
  have hs₁ : Relocation.Alike h (h.LiveWord t live) { s with heap := g₁ } { s' with heap := g₁' } :=
    ⟨ha₁, hu₁, hs.forwarding, hs.saved⟩
  obtain ⟨g₂', hchoose', ha₂, hu₂⟩ := choose_alike hs₁ hchoose
  have hs₂ : Relocation.Alike h (h.LiveWord t live) { s with heap := g₂ } { s' with heap := g₂' } :=
    ⟨ha₂, hu₂, hs.forwarding, hs.saved⟩
  -- what remains is to record the place that has been chosen
  suffices hlast : ∃ s₁', _ = Except.ok (r.1, r.2.1, s₁') ∧ r.2.2.Alike h (h.LiveWord t live) s₁' by
    obtain ⟨s₁', hlast, hs₁⟩ := hlast
    exact ⟨s₁', bind_eq_ok hcopy (bind_eq_ok hroom' (bind_eq_ok hchoose' hlast)), hs₁⟩
  dsimp only at hrun ⊢
  by_cases hmoved : p₂.top ≠ object
  · rw [if_pos hmoved] at hrun ⊢
    obtain ⟨⟨p₃, s₃⟩, hmove, hrun⟩ := exists_of_bind_eq_ok hrun
    obtain ⟨s₃', hmove', hs₃⟩ := moveToTop_alike hs₂ hhere hmove
    obtain rfl := Except.ok.inj hrun
    exact ⟨_, bind_eq_ok hmove' rfl, hs₃.heap.withStarts _ _, hs₃.use.of_regions rfl rfl rfl,
      hs₃.forwarding, hs₃.saved⟩
  · rw [if_neg hmoved] at hrun ⊢
    obtain rfl := Except.ok.inj hrun
    exact ⟨_, rfl, ha₂.withStarts _ _, hu₂.of_regions rfl rfl rfl, hs.forwarding, hs.saved⟩

theorem add_alike {p : CompactionPoint} {g g' : Heap} (ha : g.Alike g' here) (i : Nat) :
    p.add g' i = p.add g i := by
  unfold add resumeAt
  dsimp only
  rw [ha.region]

theorem addRun_alike {p : CompactionPoint} {g g' : Heap} (ha : g.Alike g' here)
    (first regions : Nat) : p.addRun g' first regions = p.addRun g first regions := by
  unfold addRun
  exact congrFun (congrFun (congrArg List.foldl (funext fun p => funext (add_alike ha))) p) _

end CompactionPoint

/-! ### The forward phase -/

variable {t : ClassTable} {b : Bitmap} {live : Address → Prop}

namespace ParallelCycle

theorem placeObject_alike (hv : Surveyed h t b live) {p : CompactionPoint} {s s' : Relocation}
    {object : Address} {r : CompactionPoint × Relocation}
    (hs : s.Alike h (h.LiveWord t live) s') (hobject : live object)
    (hrun : placeObject t (p, s) object = .ok r) :
    ∃ s₁', placeObject t (p, s') object = .ok (r.1, s₁') ∧
      r.2.Alike h (h.LiveWord t live) s₁' := by
  unfold placeObject at hrun ⊢
  dsimp only at hrun ⊢
  rw [hv.size_congr hs.heap hobject]
  obtain ⟨size, hsize, hrun⟩ := exists_of_bind_eq_ok hrun
  obtain ⟨⟨o, p₁, s₁⟩, hplace, hrun⟩ := exists_of_bind_eq_ok hrun
  obtain ⟨s₁', hplace', hs₁⟩ := CompactionPoint.place_alike hv hs hobject hplace
  obtain rfl := Except.ok.inj hrun
  exact ⟨s₁', bind_eq_ok hsize (bind_eq_ok hplace' rfl), hs₁⟩

/-- Two compaction points with relocations of heaps that are alike. -/
def AlikePoints (h : Heap) (here : Address → Prop) (ps ps' : CompactionPoint × Relocation) : Prop :=
  ps'.1 = ps.1 ∧ ps.2.Alike h here ps'.2

theorem placeRegion_alike (hv : Surveyed h t b live) {ps ps' r : CompactionPoint × Relocation}
    {index : Nat} (hindex : index < h.regions.size)
    (hs : AlikePoints h (h.LiveWord t live) ps ps') (hrun : placeRegion t b ps index = .ok r) :
    ∃ r', placeRegion t b ps' index = .ok r' ∧ AlikePoints h (h.LiveWord t live) r r' := by
  obtain ⟨p, s⟩ := ps
  obtain ⟨p', s'⟩ := ps'
  obtain ⟨hpoint, hs⟩ := hs
  dsimp only at hpoint hs
  unfold placeRegion at hrun ⊢
  dsimp only at hrun ⊢
  have hlist : b.markedIn (s.heap.region index).bottom (s.heap.region index).top
      = h.liveIn b index := hs.use.liveIn b index
  rw [hlist] at hrun
  rw [hs.heap.region index, hlist, hpoint, CompactionPoint.add_alike hs.heap]
  have hstart : AlikePoints h (h.LiveWord t live) (p.add s.heap index, s)
      (p.add s.heap index, s') := ⟨rfl, hs⟩
  refine foldlM_alike (AlikePoints h (h.LiveWord t live)) ?_ hstart hrun
  rintro a ha ⟨q, s₁⟩ ⟨q', s₁'⟩ r₁ ⟨rfl, hs₁⟩ hstep
  obtain ⟨s₂', hstep', hs₂⟩ :=
    placeObject_alike hv hs₁ ((hv.mem_liveIn hindex a).1 ha).1 hstep
  exact ⟨_, hstep', rfl, hs₂⟩

end ParallelCycle

namespace Relocation

/-- Closing the open region. -/
theorem Alike.finish {s s' : Relocation} (hs : s.Alike h here s') (p : CompactionPoint) :
    Relocation.Alike h here { s with heap := (p.finish s.heap).2 }
      { s' with heap := (p.finish s'.heap).2 } := by
  unfold CompactionPoint.finish
  dsimp only
  split
  · exact ⟨hs.heap.modifyRegion _ _, p.sameUse_saveTop hs.use, hs.forwarding, hs.saved⟩
  · exact hs

theorem placeHumongous_alike (hv : Surveyed h t b live) {s s' : Relocation}
    {room : CompactionPoint} {first : Nat}
    {r : Option HumongousMove × CompactionPoint × Relocation}
    (hs : s.Alike h (h.LiveWord t live) s') (hfirst : live (h.region first).bottom)
    (hrun : s.placeHumongous t room first = .ok r) :
    ∃ s₁', s'.placeHumongous t room first = .ok (r.1, r.2.1, s₁') ∧
      r.2.2.Alike h (h.LiveWord t live) s₁' := by
  have hbottom : (s.heap.region first).bottom = (h.region first).bottom := (hs.use.extent first).2.1
  have hhere : h.LiveWord t live (h.region first).bottom := by
    have hword := Surveyed.liveWord_nth hfirst (hv.wordsAt_pos hfirst)
    rwa [Address.nth_zero] at hword
  unfold placeHumongous at hrun ⊢
  dsimp only at hrun ⊢
  rw [hbottom] at hrun
  rw [hs.heap.region first, hbottom, hv.size_congr hs.heap hfirst,
    hv.loadMark_congr hs.heap hfirst, hv.copySize_congr hs.heap hfirst, hs.heap.layout,
    hs.forwarding, hs.saved, hs.heap.headers]
  obtain ⟨size, hsize, hrun⟩ := exists_of_bind_eq_ok hrun
  obtain ⟨copySize, hcopy, hrun⟩ := exists_of_bind_eq_ok hrun
  -- the sizes are the same; where the object goes depends on them and on the room
  suffices hlast : ∃ s₁', _ = Except.ok (r.1, r.2.1, s₁') ∧ r.2.2.Alike h (h.LiveWord t live) s₁' by
    obtain ⟨s₁', hlast, hs₁⟩ := hlast
    exact ⟨s₁', bind_eq_ok hsize (bind_eq_ok hcopy hlast), hs₁⟩
  by_cases hregions : (s.heap.layout.regionsFor copySize).toNat
      ≠ (s.heap.layout.regionsFor size).toNat
  · rw [if_pos hregions] at hrun ⊢
    obtain rfl := Except.ok.inj hrun
    exact ⟨s', rfl, hs⟩
  rw [if_neg hregions] at hrun ⊢
  cases hfind : room.findRun first (s.heap.layout.regionsFor size).toNat with
  | none =>
    rw [hfind] at hrun
    obtain rfl := Except.ok.inj hrun
    exact ⟨s', rfl, hs⟩
  | some start =>
    rw [hfind] at hrun
    dsimp only at hrun ⊢
    obtain ⟨f, hbegin, hrun⟩ := exists_of_bind_eq_ok hrun
    obtain ⟨⟨f₁, m⟩, hforward, hrun⟩ := exists_of_bind_eq_ok hrun
    obtain ⟨m', hforward', hload⟩ := Forwarding.forwardTo_alike hs.heap.load hhere hforward
    obtain rfl := Except.ok.inj hrun
    have hwritten := hs.heap.withMemory hload
    have hroom := CompactionPoint.addRun_alike (p := room) hwritten first
      (s.heap.layout.regionsFor size).toNat
    rw [hs.heap.region]
    refine ⟨_, bind_eq_ok hbegin (bind_eq_ok hforward' (congrArg (fun q : CompactionPoint =>
      Except.ok (_, q.removeRange start _, _)) hroom)), hwritten.foldl_modifyRegion _ _, ?_, rfl, rfl⟩
    have huse : h.SameUse (s.heap.withMemory m) := hs.use.of_regions rfl rfl rfl
    exact huse.foldl_modifyRegion _ (fun _ => ⟨rfl, rfl, rfl⟩) fun _ => ⟨rfl, rfl⟩

theorem placeAllFrom_alike (hv : Surveyed h t b live) (fuel : Nat) {s s' : Relocation}
    {index : Nat} {pending : List Nat} {room : CompactionPoint} {r : List HumongousMove × Relocation}
    (hs : s.Alike h (h.LiveWord t live) s') (hpending : ∀ i ∈ pending, live (h.region i).bottom)
    (hrun : placeAllFrom t fuel index pending room s = .ok r) :
    ∃ s₁', placeAllFrom t fuel index pending room s' = .ok (r.1, s₁') ∧
      r.2.Alike h (h.LiveWord t live) s₁' := by
  -- on the number of regions left to look at; the heaps stay alike with every object
  induction fuel generalizing s s' index pending room r with
  | zero =>
    obtain rfl := Except.ok.inj hrun
    exact ⟨s', rfl, hs⟩
  | succ fuel ih =>
    unfold placeAllFrom at hrun ⊢
    rw [hs.heap.regions]
    by_cases hlt : index < s.heap.regions.size
    swap
    · rw [if_neg hlt] at hrun ⊢
      obtain rfl := Except.ok.inj hrun
      exact ⟨s', rfl, hs⟩
    rw [if_pos hlt] at hrun ⊢
    by_cases hhead : pending.head? = some index
    · rw [if_pos hhead] at hrun ⊢
      have hlive := hpending index (List.mem_of_mem_head? hhead)
      have hsame : s'.heap.humongousSize t index = s.heap.humongousSize t index := by
        unfold Heap.humongousSize
        rw [hs.heap.region, (hs.use.extent index).2.1, hv.size_congr hs.heap hlive]
      rw [hsame]
      obtain ⟨size, hsize, hrun⟩ := exists_of_bind_eq_ok hrun
      obtain ⟨⟨move, room₁, s₁⟩, hplace, hrun⟩ := exists_of_bind_eq_ok hrun
      obtain ⟨s₁', hplace', hs₁⟩ := placeHumongous_alike hv hs hlive hplace
      obtain ⟨⟨moves, s₂⟩, hrest, hrun⟩ := exists_of_bind_eq_ok hrun
      obtain ⟨s₂', hrest', hs₂⟩ :=
        ih hs₁ (fun i hi => hpending i (List.mem_of_mem_tail hi)) hrest
      obtain rfl := Except.ok.inj hrun
      dsimp only at hs₁
      refine ⟨s₂', bind_eq_ok hsize (bind_eq_ok hplace' ?_), hs₂⟩
      dsimp only
      rw [hs₁.heap.layout]
      exact bind_eq_ok hrest' rfl
    · rw [if_neg hhead] at hrun ⊢
      rw [hs.heap.region, CompactionPoint.add_alike hs.heap]
      exact ih hs hpending hrun

/-- The humongous objects get the same places. -/
theorem placeAllHumongous_alike (hv : Surveyed h t b live) {s s' : Relocation}
    {pending : List Nat} {r : List HumongousMove × Relocation}
    (hs : s.Alike h (h.LiveWord t live) s') (hpending : ∀ i ∈ pending, live (h.region i).bottom)
    (hrun : s.placeAllHumongous t pending = .ok r) :
    ∃ s₁', s'.placeAllHumongous t pending = .ok (r.1, s₁') ∧
      r.2.Alike h (h.LiveWord t live) s₁' := by
  unfold placeAllHumongous at hrun ⊢
  rw [hs.heap.regions]
  exact placeAllFrom_alike hv _ hs hpending hrun

end Relocation

namespace ParallelCycle

theorem enlist_alike (p : Plan) (index : Nat) (s s' r : Relocation) (hs : s.Alike h here s')
    (hrun : enlist p s index = .ok r) : ∃ r', enlist p s' index = .ok r' ∧ r.Alike h here r' := by
  unfold enlist at hrun ⊢
  dsimp only at hrun ⊢
  rw [hs.forwarding]
  obtain ⟨f, hbegin, hrun⟩ := exists_of_bind_eq_ok hrun
  obtain rfl := Except.ok.inj hrun
  have huse : h.SameUse (s.heap.modifyRegion index Region.beginCompaction) :=
    hs.use.trans (.modifyRegion _ _ (fun _ => ⟨rfl, rfl, rfl⟩) fun _ => ⟨rfl, rfl⟩)
  exact ⟨_, bind_eq_ok hbegin rfl, (hs.heap.modifyRegion _ _).withStarts _ _,
    huse.of_regions rfl rfl rfl, rfl, hs.saved⟩

/-- What has been planned for two heaps that are alike is the same. -/
theorem plan_alike {c c' : ParallelCycle} {r : Plan × ParallelCycle}
    (ha : c.state.heap.Alike c'.state.heap here)
    (hforwarding : c'.state.forwarding = c.state.forwarding)
    (hsaved : c'.state.saved = c.state.saved) (hbitmap : c'.bitmap = c.bitmap)
    (hrun : c.plan = .ok r) :
    ∃ s s', r = ((Plan.build c.state.heap c.bitmap).1, { c with state := s }) ∧
      c'.plan = .ok (r.1, { c' with state := s' }) ∧
      s.Alike (Plan.build c.state.heap c.bitmap).2 here s' := by
  obtain ⟨hplan, hbuilt⟩ := Plan.build_alike ha c.bitmap
  unfold plan at hrun ⊢
  dsimp only at hrun ⊢
  rw [hbitmap, hforwarding, hplan]
  obtain ⟨s, hlisted, hrun⟩ := exists_of_bind_eq_ok hrun
  obtain rfl := Except.ok.inj hrun
  have hstart : Relocation.Alike (Plan.build c.state.heap c.bitmap).2 here
      { c.state with
        heap := (Plan.build c.state.heap c.bitmap).2
        forwarding := c.state.forwarding.start.reserve (Plan.build c.state.heap c.bitmap).1.liveObjects }
      { c'.state with
        heap := (Plan.build c'.state.heap c.bitmap).2
        forwarding := c.state.forwarding.start.reserve (Plan.build c.state.heap c.bitmap).1.liveObjects } :=
    ⟨hbuilt, .refl _, rfl, hsaved⟩
  obtain ⟨s', hlisted', hs⟩ := foldlM_alike
    (Relocation.Alike (Plan.build c.state.heap c.bitmap).2 here)
    (fun i _ => enlist_alike _ i) hstart hlisted
  exact ⟨s, s', rfl, bind_eq_ok hlisted' rfl, hs⟩

/-- Objects get the same places. -/
theorem forward_alike {c c' : ParallelCycle} {p : Plan} {r : ForwardOutcome × ParallelCycle}
    (hv : Surveyed h c.classes c.bitmap live)
    (hs : c.state.Alike h (h.LiveWord c.classes live) c'.state) (hclasses : c'.classes = c.classes)
    (hbitmap : c'.bitmap = c.bitmap) (hpart : h.Part p.compacting)
    (hhumongous : ∀ i ∈ p.humongous, live (h.region i).bottom) (hrun : c.forward p = .ok r) :
    ∃ s', c'.forward p = .ok (r.1, { c' with state := s' }) ∧
      r.2.state.Alike h (h.LiveWord c.classes live) s' := by
  unfold forward at hrun ⊢
  dsimp only at hrun ⊢
  have hsmall := hpart.length_lt hv.tabled.toGridded
  -- the claimer hands out the whole part, in order
  rw [Claimer.all_new hsmall] at hrun ⊢
  rw [hclasses, hbitmap]
  obtain ⟨⟨point, s⟩, hplaced, hrun⟩ := exists_of_bind_eq_ok hrun
  obtain ⟨⟨moves, s₁⟩, hrehoused, hrun⟩ := exists_of_bind_eq_ok hrun
  obtain rfl := Except.ok.inj hrun
  obtain ⟨⟨point', s'⟩, hplaced', hpoint, hs'⟩ := foldlM_alike
    (AlikePoints h (h.LiveWord c.classes live))
    (fun i hi ps ps' r hps hstep => placeRegion_alike hv (hpart.inside i hi) hps hstep)
    (show AlikePoints h (h.LiveWord c.classes live) (.empty, c.state) (.empty, c'.state) from
      ⟨rfl, hs⟩) hplaced
  dsimp only at hpoint hs'
  subst hpoint
  obtain ⟨s₁', hrehoused', hs₁'⟩ :=
    Relocation.placeAllHumongous_alike hv (hs'.finish point') hhumongous hrehoused
  exact ⟨s₁', bind_eq_ok hplaced' (bind_eq_ok hrehoused' rfl), hs₁'⟩

end ParallelCycle

namespace Collected

/-- In heaps that are alike in the words of live objects the same is recorded. -/
theorem recorded_alike (times times' : Durations) {s s' : Collected} {p : Plan} {h₁ : Heap}
    {o : ForwardOutcome} {s₂ : Relocation} (hbuild : Plan.build s.heap b = (p, h₁))
    (hplanned : Planned s.heap b p h₁) (hv : Surveyed h₁ t b live)
    (ha : s.heap.Alike s'.heap (h₁.LiveWord t live))
    (hforwarding : s'.collector.forwarding = s.collector.forwarding)
    (hsaved : s'.collector.saved = s.collector.saved) (hrun : s.recorded times t b = .ok (o, s₂)) :
    ∃ s₂', s'.recorded times' t b = .ok (o, s₂') ∧ s₂.Alike h₁ (h₁.LiveWord t live) s₂' := by
  unfold recorded at hrun ⊢
  obtain ⟨⟨p₀, c⟩, hplan, hrun⟩ := exists_of_bind_eq_ok hrun
  obtain ⟨⟨o₁, c₁⟩, hforward, hrun⟩ := exists_of_bind_eq_ok hrun
  obtain ⟨rfl, rfl⟩ := Prod.mk.inj (Except.ok.inj hrun)
  have hbegun : (s.resume (s.begun t b) .plan).state.heap.Alike
      (s'.resume (s'.begun t b) .plan).state.heap (h₁.LiveWord t live) := ha
  obtain ⟨q, q', heq, hplan', hq⟩ :=
    ParallelCycle.plan_alike hbegun hforwarding hsaved rfl hplan
  rw [show Plan.build (s.resume (s.begun t b) .plan).state.heap (s.resume (s.begun t b) .plan).bitmap
    = (p, h₁) from hbuild] at heq hq
  obtain ⟨rfl, rfl⟩ := Prod.mk.inj heq
  -- the two cycles when planning is over
  let d : ParallelCycle := { s.resume (s.begun t b) .plan with state := q }
  let d' : ParallelCycle := { s'.resume (s'.begun t b) .plan with state := q' }
  have hstart : Relocation.Alike h₁ (h₁.LiveWord t live)
      ((s.planned times p₀ d).resume d .forward).state
      ((s'.planned times' p₀ d').resume d' .forward).state :=
    ⟨hq.heap, hq.use, congrArg (fun f => f.growIfRequested.2) hq.forwarding, hq.saved⟩
  have hlive : ∀ i ∈ p₀.humongous, live (h₁.region i).bottom := by
    intro i hi
    rw [hplanned.humongous_eq] at hi
    unfold Heap.liveStartsFrom at hi
    rw [List.mem_filter, List.mem_range'_1] at hi
    have hlt : i < h₁.regions.size := by omega
    rw [hv.tabled.bottom i hlt]
    exact (hv.humongous hlt hi.2).1
  obtain ⟨q₁, hforward', hq₁⟩ := ParallelCycle.forward_alike
    (c := (s.planned times p₀ d).resume d .forward)
    (show Surveyed h₁ t b live from hv) hstart rfl rfl hplanned.part hlive hforward
  exact ⟨_, bind_eq_ok hplan' (bind_eq_ok hforward' rfl), hq₁.heap, hq₁.use,
    congrArg (fun f => f.growIfRequested.2) hq₁.forwarding, hq₁.saved⟩

end Collected

end MarkCompact
