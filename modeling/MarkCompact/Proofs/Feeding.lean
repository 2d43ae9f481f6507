/-
MarkCompact/Proofs/Feeding.lean

What a compaction point makes of the regions and the objects it is given.

A compaction point is given regions for its sequence and objects to place (`Offer`).  Every offer
is taken as long as the regions ascend, the objects ascend and no object comes before its region
(`Offer.Orderly`): it does not matter whether all regions come first, or whether each is followed
by its objects as in the forward phase (`Offer.inTurn`).

`Feed` is a compaction point at work, with a log of what has become of the objects so far
(`Placement`).  Of the objects that were kept in place, and of the regions that were open, the
log tells what had become of the objects before (`Telling`).

Main results: `lodged_run` (orderly offers are taken, and the objects have berths),
`placeAll_eq` (the forward phase takes the regions in turn) and `lodged_placeAll`.
-/
import MarkCompact.Proofs.Placing

namespace MarkCompact

namespace CompactionPoint

open Forwarding

/-! ### Offers -/

/-- What a compaction point is given: a region for its sequence, or an object to place. -/
inductive Offer where
  | region (index : Nat)
  | object (a : Address)
  deriving DecidableEq, Repr

namespace Offer

/-- The region that is given. -/
def region? : Offer → Option Nat
  | .region i => some i
  | .object _ => none

/-- The object that is given. -/
def object? : Offer → Option Address
  | .region _ => none
  | .object a => some a

/-- The regions among some offers. -/
def regions (offers : List Offer) : List Nat := offers.filterMap region?

/-- The objects among some offers. -/
def objects (offers : List Offer) : List Address := offers.filterMap object?

/-- Some regions, each followed by its live objects. -/
def inTurn (h : Heap) (b : Bitmap) (part : List Nat) : List Offer :=
  part.flatMap fun i => .region i :: (h.liveIn b i).map .object

/-- The objects come in ascending order, each after its region. -/
structure Orderly (h : Heap) (live : Address → Prop) (offers : List Offer) : Prop where
  ascending : (objects offers).Pairwise fun a c => a.toNat < c.toNat
  follows : ∀ before a, before ++ [.object a] <+: offers →
    live a ∧ h.layout.indexOf a ∈ regions before

@[simp] theorem regions_append (l r : List Offer) : regions (l ++ r) = regions l ++ regions r :=
  List.filterMap_append

@[simp] theorem objects_append (l r : List Offer) : objects (l ++ r) = objects l ++ objects r :=
  List.filterMap_append

@[simp] theorem regions_nil : regions [] = [] := rfl

@[simp] theorem objects_nil : objects [] = [] := rfl

@[simp] theorem regions_region (i : Nat) (l : List Offer) :
    regions (.region i :: l) = i :: regions l := rfl

@[simp] theorem regions_object (a : Address) (l : List Offer) :
    regions (.object a :: l) = regions l := rfl

@[simp] theorem objects_region (i : Nat) (l : List Offer) :
    objects (.region i :: l) = objects l := rfl

@[simp] theorem objects_object (a : Address) (l : List Offer) :
    objects (.object a :: l) = a :: objects l := rfl

@[simp] theorem regions_map_object (as : List Address) : regions (as.map .object) = [] := by
  simp [regions, List.filterMap_map, region?, Function.comp_def]

@[simp] theorem objects_map_object (as : List Address) : objects (as.map .object) = as := by
  simp [objects, List.filterMap_map, object?, Function.comp_def]

@[simp] theorem regions_map_region (is : List Nat) : regions (is.map .region) = is := by
  simp [regions, List.filterMap_map, region?, Function.comp_def]

@[simp] theorem objects_map_region (is : List Nat) : objects (is.map .region) = [] := by
  simp [objects, List.filterMap_map, object?, Function.comp_def]

variable {h : Heap} {t : ClassTable} {b : Bitmap} {live : Address → Prop} {part : List Nat}

@[simp] theorem inTurn_append (l r : List Nat) :
    inTurn h b (l ++ r) = inTurn h b l ++ inTurn h b r :=
  List.flatMap_append

theorem inTurn_cons (i : Nat) (part : List Nat) :
    inTurn h b (i :: part) = .region i :: (h.liveIn b i).map .object ++ inTurn h b part := by
  simp [inTurn]

@[simp] theorem regions_inTurn (h : Heap) (b : Bitmap) (part : List Nat) :
    regions (inTurn h b part) = part := by
  induction part with
  | nil => rfl
  | cons i part ih => simp [inTurn_cons, ih]

@[simp] theorem objects_inTurn (h : Heap) (b : Bitmap) (part : List Nat) :
    objects (inTurn h b part) = part.flatMap (h.liveIn b) := by
  induction part with
  | nil => rfl
  | cons i part ih => simp [inTurn_cons, ih]

/-- Where regions come in turn, their objects follow them. -/
theorem follows_inTurn (hs : Stocked h t b live) (hin : ∀ i ∈ part, i < h.regions.size)
    {before : List Offer} {a : Address} (hbefore : before ++ [.object a] <+: inTurn h b part) :
    live a ∧ h.layout.indexOf a ∈ regions before := by
  induction part generalizing before with
  | nil => simp [inTurn] at hbefore
  | cons i part ih =>
    rw [inTurn_cons, List.cons_append] at hbefore
    cases before with
    | nil =>
      rw [List.nil_append, List.cons_prefix_cons] at hbefore
      cases hbefore.1
    | cons first before =>
      rw [List.cons_append, List.cons_prefix_cons] at hbefore
      obtain ⟨rfl, hbefore⟩ := hbefore
      rw [regions_region]
      rcases Nat.lt_or_ge before.length (h.liveIn b i).length with hlt | hge
      · -- an object of the first region
        have hmem : Offer.object a ∈ (h.liveIn b i).map .object := by
          have hshort := List.prefix_of_prefix_length_le hbefore (List.prefix_append _ _)
            (by simpa using hlt)
          exact hshort.subset (by simp)
        obtain ⟨a', ha', heq⟩ := List.mem_map.1 hmem
        obtain rfl := Offer.object.inj heq
        obtain ⟨hla, hindex⟩ := (hs.mem_liveIn (hin i (by simp)) a').1 ha'
        exact ⟨hla, by rw [hindex]; exact List.mem_cons_self ..⟩
      · -- one of a later region
        obtain ⟨rest, hrest⟩ := List.prefix_of_prefix_length_le
          (List.prefix_append ((h.liveIn b i).map Offer.object) (inTurn h b part))
          ((List.prefix_append before [.object a]).trans hbefore) (by simpa using hge)
        rw [← hrest, List.append_assoc, List.prefix_append_right_inj] at hbefore
        obtain ⟨hla, hindex⟩ := ih (fun j hj => hin j (by simp [hj])) hbefore
        refine ⟨hla, List.mem_cons_of_mem _ ?_⟩
        rw [← hrest, regions_append]
        exact List.mem_append_right _ hindex

theorem orderly_inTurn (hs : Stocked h t b live) (hp : h.Part part) :
    Orderly h live (inTurn h b part) := by
  refine ⟨?_, fun before a hbefore => follows_inTurn hs hp.inside hbefore⟩
  rw [objects_inTurn]
  exact hs.pairwise_flatMap_liveIn hp.ascending hp.inside

/-- All regions may come before the first object. -/
theorem orderly_regions_first {as : List Address}
    (hasc : as.Pairwise fun a c => a.toNat < c.toNat)
    (hlive : ∀ a ∈ as, live a ∧ h.layout.indexOf a ∈ part) :
    Orderly h live (part.map .region ++ as.map .object) := by
  refine ⟨by simpa using hasc, fun before a hbefore => ?_⟩
  have hmem : Offer.object a ∈ part.map .region ++ as.map .object := hbefore.subset (by simp)
  have ha : a ∈ as := by simpa using hmem
  refine ⟨(hlive a ha).1, ?_⟩
  -- what comes before an object has all regions in it
  rcases Nat.lt_or_ge before.length part.length with hlt | hge
  · have hshort := List.prefix_of_prefix_length_le hbefore (List.prefix_append _ _)
      (by simpa using hlt)
    have := hshort.subset (show Offer.object a ∈ before ++ [.object a] by simp)
    simp at this
  · obtain ⟨rest, rfl⟩ := List.prefix_of_prefix_length_le
      (List.prefix_append (part.map Offer.region) (as.map Offer.object))
      ((List.prefix_append before [.object a]).trans hbefore) (by simpa using hge)
    rw [regions_append, regions_map_region]
    exact List.mem_append_left _ (hlive a ha).2

namespace Orderly

variable {offers before : List Offer}

theorem earlier (ho : Orderly h live offers) (hbefore : before <+: offers) :
    Orderly h live before :=
  ⟨ho.ascending.sublist (hbefore.sublist.filterMap _),
    fun pre a hpre => ho.follows pre a (hpre.trans hbefore)⟩

/-- The objects are live. -/
theorem live_of_mem (ho : Orderly h live offers) {a : Address} (ha : a ∈ objects offers) :
    live a := by
  obtain ⟨o, ho', heq⟩ := List.mem_filterMap.1 ha
  cases o with
  | region i => cases heq
  | object c =>
    obtain rfl := Option.some.inj heq
    obtain ⟨l, r, rfl⟩ := List.append_of_mem ho'
    exact (ho.follows l c ⟨r, by simp⟩).1

end Orderly

end Offer

/-! ### A compaction point at work -/

/-- What has become of an object. -/
structure Placement where
  object : Address
  place : PlacedObject
  /-- The region that was open when the object came. -/
  opened : Nat
  /-- Whether it was kept in place because its region had no target left. -/
  kept : Bool
  deriving DecidableEq, Repr

/-- The berth of an object that has been placed. -/
def Placement.berth (l : Layout) (e : Placement) : Berth :=
  ⟨e.object, e.place.target, e.place.words.toNat, l.indexOf e.place.target⟩

/-- A compaction point at work. -/
structure Feed where
  point : CompactionPoint
  state : Relocation
  /-- What has become of the objects so far. -/
  log : List Placement

namespace Feed

/-- Nothing has been offered. -/
def start (s : Relocation) : Feed := ⟨.empty, s, []⟩

/-- Takes an offer. -/
def take (t : ClassTable) (f : Feed) : Offer → Except Fault Feed
  | .region i => .ok { f with point := f.point.add f.state.heap i }
  | .object a => do
    let size ← f.state.heap.size t a
    let (o, p, s) ← f.point.place f.state t a size
    let kept := f.point.count.keptInPlace < p.count.keptInPlace
    return ⟨p, s, f.log ++ [⟨a, o, f.point.openRegion, kept⟩]⟩

/-- The heap when the compaction point has been closed. -/
def closed (f : Feed) : Heap := (f.point.finish f.state.heap).2

/-- The log is all that is added. -/
theorem map_take_object (t : ClassTable) (f : Feed) (a : Address) :
    (f.take t (.object a)).map (fun f => (f.point, f.state))
      = ParallelCycle.placeObject t (f.point, f.state) a := by
  unfold take ParallelCycle.placeObject
  dsimp only
  cases f.state.heap.size t a with
  | error fault => rfl
  | ok size =>
    show Except.map _ (f.point.place f.state t a size >>= _) = f.point.place f.state t a size >>= _
    cases f.point.place f.state t a size with
    | error fault => rfl
    | ok r => rfl

end Feed

/-- What a log tells: objects move if their places differ, and what had become of the objects
before when a region was open and when an object was kept in place. -/
structure Telling (h : Heap) (part : List Nat) (log : List Placement) : Prop where
  moved : ∀ e ∈ log, e.place.moved = decide (e.place.target ≠ e.object)
  opened : ∀ before e, before ++ [e] <+: log → e.opened ∈ part ∧
    ∀ c ∈ before, (c.berth h.layout).stop ≤ (h.layout.regionStop e.opened).toNat
  kept : ∀ before e, before ++ [e] <+: log → e.kept = true → e.place.target = e.object ∧
    basesPerRegion ≤ (targetsOf h.layout (Berth.moves (before.map (Placement.berth h.layout)))
      (h.layout.indexOf e.object)).length ∧
    h.layout.indexOf e.object ∉ targetsOf h.layout
      (Berth.moves (before.map (Placement.berth h.layout))) (h.layout.indexOf e.object)

variable {h : Heap} {t : ClassTable} {b : Bitmap} {live : Address → Prop} {part : List Nat}
  {n : Announced} {e : Encoding} {starts : StartTable} {k : Nat} {p p' : CompactionPoint}
  {s : Relocation} {tops : Nat → Address} {f : Feed} {offers done : List Offer}

theorem telling_nil (h : Heap) (part : List Nat) : Telling h part [] :=
  ⟨by simp, by simp, by simp⟩

/-- What is answered for the next object is added to the log. -/
theorem Telling.snoc {log : List Placement} {objects : List Address} {a : Address}
    {o : PlacedObject} {r : Berth} (ht : Telling h part log)
    (hp : Placed h t b part n e starts k objects p s tops (log.map (Placement.berth h.layout)))
    (ho : Answers h (Berth.moves (log.map (Placement.berth h.layout))) a p p' o r) :
    Telling h part (log ++ [⟨a, o, p.openRegion,
      decide (p.count.keptInPlace < p'.count.keptInPlace)⟩]) := by
  refine ⟨?_, ?_, ?_⟩
  · intro e he
    rcases List.mem_append.1 he with he | he
    · exact ht.moved e he
    · rw [List.mem_singleton.1 he]
      exact ho.moved
  · intro before e hbefore
    rcases List.prefix_concat_iff.1 hbefore with heq | hbefore
    · obtain ⟨rfl, hlast⟩ := List.append_inj' heq rfl
      obtain rfl := List.singleton_inj.1 hlast
      refine ⟨hp.works.openRegion_mem, fun c hc => ?_⟩
      have hextent := (hp.works.extent _ hp.works.openRegion_mem).2.1
      rw [Works.filled_open] at hextent
      exact (hp.below _ (List.mem_map_of_mem hc)).trans hextent
    · exact ht.opened before e hbefore
  · intro before e hbefore hkept
    rcases List.prefix_concat_iff.1 hbefore with heq | hbefore
    · obtain ⟨rfl, hlast⟩ := List.append_inj' heq rfl
      obtain rfl := List.singleton_inj.1 hlast
      exact ho.kept (of_decide_eq_true hkept)
    · exact ht.kept before e hbefore hkept

/-- Some offers have been taken, `s` being the state at the start. -/
structure Fed (h : Heap) (t : ClassTable) (b : Bitmap) (part : List Nat) (n : Announced)
    (e : Encoding) (s : Relocation) (done : List Offer) (f : Feed) : Prop where
  telling : Telling h part f.log
  placed : done = [] ∧ f = .start s ∨ ∃ tops, Placed h t b part n e s.heap.starts
    (Offer.regions done).length (Offer.objects done) f.point f.state tops
    (f.log.map (Placement.berth h.layout))

namespace Fed

/-- One more region is taken. -/
theorem take_region (hm : Mustered h t b live part n)
    (hen : h.Enlisted part h.layout.bottom s.heap)
    (hrec : s.forwarding.Records n h.memory s.heap.memory []) (hcode : s.forwarding.encoding = e)
    (hsaved : s.saved = #[]) (hf : Fed h t b part n e s done f) {i : Nat}
    (hi : Offer.regions done ++ [i] <+: part) :
    ∃ f', f.take t (.region i) = .ok f' ∧ Fed h t b part n e s (done ++ [.region i]) f' := by
  have hi' : part[(Offer.regions done).length]? = some i := by
    obtain ⟨rest, rfl⟩ := hi
    simp
  refine ⟨_, rfl, hf.telling, .inr ?_⟩
  rw [Offer.regions_append, Offer.objects_append]
  rcases hf.placed with ⟨rfl, rfl⟩ | ⟨tops, hp⟩
  · exact ⟨_, Placed.first hm hen hrec hcode hsaved hi'⟩
  · exact ⟨tops, by simpa using hp.add hi'⟩

/-- One more object is taken. -/
theorem take_object (hm : Mustered h t b live part n) (hf : Fed h t b part n e s done f)
    (hdone : Offer.regions done <+: part) {a : Address}
    (ho : Offer.Orderly h live (done ++ [.object a])) :
    ∃ f', f.take t (.object a) = .ok f' ∧ Fed h t b part n e s (done ++ [.object a]) f' := by
  have hs := hm.stocked
  obtain ⟨hla, hindex⟩ := ho.follows done a (List.prefix_refl _)
  obtain ⟨q, hq, hregion⟩ := List.getElem_of_mem hindex
  have hq' : part[q]? = some (h.layout.indexOf a) := by
    obtain ⟨rest, rfl⟩ := hdone
    rw [List.getElem?_append_left hq, List.getElem?_eq_getElem hq, hregion]
  have ha := (hs.mem_liveIn (hm.isPart.inside _ (List.mem_of_getElem? hq')) a).2 ⟨hla, rfl⟩
  rcases hf.placed with ⟨rfl, rfl⟩ | ⟨tops, hp⟩
  · cases hindex
  · obtain ⟨size, o, p', s', tops', r, hsize, hplace, hans, hp'⟩ := hp.place hm hq' hq ha (by
      have hasc := ho.ascending
      rw [Offer.objects_append, List.pairwise_append] at hasc
      intro c hc
      exact ⟨ho.live_of_mem (by rw [Offer.objects_append]; exact List.mem_append_left _ hc),
        hasc.2.2 c hc a (List.mem_singleton_self a)⟩)
    have hr : r = Placement.berth h.layout ⟨a, o, f.point.openRegion,
        decide (f.point.count.keptInPlace < p'.count.keptInPlace)⟩ := by
      obtain ⟨object, target, words, space⟩ := r
      obtain ⟨rfl, rfl, rfl, rfl, -, -⟩ := hans
      rfl
    refine ⟨_, bind_eq_ok hsize (bind_eq_ok hplace rfl), hf.telling.snoc hp hans, .inr ⟨tops', ?_⟩⟩
    rw [hr] at hp'
    simpa using hp'

/-- Orderly offers are taken. -/
theorem run (hm : Mustered h t b live part n) (hen : h.Enlisted part h.layout.bottom s.heap)
    (hrec : s.forwarding.Records n h.memory s.heap.memory []) (hcode : s.forwarding.encoding = e)
    (hsaved : s.saved = #[]) (hregions : Offer.regions offers <+: part)
    (ho : Offer.Orderly h live offers) :
    ∃ f, offers.foldlM (Feed.take t) (.start s) = .ok f ∧ Fed h t b part n e s offers f := by
  refine foldlM_induct (fun done f => Fed h t b part n e s done f) offers (.start s)
    ⟨telling_nil h part, .inl ⟨rfl, rfl⟩⟩ ?_
  intro done offer rest f heq hf
  have hearlier : done ++ [offer] <+: offers := ⟨rest, by simp [heq]⟩
  have hregions' := (hearlier.filterMap Offer.region?).trans hregions
  change Offer.regions (done ++ [offer]) <+: part at hregions'
  rw [Offer.regions_append] at hregions'
  cases offer with
  | region i => exact hf.take_region hm hen hrec hcode hsaved hregions'
  | object a =>
    exact hf.take_object hm ((List.prefix_append _ _).trans hregions') (ho.earlier hearlier)

/-- The regions are still used for the same. -/
theorem sameUse (hf : Fed h t b part n e s done f) (hen : h.Enlisted part h.layout.bottom s.heap) :
    h.SameUse f.state.heap := by
  rcases hf.placed with ⟨-, rfl⟩ | ⟨tops, hp⟩
  · exact hen.sameUse
  · exact hp.works.enlisted.sameUse

end Fed

/-! ### All offers -/

/-- What a compaction point leaves of the objects it has been given: they have berths, and the
new addresses of those that go elsewhere are recorded; `kept` objects have been kept in place. -/
structure Lodged (h : Heap) (t : ClassTable) (part : List Nat) (as : List Address) (n : Announced)
    (e : Encoding) (starts : StartTable) (s : Relocation) (kept : Nat) (tops : Nat → Address)
    (bs : List Berth) : Prop where
  enlisted : h.Enlisted part tops s.heap
  laid : h.Laid t part tops as bs
  chained : bs.IsChain Berth.Joins
  records : s.forwarding.Records n h.memory s.heap.memory (Berth.moves bs)
  encoding : s.forwarding.encoding = e
  saved : s.saved.toList
    = if s.forwarding.overwritesMarks then h.savedMarks ((Berth.moves bs).map Prod.fst) else []
  starts : s.heap.starts = (bs.map Berth.target).foldl StartTable.record starts
  fits : kept = 0 → bs = (h.layOut t part as).1
  free : h.compactHeaders = false ∨ e ≠ .sliding → kept = 0

/-- Closing the compaction point leaves in the open region how far it has been filled. -/
theorem Fed.lodged (hm : Mustered h t b live part n) (hen : h.Enlisted part h.layout.bottom s.heap)
    (hrec : s.forwarding.Records n h.memory s.heap.memory []) (hcode : s.forwarding.encoding = e)
    (hsaved : s.saved = #[]) (hf : Fed h t b part n e s done f) :
    ∃ tops, Lodged h t part (Offer.objects done) n e s.heap.starts { f.state with heap := f.closed }
      f.point.count.keptInPlace tops (f.log.map (Placement.berth h.layout)) ∧
      f.point.count.forwarded = (Berth.moves (f.log.map (Placement.berth h.layout))).length := by
  rcases hf.placed with ⟨rfl, rfl⟩ | ⟨tops, hp⟩
  · refine ⟨h.layout.bottom, ⟨hen, ⟨rfl, by simp [Feed.start], fun i hi => ?_, .nil,
      fun _ _ => rfl⟩, .nil, hrec, hcode, ?_, rfl, fun _ => rfl, fun _ => rfl⟩, rfl⟩
    · have hlt := hm.isPart.inside i hi
      have ht := hm.stocked.tabled
      rw [ht.count] at hlt
      have := ht.layout.toNat_regionStop hlt
      exact ⟨Nat.le_refl _, by omega, ht.layout.bottom_mod hlt.le⟩
    · show s.saved.toList = _
      rw [hsaved]
      simp [Feed.start, Berth.moves, Heap.savedMarks]
  · have hmem := hp.works.openRegion_mem
    have hclosed : f.closed = f.point.saveTop f.state.heap := if_pos hp.works.active
    refine ⟨f.point.filled tops, ?_, hp.counted⟩
    rw [hclosed]
    exact ⟨hp.works.enlisted.setTop hmem (hm.isPart.inside _ hmem) f.point.top, hp.laid, hp.chained,
      hp.records, hp.encoding, hp.saved, hp.starts, fun hzero => by rw [hp.fits hzero], hp.free⟩

/-- Orderly offers are taken, and the objects have berths. -/
theorem lodged_run (hm : Mustered h t b live part n)
    (hen : h.Enlisted part h.layout.bottom s.heap)
    (hrec : s.forwarding.Records n h.memory s.heap.memory []) (hcode : s.forwarding.encoding = e)
    (hsaved : s.saved = #[]) (hregions : Offer.regions offers = part)
    (ho : Offer.Orderly h live offers) :
    ∃ f tops, offers.foldlM (Feed.take t) (.start s) = .ok f ∧ Telling h part f.log ∧
      Lodged h t part (Offer.objects offers) n e s.heap.starts { f.state with heap := f.closed }
        f.point.count.keptInPlace tops (f.log.map (Placement.berth h.layout)) ∧
      f.point.count.forwarded = (Berth.moves (f.log.map (Placement.berth h.layout))).length := by
  obtain ⟨f, hrun, hf⟩ := Fed.run hm hen hrec hcode hsaved (hregions ▸ List.prefix_refl _) ho
  obtain ⟨tops, hlodged, hcount⟩ := hf.lodged hm hen hrec hcode hsaved
  exact ⟨f, tops, hrun, hf.telling, hlodged, hcount⟩

/-! ### The forward phase -/

/-- The objects of a region are placed as if each were offered. -/
theorem foldlM_placeObject (t : ClassTable) (f : Feed) (as : List Address) :
    as.foldlM (ParallelCycle.placeObject t) (f.point, f.state)
      = ((as.map Offer.object).foldlM (Feed.take t) f).map fun f => (f.point, f.state) := by
  induction as generalizing f with
  | nil => rfl
  | cons a as ih =>
    rw [List.foldlM_cons, List.map_cons, List.foldlM_cons, ← Feed.map_take_object]
    cases f.take t (.object a) with
    | error fault => rfl
    | ok f' => exact ih f'

/-- The forward phase is what comes of its regions in turn. -/
theorem placeAll_eq (hm : Mustered h t b live part n)
    (hen : h.Enlisted part h.layout.bottom s.heap)
    (hrec : s.forwarding.Records n h.memory s.heap.memory []) (hcode : s.forwarding.encoding = e)
    (hsaved : s.saved = #[]) {met : List Nat} (hmet : met <+: part) :
    met.foldlM (ParallelCycle.placeRegion t b) (.empty, s)
      = ((Offer.inTurn h b met).foldlM (Feed.take t) (.start s)).map
        fun f => (f.point, f.state) := by
  induction met using List.reverseRecOn with
  | nil => rfl
  | append_singleton met i ih =>
    have hmet' : met <+: part := (List.prefix_append _ _).trans hmet
    have horderly := (Offer.orderly_inTurn hm.stocked hm.isPart).earlier
      (show Offer.inTurn h b met <+: Offer.inTurn h b part by
        obtain ⟨rest, rfl⟩ := hmet'
        rw [Offer.inTurn_append]
        exact List.prefix_append _ _)
    obtain ⟨f, hrun, hf⟩ := Fed.run hm hen hrec hcode hsaved (by simpa using hmet') horderly
    have hlive : f.state.heap.liveIn b i = h.liveIn b i := (hf.sameUse hen).liveIn b i
    have hturn : Offer.inTurn h b [i] = .region i :: (h.liveIn b i).map .object := by
      simp [Offer.inTurn]
    rw [List.foldlM_append, ih hmet', Offer.inTurn_append, List.foldlM_append, hrun, hturn, ← hlive]
    exact (bind_pure _).trans
      (foldlM_placeObject t { f with point := f.point.add f.state.heap i } _)

/-- The live objects of the part are placed. -/
theorem lodged_placeAll (hm : Mustered h t b live part n)
    (hen : h.Enlisted part h.layout.bottom s.heap)
    (hrec : s.forwarding.Records n h.memory s.heap.memory []) (hcode : s.forwarding.encoding = e)
    (hsaved : s.saved = #[]) :
    ∃ p s' tops bs, part.foldlM (ParallelCycle.placeRegion t b) (.empty, s) = .ok (p, s') ∧
      Lodged h t part (part.flatMap (h.liveIn b)) n e s.heap.starts
        { s' with heap := (p.finish s'.heap).2 } p.count.keptInPlace tops bs ∧
      p.count.forwarded = (Berth.moves bs).length := by
  obtain ⟨f, tops, hrun, -, hlodged, hcount⟩ := lodged_run hm hen hrec hcode hsaved
    (Offer.regions_inTurn h b part) (Offer.orderly_inTurn hm.stocked hm.isPart)
  rw [Offer.objects_inTurn] at hlodged
  refine ⟨f.point, f.state, tops, _, ?_, hlodged, hcount⟩
  rw [placeAll_eq hm hen hrec hcode hsaved (List.prefix_refl part), hrun]
  rfl

end CompactionPoint

end MarkCompact
