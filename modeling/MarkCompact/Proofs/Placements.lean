/-
MarkCompact/Proofs/Placements.lean

Where a compaction point puts the objects it is given.

The objects of a part of the heap are given extents, one behind the other, that do not overlap.
Each of them lies in one region of the part, no farther right than the object, and it has the
words of the object, or those of its copy if the object moves (`Placements`).  An object is
forwarded exactly if it moves, and in the end every region has been filled as far as the last
extent in it (`endIn`).

This holds for every part of the regions that planning picks, so for whatever regions a worker
of the forward phase comes by.

Main results: `Lodged.placements` (from the berths of the objects) and `plan_placements` (from
a well-formed heap on).
-/
import MarkCompact.Proofs.ParallelCollection

namespace MarkCompact

namespace CompactionPoint

open Forwarding

/-! ### Extents -/

/-- Where an object ends at its place. -/
def Placement.stop (e : Placement) : Nat := e.place.target.toNat + 8 * e.place.words.toNat

/-- Where the last of the objects that have been placed in a region ends, the bottom of the
region if there is none. -/
def endIn (l : Layout) (log : List Placement) (i : Nat) : Nat :=
  match (log.filter fun e => l.indexOf e.place.target = i).getLast? with
  | some e => e.stop
  | none => (l.bottom i).toNat

/-- The extents of the objects of a log, in regions of the part. -/
structure Placements (h : Heap) (t : ClassTable) (part : List Nat) (log : List Placement) :
    Prop where
  /-- An extent lies in one region of the part, that of its object or one before it. -/
  inside : ∀ e ∈ log, ∃ i ∈ part, i ≤ h.layout.indexOf e.object ∧
    (h.layout.bottom i).toNat ≤ e.place.target.toNat ∧
      e.stop ≤ (h.layout.regionStop i).toNat
  left : ∀ e ∈ log, e.place.target.toNat ≤ e.object.toNat
  ascending : log.Pairwise fun d e => d.place.target.toNat < e.place.target.toNat
  apart : log.Pairwise fun d e => d.stop ≤ e.place.target.toNat
  words : ∀ e ∈ log, e.place.words.toNat
    = if e.place.target = e.object then h.wordsAt t e.object else h.movedWords t e.object
  moved : ∀ e ∈ log, e.place.moved = decide (e.place.target ≠ e.object)

variable {h : Heap} {t : ClassTable} {b : Bitmap} {live : Address → Prop} {part : List Nat}
  {n : Announced} {e : Encoding} {starts : StartTable} {s : Relocation} {kept : Nat}
  {tops : Nat → Address} {as : List Address} {log : List Placement}

theorem endIn_snoc (l : Layout) (log : List Placement) (e : Placement) (i : Nat) :
    endIn l (log ++ [e]) i = if l.indexOf e.place.target = i then e.stop else endIn l log i := by
  unfold endIn
  rw [List.filter_append]
  by_cases hi : l.indexOf e.place.target = i
  · rw [List.filter_cons_of_pos (by simpa using hi), if_pos hi, List.filter_nil,
      List.getLast?_concat]
  · rw [List.filter_cons_of_neg (by simpa using hi), if_neg hi, List.filter_nil, List.append_nil]

/-- That is how far the berths fill the region. -/
theorem topOf_map_berth (h : Heap) (log : List Placement) (i : Nat) :
    h.topOf (log.map (Placement.berth h.layout)) i = endIn h.layout log i := by
  induction log using List.reverseRecOn with
  | nil => rfl
  | append_singleton log e ih =>
    rw [List.map_append, List.map_singleton, Heap.topOf_snoc, endIn_snoc, ih]
    rfl

theorem map_object_berth (l : Layout) (log : List Placement) :
    (log.map (Placement.berth l)).map Berth.object = log.map Placement.object := by
  rw [List.map_map]
  rfl

namespace Lodged

theorem object_mem
    (hl : Lodged h t part as n e starts s kept tops (log.map (Placement.berth h.layout)))
    {d : Placement} (hd : d ∈ log) : d.object ∈ as := by
  rw [← hl.laid.objects, map_object_berth]
  exact List.mem_map_of_mem hd

/-- Berths are extents in the part. -/
theorem placements (hs : Stocked h t b live) (hp : h.Part part) (hlive : ∀ a ∈ as, live a)
    (ht : Telling h part log)
    (hl : Lodged h t part as n e starts s kept tops (log.map (Placement.berth h.layout))) :
    Placements h t part log := by
  have hmem : ∀ e ∈ log, live e.object := fun e he => hlive _ (hl.object_mem he)
  have hberth : ∀ e ∈ log, h.Berthed t part tops (e.berth h.layout) := fun e he =>
    hl.laid.berthed _ (List.mem_map_of_mem he)
  have hpos : ∀ e ∈ log, 0 < e.place.words.toNat := fun e he => by
    have hwords : e.place.words.toNat = h.wordsFrom t e.object e.place.target := (hberth e he).words
    have := (h.wordsFrom_le t e.object e.place.target).1
    have := hs.wordsAt_pos (hmem e he)
    omega
  have hapart : log.Pairwise fun d e => d.stop ≤ e.place.target.toNat :=
    List.pairwise_map.1 hl.laid.targets
  refine ⟨fun e he => ?_, fun e he => (hberth e he).left, ?_, hapart,
    fun e he => (hberth e he).words, ht.moved⟩
  · obtain ⟨hspace, hbottom, hstop, -, hleft, -⟩ := hberth e he
    refine ⟨_, hspace, ?_, hbottom, hstop.trans (hl.laid.extent _ hspace).2.1⟩
    -- a region after that of the object would begin behind it
    by_contra hgt
    have hin := hp.inside _ hspace
    obtain ⟨hlt, h1, h2⟩ := hs.region (hmem e he)
    have h3 := (hs.tabled.top _ hlt).2.1
    rw [hs.tabled.stop _ hlt] at h3
    rw [hs.tabled.count] at hin hlt
    have h4 := hs.tabled.layout.toNat_regionStop hlt
    have h5 := hs.tabled.layout.regionStop_le_bottom (Nat.not_le.1 hgt) hin.le
    change (h.layout.bottom _).toNat ≤ e.place.target.toNat at hbottom
    change e.place.target.toNat ≤ e.object.toNat at hleft
    omega
  · refine hapart.imp_of_mem fun {d e} hd _ hle => ?_
    have := hpos d hd
    unfold Placement.stop at hle
    omega

/-- An object is forwarded, to its place, exactly if it moves. -/
theorem forwardee (hs : Stocked h t b live) (hlayout : n.layout = h.layout)
    (hlive : ∀ a ∈ as, live a) (hasc : as.Pairwise fun a c => a.toNat < c.toNat)
    (hl : Lodged h t part as n e starts s kept tops (log.map (Placement.berth h.layout)))
    {d : Placement} (hd : d ∈ log) :
    s.forwarding.forwardee s.heap.memory d.object
      = .ok (if d.place.target = d.object then none else some d.place.target) := by
  have hnodup := hl.laid.nodup hasc
  have hplace : Berth.placeOf (log.map (Placement.berth h.layout)) d.object = d.place.target :=
    Berth.placeOf_of_mem hnodup (List.mem_map_of_mem hd)
  have hla := hlive _ (hl.object_mem hd)
  obtain ⟨c, words, ho⟩ := hs.populated.object _ hla
  rw [← hplace]
  refine Berth.forwardee_placeOf hl.records ?_ hnodup ?_ ho.mark.notForwarded rfl
  · rw [hlayout]
    exact hs.tabled.layout
  · rw [hlayout]
    exact hs.isWord hla

/-- The regions of the part have been filled as far as their last extents. -/
theorem compactionTop
    (hl : Lodged h t part as n e starts s kept tops (log.map (Placement.berth h.layout))) {i : Nat}
    (hi : i ∈ part) : (s.heap.region i).compactionTop.toNat = endIn h.layout log i := by
  rw [hl.enlisted.member i hi, ← topOf_map_berth]
  exact hl.laid.tops i hi

end Lodged

/-! ### After planning -/

/-- Extents are not empty. -/
theorem Placements.lt_stop (hp : Placements h t part log) (hs : Stocked h t b live)
    {d : Placement} (hd : d ∈ log) (hlive : live d.object) : d.place.target.toNat < d.stop := by
  have hwords : d.place.words.toNat = h.wordsFrom t d.object d.place.target := hp.words d hd
  have := (h.wordsFrom_le t d.object d.place.target).1
  have := hs.wordsAt_pos hlive
  unfold Placement.stop
  omega

/-- Regions without extents have been filled as far as their bottoms. -/
theorem endIn_of_none {l : Layout} {i : Nat} (hnone : ∀ e ∈ log, l.indexOf e.place.target ≠ i) :
    endIn l log i = (l.bottom i).toNat := by
  unfold endIn
  rw [List.filter_eq_nil_iff.2 fun e he => by simpa using hnone e he]
  rfl

/-- Only the layout and what is read of objects matter. -/
theorem Placements.congr {g : Heap} (hp : Placements g t part log) (hlayout : g.layout = h.layout)
    (hheaders : g.compactHeaders = h.compactHeaders) (hmemory : g.memory = h.memory) :
    Placements h t part log := by
  have hwords : ∀ a, g.wordsAt t a = h.wordsAt t a := fun a => Heap.wordsAt_congr hmemory
  have hmoved := Heap.movedWords_of_memory hheaders hmemory t
  refine ⟨?_, hp.left, hp.ascending, hp.apart, fun e he => ?_, hp.moved⟩
  · rw [← hlayout]
    exact hp.inside
  · rw [← hwords, ← hmoved]
    exact hp.words e he

/-- Regions that have begun to take part are enlisted, and empty. -/
theorem enlisted_of_sublist {g : Heap} {sub : List Nat} (hsub : sub.Sublist part)
    (hen : h.Enlisted part h.layout.bottom g) : g.Enlisted sub g.layout.bottom g := by
  refine ⟨rfl, rfl, rfl, fun i hi => ?_, fun _ _ => rfl⟩
  rw [hen.member i (hsub.subset hi), hen.layout]
  rfl

/-- What is known of the regions that take part is known of some of them, in the heap in which
they have begun to. -/
theorem Mustered.of_sublist {g : Heap} {sub : List Nat} (hm : Mustered h t b live part n)
    (hsub : sub.Sublist part) (hen : h.Enlisted part h.layout.bottom g)
    (hmem : g.memory = h.memory) : Mustered g t b live sub n := by
  have huse := hen.sameUse
  refine ⟨huse.stocked hmem hm.stocked, ⟨hm.isPart.ascending.sublist hsub, fun i hi => ?_,
    fun i hi => ?_⟩, ⟨hm.covers.layout.trans huse.layout.symm,
    hm.covers.compact.trans huse.headers.symm, fun i hi => ?_⟩, hm.total⟩
  · rw [huse.size]
    exact hm.isPart.inside i (hsub.subset hi)
  · rw [(huse.use i).1]
    exact hm.isPart.regular i (hsub.subset hi)
  · rw [huse.liveIn]
    exact hm.covers.member i (hsub.subset hi)

/-- A region in which nothing has been noted when the first object comes has been filled as far as
the last extent in it, whether it is one of the part or not. -/
theorem Lodged.compactionTop_eq {i : Nat}
    (hl : Lodged h t part as n e starts s kept tops (log.map (Placement.berth h.layout)))
    (hempty : (h.region i).compactionTop = h.layout.bottom i) :
    (s.heap.region i).compactionTop.toNat = endIn h.layout log i := by
  by_cases hi : i ∈ part
  · exact hl.compactionTop hi
  · have hnone : ∀ d ∈ log, h.layout.indexOf d.place.target ≠ i := by
      rintro d hd rfl
      exact hi (hl.laid.berthed _ (List.mem_map_of_mem hd)).space
    rw [endIn_of_none hnone, ← hempty, hl.enlisted.other i hi]

/-- The live objects of any of the regions that planning picks are given extents, if those of
each region are fed to one compaction point after the region. -/
theorem plan_placements {c : ParallelCycle} {h : Heap} {roots : Roots}
    (hw : WellFormed h c.classes roots) (hheap : c.state.heap = h)
    (hbitmap : c.bitmap = (h.trace c.classes roots (.ofLayout h.layout)).bitmap)
    (hsaved : c.state.saved = #[])
    (hready : c.state.forwarding.Ready h.layout h.compactHeaders) :
    ∃ p c', c.plan = .ok (p, c') ∧ ∀ part : List Nat, part.Sublist p.compacting →
      ∃ f, (Offer.inTurn h c.bitmap part).foldlM (Feed.take c.classes) (.start c'.state) = .ok f ∧
        part.foldlM (ParallelCycle.placeRegion c.classes c.bitmap) (.empty, c'.state)
          = .ok (f.point, f.state) ∧
        f.log.map Placement.object = part.flatMap (h.liveIn c.bitmap) ∧
        (∀ a, a ∈ f.log.map Placement.object ↔
          Reaches h c.classes roots a ∧ h.layout.indexOf a ∈ part) ∧
        Placements h c.classes part f.log ∧
        (∀ e ∈ f.log, f.state.forwarding.forwardee f.closed.memory e.object
            = .ok (if e.place.target = e.object then none else some e.place.target) ∧
          f.state.forwarding.isForwarded f.closed.memory e.object = e.place.moved) ∧
        ∀ i < h.regions.size,
          (f.closed.region i).compactionTop.toNat = endIn h.layout f.log i := by
  obtain ⟨-, -, -, -, hshows, -, -⟩ := hw.trace
  rw [← hbitmap] at hshows
  have hplanned := Plan.planned_build hw.settled.toTabled c.bitmap
  have hs₀ := hw.surveyed_of_shows hshows
  have hs := hw.surveyed hshows hplanned
  have hidle := hplanned.idle hw.settled.idle
  have hbuild : Plan.build h c.bitmap = ((Plan.build h c.bitmap).1, (Plan.build h c.bitmap).2) := rfl
  generalize (Plan.build h c.bitmap).2 = h₁ at *
  generalize (Plan.build h c.bitmap).1 = p at *
  obtain ⟨n, f₀, g, hplan, hlists, htotal, hen, hmem, -, hrec, -⟩ :=
    ParallelCycle.plan_spec hheap hbuild hplanned hs₀ hs hready
  refine ⟨p, _, hplan, fun part hsub => ?_⟩
  -- the heap after planning, with the regions of the part only
  have hm := (ParallelCycle.mustered hplanned hs₀ hs hlists htotal).of_sublist hsub hen hmem
  have hbegun := enlisted_of_sublist hsub hen
  have huse := hen.sameUse
  have hlayout : g.layout = h.layout := huse.layout.trans hplanned.ground.layout
  have hlive : ∀ i ∈ part, g.liveIn c.bitmap i = h.liveIn c.bitmap i := fun i hi => by
    rw [huse.liveIn, Heap.liveIn, (hplanned.region_compacting (hsub.subset hi)).2.2.1, Heap.liveIn]
  have hturn : Offer.inTurn g c.bitmap part = Offer.inTurn h c.bitmap part :=
    List.flatMap_congr fun i hi => by rw [hlive i hi]
  -- the run
  rw [← hmem] at hrec
  let s : Relocation := { c.state with heap := g, forwarding := f₀ }
  obtain ⟨f, tops, hrun, htelling, hlodged, -⟩ := lodged_run (s := s) hm hbegun hrec rfl hsaved
    (Offer.regions_inTurn g c.bitmap part) (Offer.orderly_inTurn hm.stocked hm.isPart)
  rw [Offer.objects_inTurn] at hlodged
  have hplace := placeAll_eq (s := s) hm hbegun hrec rfl hsaved (List.prefix_refl part)
  rw [hrun] at hplace
  have hmember := hm.stocked.mem_flatMap_liveIn hm.isPart.inside
  have hlog : f.log.map Placement.object = part.flatMap (g.liveIn c.bitmap) := by
    rw [← hlodged.laid.objects, map_object_berth]
  have hplacements := hlodged.placements hm.stocked hm.isPart (fun a ha => ((hmember a).1 ha).1)
    htelling
  refine ⟨f, by rw [← hturn]; exact hrun, hplace, hlog.trans (List.flatMap_congr hlive), fun a => ?_,
    hplacements.congr hlayout (huse.headers.trans hplanned.ground.headers)
      (hmem.trans hplanned.ground.memory), fun d hd => ?_, fun i hi => ?_⟩
  · rw [hlog, ← hlayout]
    exact hmember a
  · have hread := hlodged.forwardee hm.stocked hm.covers.layout (fun a ha => ((hmember a).1 ha).1)
      (hm.stocked.pairwise_flatMap_liveIn hm.isPart.ascending hm.isPart.inside) hd
    refine ⟨hread, (isForwarded_of_forwardee hread).trans ?_⟩
    rw [hplacements.moved d hd]
    by_cases hstay : d.place.target = d.object <;> simp [hstay]
  · rw [← hlayout]
    refine hlodged.compactionTop_eq ?_
    rw [hlayout]
    have hsize := hplanned.ground.size
    by_cases hcompacting : i ∈ p.compacting
    · rw [hen.member i hcompacting, ← hplanned.ground.layout]
      rfl
    · rw [hen.other i hcompacting, (hidle i (by omega)).compactionTop,
        hs.tabled.bottom i (by omega), hplanned.ground.layout]

/-- A heap of four regions with one object, and a cycle that is about to plan. -/
theorem plan_placements_node : ∃ (c : ParallelCycle) (h : Heap) (a : Address),
    WellFormed h c.classes #[a] ∧ c.state.heap = h ∧
      c.bitmap = (h.trace c.classes #[a] (.ofLayout h.layout)).bitmap ∧ c.state.saved = #[] ∧
      c.state.forwarding.Ready h.layout h.compactHeaders ∧
      ∃ (p : Plan) (c' : ParallelCycle) (f : Feed), c.plan = .ok (p, c') ∧
        p.compacting.foldlM (ParallelCycle.placeRegion c.classes c.bitmap) (.empty, c'.state)
          = .ok (f.point, f.state) ∧
        Placements h c.classes p.compacting f.log ∧
        ∀ i < h.regions.size,
          (f.closed.region i).compactionTop.toNat = endIn h.layout f.log i := by
  let config : Config :=
    { compactHeaders := true, regionShift := 4, numRegions := 4, blockShift := 2 }
  have hv : config.Valid := by decide
  have hb : config.Backed 0x10000 := by decide
  obtain ⟨h, t, a, c, hw, -, -, -, -, hc⟩ := Collector.exists_collector hv hb (by decide)
  let c₀ : ParallelCycle := (c.marked ⟨fun _ => 0, 0⟩ h t #[a]).begun t
    (h.trace t #[a] (.ofLayout h.layout)).bitmap
  obtain ⟨p, c', hplan, hall⟩ := plan_placements (c := c₀) hw rfl rfl hc.saved hc.ready
  obtain ⟨f, -, hrun, -, -, hplaced, -, htops⟩ := hall p.compacting (List.Sublist.refl _)
  exact ⟨c₀, h, a, hw, rfl, rfl, hc.saved, hc.ready, p, c', f, hplan, hrun, hplaced, htops⟩

end CompactionPoint

end MarkCompact
