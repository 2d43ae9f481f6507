/-
MarkCompact/Proofs/Rehousing.lean

New places for humongous objects.

After the objects of the part have their berths, one pass over the regions gives humongous
objects new runs of regions.  A run consists of regions that are vacant, because they are free
or nothing has been placed in them, and of regions that humongous objects leave: the object
itself or those before it (`Heap.Resettled`).  The pass records the new addresses, notes the
regions of the runs as taking part, and changes nothing else (`Rehousing`).

Which runs are chosen is a function of the sizes of the objects and of the regions that are
vacant (`Heap.rehouse`).

Main result: `Rehousing.placeAll` (the pass goes through).
-/
import MarkCompact.Proofs.Feeding
import MarkCompact.Proofs.Vacancies

namespace MarkCompact

/-! ### Moves of humongous objects -/

namespace HumongousMove

/-- The number of regions of the object. -/
def regions (l : Layout) (v : HumongousMove) : Nat := (l.regionsFor v.size).toNat

/-- Whether the object comes to a region. -/
def Comes (l : Layout) (v : HumongousMove) (i : Nat) : Prop :=
  v.target ≤ i ∧ i < v.target + v.regions l

/-- Whether the object has lain in a region. -/
def Leaves (l : Layout) (v : HumongousMove) (i : Nat) : Prop :=
  v.source ≤ i ∧ i < v.source + v.regions l

/-- The place of the object. -/
def berth (l : Layout) (v : HumongousMove) : Berth :=
  ⟨l.bottom v.source, l.bottom v.target, v.copySize.toNat, v.target⟩

end HumongousMove

namespace Heap

/-- The move of the humongous object that begins in one region to a run that begins in
another. -/
def moveTo (h : Heap) (t : ClassTable) (first target : Nat) : HumongousMove :=
  let object := h.layout.bottom first
  ⟨first, target, (h.wordsAt t object).toUInt64, (h.movedWords t object).toUInt64,
    h.memory.loadMark object⟩

/-- A humongous object that moves to the left, to a run of as many regions. -/
structure Rehoused (h : Heap) (t : ClassTable) (live : Address → Prop) (v : HumongousMove) :
    Prop where
  live : live (h.layout.bottom v.source)
  move : v = h.moveTo t v.source v.target
  run : h.HumongousRun v.source v.size
  inside : v.source < h.regions.size
  words : v.size.toNat = h.wordsAt t (h.layout.bottom v.source)
  moved : v.copySize.toNat = h.movedWords t (h.layout.bottom v.source)
  regions : (h.layout.regionsFor v.copySize).toNat = v.regions h.layout
  left : v.target < v.source

/-- Humongous objects move to runs of regions that are vacant or have been left. -/
structure Resettled (h : Heap) (t : ClassTable) (live : Address → Prop) (vacant : Nat → Bool)
    (vs : List HumongousMove) : Prop where
  rehoused : ∀ v ∈ vs, h.Rehoused t live v
  sources : vs.Pairwise fun v w => v.source + v.regions h.layout ≤ w.source
  targets : vs.Pairwise fun v w => ∀ i, v.Comes h.layout i → ¬ w.Comes h.layout i
  vacant : ∀ v ∈ vs, ∀ i, v.Comes h.layout i →
    vacant i = true ∨ ∃ w ∈ vs, w.Leaves h.layout i ∧ w.source ≤ v.source

/-- Whether a region can take part of a humongous object. -/
def isVacant (h : Heap) (part : List Nat) (tops : Nat → Address) (i : Nat) : Bool :=
  (h.region i).isFree || (part.contains i && tops i == h.layout.bottom i)

/-- The place in the room of the run for the humongous object that begins in a region. -/
def runFor (h : Heap) (t : ClassTable) (room : List Nat) (first : Nat) : Option Nat :=
  let v := h.moveTo t first first
  if (h.layout.regionsFor v.copySize).toNat ≠ v.regions h.layout then none
  else
    ({ CompactionPoint.empty with regions := room.toArray } : CompactionPoint).findRun first
      (v.regions h.layout)

/-- The moves of the humongous objects that begin in the regions `pending`, if the regions
before `index` leave the given room. -/
def rehouse (h : Heap) (t : ClassTable) (vacant : Nat → Bool) :
    Nat → Nat → List Nat → List Nat → List HumongousMove
  | 0, _, _, _ => []
  | fuel + 1, index, pending, room =>
    if index < h.regions.size then
      if pending.head? = some index then
        let n := (h.moveTo t index index).regions h.layout
        match h.runFor t room index with
        | some start =>
          let all := room ++ List.range' index n
          h.moveTo t index (room[start]?.getD 0) ::
            h.rehouse t vacant fuel (index + n) pending.tail
              (all.take start ++ all.drop (start + n))
        | none => h.rehouse t vacant fuel (index + n) pending.tail room
      else
        h.rehouse t vacant fuel (index + 1) pending
          (if vacant index then room ++ [index] else room)
    else []

end Heap

/-! ### The pass -/

open Forwarding

/-- The pass has come to the region `index`. The heap was `g` at its beginning. -/
structure Rehousing (h : Heap) (t : ClassTable) (b : Bitmap) (live : Address → Prop)
    (part : List Nat) (e : Encoding) (tops : Nat → Address) (bs : List Berth) (g : Heap)
    (index : Nat) (room : List Nat) (vs : List HumongousMove) (n : Announced) (s : Relocation) :
    Prop where
  resettled : h.Resettled t live (h.isVacant part tops) vs
  before : ∀ v ∈ vs, v.source + v.regions h.layout ≤ index
  layout : s.heap.layout = h.layout
  size : s.heap.regions.size = h.regions.size
  headers : s.heap.compactHeaders = h.compactHeaders
  starts : s.heap.starts = g.starts
  taken : ∀ v ∈ vs, ∀ i, v.Comes h.layout i →
    s.heap.region i = { g.region i with compacting := true }
  other : ∀ i, (∀ v ∈ vs, ¬ v.Comes h.layout i) → s.heap.region i = g.region i
  grid : n.layout = h.layout
  compact : n.compact = h.compactHeaders
  expected : ∀ i, i ∉ part → index ≤ i → n.expected i = none
  total : ∀ l : List Address, l.Nodup → (∀ a ∈ l, live a) → l.length ≤ n.total
  records : s.forwarding.Records n h.memory s.heap.memory
    (Berth.moves (bs ++ vs.map (·.berth h.layout)))
  encoding : s.forwarding.encoding = e
  saved : s.saved.toList = if s.forwarding.overwritesMarks then
    h.savedMarks ((Berth.moves (bs ++ vs.map (·.berth h.layout))).map Prod.fst) else []
  ascending : room.Pairwise (· < ·)
  room : ∀ i ∈ room, i < index ∧
    (h.isVacant part tops i = true ∨ ∃ v ∈ vs, v.Leaves h.layout i) ∧
    ∀ v ∈ vs, ¬ v.Comes h.layout i

namespace Surveyed

variable {h : Heap} {t : ClassTable} {b : Bitmap} {live : Address → Prop}

/-- The marked object that begins in the first region of a run is the one of the run. -/
theorem humongous (hs : Surveyed h t b live) {i : Nat} (hi : i < h.regions.size)
    (hstart : h.isLiveStart b i = true) :
    live (h.layout.bottom i) ∧ ∃ c words, h.ObjectAt t (h.layout.bottom i) c words ∧
      h.HumongousRun i words := by
  unfold Heap.isLiveStart at hstart
  rw [Bool.and_eq_true, beq_iff_eq, hs.tabled.bottom i hi] at hstart
  have hl := hs.tabled.layout
  have hlt : i < h.layout.numRegions := by rw [← hs.tabled.count]; exact hi
  have hword : h.layout.IsWord (h.layout.bottom i) := by
    have h1 := hl.base_le_bottom hlt.le
    have h2 := hl.bottom_le_stop (show i + 1 ≤ h.layout.numRegions from hlt)
    have h3 := hl.regionStop_le_bottom (show i < i + 1 by omega) hlt
    have h4 := h.layout.stride_pos
    exact ⟨h1, by omega, hl.bottom_mod hlt.le⟩
  have hlive := (hs.shows.starts _ hword).1 hstart.2
  obtain ⟨c, words, ho⟩ := hs.populated.object _ hlive
  refine ⟨hlive, c, words, ho, ?_⟩
  rcases ho.place with ⟨j, hj, hk, h1, h2⟩ | ⟨j, hj, hrun, heq⟩
  · -- a regular region does not begin where a humongous one does
    have hj' : j < h.layout.numRegions := by rw [← hs.tabled.count]; exact hj
    have hpos := hs.words_pos ho
    have htop := (hs.tabled.top j hj).2.1
    rw [hs.tabled.stop j hj, hl.toNat_regionStop hj'] at htop
    have hsame := hl.indexOf_eq hj' h1 (by omega)
    rw [hl.indexOf_bottom hlt] at hsame
    rw [← hsame, hstart.1] at hk
    cases hk
  · rw [hl.bottom_injective hlt.le (by rw [← hs.tabled.count]; exact hj.le) heq]
    exact hrun

/-- What is read of a humongous object. -/
theorem size_moveTo (hs : Surveyed h t b live) {i : Nat} (target : Nat)
    (hlive : live (h.layout.bottom i)) :
    let v := h.moveTo t i target
    h.size t (h.layout.bottom i) = .ok v.size ∧
      h.copySize t (h.layout.bottom i) (h.memory.loadMark (h.layout.bottom i)) true
        = .ok v.copySize ∧
      v.size.toNat = h.wordsAt t (h.layout.bottom i) ∧
      v.copySize.toNat = h.movedWords t (h.layout.bottom i) ∧
      decide (v.size < v.copySize) = h.growsAt (h.layout.bottom i) := by
  intro v
  obtain ⟨size, copySize, hsize, hwords, hcopy, hmoved, hgrown⟩ := hs.copySize hlive
  have h1 : v.size = size := by
    show (h.wordsAt t _).toUInt64 = size
    rw [← hwords]
    exact UInt64.ofNat_toNat
  have h2 : v.copySize = copySize := by
    show (h.movedWords t _).toUInt64 = copySize
    rw [← hmoved]
    exact UInt64.ofNat_toNat
  rw [h1, h2]
  refine ⟨hsize, hcopy, hwords, hmoved, ?_⟩
  rw [Bool.eq_iff_iff, decide_eq_true_eq]
  exact hgrown

theorem rehoused_moveTo (hs : Surveyed h t b live) {i target : Nat} (hi : i < h.regions.size)
    (hstart : h.isLiveStart b i = true) (hleft : target < i)
    (hregions : (h.layout.regionsFor (h.moveTo t i target).copySize).toNat
      = (h.moveTo t i target).regions h.layout) : h.Rehoused t live (h.moveTo t i target) := by
  obtain ⟨hlive, c, words, ho, hrun⟩ := hs.humongous hi hstart
  obtain ⟨hsize, -, hwords, hmoved, -⟩ := hs.size_moveTo target hlive
  rw [ho.size, Except.ok.injEq] at hsize
  rw [hsize] at hrun
  exact ⟨hlive, rfl, hrun, hi, hwords, hmoved, hregions, hleft⟩

end Surveyed

namespace Rehousing

variable {h g : Heap} {t : ClassTable} {b : Bitmap} {live : Address → Prop} {part : List Nat}
  {e : Encoding} {tops : Nat → Address} {bs : List Berth} {index : Nat} {room : List Nat}
  {vs : List HumongousMove} {n : Announced} {s : Relocation}

/-- No run that has been given lies in the regions that are still to come. -/
theorem not_comes_ahead (hr : Rehousing h t b live part e tops bs g index room vs n s)
    {v : HumongousMove} (hv : v ∈ vs) {i : Nat} (hi : index ≤ i) : ¬ v.Comes h.layout i := by
  intro hcomes
  have h1 := (hr.resettled.rehoused v hv).left
  have h2 := hr.before v hv
  have h3 := hcomes.2
  omega

/-- The pass has not touched what is still to come. -/
theorem region_ahead (hr : Rehousing h t b live part e tops bs g index room vs n s) {i : Nat}
    (hi : index ≤ i) : s.heap.region i = g.region i :=
  hr.other i fun _ hv => hr.not_comes_ahead hv hi

/-- What has a new address is a live object of the part, or of a run before `index`. -/
theorem mem_moves (hr : Rehousing h t b live part e tops bs g index room vs n s)
    (hs : Surveyed h t b live) (hp : h.Part part)
    (hlaid : h.Laid t part tops (part.flatMap (h.liveIn b)) bs) {a v : Address}
    (hmem : (a, v) ∈ Berth.moves (bs ++ vs.map (·.berth h.layout))) :
    live a ∧ (h.layout.indexOf a ∈ part ∨ h.layout.indexOf a < index) := by
  obtain ⟨p, hp', -, heq⟩ := Berth.mem_moves.1 hmem
  obtain ⟨rfl, -⟩ := Prod.mk.inj heq
  rcases List.mem_append.1 hp' with hp' | hp'
  · have hin : p.object ∈ part.flatMap (h.liveIn b) := by
      rw [← hlaid.objects]
      exact List.mem_map_of_mem hp'
    obtain ⟨i, hi, hin⟩ := List.mem_flatMap.1 hin
    obtain ⟨hlive, rfl⟩ := (hs.mem_liveIn (hp.inside i hi) _).1 hin
    exact ⟨hlive, .inl hi⟩
  · obtain ⟨w, hw, rfl⟩ := List.mem_map.1 hp'
    have hrehoused := hr.resettled.rehoused w hw
    have hinside := hrehoused.inside
    rw [hs.tabled.count] at hinside
    refine ⟨hrehoused.live, .inr ?_⟩
    have h1 := hr.before w hw
    have h2 : 0 < w.regions h.layout :=
      (hrehoused.run.inside hs.tabled.toGridded hrehoused.inside).2.1
    show h.layout.indexOf (h.layout.bottom w.source) < index
    rw [hs.tabled.layout.indexOf_bottom hinside]
    omega

/-- The pass changes no region but notes some as taking part. -/
theorem sameUse (hr : Rehousing h t b live part e tops bs g index room vs n s)
    (hen : h.Enlisted part tops g) : h.SameUse s.heap := by
  refine hen.sameUse.trans ⟨hr.layout.trans hen.layout.symm, hr.size.trans hen.size.symm,
    hr.headers.trans hen.headers.symm, fun i => ?_, fun i => ?_⟩
  all_goals
    by_cases htaken : ∀ v ∈ vs, ¬ v.Comes h.layout i
    · rw [hr.other i htaken]
      trivial
    · push Not at htaken
      obtain ⟨v, hv, hi⟩ := htaken
      rw [hr.taken v hv i hi]
      trivial

/-- The pass goes on to a later region. -/
theorem mono (hr : Rehousing h t b live part e tops bs g index room vs n s) {index' : Nat}
    (hle : index ≤ index') : Rehousing h t b live part e tops bs g index' room vs n s :=
  { hr with
    before := fun v hv => (hr.before v hv).trans hle
    expected := fun i hi hlt => hr.expected i hi (hle.trans hlt)
    room := fun i hi => ⟨(hr.room i hi).1.trans_le hle, (hr.room i hi).2⟩ }

end Rehousing

/-- Regions are noted as taking part. -/
theorem Heap.region_foldl_compacting (is : List Nat) (h : Heap) :
    let h' := is.foldl (fun h i => h.modifyRegion i fun r => { r with compacting := true }) h
    h.SameGround h' ∧ h'.starts = h.starts ∧ ∀ j, h'.region j
      = if j ∈ is ∧ j < h.regions.size then { h.region j with compacting := true }
        else h.region j := by
  refine ⟨Heap.sameGround_foldl _ (fun h i => Heap.sameGround_modifyRegion h i _) is h, ?_, ?_⟩
  · exact foldl_induct
      (f := fun (h : Heap) i => h.modifyRegion i fun r => { r with compacting := true })
      (fun _ g => g.starts = h.starts) is h rfl fun _ _ _ _ _ hg => hg
  · exact Heap.region_foldl_modify _ (fun _ r => { r with compacting := true })
      (fun h i j => Heap.region_modifyRegion h i j _) (fun h i => Heap.size_modifyRegion h i _)
      (fun _ _ => rfl) is h

namespace Rehousing

variable {h g : Heap} {t : ClassTable} {b : Bitmap} {live : Address → Prop} {part : List Nat}
  {e : Encoding} {tops : Nat → Address} {bs : List Berth} {index : Nat} {room : List Nat}
  {vs : List HumongousMove} {n : Announced} {s : Relocation}

/-- Nothing that has been given away before is given away again. -/
theorem apart_new (hr : Rehousing h t b live part e tops bs g index room vs n s) {v : HumongousMove}
    (hsource : v.source = index)
    (hcomes : ∀ i, v.Comes h.layout i → i ∈ room ∨ v.Leaves h.layout i) {w : HumongousMove}
    (hw : w ∈ vs) {i : Nat} (hi : w.Comes h.layout i) : ¬ v.Comes h.layout i := by
  intro hvi
  rcases hcomes i hvi with hin | hin
  · exact (hr.room i hin).2.2 w hw hi
  · exact hr.not_comes_ahead hw (hsource ▸ hin.1) hi

/-- The moves stay good with one that takes some of the room and some of its own regions. -/
theorem resettled_snoc (hr : Rehousing h t b live part e tops bs g index room vs n s)
    {v : HumongousMove} (hv : h.Rehoused t live v) (hsource : v.source = index)
    (hcomes : ∀ i, v.Comes h.layout i → i ∈ room ∨ v.Leaves h.layout i) :
    h.Resettled t live (h.isVacant part tops) (vs ++ [v]) := by
  refine ⟨List.forall_mem_append.2 ⟨hr.resettled.rehoused, by simpa using hv⟩, ?_, ?_, ?_⟩
  · refine List.pairwise_append.2 ⟨hr.resettled.sources, List.pairwise_singleton .., ?_⟩
    intro w hw v' hv'
    rw [List.mem_singleton.1 hv', hsource]
    exact hr.before w hw
  · refine List.pairwise_append.2 ⟨hr.resettled.targets, List.pairwise_singleton .., ?_⟩
    intro w hw v' hv' i
    rw [List.mem_singleton.1 hv']
    exact hr.apart_new hsource hcomes hw
  · intro w hw i hi
    rcases List.mem_append.1 hw with hw | hw
    · refine (hr.resettled.vacant w hw i hi).imp_right ?_
      rintro ⟨u, hu, hrest⟩
      exact ⟨u, List.mem_append_left _ hu, hrest⟩
    · rw [List.mem_singleton.1 hw] at hi ⊢
      rcases hcomes i hi with hin | hin
      · refine (hr.room i hin).2.1.imp_right ?_
        rintro ⟨u, hu, hleaves⟩
        have := hr.before u hu
        exact ⟨u, List.mem_append_left _ hu, hleaves, by omega⟩
      · exact .inr ⟨v, List.mem_append_right _ (List.mem_singleton_self v), hin, Nat.le_refl _⟩

/-- A region that is room after a move has been room before, or is left by it. -/
theorem room_snoc (hr : Rehousing h t b live part e tops bs g index room vs n s)
    {v : HumongousMove} (hsource : v.source = index) {i : Nat}
    (hi : (i ∈ room ∨ v.Leaves h.layout i) ∧ ¬ v.Comes h.layout i) :
    i < index + v.regions h.layout ∧
      (h.isVacant part tops i = true ∨ ∃ w ∈ vs ++ [v], w.Leaves h.layout i) ∧
      ∀ w ∈ vs ++ [v], ¬ w.Comes h.layout i := by
  obtain ⟨hin | hin, hnot⟩ := hi
  · obtain ⟨hlt, hvacant, hfresh⟩ := hr.room i hin
    refine ⟨by omega, hvacant.imp_right ?_, List.forall_mem_append.2 ⟨hfresh, by simpa using hnot⟩⟩
    rintro ⟨w, hw, hleaves⟩
    exact ⟨w, List.mem_append_left _ hw, hleaves⟩
  · refine ⟨by rw [← hsource]; exact hin.2,
      .inr ⟨v, List.mem_append_right _ (List.mem_singleton_self v), hin⟩,
      List.forall_mem_append.2 ⟨fun w hw => ?_, by simpa using hnot⟩⟩
    exact hr.not_comes_ahead hw (hsource ▸ hin.1)

/-- A humongous object has been given a run. -/
theorem snoc (hr : Rehousing h t b live part e tops bs g index room vs n s) (hg : h.Gridded)
    {v : HumongousMove}
    (hv : h.Rehoused t live v) (hsource : v.source = index) {room' : List Nat} {n' : Announced}
    {s' : Relocation} (hasc : room'.Pairwise (· < ·))
    (hroom : ∀ i, i ∈ room' ↔ (i ∈ room ∨ v.Leaves h.layout i) ∧ ¬ v.Comes h.layout i)
    (hcomes : ∀ i, v.Comes h.layout i → i ∈ room ∨ v.Leaves h.layout i)
    (hground : s'.heap.layout = s.heap.layout ∧ s'.heap.regions.size = s.heap.regions.size ∧
      s'.heap.compactHeaders = s.heap.compactHeaders ∧ s'.heap.starts = s.heap.starts)
    (htaken : ∀ i, v.Comes h.layout i →
      s'.heap.region i = { s.heap.region i with compacting := true })
    (hother : ∀ i, ¬ v.Comes h.layout i → s'.heap.region i = s.heap.region i)
    (hannounced : n' = n.announce index 1)
    (hrec : s'.forwarding.Records n' h.memory s'.heap.memory
      (Berth.moves (bs ++ (vs ++ [v]).map (·.berth h.layout))))
    (hcode : s'.forwarding.encoding = e)
    (hsaved : s'.saved.toList = if s'.forwarding.overwritesMarks then
      h.savedMarks ((Berth.moves (bs ++ (vs ++ [v]).map (·.berth h.layout))).map Prod.fst)
      else []) :
    Rehousing h t b live part e tops bs g (index + v.regions h.layout) room' (vs ++ [v]) n' s' := by
  subst hannounced
  refine ⟨hr.resettled_snoc hv hsource hcomes, ?_, hground.1.trans hr.layout,
    hground.2.1.trans hr.size, hground.2.2.1.trans hr.headers, hground.2.2.2.trans hr.starts, ?_, ?_,
    hr.grid, hr.compact, ?_, hr.total, hrec, hcode, hsaved, hasc,
    fun i hi => hr.room_snoc hsource ((hroom i).1 hi)⟩
  · intro w hw
    rcases List.mem_append.1 hw with hw | hw
    · exact (hr.before w hw).trans (Nat.le_add_right ..)
    · rw [List.mem_singleton.1 hw, hsource]
  · intro w hw i hi
    rcases List.mem_append.1 hw with hw | hw
    · rw [hother i (hr.apart_new hsource hcomes hw hi)]
      exact hr.taken w hw i hi
    · rw [List.mem_singleton.1 hw] at hi
      rw [htaken i hi, hr.other i fun w hw hwi => hr.apart_new hsource hcomes hw hwi hi]
  · intro i hi
    have hvi := hi v (List.mem_append_right _ (List.mem_singleton_self v))
    rw [hother i hvi]
    exact hr.other i fun w hw => hi w (List.mem_append_left _ hw)
  · intro i hi hle
    have hpos := (hv.run.inside hg hv.inside).2.1
    show Function.update n.expected index (some 1) i = none
    rw [Function.update_of_ne (by unfold HumongousMove.regions at hle; omega)]
    exact hr.expected i hi (by omega)

/-- A new address of the humongous object that begins at `index` can be recorded. -/
theorem record (hr : Rehousing h t b live part e tops bs g index room vs n s)
    (hs : Surveyed h t b live) (hp : h.Part part)
    (hlaid : h.Laid t part tops (part.flatMap (h.liveIn b)) bs) (hlt : index < h.regions.size)
    (hnot : index ∉ part) (hlive : live (h.layout.bottom index)) {target : Nat}
    (htarget : target < index) :
    h.layout.bottom index ∉ (Berth.moves (bs ++ vs.map (·.berth h.layout))).map Prod.fst ∧
      ∃ f₁ f₂ m, s.forwarding.beginRegion index 1 = .ok f₁ ∧
        f₁.forwardTo s.heap.memory (h.layout.bottom index) (h.layout.bottom target) = .ok (f₂, m) ∧
        f₂.Records (n.announce index 1) h.memory m
          (Berth.moves (bs ++ vs.map (·.berth h.layout))
            ++ [(h.layout.bottom index, h.layout.bottom target)]) ∧
        f₂.encoding = e := by
  have hl := hs.tabled.layout
  have hlt' : index < h.layout.numRegions := by rw [← hs.tabled.count]; exact hlt
  have hindex := hl.indexOf_bottom hlt'
  -- nothing of this region has a new address yet
  have hother : ∀ r ∈ Berth.moves (bs ++ vs.map (·.berth h.layout)),
      live r.1 ∧ h.layout.indexOf r.1 ≠ index := by
    intro r hr'
    obtain ⟨h1, h2⟩ := hr.mem_moves hs hp hlaid (a := r.1) (v := r.2) hr'
    refine ⟨h1, fun heq => ?_⟩
    rw [heq] at h2
    exact h2.elim hnot (Nat.lt_irrefl index)
  have hnew : h.layout.bottom index
      ∉ (Berth.moves (bs ++ vs.map (·.berth h.layout))).map Prod.fst := by
    intro hmem
    obtain ⟨r, hr', heq⟩ := List.mem_map.1 hmem
    exact (hother r hr').2 (by rw [heq]; exact hindex)
  obtain ⟨f₁, hbegin, hrec₁, hcode₁⟩ := hr.records.beginRegion (by rw [hr.grid]; exact hl)
    (by rw [hr.grid]; exact hlt') (hr.expected index hnot (Nat.le_refl _))
    (hr.records.accommodates (show 1 < 2 ^ 24 by decide))
  have hnone : movesOf h.layout (Berth.moves (bs ++ vs.map (·.berth h.layout))) index = [] := by
    rw [List.eq_nil_iff_forall_not_mem]
    intro r hr'
    obtain ⟨hmem, heq⟩ := mem_movesOf.1 hr'
    exact (hother r hmem).2 heq
  obtain ⟨c, words, ho⟩ := hs.populated.object _ hlive
  have hword : h.layout.IsWord (h.layout.bottom target) := by
    have h1 := hl.base_le_bottom (show target ≤ h.layout.numRegions by omega)
    have h2 := hl.regionStop_le_bottom htarget hlt'.le
    have h3 := hl.bottom_le_stop hlt'.le
    have h4 := h.layout.stride_pos
    exact ⟨h1, by omega, hl.bottom_mod (by omega)⟩
  have hadmits : f₁.Admits (n.announce index 1) h.memory
      (Berth.moves (bs ++ vs.map (·.berth h.layout))) (h.layout.bottom index)
      (h.layout.bottom target) := by
    have hgrid : (n.announce index 1).layout = h.layout := hr.grid
    refine ⟨by rw [hgrid]; exact hs.isWord hlive, by rw [hgrid]; exact hword, hnew, ho.mark.clean,
      fun _ => ?_, fun _ => ⟨1, ?_, ?_⟩, ?_⟩
    · have hle := hr.total (h.layout.bottom index :: (Berth.moves _).map Prod.fst)
        (List.nodup_cons.2 ⟨hnew, hr.records.nodup⟩) (by
          intro a ha
          rcases List.mem_cons.1 ha with rfl | ha
          · exact hlive
          · obtain ⟨r, hr', rfl⟩ := List.mem_map.1 ha
            exact (hother r hr').1)
      rw [List.length_cons, List.length_map] at hle
      exact hle
    · rw [hgrid, hindex]
      exact Function.update_self ..
    · rw [hgrid, hindex, hnone]
      exact Nat.one_pos
    · intro limit hlimit
      rw [hgrid, hindex]
      unfold targetsOf
      rw [hnone]
      rw [targetsPerRegion_eq] at hlimit
      split at hlimit
      · rw [← Option.some.inj hlimit]
        exact .inr (show 0 < basesPerRegion by decide)
      · cases hlimit
  obtain ⟨f₂, m, hforward, hrec₂, hcode₂⟩ := hrec₁.forwardTo
    (by rw [show (n.announce index 1).layout = h.layout from hr.grid]; exact hl) hadmits
  exact ⟨hnew, f₁, f₂, m, hbegin, hforward, hrec₂, hcode₂.trans (hcode₁.trans hr.encoding)⟩

/-- What is read of the humongous object that begins at `index` is what was there at first. -/
theorem object (hr : Rehousing h t b live part e tops bs g index room vs n s)
    (hs : Surveyed h t b live) (hp : h.Part part) (hen : h.Enlisted part tops g)
    (hlaid : h.Laid t part tops (part.flatMap (h.liveIn b)) bs) (hlt : index < h.regions.size)
    (hlive : live (h.layout.bottom index)) :
    (s.heap.region index).bottom = h.layout.bottom index ∧
      h.HeaderKept t (h.layout.bottom index) s.heap.memory := by
  refine ⟨?_, hr.records.headerKept hs.toStocked hr.grid hr.compact (fun r hr' => ?_) hlive⟩
  · rw [((hr.sameUse hen).extent index).2.1, hs.tabled.bottom _ hlt]
  · exact (hr.mem_moves hs hp hlaid (a := r.1) (v := r.2) hr').1

/-- The humongous object that begins at `index` is given the run that has been found. -/
theorem placeAt (hr : Rehousing h t b live part e tops bs g index room vs n s)
    (hs : Surveyed h t b live) (hp : h.Part part) (hen : h.Enlisted part tops g)
    (hlaid : h.Laid t part tops (part.flatMap (h.liveIn b)) bs) (hlt : index < h.regions.size)
    (hstart : h.isLiveStart b index = true) {q : CompactionPoint} (hq : q.regions.toList = room)
    (hfits : (h.layout.regionsFor (h.moveTo t index index).copySize).toNat
      = (h.moveTo t index index).regions h.layout) {start target : Nat}
    (hfind : q.findRun index ((h.moveTo t index index).regions h.layout) = some start)
    (htarget : room[start]?.getD 0 = target) :
    ∃ n' q' s', s.placeHumongous t q index = .ok (some (h.moveTo t index target), q', s') ∧
      q'.regions.toList = (room ++ List.range' index
        ((h.moveTo t index index).regions h.layout)).take start ++ (room ++ List.range' index
        ((h.moveTo t index index).regions h.layout)).drop
          (start + (h.moveTo t index index).regions h.layout) ∧
      Rehousing h t b live part e tops bs g (index + (h.moveTo t index index).regions h.layout)
        q'.regions.toList (vs ++ [h.moveTo t index target]) n' s' := by
  have hl := hs.tabled.layout
  have hgrid := hs.tabled.toGridded
  obtain ⟨hlive, c, words, ho, hrun⟩ := hs.humongous hlt hstart
  obtain ⟨hsize, hcopy, -, -, hgrown⟩ := hs.size_moveTo index hlive
  obtain rfl : words = (h.moveTo t index index).size := by
    rw [ho.size, Except.ok.injEq] at hsize
    exact hsize
  obtain ⟨hobject, hkept⟩ := hr.object hs hp hen hlaid hlt hlive
  obtain ⟨hpos, hin⟩ := (hrun.inside hgrid hlt).2
  -- the run that has been found
  have hafter := CompactionPoint.room_after hpos (by rw [hq]; exact hr.ascending)
    (by rw [hq]; exact fun i hi => (hr.room i hi).1) hfind
  have hat : q.regionAt start = target := by
    unfold CompactionPoint.regionAt
    rw [← Array.getElem?_toList, hq, htarget]
  rw [hat, hq] at hafter
  have hleft := (hafter s.heap).1
  have hv : h.Rehoused t live (h.moveTo t index target) :=
    hs.rehoused_moveTo hlt hstart hleft hfits
  have hnot : index ∉ part := fun hin => by
    have hk := hp.regular index hin
    rw [hrun.start] at hk
    cases hk
  -- the new address
  obtain ⟨hnew, f₁, f₂, m, hbegin, hforward, hrec, hcode⟩ :=
    hr.record hs hp hlaid hlt hnot hlive hleft
  obtain ⟨-, hroom, hasc, hmem, hcomes⟩ := hafter (s.heap.withMemory m)
  have hmark : s.heap.memory.loadMark (h.layout.bottom index)
      = h.memory.loadMark (h.layout.bottom index) := by
    unfold Memory.loadMark
    rw [hr.records.elsewhere _ hnew]
  have hbottom : (s.heap.region target).bottom = h.layout.bottom target := by
    rw [((hr.sameUse hen).extent target).2.1, hs.tabled.bottom _ (hleft.trans hlt)]
  -- the regions of the run
  let heap' := (List.range' target ((h.moveTo t index index).regions h.layout)).foldl
    (fun h i => h.modifyRegion i fun r => { r with compacting := true }) (s.heap.withMemory m)
  obtain ⟨hground, hstarts, hregion⟩ := Heap.region_foldl_compacting
    (List.range' target ((h.moveTo t index index).regions h.layout)) (s.heap.withMemory m)
  let saved := if s.forwarding.overwritesMarks then
    s.saved.save (h.layout.bottom index) (h.memory.loadMark (h.layout.bottom index))
      s.heap.compactHeaders (h.growsAt (h.layout.bottom index)) else s.saved
  refine ⟨n.announce index 1, _, ⟨heap', f₂, saved⟩, ?_, hroom, ?_⟩
  · unfold Relocation.placeHumongous
    rw [hobject, hr.layout]
    refine bind_eq_ok (hkept.size.trans hsize)
      (bind_eq_ok ((hkept.copySize hr.headers hs.headers).trans hcopy) ?_)
    have hfind' : q.findRun index (h.layout.regionsFor (h.moveTo t index index).size).toNat
        = some start := hfind
    refine (if_neg (not_not.2 hfits)).trans ?_
    rw [hfind', hmark, hgrown]
    dsimp only
    rw [hat, hbottom]
    exact bind_eq_ok hbegin (bind_eq_ok hforward rfl)
  · have hmoves : Berth.moves (bs ++ (vs ++ [h.moveTo t index target]).map (·.berth h.layout))
        = Berth.moves (bs ++ vs.map (·.berth h.layout))
          ++ [(h.layout.bottom index, h.layout.bottom target)] := by
      rw [List.map_append, List.map_singleton, ← List.append_assoc, Berth.moves_snoc, if_pos]
      · rfl
      · have hcount := hs.tabled.count
        exact fun heq => hleft.ne (hl.bottom_injective (by omega) (by omega) heq)
    refine hr.snoc hgrid hv rfl hasc hmem (fun i hi => hcomes i hi.1 hi.2) ⟨hground.layout,
      hground.size, hground.headers, hstarts⟩ (fun i hi => ?_) (fun i hi => ?_) rfl ?_ hcode ?_
    · have hsize := hr.size
      have hi' : i < target + (h.moveTo t index index).regions h.layout := hi.2
      unfold HumongousMove.regions at hi'
      refine (hregion i).trans (if_pos ⟨List.mem_range'_1.2 hi, ?_⟩)
      show i < s.heap.regions.size
      omega
    · exact (hregion i).trans (if_neg fun hh => hi (List.mem_range'_1.1 hh.1))
    · rw [hmoves]
      show f₂.Records _ _ heap'.memory _
      rw [hground.memory]
      exact hrec
    · have hover : f₂.overwritesMarks = s.forwarding.overwritesMarks := by
        rw [overwritesMarks_eq, overwritesMarks_eq, hcode, hr.encoding]
      show (if s.forwarding.overwritesMarks then _ else _ : SavedMarks).toList
        = if f₂.overwritesMarks then _ else _
      rw [hover, hmoves, hr.headers, List.map_append]
      exact Heap.toList_save hr.saved _

/-- The humongous object that begins at `index` is given a run, if there is one. -/
theorem place (hr : Rehousing h t b live part e tops bs g index room vs n s)
    (hs : Surveyed h t b live) (hp : h.Part part) (hen : h.Enlisted part tops g)
    (hlaid : h.Laid t part tops (part.flatMap (h.liveIn b)) bs) (hlt : index < h.regions.size)
    (hstart : h.isLiveStart b index = true) {q : CompactionPoint} (hq : q.regions.toList = room) :
    let next := index + (h.moveTo t index index).regions h.layout
    h.runFor t room index = none ∧ s.placeHumongous t q index = .ok (none, q, s) ∨
      ∃ start n' q' s', h.runFor t room index = some start ∧
        s.placeHumongous t q index
          = .ok (some (h.moveTo t index (room[start]?.getD 0)), q', s') ∧
        q'.regions.toList = (room ++ List.range' index
          ((h.moveTo t index index).regions h.layout)).take start ++ (room ++ List.range' index
          ((h.moveTo t index index).regions h.layout)).drop
            (start + (h.moveTo t index index).regions h.layout) ∧
        Rehousing h t b live part e tops bs g next q'.regions.toList
          (vs ++ [h.moveTo t index (room[start]?.getD 0)]) n' s' := by
  intro next
  obtain ⟨hlive, -, -, -, -⟩ := hs.humongous hlt hstart
  obtain ⟨hsize, hcopy, -, -, -⟩ := hs.size_moveTo index hlive
  -- what is read of the object
  obtain ⟨hobject, hkept⟩ := hr.object hs hp hen hlaid hlt hlive
  have hsize' := hkept.size.trans hsize
  have hcopy' := (hkept.copySize hr.headers hs.headers).trans hcopy
  have hrooms : CompactionPoint.regions { CompactionPoint.empty with regions := room.toArray }
      = q.regions := by
    show room.toArray = _
    rw [← hq, Array.toArray_toList]
  unfold Heap.runFor
  by_cases hmore : (h.layout.regionsFor (h.moveTo t index index).copySize).toNat
      ≠ (h.moveTo t index index).regions h.layout
  · -- its hash word would need another region
    refine .inl ⟨if_pos hmore, ?_⟩
    unfold Relocation.placeHumongous
    rw [hobject, hr.layout]
    refine bind_eq_ok hsize' (bind_eq_ok hcopy' ?_)
    exact if_pos hmore
  · rw [if_neg hmore, CompactionPoint.findRun_congr hrooms]
    cases hfind : q.findRun index ((h.moveTo t index index).regions h.layout) with
    | none =>
      refine .inl ⟨rfl, ?_⟩
      unfold Relocation.placeHumongous
      rw [hobject, hr.layout]
      refine bind_eq_ok hsize' (bind_eq_ok hcopy' ?_)
      have hfind' : q.findRun index (h.layout.regionsFor (h.moveTo t index index).size).toNat
          = none := hfind
      refine (if_neg hmore).trans ?_
      rw [hfind']
      rfl
    | some start =>
      obtain ⟨n', q', s', hplace, hregions, hr'⟩ :=
        hr.placeAt hs hp hen hlaid hlt hstart hq (not_not.1 hmore) hfind rfl
      exact .inr ⟨start, n', q', s', rfl, hplace, hregions, hr'⟩

/-- A region in which no live humongous object begins is passed, and kept in mind if it is
vacant. -/
theorem pass (hr : Rehousing h t b live part e tops bs g index room vs n s) {q : CompactionPoint}
    (hq : q.regions.toList = room) (hg : Heap) :
    let vacant := h.isVacant part tops index
    (if vacant then q.add hg index else q).regions.toList
        = (if vacant then room ++ [index] else room) ∧
      Rehousing h t b live part e tops bs g (index + 1)
        (if vacant then room ++ [index] else room) vs n s := by
  intro vacant
  have hnext := hr.mono (Nat.le_succ index)
  cases hvacant : vacant with
  | false => exact ⟨hq, hnext⟩
  | true =>
    refine ⟨?_, { hnext with ascending := ?_, room := ?_ }⟩
    · rw [if_pos rfl, if_pos rfl, ← hq]
      unfold CompactionPoint.add
      split
      · exact Array.toList_push
      · exact Array.toList_push
    · refine List.pairwise_append.2 ⟨hr.ascending, List.pairwise_singleton .., ?_⟩
      intro i hi j hj
      rw [List.mem_singleton.1 hj]
      exact (hr.room i hi).1
    · intro i hi
      rcases List.mem_append.1 hi with hi | hi
      · exact hnext.room i hi
      · rw [List.mem_singleton.1 hi]
        refine ⟨Nat.lt_succ_self _, .inl hvacant, fun v hv hcomes => ?_⟩
        have h1 := (hr.resettled.rehoused v hv).left
        have h2 := hr.before v hv
        have h3 := hcomes.2
        omega

end Rehousing

namespace Heap

variable {h : Heap} {b : Bitmap} {index : Nat}

/-- The first regions of live humongous objects from a region on. -/
def liveStartsFrom (h : Heap) (b : Bitmap) (index : Nat) : List Nat :=
  (List.range' index (h.regions.size - index)).filter (h.isLiveStart b)

theorem liveStartsFrom_of_start (hlt : index < h.regions.size) (hs : h.isLiveStart b index = true) :
    h.liveStartsFrom b index = index :: h.liveStartsFrom b (index + 1) := by
  unfold liveStartsFrom
  rw [show h.regions.size - index = h.regions.size - (index + 1) + 1 by omega, List.range'_succ,
    List.filter_cons_of_pos hs]

theorem liveStartsFrom_of_other (hlt : index < h.regions.size)
    (hs : h.isLiveStart b index = false) :
    h.liveStartsFrom b index = h.liveStartsFrom b (index + 1) := by
  unfold liveStartsFrom
  rw [show h.regions.size - index = h.regions.size - (index + 1) + 1 by omega, List.range'_succ,
    List.filter_cons_of_neg (by rw [hs]; exact Bool.false_ne_true)]

/-- No object begins in the later regions of a run. -/
theorem liveStartsFrom_of_run {words : WordCount} (hrun : h.HumongousRun index words)
    (hg : h.Gridded) (hlt : index < h.regions.size) :
    h.liveStartsFrom b (index + 1)
      = h.liveStartsFrom b (index + (h.layout.regionsFor words).toNat) := by
  obtain ⟨-, hpos, hin⟩ := hrun.inside hg hlt
  generalize hn : (h.layout.regionsFor words).toNat = n at *
  unfold liveStartsFrom
  rw [show h.regions.size - (index + 1) = n - 1 + (h.regions.size - (index + n)) by omega,
    ← List.range'_append_1, List.filter_append, show index + 1 + (n - 1) = index + n by omega]
  rw [List.filter_eq_nil_iff.2, List.nil_append]
  intro i hi
  obtain ⟨h1, h2⟩ := List.mem_range'_1.1 hi
  unfold Heap.isLiveStart
  rw [hrun.later i (by omega) (by omega)]
  simp

theorem head?_liveStartsFrom_of_other (hs : h.isLiveStart b index = false) :
    (h.liveStartsFrom b index).head? ≠ some index := by
  intro hh
  have hmem := List.mem_of_mem_head? hh
  unfold liveStartsFrom at hmem
  rw [List.mem_filter, hs] at hmem
  exact Bool.false_ne_true hmem.2

/-- The moves of all live humongous objects once the part is filled up to `tops`. -/
def rehoused (h : Heap) (t : ClassTable) (b : Bitmap) (part : List Nat) (tops : Nat → Address) :
    List HumongousMove :=
  h.rehouse t (h.isVacant part tops) h.regions.size 0 (h.liveStartsFrom b 0) []

end Heap

/-- A region of the table can take part of a humongous object if it is vacant. -/
theorem Heap.Enlisted.isRoom {h g : Heap} {part : List Nat} {tops : Nat → Address}
    (hen : h.Enlisted part tops g) (ht : h.Tabled)
    (hidle : ∀ i < h.regions.size, (h.region i).Idle)
    (hregular : ∀ i ∈ part, (h.region i).kind = .regular) {i : Nat} (hi : i < h.regions.size) :
    (g.region i).isRoom = h.isVacant part tops i := by
  unfold Region.isRoom Heap.isVacant Region.isFree
  by_cases hmem : i ∈ part
  · rw [hen.member i hmem]
    have hkind : ((h.region i).enlisted (tops i)).kind = .regular := hregular i hmem
    rw [hkind, hregular i hmem, List.contains_iff_mem.2 hmem, ← ht.bottom i hi]
    rfl
  · rw [hen.other i hmem, (hidle i hi).compacting]
    have hnot : part.contains i = false := by
      rw [Bool.eq_false_iff]
      exact fun hh => hmem (List.contains_iff_mem.1 hh)
    rw [hnot]
    cases (h.region i).kind <;> rfl

namespace Rehousing

variable {h g : Heap} {t : ClassTable} {b : Bitmap} {live : Address → Prop} {part : List Nat}
  {e : Encoding} {tops : Nat → Address} {bs : List Berth} {index : Nat} {room : List Nat}
  {vs : List HumongousMove} {n : Announced} {s : Relocation}

/-- From any region on the pass goes through. -/
theorem placeAllFrom (hs : Surveyed h t b live) (hp : h.Part part) (hen : h.Enlisted part tops g)
    (hlaid : h.Laid t part tops (part.flatMap (h.liveIn b)) bs)
    (hidle : ∀ i < h.regions.size, (h.region i).Idle)
    (hregular : ∀ i ∈ part, (h.region i).kind = .regular) (fuel : Nat) {index : Nat}
    {room : List Nat} {vs : List HumongousMove} {n : Announced} {s : Relocation}
    (hr : Rehousing h t b live part e tops bs g index room vs n s) {q : CompactionPoint}
    (hq : q.regions.toList = room) (hfuel : h.regions.size ≤ fuel + index) :
    ∃ new s' n' index' room',
      Relocation.placeAllFrom t fuel index (h.liveStartsFrom b index) q s = .ok (new, s') ∧
      new = h.rehouse t (h.isVacant part tops) fuel index (h.liveStartsFrom b index) room ∧
      Rehousing h t b live part e tops bs g index' room' (vs ++ new) n' s' := by
  induction fuel generalizing index room vs n s q with
  | zero => exact ⟨[], s, n, index, room, rfl, rfl, by rw [List.append_nil]; exact hr⟩
  | succ fuel ih =>
    unfold Relocation.placeAllFrom Heap.rehouse
    by_cases hlt : index < h.regions.size
    · rw [if_pos (show index < s.heap.regions.size by rw [hr.size]; exact hlt), if_pos hlt]
      cases hstart : h.isLiveStart b index with
      | true =>
        obtain ⟨hlive, c, words, ho, hrun⟩ := hs.humongous hlt hstart
        obtain ⟨hsize, -⟩ := hs.size_moveTo index hlive
        obtain ⟨hobject, hkept⟩ := hr.object hs hp hen hlaid hlt hlive
        have hsize' : s.heap.humongousSize t index = .ok (h.moveTo t index index).size := by
          unfold Heap.humongousSize
          rw [hobject]
          exact hkept.size.trans hsize
        rw [ho.size, Except.ok.injEq] at hsize
        rw [hsize] at hrun
        obtain ⟨-, hpos, -⟩ := hrun.inside hs.tabled.toGridded hlt
        have hhead : (h.liveStartsFrom b index).head? = some index := by
          rw [Heap.liveStartsFrom_of_start hlt hstart]
          rfl
        have htail : (h.liveStartsFrom b index).tail
            = h.liveStartsFrom b (index + (h.moveTo t index index).regions h.layout) := by
          rw [Heap.liveStartsFrom_of_start hlt hstart]
          exact Heap.liveStartsFrom_of_run hrun hs.tabled.toGridded hlt
        have hfuel' : h.regions.size
            ≤ fuel + (index + (h.moveTo t index index).regions h.layout) := by
          unfold HumongousMove.regions
          omega
        rw [if_pos hhead, if_pos hhead, htail]
        rcases hr.place hs hp hen hlaid hlt hstart hq with
          ⟨hfor, hplace⟩ | ⟨start, n', q', s', hfor, hplace, hroom, hr'⟩
        · obtain ⟨new, s'', n'', index', room', hrun', hnew, hr''⟩ :=
            ih (hr.mono (Nat.le_add_right ..)) hq hfuel'
          rw [hfor]
          refine ⟨new, s'', n'', index', room', ?_, hnew, hr''⟩
          refine bind_eq_ok hsize' (bind_eq_ok hplace ?_)
          dsimp only
          rw [hr.layout]
          exact bind_eq_ok hrun' rfl
        · obtain ⟨new, s'', n'', index', room', hrun', hnew, hr''⟩ := ih hr' rfl hfuel'
          rw [hfor]
          refine ⟨h.moveTo t index (room[start]?.getD 0) :: new, s'', n'', index', room', ?_, ?_, ?_⟩
          · refine bind_eq_ok hsize' (bind_eq_ok hplace ?_)
            dsimp only
            rw [hr'.layout]
            exact bind_eq_ok hrun' rfl
          · rw [hnew, hroom]
          · rw [List.append_assoc] at hr''
            exact hr''
      | false =>
        rw [if_neg (Heap.head?_liveStartsFrom_of_other hstart), if_neg (Heap.head?_liveStartsFrom_of_other hstart),
          Heap.liveStartsFrom_of_other hlt hstart, hr.region_ahead (Nat.le_refl _),
          hen.isRoom hs.tabled hidle hregular hlt]
        obtain ⟨hq', hr'⟩ := hr.pass hq s.heap
        exact ih hr' hq' (by omega)
    · rw [if_neg (show ¬ index < s.heap.regions.size by rw [hr.size]; exact hlt), if_neg hlt]
      exact ⟨[], s, n, index, room, rfl, rfl, by rw [List.append_nil]; exact hr⟩

/-- The pass over all regions goes through. -/
theorem placeAll {n : Announced} {s : Relocation} {kept : Nat} {starts : StartTable}
    (hs : Surveyed h t b live) (hm : CompactionPoint.Mustered h t b live part n)
    (hlists : n.Lists h b part)
    (hlodged : CompactionPoint.Lodged h t part (part.flatMap (h.liveIn b)) n e starts s kept tops bs)
    (hidle : ∀ i < h.regions.size, (h.region i).Idle)
    (hregular : ∀ i ∈ part, (h.region i).kind = .regular) :
    ∃ s' n' index room,
      s.placeAllHumongous t (h.liveStartsFrom b 0) = .ok (h.rehoused t b part tops, s') ∧
      Rehousing h t b live part e tops bs s.heap index room (h.rehoused t b part tops) n' s' := by
  have hstart : Rehousing h t b live part e tops bs s.heap 0 [] [] n s := by
    refine ⟨⟨?_, .nil, .nil, ?_⟩, ?_, hlodged.enlisted.layout, hlodged.enlisted.size,
      hlodged.enlisted.headers, rfl, ?_, fun _ _ => rfl, hlists.layout, hlists.compact,
      fun i hi _ => hlists.other i hi, hm.total, ?_, hlodged.encoding, ?_, .nil, ?_⟩
    · simp
    · simp
    · simp
    · simp
    · rw [List.map_nil, List.append_nil]
      exact hlodged.records
    · rw [List.map_nil, List.append_nil]
      exact hlodged.saved
    · simp
  have hsize : s.heap.regions.size = h.regions.size := hlodged.enlisted.size
  obtain ⟨new, s', n', index, room, hrun, rfl, hr⟩ := placeAllFrom hs hm.isPart
    hlodged.enlisted hlodged.laid hidle hregular h.regions.size hstart (q := .empty) rfl
    (Nat.le_add_right _ _)
  refine ⟨s', n', index, room, ?_, hr⟩
  unfold Relocation.placeAllHumongous
  rw [hsize]
  exact hrun

end Rehousing

/-- Planning finds the live humongous objects in the regions after the dense prefix. -/
theorem Planned.humongous_eq {h₀ h : Heap} {b : Bitmap} {p : Plan}
    (hp : Planned h₀ b p h) : p.humongous = h.liveStartsFrom b 0 := by
  have hsize := hp.ground.size
  have hle := hp.dense_le
  -- a run that planning frees is not live, and any other region is as it was
  have hsame : ∀ i < h₀.regions.size, h.isLiveStart b i = h₀.isLiveStart b i := by
    intro i hi
    unfold Heap.isLiveStart
    by_cases hdead : h₀.DeadRun b i
    · rw [hp.freed i hi hdead]
      obtain ⟨first, words, hin, hunmarked⟩ := hdead
      obtain ⟨hrun, h1, h2⟩ := hin
      rcases Nat.eq_or_lt_of_le h1 with rfl | hlt
      · rw [hunmarked, Bool.and_false]
        rfl
      · rw [hrun.later i hlt h2]
        rfl
    · rw [hp.kept i hdead]
  have hdense : (List.range' 0 p.densePrefix).filter (h.isLiveStart b) = [] := by
    refine List.filter_eq_nil_iff.2 fun i hi => ?_
    have hlt := (List.mem_range'_1.1 hi).2
    rw [hsame i (by omega)]
    unfold Heap.isLiveStart
    rw [hp.dense i (by omega)]
    simp
  rw [hp.humongous]
  unfold Heap.liveStartsFrom
  rw [hsize, show h₀.regions.size - 0 = p.densePrefix + (h₀.regions.size - p.densePrefix) by omega,
    ← List.range'_append_1, List.filter_append, hdense, List.nil_append, Nat.zero_add]
  refine (List.filter_congr fun i hi => ?_).symm
  have := List.mem_range'_1.1 hi
  exact hsame i (by omega)

end MarkCompact
