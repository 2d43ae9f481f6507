/-
MarkCompact/Proofs/ParallelMoves.lean

How a parallel collection moves the objects of its regions.

New addresses are looked up in what has been recorded; looking up needs the mark of the object
and nothing else of the memory.  The regions are emptied in their order.  What has been written
before lies below the target of the next object, and so below that object, which is therefore
read as it was.  A target lies in the region itself or in one before it, which is ready by
then: no object has to wait in a shadow.

Main results: `adjust_spec` (references follow the places) and `compact_spec` (every object of
the part is moved to its place, and nothing else has changed).
-/
import Mathlib.Data.List.SplitBy
import MarkCompact.Proofs.ParallelCycle

namespace MarkCompact

open Forwarding

namespace ParallelCycle

variable {h : Heap} {t : ClassTable} {b : Bitmap} {live : Address → Prop} {part : List Nat}
  {n : Announced} {e : Encoding} {starts : StartTable} {kept : Nat} {tops : Nat → Address}
  {bs : List Berth} {vs : List HumongousMove}

/-! ### Adjust -/

/-- The marks that have been kept aside are those of live objects. -/
theorem Forwarded.live_saved {s : Relocation}
    (hf : Forwarded h t b live part n e starts kept tops bs vs s) :
    ∀ x ∈ s.saved.toList, live x.object := by
  intro x hx
  rw [hf.saved] at hx
  split at hx
  · unfold Heap.savedMarks at hx
    obtain ⟨a, ha, rfl⟩ := List.mem_map.1 hx
    obtain ⟨r, hr, rfl⟩ := List.mem_map.1 (List.mem_filter.1 ha).1
    exact hf.live_of_mem hr
  · cases hx

/-- The references of all live objects, the roots and the marks that have been kept aside
follow the places. -/
theorem adjust_spec {c : ParallelCycle} {roots : Roots} (hclasses : c.classes = t)
    (hbitmap : c.bitmap = b) (hf : Forwarded h t b live part n e starts kept tops bs vs c.state)
    (hroots : ∀ r ∈ roots.toList, live r ∨ h.refersInside r = false) :
    ∃ k g, c.adjust roots = .ok (k, roots.map (Berth.placeOf (h.places bs vs)),
        { c with state :=
          { c.state with
            heap := g
            saved := c.state.saved.map fun x =>
              { x with object := Berth.placeOf (h.places bs vs) x.object } } }) ∧
      c.state.heap.Adjusted g ((h.liveList b).flatMap (h.fieldsAt t))
        (Berth.placeOf (h.places bs vs)) := by
  have hs := hf.housed.surveyed
  have huse := hf.sameUse
  have hrefers : ∀ a, c.state.heap.refersInside a = h.refersInside a := fun a => by
    unfold Heap.refersInside
    rw [Heap.contains_congr hf.layout hf.records.span]
  have hfollows : c.state.heap.Follows t live (h.fieldsAt t)
      (fun g a => c.state.forwarding.forwardee g.memory a) (Berth.placeOf (h.places bs vs)) := by
    refine hs.follows hf.layout hf.records.span (fun a ha => (hf.headerKept ha).infoOf) ?_ ?_
      fun a ha => hf.housed.placeOf_eq ha
    · -- recording has written marks only
      intro a ha x hx
      refine hf.records.elsewhere x fun hmem => ?_
      obtain ⟨r, hr, rfl⟩ := List.mem_map.1 hmem
      have hmark := hs.header_notMem_fields (hf.live_of_mem hr) ha t.headerWords_pos
      rw [Address.nth_zero] at hmark
      exact hmark hx
    · intro m hheaders a ha
      have hmark : m.loadMark a = c.state.heap.memory.loadMark a := by
        have h0 := hheaders a ha 0 t.headerWords_pos
        rw [Address.nth_zero] at h0
        unfold Memory.loadMark
        rw [h0]
      refine ⟨_, hf.forwardee ha hmark, ?_⟩
      split
      · rename_i hstays
        exact hstays.symm
      · rfl
  obtain ⟨k, g, hrun, hadj⟩ := Heap.adjustAll_spec (b := b) hfollows
    (fun a ha => (hs.mem_liveList a).1 (by rwa [← huse.liveList])) (by
      rw [huse.liveList]
      exact hs.nodup_fields) fun i hi hempty => by
      rw [huse.liveIn]
      rw [huse.size] at hi
      refine hs.liveIn_of_empty hi ?_
      unfold Region.isFree Region.isEmpty at hempty ⊢
      rwa [(huse.use i).1, (huse.use i).2, (huse.extent i).2.1] at hempty
  rw [huse.liveList] at hadj
  have hroots : ∀ r ∈ roots.toList, live r ∨ c.state.heap.refersInside r = false := fun r hr => by
    rw [hrefers]
    exact hroots r hr
  have howners := Heap.adjustOwners_spec hfollows hadj (fun x hx => by
    obtain ⟨a, ha, hx⟩ := List.mem_flatMap.1 hx
    exact ⟨a, (hs.mem_liveList a).1 ha, hx⟩) hroots hf.live_saved
  refine ⟨k, g, ?_, hadj⟩
  unfold adjust
  rw [hclasses, hbitmap]
  exact bind_eq_ok hrun (bind_eq_ok howners rfl)

/-! ### Planned moves -/

end ParallelCycle

theorem MoveRecord.countAll_append (rs rs' : List MoveRecord) (c : CopyCount) :
    countAll (rs ++ rs') c = countAll rs' (countAll rs c) :=
  List.foldl_append ..

theorem MoveRecord.objects_countAll (rs : List MoveRecord) (c : CopyCount) :
    (countAll rs c).objects = c.objects + rs.length := by
  induction rs generalizing c with
  | nil => rfl
  | cons r rs ih =>
    rw [countAll, List.foldl_cons, ← countAll, ih, List.length_cons]
    show c.objects + 1 + rs.length = _
    omega

namespace Heap

/-- The planned move of an object, the mark of which is now read in `m`. -/
def recordFor (h : Heap) (t : ClassTable) (m : Memory) (intact : Bool) (move : Address → Address)
    (a : Address) : MoveRecord :=
  ⟨a, move a, (h.wordsAt t a).toUInt64, (h.movedWords t a).toUInt64,
    relocatedMark (m.loadMark a) h.compactHeaders (h.growsAt a) intact⟩

/-- The planned moves of those of some objects that go elsewhere. -/
def recordsOf (h : Heap) (t : ClassTable) (m : Memory) (intact : Bool) (move : Address → Address)
    (as : List Address) : List MoveRecord :=
  (as.filter fun a => move a != a).map (h.recordFor t m intact move)

variable {h : Heap} {t : ClassTable} {b : Bitmap} {live : Address → Prop} {part : List Nat}
  {tops : Nat → Address} {bs : List Berth} {vs : List HumongousMove} {m : Memory} {intact : Bool}
  {move : Address → Address}

theorem mem_recordsOf {as : List Address} {r : MoveRecord} :
    r ∈ h.recordsOf t m intact move as ↔
      ∃ a ∈ as, move a ≠ a ∧ h.recordFor t m intact move a = r := by
  unfold recordsOf
  simp only [List.mem_map, List.mem_filter, bne_iff_ne, and_assoc]

theorem recordsOf_append (as as' : List Address) :
    h.recordsOf t m intact move (as ++ as')
      = h.recordsOf t m intact move as ++ h.recordsOf t m intact move as' := by
  unfold recordsOf
  rw [List.filter_append, List.map_append]

/-- As many objects of the part move as have berths elsewhere. -/
theorem Housed.length_recordsOf (hh : h.Housed t b live part tops bs vs) :
    (h.recordsOf t m intact (Berth.placeOf (h.places bs vs)) (part.flatMap (h.liveIn b))).length
      = (Berth.moves bs).length := by
  have hplace : ∀ p ∈ bs, Berth.placeOf (h.places bs vs) p.object = p.target := fun p hp =>
    Berth.placeOf_of_mem hh.nodup (List.mem_append_left _ hp)
  unfold recordsOf Berth.moves
  rw [List.length_map, List.length_map, ← hh.laid.objects, List.filter_map, List.length_map]
  refine congrArg List.length (List.filter_congr fun p hp => ?_)
  show (Berth.placeOf (h.places bs vs) p.object != p.object) = p.isMoved
  rw [hplace p hp]
  rfl

/-- What a planned move reads and writes. -/
theorem words_recordFor (hs : Surveyed h t b live) {a : Address} (ha : live a) (m : Memory)
    (intact : Bool) (move : Address → Address) :
    (h.recordFor t m intact move a).size.toNat = h.wordsAt t a ∧
      (h.recordFor t m intact move a).copySize.toNat = h.movedWords t a := by
  obtain ⟨size, moved, -, hsize, -, hmoved, -⟩ := hs.copySize ha
  constructor
  · show (h.wordsAt t a).toUInt64.toNat = _
    rw [← hsize]
    exact congrArg UInt64.toNat UInt64.ofNat_toNat
  · show (h.movedWords t a).toUInt64.toNat = _
    rw [← hmoved]
    exact congrArg UInt64.toNat UInt64.ofNat_toNat

theorem words_transfer_recordFor (hs : Surveyed h t b live) {a : Address} (ha : live a)
    (m' : Memory) :
    ((h.recordFor t m intact move a).transfer m').words = h.movedWords t a := by
  obtain ⟨-, hcopy⟩ := words_recordFor hs ha m intact move
  exact hcopy

/-- A planned move stays inside the memory. -/
theorem Housed.sound_recordFor (hh : h.Housed t b live part tops bs vs) {a : Address} (ha : live a)
    (hmoves : Berth.placeOf (h.places bs vs) a ≠ a) {m' : Memory} (hspan : h.memory.SameSpan m') :
    (h.recordFor t m intact (Berth.placeOf (h.places bs vs)) a).Sound m' := by
  have hs := hh.surveyed
  have hl := hs.tabled.layout
  obtain ⟨hsize, hcopy⟩ := words_recordFor hs ha m intact
    (Berth.placeOf (h.places bs vs))
  obtain ⟨f, k, hk, hin, hwithin, -⟩ := hh.stretch ha
  have h1 := hwithin.bottom
  have h2 := hwithin.stop
  unfold wordsFrom at h2
  rw [if_neg hmoves] at h2
  have hbase := hl.base_le_bottom (show f ≤ h.layout.numRegions by omega)
  have hstop := hl.bottom_le_stop hin
  have hwords := Surveyed.wordsAt_le_movedWords h t a
  have hcover : ∀ {x : Address} {k : Nat}, h.layout.base.toNat ≤ x.toNat →
      x.toNat + 8 * k ≤ h.layout.stop.toNat → m'.Covers x k :=
    fun h3 h4 => hspan.covers (hs.mapped.covers_of_grid hl h3 h4)
  refine ⟨?_, ?_, ?_, ?_⟩
  · rw [hsize]
    exact hcover (hs.isWord ha).bottom (hs.end_le ha)
  · rw [hcopy]
    exact hcover (show _ ≤ (Berth.placeOf (h.places bs vs) a).toNat by omega) (by
      show (Berth.placeOf (h.places bs vs) a).toNat + _ ≤ _
      omega)
  · rw [hsize]
    exact hs.wordsAt_pos ha
  · rw [hsize, hcopy]
    omega

/-- An object of the part is moved to before all places of later ones. -/
theorem Housed.end_recordFor (hh : h.Housed t b live part tops bs vs) (m : Memory)
    (intact : Bool) {a c : Address}
    (ha : a ∈ part.flatMap (h.liveIn b)) (hmoves : Berth.placeOf (h.places bs vs) a ≠ a)
    (hc : c ∈ part.flatMap (h.liveIn b)) (hlt : a.toNat < c.toNat) :
    (Berth.placeOf (h.places bs vs) a).toNat
        + 8 * (h.recordFor t m intact (Berth.placeOf (h.places bs vs)) a).copySize.toNat
      ≤ (Berth.placeOf (h.places bs vs) c).toNat := by
  obtain ⟨hla, hia⟩ := hh.mem_objects.1 ha
  obtain ⟨hlc, hic⟩ := hh.mem_objects.1 hc
  have hbehind := hh.laid.apart hh.ascending ha hc hlt
  rw [← hh.placeOf_part hla hia, ← hh.placeOf_part hlc hic] at hbehind
  unfold wordsFrom at hbehind
  rw [if_neg hmoves] at hbehind
  rw [(words_recordFor hh.surveyed hla _ _ _).2]
  exact hbehind

/-- The moves of the objects of the part do not disturb each other if they are made in the order
of the objects. -/
theorem Housed.clear_recordsOf (hh : h.Housed t b live part tops bs vs) (m : Memory)
    (intact : Bool) :
    (h.recordsOf t m intact (Berth.placeOf (h.places bs vs))
      (part.flatMap (h.liveIn b))).Pairwise MoveRecord.Clear := by
  unfold recordsOf
  rw [List.pairwise_map]
  refine (hh.ascending.filter _).imp_of_mem fun {a c} ha hc hlt => ?_
  obtain ⟨ha, hmoves⟩ := List.mem_filter.1 ha
  obtain ⟨hc, -⟩ := List.mem_filter.1 hc
  have hbehind := hh.end_recordFor m intact ha (bne_iff_ne.1 hmoves) hc hlt
  exact ⟨.inl (hbehind.trans (hh.placeOf_le (hh.mem_objects.1 hc).1)), .inl hbehind⟩

/-- The moves of the objects of the part leave all others alone. -/
theorem Housed.load_outside (hh : h.Housed t b live part tops bs vs) {m₁ m₂ : Memory}
    (hmoved : m₁.Transferred m₂ ((h.recordsOf t m intact (Berth.placeOf (h.places bs vs))
      (part.flatMap (h.liveIn b))).map (·.transfer m₁))) {a : Address} (ha : live a)
    (hout : h.layout.indexOf a ∉ part) {k : Nat} (hk : k < h.wordsAt t a) :
    m₂.load (a.nth k) = m₁.load (a.nth k) := by
  have hs := hh.surveyed
  refine hmoved.load_nth (hs.fits ha) (fun x hx => ?_) hk
  obtain ⟨r, hr, rfl⟩ := List.mem_map.1 hx
  obtain ⟨q, hq, hmoves, rfl⟩ := mem_recordsOf.1 hr
  obtain ⟨hlive, hin⟩ := hh.mem_objects.1 hq
  obtain ⟨i, hi, hwithin, -⟩ := hh.stretch_part hlive hin
  -- the place of an object of the part lies in a region of it
  have hregion := hs.apart_region ha (hh.isPart.inside i hi) (hh.isPart.regular i hi) (by
    rintro rfl
    exact hout hi)
  rw [Layout.regionStop_eq_bottom_succ] at hregion
  have h1 := hwithin.bottom
  have h2 := hwithin.stop
  rw [← hh.placeOf_part hlive hin] at h1 h2
  unfold wordsFrom at h2
  rw [if_neg hmoves] at h2
  rw [words_transfer_recordFor hs hlive]
  show (Berth.placeOf (h.places bs vs) q).Apart _ _ _
  unfold Address.Apart
  omega

/-- An object of the part goes to no later region of it. -/
theorem Housed.indexOf_placeOf (hh : h.Housed t b live part tops bs vs) {a : Address} (ha : live a)
    (hin : h.layout.indexOf a ∈ part) :
    h.layout.indexOf (Berth.placeOf (h.places bs vs) a) ∈ part ∧
      h.layout.indexOf (Berth.placeOf (h.places bs vs) a) ≤ h.layout.indexOf a := by
  have hs := hh.surveyed
  obtain ⟨j, hj, hwithin, -⟩ := hh.stretch_part ha hin
  rw [← hh.placeOf_part ha hin] at hwithin
  have hlt := hh.isPart.inside j hj
  have hplace : h.layout.indexOf (Berth.placeOf (h.places bs vs) a) = j :=
    hwithin.indexOf hs.tabled.layout (by rwa [← hs.tabled.count])
      (Nat.lt_of_lt_of_le (hs.wordsAt_pos ha) (h.wordsFrom_le t a _).1)
  rw [hplace]
  refine ⟨hj, ?_⟩
  by_contra hgt
  have hbelow := (hs.lt_bottom_iff ha hlt).2 (by omega)
  rw [hs.tabled.bottom j hlt] at hbelow
  have hleft := hh.placeOf_le ha
  have hbottom := hwithin.bottom
  omega

theorem filterMap_recordFor (as : List Address) :
    (as.filterMap fun a => if move a = a then none else some (h.recordFor t m intact move a))
      = h.recordsOf t m intact move as := by
  unfold recordsOf
  induction as with
  | nil => rfl
  | cons a as ih =>
    by_cases hstays : move a = a
    · simp [hstays, ih]
    · simp [hstays, ih]

end Heap

namespace ParallelCycle

variable {h : Heap} {t : ClassTable} {b : Bitmap} {live : Address → Prop} {part : List Nat}
  {n : Announced} {e : Encoding} {starts : StartTable} {kept : Nat} {tops : Nat → Address}
  {bs : List Berth} {vs : List HumongousMove}

/-- The move of an object is planned as long as its header is as forwarding has left it. -/
theorem Forwarded.recordOf {s s' : Relocation}
    (hf : Forwarded h t b live part n e starts kept tops bs vs s)
    (hforwarding : s'.forwarding = s.forwarding)
    (hheaders : s'.heap.compactHeaders = h.compactHeaders) {a : Address} (ha : live a)
    (hsame : ∀ k < t.headerWords.toNat,
      s'.heap.memory.load (a.nth k) = s.heap.memory.load (a.nth k)) :
    ParallelCycle.recordOf s' t a = .ok (if Berth.placeOf (h.places bs vs) a = a then none
      else some (h.recordFor t s.heap.memory (!s.forwarding.overwritesMarks)
        (Berth.placeOf (h.places bs vs)) a)) := by
  have hs := hf.housed.surveyed
  have hmark : s'.heap.memory.loadMark a = s.heap.memory.loadMark a := by
    have h0 := hsame 0 t.headerWords_pos
    rw [Address.nth_zero] at h0
    unfold Memory.loadMark
    rw [h0]
  have hkept : h.HeaderKept t a s'.heap.memory := (hf.headerKept ha).congr hsame
  obtain ⟨size, moved, hsize, hwords, hcopy, hmoved, hgrown⟩ := hs.copySize ha
  unfold ParallelCycle.recordOf
  refine bind_eq_ok (by rw [hforwarding]; exact hf.forwardee ha hmark) ?_
  by_cases hstays : Berth.placeOf (h.places bs vs) a = a
  · rw [if_pos hstays, if_pos hstays]
    rfl
  · rw [if_neg hstays, if_neg hstays]
    refine bind_eq_ok (hkept.size.trans hsize)
      (bind_eq_ok ((hkept.copySize hheaders hs.headers).trans hcopy) ?_)
    have h1 : (h.wordsAt t a).toUInt64 = size := by
      rw [← hwords]
      exact UInt64.ofNat_toNat
    have h2 : (h.movedWords t a).toUInt64 = moved := by
      rw [← hmoved]
      exact UInt64.ofNat_toNat
    have h3 : decide (size < moved) = h.growsAt a := by
      rw [Bool.eq_iff_iff, decide_eq_true_eq]
      exact hgrown
    unfold Heap.recordFor
    rw [h1, h2, h3.symm, hmark, hforwarding, hheaders]
    rfl

/-- Adjusting leaves the regions as forwarding has left them. -/
theorem Forwarded.adjusted {s : Relocation}
    (hf : Forwarded h t b live part n e starts kept tops bs vs s) {g : Heap} {slots : List Address}
    {move : Address → Address} (hadj : s.heap.Adjusted g slots move) :
    g.layout = h.layout ∧ g.compactHeaders = h.compactHeaders ∧
      g.regions.size = h.regions.size ∧ ∀ i, g.region i = s.heap.region i := by
  rw [hadj.heap]
  exact ⟨hf.layout, hf.headers, hf.size, fun _ => rfl⟩

/-! ### Compact -/

/-- Groups of moves into regions that are ready are made in place. -/
theorem foldlM_moveGroup {source : Nat} {groups : List (List MoveRecord)} {c : ParallelCycle}
    {m : Memory}
    (hdirect : ∀ r ∈ groups.flatten, c.state.heap.layout.indexOf r.target = source ∨
      (c.state.heap.region (c.state.heap.layout.indexOf r.target)).ready = true)
    (hcopy : MoveRecord.copyAll groups.flatten c.state.heap.memory = .ok m) :
    groups.foldlM (moveGroup source) c
      = .ok { c.withHeap (c.state.heap.withMemory m) with
        copied := MoveRecord.countAll groups.flatten c.copied } := by
  induction groups generalizing c with
  | nil =>
    obtain rfl : c.state.heap.memory = m := Except.ok.inj hcopy
    rfl
  | cons group groups ih =>
    rw [List.flatten_cons] at hdirect hcopy
    unfold MoveRecord.copyAll at hcopy
    rw [List.foldlM_append] at hcopy
    cases hfirst : MoveRecord.copyAll group c.state.heap.memory with
    | error fault =>
      unfold MoveRecord.copyAll at hfirst
      rw [hfirst] at hcopy
      cases hcopy
    | ok m₁ =>
      have hgroup : moveGroup source c group
          = .ok { c.withHeap (c.state.heap.withMemory m₁) with
            copied := MoveRecord.countAll group c.copied } := by
        cases group with
        | nil =>
          obtain rfl : c.state.heap.memory = m₁ := Except.ok.inj hfirst
          rfl
        | cons r rs =>
          have hready := hdirect r (by simp)
          unfold moveGroup
          dsimp only
          rw [if_pos (by simpa using hready)]
          exact bind_eq_ok hfirst rfl
      unfold MoveRecord.copyAll at hfirst
      rw [hfirst] at hcopy
      rw [List.foldlM_cons]
      refine bind_eq_ok hgroup ?_
      rw [ih (c := { c.withHeap (c.state.heap.withMemory m₁) with
          copied := MoveRecord.countAll group c.copied })
        (fun r hr => hdirect r (List.mem_append_right _ hr)) hcopy, List.flatten_cons,
        MoveRecord.countAll_append]
      rfl

/-- The regions `is` of the cycle `c₀` have been emptied, which is now `c`. -/
structure Emptied (h : Heap) (t : ClassTable) (b : Bitmap) (m₁ : Memory) (intact : Bool)
    (move : Address → Address) (c₀ : ParallelCycle) (is : List Nat) (c : ParallelCycle) :
    Prop where
  cycle : ∃ heap, c = { c₀.withHeap heap with
    copied := MoveRecord.countAll (h.recordsOf t m₁ intact move (is.flatMap (h.liveIn b)))
      c₀.copied }
  layout : c.state.heap.layout = c₀.state.heap.layout
  headers : c.state.heap.compactHeaders = c₀.state.heap.compactHeaders
  starts : c.state.heap.starts = c₀.state.heap.starts
  size : c.state.heap.regions.size = c₀.state.heap.regions.size
  ready : ∀ i ∈ is, c.state.heap.region i = { c₀.state.heap.region i with ready := true }
  other : ∀ i, i ∉ is → c.state.heap.region i = c₀.state.heap.region i
  memory : c₀.state.heap.memory.Transferred c.state.heap.memory
    ((h.recordsOf t m₁ intact move (is.flatMap (h.liveIn b))).map
      (·.transfer c₀.state.heap.memory))

namespace Emptied

variable {s : Relocation} {slots : List Address} {c₀ c : ParallelCycle} {intact : Bool}
  {is rest : List Nat} {i : Nat}

/-- What has not been reached is as it was after adjusting. -/
theorem load (hf : Forwarded h t b live part n e starts kept tops bs vs s)
    (hc : Emptied h t b s.heap.memory intact (Berth.placeOf (h.places bs vs)) c₀ is c)
    (hpart : part = is ++ i :: rest) {a : Address} (ha : a ∈ h.liveIn b i) {k : Nat}
    (hk : k < h.wordsAt t a) :
    c.state.heap.memory.load (a.nth k) = c₀.state.heap.memory.load (a.nth k) := by
  have hh := hf.housed
  have hasc := hh.ascending
  rw [hpart, List.flatMap_append, List.flatMap_cons] at hasc
  have hmem : ∀ q ∈ is.flatMap (h.liveIn b), q ∈ part.flatMap (h.liveIn b) := by
    intro q hq
    rw [hpart, List.flatMap_append]
    exact List.mem_append_left _ hq
  have hmema : a ∈ part.flatMap (h.liveIn b) := by
    rw [hpart, List.flatMap_append, List.flatMap_cons]
    exact List.mem_append_right _ (List.mem_append_left _ ha)
  have hlive := (hh.mem_objects.1 hmema).1
  refine hc.memory.load_nth (hh.surveyed.fits hlive) (fun x hx => ?_) hk
  obtain ⟨r, hr, rfl⟩ := List.mem_map.1 hx
  obtain ⟨q, hq, hmoves, rfl⟩ := Heap.mem_recordsOf.1 hr
  have hlt := (List.pairwise_append.1 hasc).2.2 q hq a (List.mem_append_left _ ha)
  have hend := hh.end_recordFor s.heap.memory intact (hmem q hq) hmoves hmema hlt
  exact .inl (hend.trans (hh.placeOf_le hlive))

/-- A region whose turn has come is as forwarding has left it. -/
theorem region_next (hf : Forwarded h t b live part n e starts kept tops bs vs s)
    {move : Address → Address} (hadj : s.heap.Adjusted c₀.state.heap slots move)
    (hc : Emptied h t b s.heap.memory intact move c₀ is c) (hpart : part = is ++ i :: rest) :
    i ∉ is ∧ c.state.heap.region i = (h.region i).enlisted (tops i) := by
  obtain ⟨-, -, -, hregion⟩ := hf.adjusted hadj
  have hasc := hf.housed.isPart.ascending
  rw [hpart] at hasc
  have hnew : i ∉ is := fun hin =>
    absurd ((List.pairwise_append.1 hasc).2.2 i hin i (by simp)) (Nat.lt_irrefl i)
  refine ⟨hnew, ?_⟩
  rw [hc.other i hnew, hregion]
  exact hf.member i (by simp [hpart])

/-- All moves out of a region are planned before the first one is made. -/
theorem planned (hf : Forwarded h t b live part n e starts kept tops bs vs s)
    (hclasses : c₀.classes = t) (hbitmap : c₀.bitmap = b)
    (hforwarding : c₀.state.forwarding = s.forwarding)
    (hadj : s.heap.Adjusted c₀.state.heap slots (Berth.placeOf (h.places bs vs)))
    (hslots : ∀ x ∈ slots, ∃ e, live e ∧ x ∈ h.fieldsAt t e)
    (hc : Emptied h t b s.heap.memory (!s.forwarding.overwritesMarks)
      (Berth.placeOf (h.places bs vs)) c₀ is c) (hpart : part = is ++ i :: rest) :
    (c.bitmap.markedIn (c.state.heap.region i).bottom (c.state.heap.region i).top).filterMapM
        (ParallelCycle.recordOf c.state c.classes)
      = .ok (h.recordsOf t s.heap.memory (!s.forwarding.overwritesMarks)
        (Berth.placeOf (h.places bs vs)) (h.liveIn b i)) := by
  have hs := hf.housed.surveyed
  have hlt := hf.housed.isPart.inside i (by simp [hpart])
  obtain ⟨-, hheaders, -, -⟩ := hf.adjusted hadj
  have hcycle : c.classes = t ∧ c.bitmap = b ∧ c.state.forwarding = s.forwarding := by
    obtain ⟨heap, rfl⟩ := hc.cycle
    exact ⟨hclasses, hbitmap, hforwarding⟩
  rw [hcycle.1, hcycle.2.1, (hc.region_next hf hadj hpart).2, ← Heap.filterMap_recordFor]
  refine filterMapM_ok fun a ha => ?_
  have hlive := ((hs.mem_liveIn hlt a).1 ha).1
  refine hf.recordOf hcycle.2.2 (hc.headers.trans hheaders) hlive fun k hk => ?_
  have hle := hs.headerWords_le hlive
  rw [hc.load hf hpart ha (by omega), hs.load_header_adjusted hadj hslots hlive hk]

/-- They go to this region or to one that is ready. -/
theorem direct (hf : Forwarded h t b live part n e starts kept tops bs vs s)
    (hadj : s.heap.Adjusted c₀.state.heap slots (Berth.placeOf (h.places bs vs)))
    (hc : Emptied h t b s.heap.memory intact (Berth.placeOf (h.places bs vs)) c₀ is c)
    (hpart : part = is ++ i :: rest) {r : MoveRecord}
    (hr : r ∈ h.recordsOf t s.heap.memory intact (Berth.placeOf (h.places bs vs))
      (h.liveIn b i)) :
    c.state.heap.layout.indexOf r.target = i ∨
      (c.state.heap.region (c.state.heap.layout.indexOf r.target)).ready = true := by
  have hh := hf.housed
  have hi : i ∈ part := by simp [hpart]
  obtain ⟨a, ha, -, rfl⟩ := Heap.mem_recordsOf.1 hr
  obtain ⟨hlive, rfl⟩ := (hh.surveyed.mem_liveIn (hh.isPart.inside i hi) a).1 ha
  obtain ⟨hj, hle⟩ := hh.indexOf_placeOf hlive hi
  rw [hc.layout.trans (hf.adjusted hadj).1]
  change h.layout.indexOf (Berth.placeOf (h.places bs vs) a) = _ ∨
    (c.state.heap.region (h.layout.indexOf (Berth.placeOf (h.places bs vs) a))).ready = true
  generalize h.layout.indexOf (Berth.placeOf (h.places bs vs) a) = j at *
  rcases Nat.eq_or_lt_of_le hle with heq | hlt
  · exact .inl heq
  · have hasc := hh.isPart.ascending
    rw [hpart] at hasc hj
    refine .inr ?_
    rcases List.mem_append.1 hj with hj | hj
    · rw [hc.ready j hj]
    · -- what comes after the region in the list lies farther right
      rcases List.mem_cons.1 hj with rfl | hj
      · exact absurd hlt (Nat.lt_irrefl _)
      · have := (List.pairwise_cons.1 (List.pairwise_append.1 hasc).2.1).1 j hj
        omega

/-- So they can be made one after the other. -/
theorem copied (hf : Forwarded h t b live part n e starts kept tops bs vs s)
    (hadj : s.heap.Adjusted c₀.state.heap slots (Berth.placeOf (h.places bs vs)))
    (hc : Emptied h t b s.heap.memory intact (Berth.placeOf (h.places bs vs)) c₀ is c)
    (hpart : part = is ++ i :: rest) :
    ∃ m, MoveRecord.copyAll (h.recordsOf t s.heap.memory intact (Berth.placeOf (h.places bs vs))
        (h.liveIn b i)) c.state.heap.memory = .ok m ∧
      c₀.state.heap.memory.Transferred m ((h.recordsOf t s.heap.memory intact
        (Berth.placeOf (h.places bs vs)) ((is ++ [i]).flatMap (h.liveIn b))).map
          (·.transfer c₀.state.heap.memory)) := by
  have hh := hf.housed
  have hclear := hh.clear_recordsOf s.heap.memory intact
  have hsound : ∀ r ∈ h.recordsOf t s.heap.memory intact (Berth.placeOf (h.places bs vs))
      (part.flatMap (h.liveIn b)), r.Sound c₀.state.heap.memory := by
    intro r hr
    obtain ⟨a, ha, hmoves, rfl⟩ := Heap.mem_recordsOf.1 hr
    exact hh.sound_recordFor (hh.mem_objects.1 ha).1 hmoves (hf.records.span.trans hadj.span)
  rw [hpart, List.append_cons, List.flatMap_append, Heap.recordsOf_append] at hclear hsound
  rw [List.flatMap_append, List.flatMap_singleton, Heap.recordsOf_append] at hclear hsound ⊢
  exact MoveRecord.copyAll_transferred hc.memory
    (fun r hr => hsound r (List.mem_append_left _ hr)) (List.pairwise_append.1 hclear).1

/-- The objects of a region are moved. -/
theorem compactRegion (hf : Forwarded h t b live part n e starts kept tops bs vs s)
    (hclasses : c₀.classes = t) (hbitmap : c₀.bitmap = b)
    (hforwarding : c₀.state.forwarding = s.forwarding)
    (hadj : s.heap.Adjusted c₀.state.heap slots (Berth.placeOf (h.places bs vs)))
    (hslots : ∀ x ∈ slots, ∃ e, live e ∧ x ∈ h.fieldsAt t e)
    (hc : Emptied h t b s.heap.memory (!s.forwarding.overwritesMarks)
      (Berth.placeOf (h.places bs vs)) c₀ is c) (hpart : part = is ++ i :: rest) :
    ∃ c', c.compactRegion i = .ok c' ∧ Emptied h t b s.heap.memory
      (!s.forwarding.overwritesMarks) (Berth.placeOf (h.places bs vs)) c₀ (is ++ [i]) c' := by
  have hlt := hf.housed.isPart.inside i (by simp [hpart])
  obtain ⟨hnew, hregion⟩ := hc.region_next hf hadj hpart
  have hrecords := hc.planned hf hclasses hbitmap hforwarding hadj hslots hpart
  obtain ⟨m, hcopy, hmoved⟩ := hc.copied hf hadj hpart
  have hflat : (groupsByTarget c.state.heap.layout (h.recordsOf t s.heap.memory
      (!s.forwarding.overwritesMarks) (Berth.placeOf (h.places bs vs)) (h.liveIn b i))).flatten
      = h.recordsOf t s.heap.memory (!s.forwarding.overwritesMarks)
        (Berth.placeOf (h.places bs vs)) (h.liveIn b i) := List.flatten_splitBy _ _
  have hgroups := foldlM_moveGroup (c := c) (m := m)
    (by rw [hflat]; exact fun r hr => hc.direct hf hadj hpart hr) (by rw [hflat]; exact hcopy)
  -- nothing has been deferred, as all regions that objects come to are ready
  have hpending : (c.state.heap.region i).pending = [] := by
    rw [hregion]
    exact (hf.idle i hlt).pending
  let g := (c.state.heap.withMemory m).modifyRegion i fun _ => (c.state.heap.region i).markReady.2
  refine ⟨{ c.withHeap g with copied := MoveRecord.countAll (groupsByTarget c.state.heap.layout
    (h.recordsOf t s.heap.memory (!s.forwarding.overwritesMarks)
      (Berth.placeOf (h.places bs vs)) (h.liveIn b i))).flatten c.copied }, ?_, ?_⟩
  · refine bind_eq_ok hrecords (bind_eq_ok hgroups ?_)
    show (Shadow.flushAll (c.state.heap.region i).pending m >>= _) = _
    rw [hpending]
    rfl
  · have hsize : (c.state.heap.withMemory m).regions.size = h.regions.size :=
      hc.size.trans (hf.adjusted hadj).2.2.1
    refine ⟨?_, hc.layout, hc.headers, hc.starts, (Heap.size_modifyRegion ..).trans hc.size, ?_,
      ?_, hmoved⟩
    · obtain ⟨heap, hcycle⟩ := hc.cycle
      refine ⟨g, ?_⟩
      rw [hflat, List.flatMap_append, List.flatMap_singleton, Heap.recordsOf_append,
        MoveRecord.countAll_append, hcycle]
      rfl
    · intro j hj
      show g.region j = _
      rw [Heap.region_modifyRegion]
      rcases List.mem_append.1 hj with hj | hj
      · rw [if_neg fun heq : i = j ∧ _ => hnew (heq.1 ▸ hj)]
        exact hc.ready j hj
      · rw [List.mem_singleton.1 hj, if_pos ⟨rfl, by rw [hsize]; exact hlt⟩]
        show (c.state.heap.region i).markReady.2 = _
        unfold Region.markReady
        rw [← hc.other i hnew, ← hpending]
    · intro j hj
      show g.region j = _
      rw [List.mem_append, not_or, List.mem_singleton] at hj
      rw [Heap.region_modifyRegion, if_neg fun heq : i = j ∧ _ => hj.2 heq.1.symm]
      exact hc.other j hj.1

end Emptied

/-- The objects of the first regions of the part are moved to their places. -/
theorem compact_before {s : Relocation} {slots : List Address} {c : ParallelCycle}
    (hf : Forwarded h t b live part n e starts kept tops bs vs s) (hclasses : c.classes = t)
    (hbitmap : c.bitmap = b) (hforwarding : c.state.forwarding = s.forwarding)
    (hadj : s.heap.Adjusted c.state.heap slots (Berth.placeOf (h.places bs vs)))
    (hslots : ∀ x ∈ slots, ∃ e, live e ∧ x ∈ h.fieldsAt t e) {before after : List Nat}
    (hpart : part = before ++ after) :
    ∃ c', c.compact before = .ok c' ∧ Emptied h t b s.heap.memory (!s.forwarding.overwritesMarks)
      (Berth.placeOf (h.places bs vs)) c before c' := by
  obtain ⟨c', hrun, hc'⟩ := foldlM_induct (f := ParallelCycle.compactRegion)
    (fun is c' => Emptied h t b s.heap.memory (!s.forwarding.overwritesMarks)
      (Berth.placeOf (h.places bs vs)) c is c') before c
    ⟨⟨_, rfl⟩, rfl, rfl, rfl, rfl, by simp, fun _ _ => rfl, Memory.transferred_nil _⟩
    fun is i rest c' hbefore hc' =>
      hc'.compactRegion hf hclasses hbitmap hforwarding hadj hslots
        (hpart.trans (by rw [hbefore, List.append_assoc, List.cons_append]))
  refine ⟨c', ?_, hc'⟩
  unfold compact TaskQueue.run TaskQueue.ofList
  rw [hrun]
  rfl

/-- Every object of the part is moved to its place. -/
theorem compact_spec {s : Relocation} {slots : List Address} {c : ParallelCycle}
    (hf : Forwarded h t b live part n e starts kept tops bs vs s) (hclasses : c.classes = t)
    (hbitmap : c.bitmap = b) (hforwarding : c.state.forwarding = s.forwarding)
    (hadj : s.heap.Adjusted c.state.heap slots (Berth.placeOf (h.places bs vs)))
    (hslots : ∀ x ∈ slots, ∃ e, live e ∧ x ∈ h.fieldsAt t e) :
    ∃ c', c.compact part = .ok c' ∧ Emptied h t b s.heap.memory (!s.forwarding.overwritesMarks)
      (Berth.placeOf (h.places bs vs)) c part c' :=
  compact_before hf hclasses hbitmap hforwarding hadj hslots (List.append_nil part).symm

end ParallelCycle

end MarkCompact
