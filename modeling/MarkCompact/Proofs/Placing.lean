/-
MarkCompact/Proofs/Placing.lean

The forward phase on the objects of the part.

Regions of the part are added to the compaction point, and objects of these regions are placed
in ascending order.  After some of them have been placed they have berths, their new addresses
are recorded, and the cursor has not passed the first object that is still to come
(`CompactionPoint.Placed`).  So there is always room, at the latest where the object lies, and
every step goes through.

For one object a place is picked (`Picked`), and the object stays there or is given its new address.

Main results: `Placed.place` (one object, and what is answered for it), `Placed.first` and
`Placed.add` (one region).
-/
import MarkCompact.Proofs.Lodging

namespace MarkCompact

namespace CompactionPoint

open Forwarding

variable {h g : Heap} {t : ClassTable} {b : Bitmap} {live : Address → Prop} {part : List Nat}
  {k : Nat} {tops : Nat → Address} {p : CompactionPoint}

/-! ### The place of one object -/

/-- The cursor has gone on to a place for the object at `a`, which lies in the region number `q`
of the part. -/
structure Reached (h : Heap) (t : ClassTable) (part : List Nat) (k : Nat) (tops : Nat → Address)
    (p : CompactionPoint) (g : Heap) (a : Address) (q : Nat) (tops' : Nat → Address)
    (p' : CompactionPoint) (g' : Heap) : Prop where
  works : p'.Works h part k tops' g'
  others : ∀ i ∈ part, i ≠ p'.openRegion → p'.filled tops' i = p.filled tops i
  opened : (p.filled tops p'.openRegion).toNat ≤ p'.top.toNat
  ahead : p.top.toNat ≤ p'.top.toNat
  left : p'.top.toNat ≤ a.toNat
  current : p'.current ≤ q
  room : p'.top.toNat + 8 * h.wordsFrom t a p'.top ≤ (h.layout.regionStop p'.openRegion).toNat
  source : p'.source = p.source
  targets : p'.targets = p.targets
  memory : g'.memory = g.memory
  starts : g'.starts = g.starts
  forwarded : p'.count.forwarded = p.count.forwarded
  /-- In the region that was open nothing is passed, unless the object may not go on in it. -/
  joined : p'.openRegion = p.openRegion →
    p'.top = p.top ∨ p'.top = a ∧ p'.openRegion ∉ p.targets

/-- The cursor of a later region lies farther right. -/
theorem Works.top_le_of_current_lt {g' : Heap} {tops' : Nat → Address} {p' : CompactionPoint}
    (hw : p.Works h part k tops g) (hw' : p'.Works h part k tops' g') (ht : h.Tabled)
    (hp : h.Part part) (hlt : p.current < p'.current) : p.top.toNat ≤ p'.top.toNat := by
  have hmem := hw.openRegion_mem
  have hmem' := hw'.openRegion_mem
  have hless := pairwise_lt_getElem? hp.ascending hw.openRegion hw'.openRegion hlt
  have hin := hp.inside _ hmem
  have hin' := hp.inside _ hmem'
  have h1 := (hw.extent _ hmem).2.1
  have h2 := (hw'.extent _ hmem').1
  rw [Works.filled_open] at h1 h2
  rw [ht.count] at hin hin'
  have hstop := ht.layout.toNat_regionStop hin
  have hle := ht.layout.regionStop_le_bottom hless hin'.le
  omega

theorem Advanced.top_le {g' : Heap} {tops' : Nat → Address} {p' : CompactionPoint}
    (hadv : p.Advanced g p' g') (hw : p.Works h part k tops g)
    (hw' : p'.Works h part k tops' g') (ht : h.Tabled) (hp : h.Part part) :
    p.top.toNat ≤ p'.top.toNat :=
  hadv.top.elim id fun hlt => hw.top_le_of_current_lt hw' ht hp hlt

/-- The cursor lies in the open region, unless that is full. -/
theorem Works.indexOf_top (hw : p.Works h part k tops g) (ht : h.Tabled) (hp : h.Part part)
    (hlt : p.top.toNat < (h.layout.regionStop p.openRegion).toNat) :
    h.layout.indexOf p.top = p.openRegion := by
  have hmem := hw.openRegion_mem
  have hin := hp.inside _ hmem
  rw [ht.count] at hin
  have hbottom := (hw.extent _ hmem).1
  rw [Works.filled_open] at hbottom
  have hstop := ht.layout.toNat_regionStop hin
  exact ht.layout.indexOf_eq hin hbottom (by omega)

/-- The place at the cursor serves if the object lies there or may go there. -/
def Serves (p : CompactionPoint) (h : Heap) (f : Forwarding) (a : Address) : Prop :=
  p.top = a ∨ p.mayEnter f (h.layout.indexOf p.top) = true

theorem mayEnter_of_mem {f : Forwarding} {i : Nat} (hi : i ∈ p.targets) :
    p.mayEnter f i = true := by
  unfold mayEnter
  split
  · rw [List.contains_iff_mem.2 hi, Bool.or_true]
  · rfl

theorem mayEnter_of_not_sliding {f : Forwarding} (hf : f.encoding ≠ .sliding) (i : Nat) :
    p.mayEnter f i = true := by
  unfold mayEnter
  rw [targetsPerRegion_eq, if_neg hf]

/-- A region that may not be entered is one too many. -/
theorem spent_of_not_mayEnter {f : Forwarding} {i : Nat} (hnot : ¬ p.mayEnter f i = true) :
    basesPerRegion ≤ p.targets.length ∧ i ∉ p.targets := by
  by_cases hf : f.encoding = .sliding
  · unfold mayEnter at hnot
    rw [targetsPerRegion_eq, if_pos hf] at hnot
    dsimp only at hnot
    rwa [Bool.or_eq_true, decide_eq_true_eq, not_or, Nat.not_lt, List.contains_iff_mem] at hnot
  · exact absurd (mayEnter_of_not_sliding hf i) hnot

theorem choose_of_serves {s : Relocation} (hlayout : s.heap.layout = h.layout) {a : Address}
    (i : Nat) (hserves : p.Serves h s.forwarding a) : p.choose s i a = .ok (p, s.heap) := by
  unfold choose
  rw [if_neg]
  simp only [hlayout, Bool.and_eq_true, decide_eq_true_eq, Bool.not_eq_true', not_and,
    Bool.not_eq_false]
  exact fun hne => hserves.resolve_left hne

/-- Where the place at the cursor does not serve, the object is kept in place. -/
theorem choose_of_not_serves {s : Relocation} (hlayout : s.heap.layout = h.layout) {a : Address}
    {i : Nat} (hnot : ¬ p.Serves h s.forwarding a) {p' : CompactionPoint} {g' : Heap}
    (hkeep : p.keepInPlace s.heap i a = .ok (p', g')) :
    p.choose s i a = .ok
      ({ p' with count := { p'.count with keptInPlace := p'.count.keptInPlace + 1 } }, g') := by
  unfold Serves at hnot
  rw [not_or, Bool.not_eq_true] at hnot
  unfold choose
  rw [if_pos, hkeep]
  · rfl
  · simp only [hlayout, Bool.and_eq_true, decide_eq_true_eq, Bool.not_eq_true']
    exact hnot

section RoomMade

variable {a : Address} {size copySize q i : Nat} {tops₁ tops₂ : Nat → Address}
  {p₁ p₂ : CompactionPoint} {g₁ g₂ : Heap}

/-- Nothing is passed in the region that was open, and another one is opened at its bottom. -/
theorem RoomMade.top_eq (hmade : RoomMade h part k a size copySize q i tops p g tops₁ p₁ g₁)
    (hw : p.Works h part k tops g) :
    p₁.openRegion = p.openRegion ∧ p₁.top = p.top ∨ p₁.top = h.layout.bottom p₁.openRegion := by
  rcases hmade.place with ⟨hsame, htop⟩ | ⟨hbottom, -⟩
  · exact .inl ⟨hmade.works.openRegion_eq (hsame ▸ hw.openRegion), htop⟩
  · exact .inr hbottom

/-- The place that room has been made at is one that the cursor may go on to. -/
theorem RoomMade.reached
    (hmade : RoomMade h part k a (h.wordsAt t a) (h.movedWords t a) q i tops p g tops₁ p₁ g₁)
    (hw : p.Works h part k tops g) (ht : h.Tabled) (hp : h.Part part) :
    Reached h t part k tops p g a q tops₁ p₁ g₁ := by
  have hw₁ := hmade.works
  have hadv := hmade.advanced
  refine ⟨hw₁, fun j _ _ => by rw [hmade.filled], by rw [← hmade.filled, Works.filled_open],
    hadv.top_le hw hw₁ ht hp, hmade.before.top_le hw₁ ht hp, hmade.before.current, hmade.room,
    hadv.source, hadv.targets, hadv.memory, hadv.starts, by rw [hadv.count], fun hopen => .inl ?_⟩
  rcases hmade.place with ⟨-, htop⟩ | ⟨-, hlt⟩
  · exact htop
  · exact absurd (hw.current_eq hp (hopen ▸ hw₁.openRegion)) hlt.ne

/-- An object of the open region that may not go on in it has no other one there as a target. -/
theorem RoomMade.notMem_targets {f : Forwarding}
    (hmade : RoomMade h part k a (h.wordsAt t a) (h.movedWords t a) q i tops p g tops₁ p₁ g₁)
    (hw : p.Works h part k tops g) (ht : h.Tabled) (hp : h.Part part)
    (hnot : ¬ p₁.Serves h f a) (hopen : i = p.openRegion) : i ∉ p.targets := by
  have hw₁ := hmade.works
  have hb₁ := hmade.before
  have hadv := hmade.advanced
  have hcur : p.current = q := hw.current_eq hp (hopen ▸ hb₁.region)
  -- the cursor was in the region of the object, and is there still
  have hcur₁ : p₁.current = q := Nat.le_antisymm hb₁.current (hcur ▸ hadv.current)
  have hopen₁ : p₁.openRegion = i := hw₁.openRegion_eq (hcur₁ ▸ hb₁.region)
  unfold Serves at hnot
  rw [not_or] at hnot
  have hne : p₁.top.toNat ≠ a.toNat := fun heq => hnot.1 (UInt64.toNat_inj.1 heq)
  have hle := hb₁.top_le hw₁ ht hp
  have hstop := hb₁.stop
  have hindex := hw₁.indexOf_top ht hp (by rw [hopen₁]; omega)
  intro hmem
  refine hnot.2 (mayEnter_of_mem ?_)
  rw [hindex, hopen₁, hadv.targets]
  exact hmem

/-- The object itself is a place that the cursor may go on to. -/
theorem OnObject.reached {f : Forwarding} {count : PlacementCount}
    (hkept : OnObject h part k a i tops₁ p₁ g₁ tops₂ p₂ g₂)
    (hmade : RoomMade h part k a (h.wordsAt t a) (h.movedWords t a) q i tops p g tops₁ p₁ g₁)
    (hw : p.Works h part k tops g) (ht : h.Tabled) (hp : h.Part part)
    (hnot : ¬ p₁.Serves h f a) (hcount : count.forwarded = p₂.count.forwarded) :
    Reached h t part k tops p g a q tops₂ { p₂ with count := count } g₂ := by
  have hw₁ := hmade.works
  have hw₂ := hkept.works
  have hb₁ := hmade.before
  have hadv := hmade.advanced
  have hadv₂ := hkept.advanced
  have hopen := hkept.openRegion
  have htop := hkept.top
  have hopen' : ({ p₂ with count := count } : CompactionPoint).openRegion = i := hopen
  refine ⟨hw₂.congr rfl rfl rfl rfl rfl rfl rfl, fun j _ hj => ?_, ?_,
    (hadv.top_le hw hw₁ ht hp).trans (hadv₂.top_le hw₁ hw₂ ht hp), ?_, ?_, ?_,
    hadv₂.source.trans hadv.source, hadv₂.targets.trans hadv.targets,
    hadv₂.memory.trans hadv.memory, hadv₂.starts.trans hadv.starts,
    by rw [hcount, hadv₂.count, hadv.count], fun hsame => .inr ⟨htop, ?_⟩⟩
  · rw [hopen'] at hj
    show p₂.filled tops₂ j = _
    rw [hkept.filled, ← hmade.filled, Function.update_of_ne hj]
  · -- the region of the object was not filled as far as that
    show (p.filled tops _).toNat ≤ p₂.top.toNat
    rw [hopen', htop, ← hmade.filled]
    by_cases hsame : i = p₁.openRegion
    · rw [hsame, Works.filled_open]
      exact hb₁.top_le hw₁ ht hp
    · unfold CompactionPoint.filled
      rw [Function.update_of_ne hsame, hw₁.ahead q i hb₁.current hb₁.region]
      exact hb₁.bottom
  · exact (congrArg UInt64.toNat htop).le
  · exact (hw₂.current_eq hp (hopen.symm ▸ hb₁.region)).le
  · rw [hopen']
    show p₂.top.toNat + 8 * h.wordsFrom t a p₂.top ≤ _
    rw [htop, Heap.wordsFrom, if_pos rfl]
    exact hb₁.stop
  · rw [hopen'] at hsame ⊢
    exact hmade.notMem_targets hw ht hp hnot hsame

end RoomMade

/-- The cursor goes on to the first place with room, or else to the object itself. -/
theorem Works.reach {s : Relocation} (hw : p.Works h part k tops s.heap) (ht : h.Tabled)
    (hp : h.Part part) {a : Address} {size copySize : WordCount} {q i : Nat}
    (hb : Before h part p a size.toNat q i) (hq : q < k) (hsize : size.toNat = h.wordsAt t a)
    (hcopy : copySize.toNat = h.movedWords t a) :
    ∃ p₁ g₁ tops₁ p' g' tops', p.makeRoom s.heap a size copySize = .ok (p₁, g₁) ∧
      p₁.choose { s with heap := g₁ } i a = .ok (p', g') ∧
      RoomMade h part k a (h.wordsAt t a) (h.movedWords t a) q i tops p s.heap tops₁ p₁ g₁ ∧
      Reached h t part k tops p s.heap a q tops' p' g' ∧ p'.Serves h s.forwarding a ∧
      (p₁.Serves h s.forwarding a ∧ p' = p₁ ∧ p'.count = p.count ∨
        ¬ p₁.Serves h s.forwarding a ∧ p.top.toNat ≤ p₁.top.toNat ∧ p₁.top.toNat ≤ a.toNat ∧
          p'.top = a ∧ p'.count.keptInPlace = p.count.keptInPlace + 1) := by
  have hmoved := Surveyed.wordsAt_le_movedWords h t a
  obtain ⟨p₁, g₁, tops₁, hroom, hmade⟩ :=
    hw.makeRoom ht hp hb hq (show copySize.toNat ≤ size.toNat + 1 by omega)
  rw [hsize, hcopy] at hmade
  have hw₁ := hmade.works
  have hcount := hmade.advanced.count
  have hlayout : g₁.layout = h.layout := hw₁.enlisted.layout
  by_cases hserves : p₁.Serves h s.forwarding a
  · exact ⟨p₁, g₁, tops₁, p₁, g₁, tops₁, hroom,
      choose_of_serves (s := { s with heap := g₁ }) hlayout i hserves, hmade,
      hmade.reached hw ht hp, hserves, .inl ⟨hserves, rfl, hcount⟩⟩
  · obtain ⟨p₂, g₂, tops₂, hkeep, hkept⟩ := hw₁.keepInPlace hp hmade.before hq
    refine ⟨p₁, g₁, tops₁, _, g₂, tops₂, hroom,
      choose_of_not_serves (s := { s with heap := g₁ }) hlayout hserves hkeep, hmade,
      hkept.reached hmade hw ht hp hserves rfl, .inl hkept.top,
      .inr ⟨hserves, hmade.advanced.top_le hw hw₁ ht hp, hmade.before.top_le hw₁ ht hp,
        hkept.top, ?_⟩⟩
    show p₂.count.keptInPlace + 1 = _
    rw [hkept.advanced.count, hcount]

/-- The object ends where its last word does. -/
theorem Reached.toNat_stop {a : Address} {q : Nat} {tops' : Nat → Address} {p' : CompactionPoint}
    {g' : Heap} (hr : Reached h t part k tops p g a q tops' p' g') :
    (p'.top.nth (h.wordsFrom t a p'.top)).toNat
      = p'.top.toNat + 8 * h.wordsFrom t a p'.top := by
  have hroom := hr.room
  have hbound := (h.layout.regionStop p'.openRegion).toNat_lt
  exact Address.toNat_nth (by omega)

theorem Reached.indexOf_top {a : Address} {q : Nat} {tops' : Nat → Address} {p' : CompactionPoint}
    {g' : Heap} (hr : Reached h t part k tops p g a q tops' p' g') (ht : h.Tabled)
    (hp : h.Part part) (hpos : 0 < h.wordsAt t a) : h.layout.indexOf p'.top = p'.openRegion := by
  have hroom := hr.room
  have := (h.wordsFrom_le t a p'.top).1
  exact hr.works.indexOf_top ht hp (by omega)

theorem Reached.isWord {a : Address} {q : Nat} {tops' : Nat → Address} {p' : CompactionPoint}
    {g' : Heap} (hr : Reached h t part k tops p g a q tops' p' g') (ht : h.Tabled)
    (hp : h.Part part) (hpos : 0 < h.wordsAt t a) : h.layout.IsWord p'.top := by
  have hmem := hr.works.openRegion_mem
  have hlt := hp.inside _ hmem
  rw [ht.count] at hlt
  obtain ⟨hbottom, -, haligned⟩ := hr.works.extent _ hmem
  rw [Works.filled_open] at hbottom haligned
  have hbase := ht.layout.base_le_bottom hlt.le
  have hstop := ht.layout.bottom_le_stop (show p'.openRegion + 1 ≤ h.layout.numRegions from hlt)
  have hroom := hr.room
  have := (h.wordsFrom_le t a p'.top).1
  rw [Layout.regionStop_eq_bottom_succ] at hroom
  exact ⟨by omega, by omega, haligned⟩

/-! ### What has been placed -/

theorem source_enterSource (p : CompactionPoint) (i : Nat) :
    (p.enterSource i).source = some i := by
  unfold enterSource
  split
  · assumption
  · rfl

theorem enterSource_of_source {i : Nat} (h : p.source = some i) : p.enterSource i = p :=
  if_pos h

theorem targets_enterSource_of_ne {i : Nat} (h : p.source ≠ some i) :
    (p.enterSource i).targets = [] := by
  unfold enterSource
  rw [if_neg h]

theorem Works.enterSource (hw : p.Works h part k tops g) (i : Nat) :
    (p.enterSource i).Works h part k tops g := by
  unfold CompactionPoint.enterSource
  split
  · exact hw
  · exact hw.congr rfl rfl rfl rfl rfl rfl rfl

theorem filled_enterSource (p : CompactionPoint) (i : Nat) (tops : Nat → Address) :
    (p.enterSource i).filled tops = p.filled tops := by
  unfold CompactionPoint.enterSource
  split
  · rfl
  · rfl

theorem fields_enterSource (p : CompactionPoint) (i : Nat) :
    (p.enterSource i).top = p.top ∧ (p.enterSource i).current = p.current ∧
      (p.enterSource i).count = p.count ∧ (p.enterSource i).openRegion = p.openRegion := by
  unfold CompactionPoint.enterSource
  split
  · exact ⟨rfl, rfl, rfl, rfl⟩
  · exact ⟨rfl, rfl, rfl, rfl⟩

/-- The regions to which objects of region `i` have gone leave room for the next one, at `a`. -/
structure Spare (h : Heap) (p : CompactionPoint) (i : Nat) (a : Address) : Prop where
  few : (p.enterSource i).targets.length ≤ 2
  one : (p.enterSource i).targets.length = 1 →
    p.openRegion ∈ (p.enterSource i).targets ∨ p.openRegion = i
  /-- What has gone to the second region is no more than what lay before the object. -/
  two : (p.enterSource i).targets.length = 2 → p.openRegion ∈ (p.enterSource i).targets ∧
    p.top.toNat + (h.layout.bottom i).toNat ≤ a.toNat + (h.layout.bottom p.openRegion).toNat

/-- The objects are known, and those of the part have been announced. -/
structure Mustered (h : Heap) (t : ClassTable) (b : Bitmap) (live : Address → Prop)
    (part : List Nat) (n : Announced) : Prop where
  stocked : Stocked h t b live
  isPart : h.Part part
  covers : n.Covers h b part
  total : ∀ l : List Address, l.Nodup → (∀ a ∈ l, live a) → l.length ≤ n.total

/-- Where objects do not grow there is no need to keep one in place: those of one region need no
more than two regions. -/
theorem Spare.serves (f : Forwarding) {p₁ : CompactionPoint} {tops₁ : Nat → Address} {g₁ : Heap}
    {i : Nat} {a : Address} (hsp : p.Spare h i a) (ht : h.Tabled) (hp : h.Part part) (hi : i ∈ part)
    (hw : p.Works h part k tops g) (hw₁ : p₁.Works h part k tops₁ g₁)
    (htargets : p₁.targets = (p.enterSource i).targets)
    (hnext : h.nextFit a (h.wordsAt t a) (h.movedWords t a) p.top (part.drop p.current)
      = some (p₁.top, part.drop p₁.current))
    (hgrow : h.movedWords t a = h.wordsAt t a) (hpos : 0 < h.wordsAt t a)
    (hstop : a.toNat + 8 * h.wordsAt t a ≤ (h.layout.regionStop i).toNat) :
    p₁.Serves h f a ∧ ((p.enterSource i).targets.length = 2 →
      p₁.openRegion = p.openRegion ∧ p₁.top = p.top) := by
  have hin := hp.inside _ hi
  have hin' := hp.inside _ hw.openRegion_mem
  rw [ht.count] at hin hin'
  have hbound := ht.layout.toNat_regionStop hin
  have hbound' := ht.layout.toNat_regionStop hin'
  -- what has gone to the second region leaves room for the next object
  have hroom : (p.enterSource i).targets.length = 2 →
      p.top.toNat + 8 * h.wordsAt t a ≤ (h.layout.regionStop p.openRegion).toNat := by
    intro h2
    have := (hsp.two h2).2
    omega
  have hkeep : (p.enterSource i).targets.length = 2 →
      p₁.openRegion = p.openRegion ∧ p₁.top = p.top := by
    intro h2
    have hfit := hroom h2
    rw [hw.drop_current, Heap.nextFit, hgrow, ite_self, if_pos hfit, Option.some.injEq,
      Prod.mk.injEq, hw₁.drop_current, List.cons.injEq] at hnext
    exact ⟨hnext.2.1.symm, hnext.1.symm⟩
  refine ⟨.inr ?_, hkeep⟩
  have hfew := hsp.few
  unfold mayEnter
  cases f with
  | sliding s =>
    show (decide (p₁.targets.length < 2) || _) = true
    rw [htargets, Bool.or_eq_true, decide_eq_true_eq]
    rcases Nat.lt_or_eq_of_le hfew with hlt | heq
    · exact .inl hlt
    · obtain ⟨hopen, htop⟩ := hkeep heq
      have hfit := hroom heq
      refine .inr ?_
      rw [List.contains_iff_mem, htop, hw.indexOf_top ht hp (by omega)]
      exact (hsp.two heq).1
  | header => rfl
  | hashed s => rfl
  | dense s => rfl

/-- What is spare after an object of region `i` has been placed at the cursor. -/
theorem Spare.next {p₁ p' : CompactionPoint} {i w : Nat} {a c : Address} (hsp : p.Spare h i a)
    (hbottom : (h.layout.bottom i).toNat ≤ a.toNat) (hc : a.toNat + 8 * w ≤ c.toNat)
    (hwhere : p₁.openRegion = p.openRegion ∧ p₁.top = p.top ∨
      p₁.top = h.layout.bottom p₁.openRegion)
    (hkeep : (p.enterSource i).targets.length = 2 →
      p₁.openRegion = p.openRegion ∧ p₁.top = p.top)
    (hstays : p₁.top = a → p₁.openRegion = i) (hleft : p₁.top.toNat ≤ a.toNat)
    (hsource : p'.source = some i) (hopen : p'.openRegion = p₁.openRegion)
    (htop : p'.top.toNat = p₁.top.toNat + 8 * w)
    (htargets : p'.targets = if p₁.top = a then (p.enterSource i).targets
      else addTarget (p.enterSource i).targets p₁.openRegion) : p'.Spare h i c := by
  obtain ⟨hfew, hone, htwo⟩ := hsp
  have hsame := enterSource_of_source hsource
  generalize (p.enterSource i).targets = ts at *
  have hadd : addTarget ts p₁.openRegion = ts ∧ p₁.openRegion ∈ ts ∨
      addTarget ts p₁.openRegion = ts ++ [p₁.openRegion] ∧ p₁.openRegion ∉ ts := by
    unfold addTarget
    by_cases hmem : p₁.openRegion ∈ ts
    · exact .inl ⟨if_pos (List.contains_iff_mem.2 hmem), hmem⟩
    · exact .inr ⟨if_neg fun hh => hmem (List.contains_iff_mem.1 hh), hmem⟩
  have hlater : ts.length = 2 → p₁.openRegion ∈ ts ∧
      p'.top.toNat + (h.layout.bottom i).toNat
        ≤ c.toNat + (h.layout.bottom p₁.openRegion).toNat := by
    intro h2
    obtain ⟨ho, ht⟩ := hkeep h2
    obtain ⟨hmem, hle⟩ := htwo h2
    rw [ho]
    refine ⟨hmem, ?_⟩
    rw [htop, ht]
    omega
  by_cases hstay : p₁.top = a
  · rw [if_pos hstay] at htargets
    refine ⟨?_, ?_, ?_⟩ <;> simp only [hsame, htargets, hopen]
    · exact hfew
    · exact fun _ => .inr (hstays hstay)
    · exact hlater
  · rw [if_neg hstay] at htargets
    rcases hadd with ⟨hadd, hmem⟩ | ⟨hadd, hmem⟩
    · rw [hadd] at htargets
      refine ⟨?_, ?_, ?_⟩ <;> simp only [hsame, htargets, hopen]
      · exact hfew
      · exact fun _ => .inl hmem
      · exact hlater
    · -- a region more: it was not the second one before
      rw [hadd] at htargets
      have hne : ts.length ≠ 2 := fun h2 => hmem (hlater h2).1
      refine ⟨?_, ?_, ?_⟩ <;> simp only [hsame, htargets, hopen]
      · rw [List.length_append, List.length_singleton]
        omega
      · exact fun _ => .inl (List.mem_append_right _ (List.mem_singleton_self _))
      · intro h2
        rw [List.length_append, List.length_singleton] at h2
        refine ⟨List.mem_append_right _ (List.mem_singleton_self _), ?_⟩
        rw [htop]
        rcases hwhere with ⟨ho, ht⟩ | ht
        · rcases hone (by omega) with hin | hi
          · rw [← ho] at hin
            exact absurd hin hmem
          · rw [ho, hi]
            omega
        · rw [ht] at hleft ⊢
          omega

/-- The objects of `done` have been placed, and `k` regions of the part have been added. -/
structure Placed (h : Heap) (t : ClassTable) (b : Bitmap) (part : List Nat) (n : Announced)
    (e : Encoding) (starts : StartTable) (k : Nat) (done : List Address) (p : CompactionPoint)
    (s : Relocation) (tops : Nat → Address) (bs : List Berth) : Prop where
  works : p.Works h part k tops s.heap
  laid : h.Laid t part (p.filled tops) done bs
  below : ∀ r ∈ bs, r.stop ≤ p.top.toNat
  chained : bs.IsChain Berth.Joins
  /-- The cursor lies where the last object ends. -/
  last : ∀ r, bs.getLast? = some r → r.space = p.openRegion ∧ r.stop = p.top.toNat
  records : s.forwarding.Records n h.memory s.heap.memory (Berth.moves bs)
  encoding : s.forwarding.encoding = e
  saved : s.saved.toList
    = if s.forwarding.overwritesMarks then h.savedMarks ((Berth.moves bs).map Prod.fst) else []
  starts : s.heap.starts = (bs.map Berth.target).foldl StartTable.record starts
  /-- The targets that count are those of the region that is worked on. -/
  targets : ∀ i, (∀ c ∈ done, h.layout.indexOf c ≤ i) →
    (p.enterSource i).targets = targetsOf h.layout (Berth.moves bs) i
  /-- The cursor has not passed what is still to come. -/
  ahead : ∀ q i a, part[q]? = some i → a ∈ h.liveIn b i → (∀ c ∈ done, c.toNat < a.toNat) →
    p.current ≤ q ∧ (p.current = q → p.top.toNat ≤ a.toNat)
  fits : p.count.keptInPlace = 0 → h.layOut t part done = (bs, p.top, part.drop p.current)
  spare : h.compactHeaders = false → ∀ i a, i ∈ part → a ∈ h.liveIn b i →
    (∀ c ∈ done, c.toNat < a.toNat) → p.Spare h i a
  /-- Objects are kept in place only if they grow and the encoding limits their targets. -/
  free : h.compactHeaders = false ∨ e ≠ .sliding → p.count.keptInPlace = 0
  counted : p.count.forwarded = (Berth.moves bs).length

/-- What is answered for an object that has been given a berth. An object that is kept in place
belongs to a region whose objects may go to no further one. -/
structure Answers (h : Heap) (moves : List (Address × Address)) (a : Address)
    (p p' : CompactionPoint) (o : PlacedObject) (r : Berth) : Prop where
  object : r.object = a
  target : r.target = o.target
  words : r.words = o.words.toNat
  space : r.space = h.layout.indexOf o.target
  moved : o.moved = decide (o.target ≠ a)
  kept : p.count.keptInPlace < p'.count.keptInPlace → o.target = a ∧
    basesPerRegion ≤ (targetsOf h.layout moves (h.layout.indexOf a)).length ∧
      h.layout.indexOf a ∉ targetsOf h.layout moves (h.layout.indexOf a)

/-- A place has been picked for the next object, which lies at `a` in the region `i`, number `q` of
the part. -/
structure Picked (h : Heap) (t : ClassTable) (b : Bitmap) (part : List Nat) (e : Encoding) (k : Nat)
    (tops : Nat → Address) (p : CompactionPoint) (s : Relocation) (bs : List Berth) (q i : Nat)
    (a : Address) (tops' : Nat → Address) (p' : CompactionPoint) (g' : Heap) : Prop where
  reached : Reached h t part k tops (p.enterSource i) s.heap a q tops' p' g'
  serves : p'.Serves h s.forwarding a
  word : h.layout.IsWord p'.top
  opened : h.layout.indexOf p'.top = p'.openRegion
  source : p'.source = some i
  targets : p'.targets = targetsOf h.layout (Berth.moves bs) i
  forwarded : p'.count.forwarded = p.count.forwarded
  /-- An object is kept in place only if there is no target left. -/
  spent : p.count.keptInPlace < p'.count.keptInPlace → p'.top = a ∧
    basesPerRegion ≤ (targetsOf h.layout (Berth.moves bs) i).length ∧
      i ∉ targetsOf h.layout (Berth.moves bs) i
  fits : p'.count.keptInPlace = 0 → p.count.keptInPlace = 0 ∧
    h.nextFit a (h.wordsAt t a) (h.movedWords t a) p.top (part.drop p.current)
      = some (p'.top, part.drop p'.current)
  free : h.compactHeaders = false ∨ e ≠ .sliding → p'.count.keptInPlace = 0
  /-- Once the object is there, room is left for those that come after it. -/
  spare : h.compactHeaders = false → ∀ p'' : CompactionPoint, p''.source = some i →
    p''.openRegion = p'.openRegion → p''.top = p'.top.nth (h.wordsFrom t a p'.top) →
    (p''.targets = if p'.top = a then p'.targets else addTarget p'.targets p'.openRegion) →
      ∀ c ∈ h.liveIn b i, a.toNat < c.toNat → p''.Spare h i c

/-! ### One object -/

namespace Placed

variable {n : Announced} {e : Encoding} {starts : StartTable} {done : List Address}
  {s : Relocation} {bs : List Berth}

theorem mem_done (hp : Placed h t b part n e starts k done p s tops bs) {r : Address × Address}
    (hr : r ∈ Berth.moves bs) : r.1 ∈ done := by
  rw [← hp.laid.objects]
  exact (Berth.sublist_map_fst_moves bs).subset (List.mem_map_of_mem hr)

/-- The next object may be given a place in the region of `v`. -/
theorem admits (hm : Mustered h t b live part n)
    (hp : Placed h t b part n e starts k done p s tops bs) {q i : Nat} (hq : part[q]? = some i)
    {a v : Address} (ha : a ∈ h.liveIn b i) (hdone : ∀ c ∈ done, live c ∧ c.toNat < a.toNat)
    (hword : h.layout.IsWord v) (hallowed : ∀ limit, s.forwarding.targetsPerRegion = some limit →
      h.layout.indexOf v ∈ targetsOf h.layout (Berth.moves bs) i ∨
        (targetsOf h.layout (Berth.moves bs) i).length < limit) :
    s.forwarding.Admits n h.memory (Berth.moves bs) a v := by
  have hs := hm.stocked
  have hmem := List.mem_of_getElem? hq
  obtain ⟨hlive, hindex⟩ := (hs.mem_liveIn (hm.isPart.inside i hmem) a).1 ha
  have hnodup := hp.records.nodup
  have hfresh : a ∉ (Berth.moves bs).map Prod.fst := by
    intro hin
    obtain ⟨r, hr, rfl⟩ := List.mem_map.1 hin
    exact absurd (hdone _ (hp.mem_done hr)).2 (Nat.lt_irrefl _)
  obtain ⟨c, words, ho⟩ := hs.populated.object a hlive
  refine ⟨?_, ?_, hfresh, ho.mark.clean, fun _ => ?_,
    fun _ => ⟨(h.liveIn b i).length, ?_, ?_⟩, ?_⟩
  · rw [hm.covers.layout]
    exact hs.isWord hlive
  · rw [hm.covers.layout]
    exact hword
  · -- with this object there are no more than all live ones
    have hle := hm.total (a :: (Berth.moves bs).map Prod.fst) (List.nodup_cons.2 ⟨hfresh, hnodup⟩)
      (by
        intro c hc
        rcases List.mem_cons.1 hc with rfl | hc
        · exact hlive
        · obtain ⟨r, hr, rfl⟩ := List.mem_map.1 hc
          exact (hdone _ (hp.mem_done hr)).1)
    rw [List.length_cons, List.length_map] at hle
    omega
  · rw [hm.covers.layout, hindex]
    exact hm.covers.member i hmem
  · -- and in its region no more than those that are announced
    rw [hm.covers.layout, hindex]
    have hsub : a :: (movesOf h.layout (Berth.moves bs) i).map Prod.fst ⊆ h.liveIn b i := by
      intro c hc
      rcases List.mem_cons.1 hc with rfl | hc
      · exact ha
      · obtain ⟨r, hr, rfl⟩ := List.mem_map.1 hc
        obtain ⟨hr, hri⟩ := mem_movesOf.1 hr
        exact (hs.mem_liveIn (hm.isPart.inside i hmem) _).2 ⟨(hdone _ (hp.mem_done hr)).1, hri⟩
    have hfew : (movesOf h.layout (Berth.moves bs) i).map Prod.fst
        |>.Sublist ((Berth.moves bs).map Prod.fst) := List.filter_sublist.map _
    have hle := ((List.nodup_cons.2 ⟨fun hin => hfresh (hfew.subset hin),
      hnodup.sublist hfew⟩).subperm hsub).length_le
    rw [List.length_cons, List.length_map] at hle
    omega
  · rw [hm.covers.layout, hindex]
    exact hallowed

/-- The new address of the next object is recorded, and its mark kept aside. -/
theorem moveToTop (hm : Mustered h t b live part n)
    (hp : Placed h t b part n e starts k done p s tops bs) {a : Address} {p' : CompactionPoint}
    {g' : Heap} (hlayout : g'.layout = h.layout) (hheaders : g'.compactHeaders = h.compactHeaders)
    (hmemory : g'.memory = s.heap.memory)
    (hadmits : s.forwarding.Admits n h.memory (Berth.moves bs) a p'.top) :
    ∃ f m saved count,
      p'.moveToTop { s with heap := g' } a (h.memory.loadMark a) (h.growsAt a)
        = .ok ({ p' with
            targets := addTarget p'.targets (h.layout.indexOf p'.top), count := count },
          ⟨g'.withMemory m, f, saved⟩) ∧
      count.keptInPlace = p'.count.keptInPlace ∧ count.forwarded = p'.count.forwarded + 1 ∧
      f.Records n h.memory m (Berth.moves bs ++ [(a, p'.top)]) ∧ f.encoding = e ∧
      saved.toList = if f.overwritesMarks then
        h.savedMarks ((Berth.moves bs ++ [(a, p'.top)]).map Prod.fst) else [] := by
  obtain ⟨f, m, hforward, hrec, hcode⟩ :=
    hp.records.forwardTo (by rw [hm.covers.layout]; exact hm.stocked.tabled.layout) hadmits
  have hsame : f.overwritesMarks = s.forwarding.overwritesMarks := by
    rw [overwritesMarks_eq, overwritesMarks_eq, hcode]
  let saved := if s.forwarding.overwritesMarks then
    s.saved.save a (h.memory.loadMark a) g'.compactHeaders (h.growsAt a) else s.saved
  let saves := s.forwarding.overwritesMarks
    && (h.memory.loadMark a).mustPreserve g'.compactHeaders
  let count : PlacementCount :=
    { p'.count with
      preserved := p'.count.preserved + if saves then 1 else 0
      forwarded := p'.count.forwarded + 1
      grown := p'.count.grown + if h.growsAt a then 1 else 0 }
  refine ⟨f, m, saved, count, ?_, rfl, rfl, hrec, hcode.trans hp.encoding, ?_⟩
  · unfold CompactionPoint.moveToTop
    dsimp only
    rw [hmemory, hlayout, hforward]
    exact rfl
  · show (if s.forwarding.overwritesMarks then _ else _ : SavedMarks).toList = _
    rw [hsame, hheaders, List.map_append]
    exact Heap.toList_save hp.saved a

/-- The place that has been found is a berth for the object. -/
theorem berthed (hm : Mustered h t b live part n)
    (hp : Placed h t b part n e starts k done p s tops bs) {q i : Nat} {a : Address}
    {tops' : Nat → Address} {p' : CompactionPoint} {g' : Heap}
    (hr : Reached h t part k tops (p.enterSource i) s.heap a q tops' p' g') :
    let r : Berth := ⟨a, p'.top, h.wordsFrom t a p'.top, p'.openRegion⟩
    let v := p'.top.nth (h.wordsFrom t a p'.top)
    v.toNat = r.stop ∧ ({ p' with top := v } : CompactionPoint).Works h part k tops' g' ∧
      h.Laid t part (({ p' with top := v } : CompactionPoint).filled tops') (done ++ [a])
        (bs ++ [r]) := by
  intro r v
  have hs := hm.stocked
  have hmem := hr.works.openRegion_mem
  have hlt := hm.isPart.inside _ hmem
  rw [hs.tabled.count] at hlt
  obtain ⟨h1, h2, h3⟩ := hr.works.extent _ hmem
  rw [Works.filled_open] at h1 h2 h3
  have hroom := hr.room
  have hv : v.toNat = r.stop := hr.toNat_stop
  have hstop : r.stop = p'.top.toNat + 8 * h.wordsFrom t a p'.top := rfl
  obtain ⟨hworks, hfilled⟩ := hr.works.fill (v := v) (by omega) (by omega) (by omega)
  refine ⟨hv, hworks, ?_⟩
  have hopened := hr.opened
  have hahead := hr.ahead
  rw [filled_enterSource] at hopened
  rw [(fields_enterSource p i).1] at hahead
  rw [hfilled]
  refine hp.laid.snoc (p := r) hmem (fun j hj hne => ?_) ?_ hopened hroom h3 hr.left rfl
    fun c hc => (hp.below c hc).trans hahead
  · rw [Function.update_of_ne hne, hr.others j hj hne, filled_enterSource]
  · rw [Function.update_self]
    exact hv

/-- The cursor does not pass the objects after one that has been placed. -/
theorem ahead_next (hm : Mustered h t b live part n) {q i : Nat} (hq : part[q]? = some i)
    {a : Address} (ha : a ∈ h.liveIn b i) {tops' : Nat → Address} {p₀ p' p'' : CompactionPoint}
    {g₀ g' : Heap} (hr : Reached h t part k tops p₀ g₀ a q tops' p' g')
    (hcurrent : p''.current = p'.current)
    (htop : p''.top.toNat = p'.top.toNat + 8 * h.wordsFrom t a p'.top) {q' i' : Nat} {c : Address}
    (hq' : part[q']? = some i') (hc : c ∈ h.liveIn b i') (hlt : a.toNat < c.toNat) :
    p''.current ≤ q' ∧ (p''.current = q' → p''.top.toNat ≤ c.toNat) := by
  have hs := hm.stocked
  obtain ⟨hla, hia⟩ := (hs.mem_liveIn (hm.isPart.inside i (List.mem_of_getElem? hq)) a).1 ha
  obtain ⟨hlc, hic⟩ := (hs.mem_liveIn (hm.isPart.inside i' (List.mem_of_getElem? hq')) c).1 hc
  have hle := hr.current
  have hqq : q ≤ q' := by
    by_contra hgt
    have hless := pairwise_lt_getElem? hm.isPart.ascending hq' hq (by omega)
    have := hs.indexOf_lt_indexOf hlc hla (by omega)
    omega
  refine ⟨by omega, fun _ => ?_⟩
  have hdisj := hs.populated.disjoint a c hla hlc hlt
  have hleft := hr.left
  rw [htop]
  by_cases hstay : p'.top = a
  · rw [Heap.wordsFrom, if_pos hstay, hstay]
    exact hdisj
  · -- to the left of where it lay there is room for a word more
    have hne : p'.top.toNat ≠ a.toNat := fun hh => hstay (UInt64.toNat_inj.1 hh)
    have haligned := (hs.isWord hla).aligned
    have hmod := (hr.works.extent _ hr.works.openRegion_mem).2.2
    rw [Works.filled_open] at hmod
    have := (Heap.wordsFrom_le h t a p'.top).2
    omega

/-- The place that has been found joins the last berth. -/
theorem joins (hm : Mustered h t b live part n)
    (hp : Placed h t b part n e starts k done p s tops bs) {q i : Nat} (hq : part[q]? = some i)
    {a : Address} (ha : a ∈ h.liveIn b i) (hdone : ∀ c ∈ done, live c ∧ c.toNat < a.toNat)
    {tops' : Nat → Address} {p' : CompactionPoint} {g' : Heap}
    (hr : Reached h t part k tops (p.enterSource i) s.heap a q tops' p' g') {r : Berth}
    (hlast : bs.getLast? = some r) :
    r.Joins ⟨a, p'.top, h.wordsFrom t a p'.top, p'.openRegion⟩ := by
  have hs := hm.stocked
  obtain ⟨htop₀, -, -, hopen₀⟩ := fields_enterSource p i
  obtain ⟨hspace, hstop⟩ := hp.last r hlast
  intro hopen
  change p'.openRegion = r.space at hopen
  rw [hspace, ← hopen₀] at hopen
  refine (hr.joined hopen).imp (fun htop => ?_) fun ⟨hstay, hnot⟩ => ⟨?_, hstay⟩
  · rw [htop₀] at htop
    show p'.top.toNat = _
    rw [htop, hstop]
  · -- had the object before gone elsewhere in this region, so could the next one
    by_contra hne
    obtain ⟨hla, hia⟩ := (hs.mem_liveIn (hm.isPart.inside i (List.mem_of_getElem? hq)) a).1 ha
    have hmem : r ∈ bs := List.mem_of_getLast? hlast
    have hin : r.object ∈ done := by
      rw [← hp.laid.objects]
      exact List.mem_map_of_mem hmem
    obtain ⟨hlr, hlt⟩ := hdone _ hin
    have hpos := hs.wordsAt_pos hla
    have hindex := hr.works.indexOf_top hs.tabled hm.isPart (by
      have := hr.room
      have := (Heap.wordsFrom_le h t a p'.top).1
      omega)
    rw [hstay, hia] at hindex
    obtain ⟨hspace', hbottom, -, -, hleft, -⟩ := hp.laid.berthed r hmem
    have hi := hm.isPart.inside _ hspace'
    have hregion : r.space = i := hspace.trans (hopen₀.symm.trans (hopen.symm.trans hindex.symm))
    rw [hregion] at hi hbottom
    have hend := (hs.region hla).2.2
    have htop := (hs.tabled.top i hi).2.1
    rw [hia] at hend
    rw [hs.tabled.stop i hi] at htop
    rw [hs.tabled.count] at hi
    have hstride := hs.tabled.layout.toNat_regionStop hi
    have hreg : h.layout.indexOf r.target = i :=
      hs.tabled.layout.indexOf_eq hi hbottom (by omega)
    have hsource : h.layout.indexOf r.object = i :=
      hs.tabled.layout.indexOf_eq hi (by omega) (by omega)
    rw [hp.targets i fun c hc => by
      have := hs.indexOf_lt_indexOf hla (hdone c hc).1
      have := (hdone c hc).2
      omega, ← hindex] at hnot
    have := mem_targetsOf (l := h.layout) (Berth.mem_moves.2 ⟨r, hmem, hne, rfl⟩)
    dsimp only at this
    rw [hreg, hsource] at this
    exact hnot this

/-- The targets that count for a region have been gathered if it is the one of the last object, and
there are none if it is a later one. -/
theorem targets_of_source (hs : Stocked h t b live) {a : Address} (ha : live a)
    {moves : List (Address × Address)} (hmoves : ∀ r ∈ moves, live r.1 ∧ r.1.toNat ≤ a.toNat)
    {p : CompactionPoint} (hsource : p.source = some (h.layout.indexOf a))
    (htargets : p.targets = targetsOf h.layout moves (h.layout.indexOf a)) {j : Nat}
    (hj : h.layout.indexOf a ≤ j) :
    (p.enterSource j).targets = targetsOf h.layout moves j := by
  rcases Nat.lt_or_eq_of_le hj with hlt | rfl
  · rw [targets_enterSource_of_ne (by rw [hsource]; simp; omega), targetsOf_of_none]
    intro r hr heq
    obtain ⟨hlr, hle⟩ := hmoves r hr
    have := hs.indexOf_lt_indexOf ha hlr (by omega)
    omega
  · rw [enterSource_of_source hsource]
    exact htargets

/-- The next object has been placed. -/
theorem snoc (hm : Mustered h t b live part n)
    (hp : Placed h t b part n e starts k done p s tops bs) {q i : Nat} (hq : part[q]? = some i)
    {a : Address} (ha : a ∈ h.liveIn b i) (hdone : ∀ c ∈ done, live c ∧ c.toNat < a.toNat)
    {tops' : Nat → Address} {p' : CompactionPoint} {g' : Heap}
    (hr : Reached h t part k tops (p.enterSource i) s.heap a q tops' p' g')
    (p'' : CompactionPoint) (s'' : Relocation) (hregions : p''.regions = p'.regions) (hstage : p''.stage = p'.stage)
    (hcurrent : p''.current = p'.current) (hsource : p''.source = some i)
    (htop : p''.top = p'.top.nth (h.wordsFrom t a p'.top))
    (hlayout : s''.heap.layout = g'.layout) (hheaders : s''.heap.compactHeaders = g'.compactHeaders)
    (htable : s''.heap.regions = g'.regions) (hstarts : s''.heap.starts = g'.starts.record p'.top)
    (hrec : s''.forwarding.Records n h.memory s''.heap.memory
      (Berth.moves (bs ++ [⟨a, p'.top, h.wordsFrom t a p'.top, p'.openRegion⟩])))
    (hcode : s''.forwarding.encoding = e)
    (hsaved : s''.saved.toList = if s''.forwarding.overwritesMarks then h.savedMarks
      ((Berth.moves (bs ++ [⟨a, p'.top, h.wordsFrom t a p'.top, p'.openRegion⟩])).map Prod.fst)
      else [])
    (htargets : p''.targets = targetsOf h.layout
      (Berth.moves (bs ++ [⟨a, p'.top, h.wordsFrom t a p'.top, p'.openRegion⟩])) i)
    (hfits : p''.count.keptInPlace = 0 → p.count.keptInPlace = 0 ∧
      h.nextFit a (h.wordsAt t a) (h.movedWords t a) p.top (part.drop p.current)
        = some (p'.top, part.drop p'.current))
    (hfree : h.compactHeaders = false ∨ e ≠ .sliding → p''.count.keptInPlace = 0)
    (hspare : h.compactHeaders = false → ∀ c ∈ h.liveIn b i, a.toNat < c.toNat → p''.Spare h i c)
    (hcounted : p''.count.forwarded
      = (Berth.moves (bs ++ [⟨a, p'.top, h.wordsFrom t a p'.top, p'.openRegion⟩])).length) :
    Placed h t b part n e starts k (done ++ [a]) p'' s'' tops'
      (bs ++ [⟨a, p'.top, h.wordsFrom t a p'.top, p'.openRegion⟩]) := by
  have hs := hm.stocked
  have hi := List.mem_of_getElem? hq
  obtain ⟨hla, hindex⟩ := (hs.mem_liveIn (hm.isPart.inside i hi) a).1 ha
  obtain ⟨hv, hworks, hlaid⟩ := hp.berthed hm hr
  rw [← htop] at hv hworks hlaid
  have hw'' : p''.Works h part k tops' s''.heap :=
    hworks.congr hregions hstage hcurrent rfl hlayout hheaders htable
  have hopen : p''.openRegion = p'.openRegion := by
    unfold CompactionPoint.openRegion regionAt
    rw [hregions, hcurrent]
  have hfilled : p''.filled tops' = ({ p' with top := p''.top } : CompactionPoint).filled tops' := by
    unfold filled
    rw [hopen]
    rfl
  have hafter : ∀ c : Address, (∀ d ∈ done ++ [a], d.toNat < c.toNat) → a.toNat < c.toNat :=
    fun c hc => hc a (List.mem_append_right _ (List.mem_singleton_self a))
  refine {
    works := hw'', laid := hfilled ▸ hlaid, records := hrec, encoding := hcode, saved := hsaved
    free := hfree, counted := hcounted
    below := ?below, chained := ?chained, last := ?last, starts := ?starts, targets := ?targets
    ahead := ?ahead, fits := ?fits, spare := ?spare }
  case below =>
    intro r hr'
    rw [hv]
    rcases List.mem_append.1 hr' with hr' | hr'
    · have h1 := hp.below r hr'
      have h2 := hr.ahead
      rw [(fields_enterSource p i).1] at h2
      unfold Berth.stop at *
      dsimp only
      omega
    · rw [List.mem_singleton.1 hr']
  case chained =>
    refine hp.chained.append (List.isChain_singleton _) fun r hlast _ hnew => ?_
    obtain rfl := Option.some.inj hnew
    exact hp.joins hm hq ha hdone hr hlast
  case last =>
    intro r hlast
    rw [List.getLast?_concat, Option.some.injEq] at hlast
    subst hlast
    exact ⟨hopen.symm, hv.symm⟩
  case starts =>
    rw [hstarts, hr.starts, hp.starts, List.map_append, List.foldl_append]
    rfl
  case targets =>
    subst hindex
    refine fun j hj => targets_of_source hs hla (fun r hr' => ?_) hsource htargets
      (hj a (List.mem_append_right _ (List.mem_singleton_self a)))
    have hin : r.1 ∈ done ++ [a] := by
      rw [← hlaid.objects]
      exact (Berth.sublist_map_fst_moves _).subset (List.mem_map_of_mem hr')
    rcases List.mem_append.1 hin with hin | hin
    · exact ⟨(hdone _ hin).1, (hdone _ hin).2.le⟩
    · rw [List.mem_singleton.1 hin]
      exact ⟨hla, le_refl _⟩
  case ahead =>
    exact fun q' i' c hq' hc hbehind =>
      ahead_next hm hq ha hr hcurrent hv hq' hc (hafter c hbehind)
  case fits =>
    intro hzero
    obtain ⟨hzero', hnext⟩ := hfits hzero
    rw [Heap.layOut_snoc, hp.fits hzero', Heap.layNext]
    dsimp only
    rw [hnext]
    dsimp only
    rw [htop, hcurrent, hr.works.drop_current]
    rfl
  case spare =>
    intro hclassic i' c hi' hc hbehind
    have hlt := hafter c hbehind
    by_cases hii : i' = i
    · subst hii
      exact hspare hclassic c hc hlt
    · have hnil : (p''.enterSource i').targets = [] :=
        targets_enterSource_of_ne (by rw [hsource]; simp; omega)
      refine ⟨?_, ?_, ?_⟩ <;> rw [hnil] <;> simp

/-- An object whose turn has come lies before nothing that the cursor has passed. -/
theorem before (hm : Mustered h t b live part n)
    (hp : Placed h t b part n e starts k done p s tops bs) {q i : Nat} (hq : part[q]? = some i)
    {a : Address} (ha : a ∈ h.liveIn b i) (hdone : ∀ c ∈ done, live c ∧ c.toNat < a.toNat) :
    Before h part (p.enterSource i) a (h.wordsAt t a) q i := by
  have hs := hm.stocked
  have hi := List.mem_of_getElem? hq
  have hlt := hm.isPart.inside i hi
  obtain ⟨hla, rfl⟩ := (hs.mem_liveIn hlt a).1 ha
  obtain ⟨htop, hcurrent, -, -⟩ := fields_enterSource p (h.layout.indexOf a)
  obtain ⟨hahead, hahead'⟩ := hp.ahead q _ a hq ha fun c hc => (hdone c hc).2
  have hend := hs.end_le_top hla (hm.isPart.regular _ hi)
  have hbottom := (hs.region hla).2.1
  have hstop := (hs.tabled.top _ hlt).2.1
  rw [hs.tabled.bottom _ hlt] at hbottom
  rw [hs.tabled.stop _ hlt] at hstop
  refine ⟨hq, ?_, hbottom, by omega, (hs.isWord hla).aligned, ?_⟩
  · rw [hcurrent]
    exact hahead
  · rw [hcurrent, htop]
    exact hahead'

/-- The mark of an object whose turn has come is as it was. -/
theorem loadMark (hp : Placed h t b part n e starts k done p s tops bs) {a : Address}
    (hdone : ∀ c ∈ done, c.toNat < a.toNat) :
    s.heap.memory.loadMark a = h.memory.loadMark a := by
  unfold Memory.loadMark
  rw [hp.records.elsewhere a]
  intro hin
  obtain ⟨r, hr, rfl⟩ := List.mem_map.1 hin
  exact absurd (hdone _ (hp.mem_done hr)) (Nat.lt_irrefl _)

/-- Had an object of region `i` gone elsewhere in that region, the cursor would not lie before
it. -/
theorem notMem_targetsOf (hm : Mustered h t b live part n)
    (hp : Placed h t b part n e starts k done p s tops bs) {i : Nat} (hi : i ∈ part)
    {a v : Address} (ha : a ∈ h.liveIn b i) (hfrom : p.top.toNat ≤ v.toNat)
    (hleft : v.toNat ≤ a.toNat)
    (hnot : h.layout.indexOf v ∉ targetsOf h.layout (Berth.moves bs) i) :
    i ∉ targetsOf h.layout (Berth.moves bs) i := by
  intro hmem
  have hs := hm.stocked
  have hlt := hm.isPart.inside i hi
  obtain ⟨hla, hia⟩ := (hs.mem_liveIn hlt a).1 ha
  obtain ⟨e, he, -, hregion⟩ := exists_of_mem_targetsOf hmem
  obtain ⟨r, hr, -, rfl⟩ := Berth.mem_moves.1 he
  have hword := (hp.records.words _ he).2
  rw [hm.covers.layout] at hword
  have hbelow := hp.below r hr
  unfold Berth.stop at hbelow
  have hin := hlt
  rw [hs.tabled.count] at hin
  -- its place begins in the region, and the cursor lies between it and the next object
  have h1 := (hs.tabled.layout.bottom_indexOf
    ((hs.tabled.layout.contains_iff r.target).2 ⟨hword.bottom, hword.stop⟩)).1
  dsimp only at hregion
  rw [hregion] at h1
  have h2 := (hs.region hla).2.2
  have h3 := (hs.tabled.top _ hlt).2.1
  rw [hia] at h2
  rw [hs.tabled.stop i hlt] at h3
  have h4 := hs.tabled.layout.toNat_regionStop hin
  have h5 : h.layout.indexOf v = i := hs.tabled.layout.indexOf_eq hin (by omega) (by omega)
  exact hnot (h5 ▸ hmem)

/-- There is a place for the next object. -/
theorem pick (hm : Mustered h t b live part n)
    (hp : Placed h t b part n e starts k done p s tops bs) {q i : Nat} (hq : part[q]? = some i)
    (hqk : q < k) {a : Address} (ha : a ∈ h.liveIn b i)
    (hdone : ∀ c ∈ done, live c ∧ c.toNat < a.toNat) {size copySize : WordCount}
    (hsize : size.toNat = h.wordsAt t a) (hcopy : copySize.toNat = h.movedWords t a) :
    ∃ p₁ g₁ p' g' tops', (p.enterSource i).makeRoom s.heap a size copySize = .ok (p₁, g₁) ∧
      p₁.choose { s with heap := g₁ } i a = .ok (p', g') ∧
      Picked h t b part e k tops p s bs q i a tops' p' g' := by
  have hs := hm.stocked
  have hi := List.mem_of_getElem? hq
  obtain ⟨hla, hindex⟩ := (hs.mem_liveIn (hm.isPart.inside i hi) a).1 ha
  have hb := hp.before hm hq ha hdone
  rw [← hsize] at hb
  obtain ⟨p₁, g₁, tops₁, p', g', tops', hroom, hchoose, hmade, hr, hserves, hcase⟩ :=
    (hp.works.enterSource i).reach hs.tabled hm.isPart hb hqk hsize hcopy
  obtain ⟨htop₀, hcurrent₀, hcount₀, hopen₀⟩ := fields_enterSource p i
  have htargets₁ := hmade.advanced.targets
  have hnext := hmade.first
  have hwhere := hmade.top_eq (hp.works.enterSource i)
  rw [htop₀, hcurrent₀] at hnext
  rw [htop₀, hopen₀] at hwhere
  have hexpected := hp.targets i fun c hc => by
    have := hs.indexOf_lt_indexOf hla (hdone c hc).1
    have := (hdone c hc).2
    omega
  have hpos := hs.wordsAt_pos hla
  have hopen := hr.indexOf_top hs.tabled hm.isPart hpos
  -- objects that do not grow are never kept in place
  have hspared : h.compactHeaders = false → _ := fun hclassic =>
    (hp.spare hclassic i a hi ha fun c hc => (hdone c hc).2).serves s.forwarding hs.tabled
      hm.isPart hi hp.works hmade.works htargets₁ hnext (Heap.movedWords_of_classic hclassic t a) hpos
      (hsize ▸ hb.stop)
  have hfree : h.compactHeaders = false ∨ e ≠ .sliding → p' = p₁ ∧ p'.count = p.count := by
    intro hh
    have hserves₁ : p₁.Serves h s.forwarding a := hh.elim (fun hclassic => (hspared hclassic).1)
      fun hother => .inr (mayEnter_of_not_sliding (by rwa [hp.encoding]) _)
    obtain ⟨-, hsame, hcount⟩ | ⟨hnot, -⟩ := hcase
    · exact ⟨hsame, hcount.trans hcount₀⟩
    · exact absurd hserves₁ hnot
  refine ⟨p₁, g₁, p', g', tops', hroom, hchoose, ⟨hr, hserves, hr.isWord hs.tabled hm.isPart hpos,
    hopen, hr.source.trans (source_enterSource p i), hr.targets.trans hexpected,
    by rw [hr.forwarded, hcount₀], fun hmore => ?_, fun hzero => ?_, fun hh => ?_, ?_⟩⟩
  · obtain ⟨-, -, hcount⟩ | ⟨hnot, hfrom, hleft, htop, -⟩ := hcase
    · rw [hcount, hcount₀] at hmore
      exact absurd hmore (Nat.lt_irrefl _)
    · obtain ⟨hmany, hnotin⟩ := spent_of_not_mayEnter (mt .inr hnot)
      rw [htargets₁, hexpected] at hmany hnotin
      rw [htop₀] at hfrom
      exact ⟨htop, hmany, hp.notMem_targetsOf hm hi ha hfrom hleft hnotin⟩
  · obtain ⟨-, rfl, hcount⟩ | ⟨-, -, -, -, hcount⟩ := hcase
    · exact ⟨by rw [← hcount₀, ← hcount, hzero], hnext⟩
    · rw [hcount] at hzero
      omega
  · rw [(hfree hh).2]
    exact hp.free hh
  · intro hclassic p'' hsource'' hopen'' htop'' htargets'' c hc hlt
    obtain ⟨rfl, -⟩ := hfree (.inl hclassic)
    have hlc := ((hs.mem_liveIn (hm.isPart.inside i hi) c).1 hc).1
    rw [hr.targets] at htargets''
    have hwords : h.wordsFrom t a p'.top = h.wordsAt t a := by
      rw [Heap.wordsFrom, Heap.movedWords_of_classic hclassic, ite_self]
    refine (hp.spare hclassic i a hi ha fun c hc => (hdone c hc).2).next hb.bottom
      (hs.populated.disjoint a c hla hlc hlt) hwhere (hspared hclassic).2 (fun hstay => ?_) hr.left
      hsource'' hopen'' ?_ htargets''
    · rw [← hopen, hstay, hindex]
    · rw [htop'', hr.toNat_stop, hwords]

/-- The object stays where it is. -/
theorem stay (hm : Mustered h t b live part n)
    (hp : Placed h t b part n e starts k done p s tops bs) {q i : Nat} (hq : part[q]? = some i)
    {a : Address} (ha : a ∈ h.liveIn b i) (hdone : ∀ c ∈ done, live c ∧ c.toNat < a.toNat)
    {tops' : Nat → Address} {p' : CompactionPoint} {g' : Heap}
    (hpick : Picked h t b part e k tops p s bs q i a tops' p' g') (hstay : p'.top = a)
    {words : WordCount} (hwords : words.toNat = h.wordsFrom t a p'.top) :
    Placed h t b part n e starts k (done ++ [a])
      { p' with
        top := p'.top.offset words
        count := { p'.count with placed := p'.count.placed + 1 } }
      { s with heap := g'.recordStart p'.top } tops'
      (bs ++ [⟨a, p'.top, h.wordsFrom t a p'.top, p'.openRegion⟩]) := by
  have hr := hpick.reached
  have hmoves : Berth.moves (bs ++ [⟨a, p'.top, h.wordsFrom t a p'.top, p'.openRegion⟩])
      = Berth.moves bs := by
    rw [Berth.moves_snoc, if_neg (not_not.2 hstay), List.append_nil]
  have hoffset : p'.top.offset words = p'.top.nth (h.wordsFrom t a p'.top) := by
    rw [Address.offset_eq_nth, hwords]
  refine hp.snoc hm hq ha hdone hr _ _ rfl rfl rfl hpick.source hoffset rfl rfl rfl rfl ?_
    hp.encoding ?_ ?_ hpick.fits hpick.free
    (fun hclassic => hpick.spare hclassic _ hpick.source rfl hoffset (if_pos hstay).symm) ?_
  · rw [hmoves]
    exact hr.memory ▸ hp.records
  · rw [hmoves]
    exact hp.saved
  · rw [hmoves]
    exact hpick.targets
  · rw [hmoves, ← hp.counted]
    exact hpick.forwarded

/-- The object is given a new address. -/
theorem move (hm : Mustered h t b live part n)
    (hp : Placed h t b part n e starts k done p s tops bs) {q i : Nat} (hq : part[q]? = some i)
    {a : Address} (ha : a ∈ h.liveIn b i) (hdone : ∀ c ∈ done, live c ∧ c.toNat < a.toNat)
    {tops' : Nat → Address} {p' : CompactionPoint} {g' : Heap}
    (hpick : Picked h t b part e k tops p s bs q i a tops' p' g') (hstay : p'.top ≠ a)
    {words : WordCount} (hwords : words.toNat = h.wordsFrom t a p'.top) :
    ∃ f m saved count,
      p'.moveToTop { s with heap := g' } a (h.memory.loadMark a) (h.growsAt a)
        = .ok ({ p' with targets := addTarget p'.targets p'.openRegion, count := count },
          ⟨g'.withMemory m, f, saved⟩) ∧
      count.keptInPlace = p'.count.keptInPlace ∧
      Placed h t b part n e starts k (done ++ [a])
        { p' with
          targets := addTarget p'.targets p'.openRegion
          top := p'.top.offset words
          count := { count with placed := count.placed + 1 } }
        { heap := (g'.withMemory m).recordStart p'.top, forwarding := f, saved := saved } tops'
        (bs ++ [⟨a, p'.top, h.wordsFrom t a p'.top, p'.openRegion⟩]) := by
  have hr := hpick.reached
  have hi := List.mem_of_getElem? hq
  obtain ⟨-, hindex⟩ := (hm.stocked.mem_liveIn (hm.isPart.inside i hi) a).1 ha
  have hmoves : Berth.moves (bs ++ [⟨a, p'.top, h.wordsFrom t a p'.top, p'.openRegion⟩])
      = Berth.moves bs ++ [(a, p'.top)] := by
    rw [Berth.moves_snoc, if_pos hstay]
  have hoffset : p'.top.offset words = p'.top.nth (h.wordsFrom t a p'.top) := by
    rw [Address.offset_eq_nth, hwords]
  have hadmits : s.forwarding.Admits n h.memory (Berth.moves bs) a p'.top := by
    refine hp.admits hm hq ha hdone hpick.word fun limit hlimit => ?_
    have hmay := hpick.serves.resolve_left hstay
    unfold mayEnter at hmay
    rw [hlimit, hpick.targets, Bool.or_eq_true, decide_eq_true_eq, List.contains_iff_mem] at hmay
    exact hmay.symm
  obtain ⟨f, m, saved, count, hmove, hkeep, hmore, hrec, hcode, hsaved⟩ :=
    hp.moveToTop hm hr.works.enlisted.layout hr.works.enlisted.headers hr.memory hadmits
  rw [hpick.opened] at hmove
  refine ⟨f, m, saved, count, hmove, hkeep, hp.snoc hm hq ha hdone hr _ _ rfl rfl rfl hpick.source
    hoffset rfl rfl rfl rfl (by rw [hmoves]; exact hrec) hcode (by rw [hmoves]; exact hsaved) ?_
    (fun hzero => hpick.fits (hkeep.symm.trans hzero)) (fun hh => hkeep.trans (hpick.free hh))
    (fun hclassic => hpick.spare hclassic _ hpick.source rfl hoffset (if_neg hstay).symm) ?_⟩
  · rw [hmoves, targetsOf_snoc, if_pos hindex, ← hpick.targets, hpick.opened]
  · rw [hmoves, List.length_append, ← hp.counted]
    exact hmore.trans (congrArg (· + 1) hpick.forwarded)

/-- The next object is placed. -/
theorem place (hm : Mustered h t b live part n)
    (hp : Placed h t b part n e starts k done p s tops bs) {q i : Nat} (hq : part[q]? = some i)
    (hqk : q < k) {a : Address} (ha : a ∈ h.liveIn b i)
    (hdone : ∀ c ∈ done, live c ∧ c.toNat < a.toNat) :
    ∃ size o p' s' tops' r, s.heap.size t a = .ok size ∧
      p.place s t a size = .ok (o, p', s') ∧ Answers h (Berth.moves bs) a p p' o r ∧
      Placed h t b part n e starts k (done ++ [a]) p' s' tops' (bs ++ [r]) := by
  have hs := hm.stocked
  obtain ⟨hla, hindex⟩ :=
    (hs.mem_liveIn (hm.isPart.inside i (List.mem_of_getElem? hq)) a).1 ha
  obtain ⟨size, copySize, hsize, hwords, hcopy, hmoved, hgrown⟩ := hs.copySize hla
  -- the header has not been touched, so that the sizes are what they were
  have hlive : ∀ r ∈ Berth.moves bs, live r.1 := fun r hr => (hdone _ (hp.mem_done hr)).1
  have hkept := hp.records.headerKept hs hm.covers.layout hm.covers.compact hlive hla
  have hsize' : s.heap.size t a = .ok size := hkept.size.trans hsize
  have hcopy' : s.heap.copySize t a (s.heap.memory.loadMark a) true = .ok copySize :=
    (hkept.copySize hp.works.enlisted.headers hs.headers).trans hcopy
  have hactive : p.stage = .active := hp.works.active
  have hlayout : s.heap.layout = h.layout := hp.works.enlisted.layout
  obtain ⟨p₁, g₁, p', g', tops', hroom, hchoose, hpick⟩ := hp.pick hm hq hqk ha hdone hwords hmoved
  have hwords' : (wordsAt a size copySize p'.top).toNat = h.wordsFrom t a p'.top := by
    rw [wordsAt_toNat, hwords, hmoved]
    rfl
  by_cases hstay : p'.top = a
  · refine ⟨size, ⟨p'.top, wordsAt a size copySize p'.top, decide (p'.top ≠ a)⟩, _, _, tops', _,
      hsize', ?_, ⟨rfl, rfl, hwords'.symm, hpick.opened.symm, rfl, hindex ▸ hpick.spent⟩,
      hp.stay hm hq ha hdone hpick hstay hwords'⟩
    unfold CompactionPoint.place
    rw [hactive, hlayout, hindex]
    refine bind_eq_ok hcopy' (bind_eq_ok hroom (bind_eq_ok hchoose ?_))
    dsimp only
    rw [if_neg (not_not.2 hstay)]
    rfl
  · have hgrown' : decide (size < wordsAt a size copySize p'.top) = h.growsAt a := by
      unfold wordsAt
      rw [if_neg hstay, Bool.eq_iff_iff, decide_eq_true_eq]
      exact hgrown
    obtain ⟨f, m, saved, count, hmove, hkeep, hplaced⟩ :=
      hp.move hm hq ha hdone hpick hstay hwords'
    refine ⟨size, ⟨p'.top, wordsAt a size copySize p'.top, decide (p'.top ≠ a)⟩, _, _, tops', _,
      hsize', ?_, ⟨rfl, rfl, hwords'.symm, hpick.opened.symm, rfl, fun hmore => ?_⟩, hplaced⟩
    · unfold CompactionPoint.place
      rw [hactive, hlayout, hindex]
      refine bind_eq_ok hcopy' (bind_eq_ok hroom (bind_eq_ok hchoose ?_))
      dsimp only
      rw [hp.loadMark fun c hc => (hdone c hc).2, hgrown', if_pos hstay]
      exact bind_eq_ok hmove rfl
    · rw [hindex]
      exact hpick.spent (by rw [← hkeep]; exact hmore)

/-! ### Regions that are added -/

/-- The first region is opened at its bottom. -/
theorem first (hm : Mustered h t b live part n) (hen : h.Enlisted part h.layout.bottom s.heap)
    (hrec : s.forwarding.Records n h.memory s.heap.memory []) (hcode : s.forwarding.encoding = e)
    (hsaved : s.saved = #[]) {i : Nat} (hi : part[0]? = some i) :
    Placed h t b part n e s.heap.starts 1 [] (CompactionPoint.empty.add s.heap i) s
      h.layout.bottom [] := by
  have hs := hm.stocked
  have hmem := List.mem_of_getElem? hi
  obtain ⟨rest, rfl⟩ : ∃ rest, part = i :: rest := by
    cases part with
    | nil => simp at hi
    | cons j rest => exact ⟨rest, by rw [show j = i by simpa using hi]⟩
  have hregion : (CompactionPoint.empty.add s.heap i).openRegion = i := rfl
  have htop : (CompactionPoint.empty.add s.heap i).top = h.layout.bottom i := by
    show (s.heap.region i).compactionTop = _
    rw [hen.member i hmem]
    rfl
  have hfilled : (CompactionPoint.empty.add s.heap i).filled h.layout.bottom
      = h.layout.bottom := by
    unfold filled
    rw [htop, hregion]
    exact Function.update_eq_self ..
  have hextent : ∀ j ∈ i :: rest, (h.layout.bottom j).toNat ≤ (h.layout.bottom j).toNat ∧
      (h.layout.bottom j).toNat ≤ (h.layout.regionStop j).toNat ∧
      (h.layout.bottom j).toNat % 8 = 0 := by
    intro j hj
    have hlt := hm.isPart.inside j hj
    rw [hs.tabled.count] at hlt
    have hstop := hs.tabled.layout.toNat_regionStop hlt
    exact ⟨Nat.le_refl _, by omega, hs.tabled.layout.bottom_mod hlt.le⟩
  have hnil : Berth.moves [] = [] := rfl
  have hnone : ∀ j, ((CompactionPoint.empty.add s.heap i).enterSource j).targets = [] :=
    fun _ => rfl
  refine ⟨⟨rfl, rfl, Nat.one_pos, by simp, hen, by rw [hfilled]; exact hextent, fun j m _ _ => rfl⟩,
    ⟨rfl, by simp, by rw [hfilled]; exact hextent, List.Pairwise.nil, ?_⟩, by simp, .nil, by simp,
    hrec, hcode, ?_,
    rfl, fun j _ => hnone j, ?_, ?_, ?_, fun _ => rfl, rfl⟩
  · rw [hfilled]
    exact fun _ _ => rfl
  · rw [hsaved, hnil]
    simp [Heap.savedMarks]
  · intro q j a hj ha _
    refine ⟨Nat.zero_le _, fun hq => ?_⟩
    change 0 = q at hq
    subst hq
    rw [hi, Option.some.injEq] at hj
    subst hj
    have hlt := hm.isPart.inside i hmem
    obtain ⟨hla, hindex⟩ := (hs.mem_liveIn hlt a).1 ha
    have hbottom := (hs.region hla).2.1
    rw [hindex, hs.tabled.bottom i hlt] at hbottom
    rw [htop]
    exact hbottom
  · intro _
    rw [htop]
    rfl
  · intro _ j a _ _ _
    refine ⟨?_, ?_, ?_⟩ <;> rw [hnone] <;> simp

/-- A region that is added is one of the sequence from then on. -/
theorem add (hp : Placed h t b part n e starts k done p s tops bs) {i : Nat}
    (hi : part[k]? = some i) :
    Placed h t b part n e starts (k + 1) done (p.add s.heap i) s tops bs := by
  obtain ⟨hlt, heq⟩ := List.getElem?_eq_some_iff.1 hi
  have hw := hp.works
  have hadd : p.add s.heap i = { p with regions := p.regions.push i } := by
    unfold CompactionPoint.add
    rw [if_neg (by rw [hw.active]; decide)]
  have hopen : ({ p with regions := p.regions.push i } : CompactionPoint).openRegion
      = p.openRegion := by
    unfold CompactionPoint.openRegion regionAt
    dsimp only
    rw [Array.getElem?_push_lt (by rw [hw.size]; exact hw.current), Array.getElem?_eq_getElem]
  have hfilled : ({ p with regions := p.regions.push i } : CompactionPoint).filled tops
      = p.filled tops := by
    unfold filled
    rw [hopen]
  have hsource : ∀ j, (({ p with regions := p.regions.push i } : CompactionPoint).enterSource
      j).targets = (p.enterSource j).targets := by
    intro j
    unfold enterSource
    split
    · rfl
    · rfl
  rw [hadd]
  refine ⟨⟨?_, hw.active, Nat.lt_succ_of_lt hw.current, hlt, hw.enlisted, hfilled ▸ hw.extent,
    hw.ahead⟩, hfilled ▸ hp.laid, hp.below, hp.chained, fun r hlast => ?_, hp.records, hp.encoding,
    hp.saved, hp.starts,
    fun j hj => (hsource j).trans (hp.targets j hj), hp.ahead, hp.fits, ?_, hp.free, hp.counted⟩
  rotate_left
  · rw [hopen]
    exact hp.last r hlast
  rotate_right
  · rw [Array.toList_push, hw.regions, List.take_add_one, hi]
    rfl
  · intro hclassic j a hj ha hbehind
    obtain ⟨h1, h2, h3⟩ := hp.spare hclassic j a hj ha hbehind
    refine ⟨?_, ?_, ?_⟩ <;> rw [hsource]
    · exact h1
    · rw [hopen]
      exact h2
    · rw [hopen]
      exact h3

end Placed

end CompactionPoint

end MarkCompact
