/-
MarkCompact/Proofs/ShadowCopies.lean

Moving a group of objects through a shadow.

The moves of a region that go to one other region are joined: their objects are given places in
a row, and nothing that stays where it is can lie between these.  So a group of them can be made
through a shadow as well as in place.

The group need not be moved as soon as it is planned.  By then other objects may have moved, so
what is said of it holds for all contents of the memory (`ParallelCycle.MovesAlike`).  The plan
itself is the same as long as the headers in the region are intact (`ParallelCycle.FindsAs`).

Main results: `Housed.isChain_recordsOf` (moves from one region to another are joined) and
`shadow_copies` (all groups of a collection).
-/
import MarkCompact.Proofs.JoinedMoves
import MarkCompact.Proofs.NewRuns
import MarkCompact.Proofs.ParallelCharts
import MarkCompact.Proofs.Tuning

namespace MarkCompact

/-! ### Groups -/

/-- In an ascending list what holds of neighbours holds along it. -/
theorem isChain_of_pairwise_lt {α : Type} {key : α → Nat} {p : α → α → Prop} {as : List α}
    (hasc : as.Pairwise fun a c => key a < key c)
    (hp : ∀ a ∈ as, ∀ c ∈ as, key a < key c → (∀ n ∈ as, key n ≤ key a ∨ key c ≤ key n) → p a c) :
    as.IsChain p := by
  induction as with
  | nil => exact .nil
  | cons a as ih =>
    obtain ⟨hbelow, hasc⟩ := List.pairwise_cons.1 hasc
    have hrest : as.IsChain p := ih hasc fun b hb c hc hlt hnone => by
      refine hp b (List.mem_cons_of_mem _ hb) c (List.mem_cons_of_mem _ hc) hlt fun n hn => ?_
      rcases List.mem_cons.1 hn with rfl | hn
      · exact .inl (hbelow b hb).le
      · exact hnone n hn
    cases as with
    | nil => exact .singleton a
    | cons c as =>
      refine List.isChain_cons_cons.2 ⟨hp a (by simp) c (by simp) (hbelow c (by simp)) ?_, hrest⟩
      intro n hn
      rcases List.mem_cons.1 hn with rfl | hn
      · exact .inl (le_refl _)
      · rcases List.mem_cons.1 hn with rfl | hn
        · exact .inr (le_refl _)
        · exact .inr ((List.pairwise_cons.1 hasc).1 n hn).le

/-- A group is a stretch of the list, and its moves go to one region. -/
theorem ParallelCycle.mem_groupsByTarget {l : Layout} {records group : List MoveRecord}
    (hg : group ∈ groupsByTarget l records) :
    ∃ first rest before after, group = first :: rest ∧ records = before ++ (group ++ after) ∧
      ∀ r ∈ group, l.indexOf r.target = l.indexOf first.target := by
  unfold groupsByTarget at hg
  have hchain := List.isChain_of_mem_splitBy hg
  have hne := List.ne_nil_of_mem_splitBy hg
  obtain ⟨before, after, hsplit⟩ := List.append_of_mem hg
  have hrecords : records = before.flatten ++ (group ++ after.flatten) := by
    rw [← List.flatten_cons, ← List.flatten_append, ← hsplit, List.flatten_splitBy]
  cases group with
  | nil => exact absurd rfl hne
  | cons first rest =>
    refine ⟨first, rest, _, _, rfl, hrecords, ?_⟩
    clear hg hne hsplit hrecords
    induction rest generalizing first with
    | nil => simp
    | cons q rest ih =>
      obtain ⟨hnext, hrest⟩ := List.isChain_cons_cons.1 hchain
      intro r hr
      rcases List.mem_cons.1 hr with rfl | hr
      · rfl
      · exact (ih q hrest r hr).trans (beq_iff_eq.1 hnext).symm

/-- What lies between two objects of a region is in that region. -/
theorem Stocked.indexOf_between {h : Heap} {t : ClassTable} {b : Bitmap} {live : Address → Prop}
    (hs : Stocked h t b live) {a c n : Address} (hn : live n) (ha : live a) (hc : live c)
    (han : a.toNat ≤ n.toNat) (hnc : n.toNat ≤ c.toNat)
    (hsame : h.layout.indexOf c = h.layout.indexOf a) :
    h.layout.indexOf n = h.layout.indexOf a := by
  have hleft := hs.lt_bottom_iff hn (hs.region ha).1
  have hright := hs.lt_bottom_iff hc (hs.region hn).1
  have hafrom := hs.lt_bottom_iff ha (hs.region ha).1
  have hnfrom := hs.lt_bottom_iff hn (hs.region hn).1
  omega

namespace Heap

variable {h : Heap} {t : ClassTable} {b : Bitmap} {live : Address → Prop} {part : List Nat}
  {tops : Nat → Address} {bs : List Berth} {vs : List HumongousMove}

namespace Housed

variable (hh : h.Housed t b live part tops bs vs)
include hh

/-- Of two neighbours that leave a region for the same other one, the second one goes to where the
first one ends.  What lies between them does not go there, for it would leave the region, too. -/
theorem place_next (hchained : bs.IsChain Berth.Joins) {i : Nat} (hi : i ∈ part) {a c : Address}
    (ha : a ∈ h.liveIn b i) (hc : c ∈ h.liveIn b i) (hlt : a.toNat < c.toNat)
    (hnone : ∀ n ∈ h.liveIn b i, Berth.placeOf (h.places bs vs) n ≠ n →
      n.toNat ≤ a.toNat ∨ c.toNat ≤ n.toNat)
    (hto : h.layout.indexOf (Berth.placeOf (h.places bs vs) c)
      = h.layout.indexOf (Berth.placeOf (h.places bs vs) a))
    (hother : h.layout.indexOf (Berth.placeOf (h.places bs vs) a) ≠ i) :
    (Berth.placeOf (h.places bs vs) c).toNat
      = (Berth.placeOf (h.places bs vs) a).toNat + 8 * h.movedWords t a := by
  have hs := hh.surveyed
  have hin := fun {x : Address} => hs.mem_liveIn (hh.isPart.inside i hi) x
  obtain ⟨hla, hia⟩ := hin.1 ha
  obtain ⟨hlc, hic⟩ := hin.1 hc
  obtain ⟨p, hp, rfl⟩ := hh.exists_berth hla (hia ▸ hi)
  obtain ⟨r, hr, rfl⟩ := hh.exists_berth hlc (hic ▸ hi)
  obtain ⟨-, -, hpspace, -⟩ := hh.within_berth hp
  obtain ⟨-, -, hrspace, -⟩ := hh.within_berth hr
  have hmoves : ∀ {q : Berth}, q ∈ bs → h.layout.indexOf q.object = i → q.space = p.space →
      Berth.placeOf (h.places bs vs) q.object ≠ q.object := fun {q} hq hiq hspace hstays => by
    obtain ⟨-, -, hqspace, -⟩ := hh.within_berth hq
    rw [hh.placeOf_object hp, hpspace, ← hspace, ← hqspace, ← hh.placeOf_object hq, hstays,
      hiq] at hother
    exact hother rfl
  rw [hh.placeOf_object hp, hh.placeOf_object hr] at hto ⊢
  rw [hpspace, hrspace] at hto
  -- the region to which they go is filled farther than the first one
  have hstop := hh.stop_le_target hp hr hlt
  have hrtop := (hh.laid.berthed r hr).stop
  have hrpos := hh.words_pos hr
  unfold Berth.stop at hrtop
  rw [hto] at hrtop
  obtain ⟨q, hq, hqspace, hpq, hjoins, hqnext⟩ := hh.exists_next hchained hp (by omega)
  -- the next object in that region lies between the two, so it leaves the region as they do
  have hqr : q.object.toNat ≤ r.object.toNat :=
    (hqnext r hr).resolve_left (Nat.not_le.2 hlt)
  obtain ⟨hlq, hqin⟩ := hh.live_object hq
  have hiq := hs.indexOf_between hlq hla hlc hpq.le hqr (hic.trans hia.symm)
  rw [hia] at hiq
  have heq : q.object = r.object := UInt64.toNat_inj.1 (Nat.le_antisymm hqr
    ((hnone q.object (hin.2 ⟨hlq, hiq⟩) (hmoves hq hiq hqspace)).resolve_left (Nat.not_le.2 hpq)))
  have hqr : q.target = r.target := by
    rw [← hh.placeOf_object hq, ← hh.placeOf_object hr, heq]
  have hpmoves := hmoves hp hia rfl
  rw [hh.placeOf_object hp] at hpmoves
  rcases hjoins with hjoins | ⟨hstays, -⟩
  · rw [← hqr, hjoins, Berth.stop, (hh.laid.berthed p hp).words, wordsFrom, if_neg hpmoves]
  · exact absurd hstays hpmoves

/-- The moves from a region to another one are joined. -/
theorem isChain_recordsOf (hchained : bs.IsChain Berth.Joins) {i : Nat} (hi : i ∈ part)
    (m : Memory) (intact : Bool) :
    (h.recordsOf t m intact (Berth.placeOf (h.places bs vs)) (h.liveIn b i)).IsChain fun q r =>
      h.layout.indexOf r.target = h.layout.indexOf q.target → h.layout.indexOf q.target ≠ i →
        r.target.toNat = q.target.toNat + 8 * q.copySize.toNat := by
  have hs := hh.surveyed
  have hin := hh.isPart.inside i hi
  have hasc := (hs.pairwise_liveIn hin).filter
    fun a => Berth.placeOf (h.places bs vs) a != a
  unfold recordsOf
  rw [List.isChain_map]
  refine isChain_of_pairwise_lt hasc fun a ha c hc hlt hnone hto hother => ?_
  obtain ⟨ha, -⟩ := List.mem_filter.1 ha
  obtain ⟨hc, -⟩ := List.mem_filter.1 hc
  rw [(words_recordFor hs ((hs.mem_liveIn hin a).1 ha).1 _ _ _).2]
  exact hh.place_next hchained hi ha hc hlt
    (fun n hn hmoves => hnone n (List.mem_filter.2 ⟨hn, bne_iff_ne.2 hmoves⟩)) hto hother

/-- What is known of a group of moves that is made out of the region `i`. -/
theorem group_spec (hchained : bs.IsChain Berth.Joins) {i : Nat} (hi : i ∈ part)
    {m : Memory} {intact : Bool} {group : List MoveRecord}
    (hg : group ∈ ParallelCycle.groupsByTarget h.layout
      (h.recordsOf t m intact (Berth.placeOf (h.places bs vs)) (h.liveIn b i))) :
    ∃ first rest, group = first :: rest ∧
      h.layout.indexOf first.target < h.regions.size ∧
      (∀ r ∈ group, h.layout.indexOf r.source = i ∧
        h.layout.indexOf r.target = h.layout.indexOf first.target ∧
        r.source.toNat % 8 = 0 ∧ r.target.toNat % 8 = 0 ∧
        ∀ {m'}, h.memory.SameSpan m' → r.Sound m') ∧
      group.Pairwise MoveRecord.Clear ∧
      (h.layout.indexOf first.target ≠ i → MoveRecord.Joined group) := by
  have hs := hh.surveyed
  obtain ⟨first, rest, before, after, rfl, hrecords, hsame⟩ := ParallelCycle.mem_groupsByTarget hg
  have hmem : ∀ r ∈ first :: rest, ∃ a, live a ∧ h.layout.indexOf a = i ∧
      Berth.placeOf (h.places bs vs) a ≠ a ∧
      h.recordFor t m intact (Berth.placeOf (h.places bs vs)) a = r := fun r hr => by
    obtain ⟨a, ha, hmoves, heq⟩ := mem_recordsOf.1
      (hrecords ▸ List.mem_append_right before (List.mem_append_left after hr))
    obtain ⟨hlive, hindex⟩ := (hs.mem_liveIn (hh.isPart.inside i hi) a).1 ha
    exact ⟨a, hlive, hindex, hmoves, heq⟩
  have hpart : (h.liveIn b i).Sublist (part.flatMap (h.liveIn b)) :=
    List.sublist_flatten_of_mem (List.mem_map_of_mem hi)
  refine ⟨first, rest, rfl, ?_, fun r hr => ?_, ?_, fun hother => ?_⟩
  · obtain ⟨a, hlive, rfl, -, rfl⟩ := hmem first (by simp)
    exact hh.isPart.inside _ (hh.indexOf_placeOf hlive hi).1
  · obtain ⟨a, hlive, rfl, hmoves, rfl⟩ := hmem r hr
    obtain ⟨p, hp, rfl⟩ := hh.exists_berth hlive hi
    refine ⟨rfl, hsame _ hr, (hs.isWord hlive).aligned, ?_, fun hspan =>
      hh.sound_recordFor hlive hmoves hspan⟩
    show (Berth.placeOf (h.places bs vs) p.object).toNat % 8 = 0
    rw [hh.placeOf_object hp]
    exact (hh.laid.berthed p hp).aligned
  · have hclear : (h.recordsOf t m intact (Berth.placeOf (h.places bs vs))
        (h.liveIn b i)).Pairwise MoveRecord.Clear :=
      (hh.clear_recordsOf m intact).sublist ((hpart.filter _).map _)
    rw [hrecords] at hclear
    exact (List.pairwise_append.1 (List.pairwise_append.1 hclear).2.1).1
  · have hchain := hh.isChain_recordsOf hchained hi m intact
    rw [hrecords] at hchain
    refine (List.isChain_append.1 (List.isChain_append.1 hchain).2.1).1.imp_of_mem_imp
      fun q r hq hr hjoined => hjoined ?_ ?_
    · rw [hsame r hr, hsame q hq]
    · rw [hsame q hq]
      exact hother

end Housed

end Heap

namespace ParallelCycle

open Forwarding

/-! ### A group and its shadow -/

/-- The groups in which the objects of a region are about to move. -/
def groupsFrom (c : ParallelCycle) (source : Nat) : Except Fault (List (List MoveRecord)) := do
  let r := c.state.heap.region source
  let records ← (c.bitmap.markedIn r.bottom r.top).filterMapM (recordOf c.state c.classes)
  return groupsByTarget c.state.heap.layout records

/-- The moves of a region are those of its groups. -/
theorem compactRegion_eq (c : ParallelCycle) (source : Nat) :
    c.compactRegion source = (do
      let groups ← c.groupsFrom source
      let c ← groups.foldlM (moveGroup source) c
      let (waiting, r) := (c.state.heap.region source).markReady
      let m ← Shadow.flushAll waiting (c.state.heap.modifyRegion source fun _ => r).memory
      return c.withHeap ((c.state.heap.modifyRegion source fun _ => r).withMemory m)) := by
  unfold compactRegion groupsFrom
  rw [bind_assoc]
  rfl

/-- Moved through a shadow, the group `first :: rest` comes to lie as if it had been moved in
place, and it is counted alike. -/
def MovesAlike (k : ParallelCycle) (source target : Nat) (first : MoveRecord)
    (rest : List MoveRecord) : Prop :=
  let shadow : Shadow :=
    ⟨target, first.target, MoveRecord.images (first :: rest) k.state.heap.memory⟩
  ∃ direct shadowed m,
    k.copyGroup (first :: rest) = .ok direct ∧
    k.shadowGroup source target first.target (first :: rest) = .ok shadowed ∧
    shadowed.copied = direct.copied ∧
    -- the shadow is put in place at once, or it waits and the memory stays as it is
    shadow.flush k.state.heap.memory = .ok m ∧
    (if (k.state.heap.region target).ready then shadowed.state.heap.memory = m
      else shadowed.state.heap.memory = k.state.heap.memory ∧
        (shadowed.state.heap.region target).pending
          = (k.state.heap.region target).pending ++ [shadow]) ∧
    direct.state.heap.memory.SameSpan m ∧ direct.state.heap.memory.SameWords m

theorem flushAll_singleton (s : Shadow) (m : Memory) : Shadow.flushAll [s] m = s.flush m := by
  unfold Shadow.flushAll
  rw [List.foldlM_cons]
  simp only [List.foldlM_nil, bind_pure]

/-- A shadow is put in place at once, or it waits until its region is ready. -/
theorem shadowGroup_spec {k : ParallelCycle} {target : Nat} {start : Address}
    {group : List MoveRecord} {m : Memory} (htarget : target < k.state.heap.regions.size)
    (hflush : Shadow.flush ⟨target, start, MoveRecord.images group k.state.heap.memory⟩
      k.state.heap.memory = .ok m) (source : Nat) :
    ∃ shadowed, k.shadowGroup source target start group = .ok shadowed ∧
      shadowed.copied = MoveRecord.countAll group k.copied ∧
      (if (k.state.heap.region target).ready then shadowed.state.heap.memory = m
        else shadowed.state.heap.memory = k.state.heap.memory ∧
          (shadowed.state.heap.region target).pending = (k.state.heap.region target).pending
            ++ [⟨target, start, MoveRecord.images group k.state.heap.memory⟩]) := by
  unfold shadowGroup
  cases hready : (k.state.heap.region target).ready with
  | true =>
    dsimp only
    rw [Region.offer_of_ready hready]
    exact ⟨_, bind_eq_ok ((flushAll_singleton ..).trans hflush) rfl, rfl, rfl⟩
  | false =>
    dsimp only
    rw [Region.offer_of_not_ready hready]
    refine ⟨_, bind_eq_ok rfl rfl, rfl, rfl, ?_⟩
    show ((k.state.heap.modifyRegion target fun _ => _).region target).pending = _
    rw [Heap.region_modifyRegion, if_pos ⟨rfl, htarget⟩]

/-- Joined moves can be made through a shadow. -/
theorem movesAlike {k : ParallelCycle} {target : Nat} {first : MoveRecord}
    {rest : List MoveRecord} (htarget : target < k.state.heap.regions.size)
    (hsound : ∀ r ∈ first :: rest, r.Sound k.state.heap.memory ∧ r.source.toNat % 8 = 0 ∧
      r.target.toNat % 8 = 0)
    (hclear : (first :: rest).Pairwise MoveRecord.Clear) (hj : MoveRecord.Joined (first :: rest))
    (source : Nat) : k.MovesAlike source target first rest := by
  have hinside := fun r hr => (hsound r hr).1
  have hnone : k.state.heap.memory.Transferred k.state.heap.memory
      (([] : List MoveRecord).map (·.transfer k.state.heap.memory)) :=
    Memory.transferred_nil _
  obtain ⟨m₁, hcopy, hmoved⟩ := MoveRecord.copyAll_transferred hnone hinside hclear
  obtain ⟨m₂, hflush, hput⟩ := MoveRecord.flush_transferred hinside hclear hj target
  obtain ⟨shadowed, hshadow, hcopied, hplace⟩ := shadowGroup_spec htarget hflush source
  exact ⟨_, shadowed, m₂, bind_eq_ok hcopy rfl, hshadow, hcopied, hflush, hplace,
    ⟨hput.span.base.trans hmoved.span.base.symm, hput.span.size.trans hmoved.span.size.symm⟩,
    hmoved.sameWords (fun _ _ => rfl) hsound hput⟩

/-! ### When objects are about to move -/

/-- The cycle `d` finds a region, and the headers of the objects in it, as they are in `c`. -/
structure FindsAs (c : ParallelCycle) (source : Nat) (d : ParallelCycle) : Prop where
  classes : d.classes = c.classes
  bitmap : d.bitmap = c.bitmap
  forwarding : d.state.forwarding = c.state.forwarding
  layout : d.state.heap.layout = c.state.heap.layout
  compactHeaders : d.state.heap.compactHeaders = c.state.heap.compactHeaders
  bottom : (d.state.heap.region source).bottom = (c.state.heap.region source).bottom
  top : (d.state.heap.region source).top = (c.state.heap.region source).top
  headers : ∀ a ∈ c.state.heap.liveIn c.bitmap source, ∀ k < c.classes.headerWords.toNat,
    d.state.heap.memory.load (a.nth k) = c.state.heap.memory.load (a.nth k)

section Groups

variable {h : Heap} {t : ClassTable} {b : Bitmap} {live : Address → Prop} {part : List Nat}
  {n : Announced} {e : Encoding} {starts : StartTable} {kept : Nat} {tops : Nat → Address}
  {bs : List Berth} {vs : List HumongousMove} {s : Relocation} {c d : ParallelCycle}

/-- The cycle `c` is about to move the objects of the part.  Forwarding has left `s`, and the
references of live objects have followed. -/
structure Poised (h : Heap) (t : ClassTable) (b : Bitmap) (live : Address → Prop)
    (part : List Nat) (n : Announced) (e : Encoding) (starts : StartTable) (kept : Nat)
    (tops : Nat → Address) (bs : List Berth) (vs : List HumongousMove) (s : Relocation)
    (c : ParallelCycle) : Prop where
  forwarded : Forwarded h t b live part n e starts kept tops bs vs s
  classes : c.classes = t
  bitmap : c.bitmap = b
  forwarding : c.state.forwarding = s.forwarding
  adjusted : s.heap.Adjusted c.state.heap ((h.liveList b).flatMap (h.fieldsAt t))
    (Berth.placeOf (h.places bs vs))

namespace Poised

variable (hp : Poised h t b live part n e starts kept tops bs vs s c)
include hp

theorem slots : ∀ x ∈ (h.liveList b).flatMap (h.fieldsAt t),
    ∃ e, live e ∧ x ∈ h.fieldsAt t e := fun x hx => by
  obtain ⟨e, he, hx⟩ := List.mem_flatMap.1 hx
  exact ⟨e, (hp.forwarded.housed.surveyed.mem_liveList e).1 he, hx⟩

/-- The live objects of a region are still where they were. -/
theorem liveIn_eq {i : Nat} (hi : i ∈ part) : c.state.heap.liveIn c.bitmap i = h.liveIn b i := by
  obtain ⟨-, -, -, hregion⟩ := hp.forwarded.adjusted hp.adjusted
  unfold Heap.liveIn
  rw [hp.bitmap, hregion, hp.forwarded.member i hi]
  rfl

/-- As long as the headers in a region are intact, its moves are the planned ones. -/
theorem groupsFrom {i : Nat} (hi : i ∈ part) (hd : c.FindsAs i d) :
    d.groupsFrom i = .ok (groupsByTarget h.layout (h.recordsOf t s.heap.memory
      (!s.forwarding.overwritesMarks) (Berth.placeOf (h.places bs vs)) (h.liveIn b i))) := by
  have hf := hp.forwarded
  have hs := hf.housed.surveyed
  obtain ⟨hlayout, hheaders, -, -⟩ := hf.adjusted hp.adjusted
  have hlist := hp.liveIn_eq hi
  unfold ParallelCycle.groupsFrom
  dsimp only
  rw [hd.classes, hd.bitmap, hd.bottom, hd.top, hd.layout, hlayout, ← Heap.filterMap_recordFor,
    ← hlist, hp.classes]
  refine bind_eq_ok (filterMapM_ok fun a ha => ?_) rfl
  have hlive := ((hs.mem_liveIn (hf.housed.isPart.inside i hi) a).1 (hlist ▸ ha)).1
  refine hf.recordOf (hd.forwarding.trans hp.forwarding) (hd.compactHeaders.trans hheaders) hlive
    fun k hk => ?_
  rw [hd.headers a ha k (by rwa [hp.classes]), hs.load_header_adjusted hp.adjusted hp.slots hlive hk]

/-- When the turn of a region comes, it is found as it was before the first one was emptied. -/
theorem exists_findsAs {before after : List Nat} {i : Nat} (hpart : part = before ++ i :: after) :
    ∃ d, c.compact before = .ok d ∧ c.FindsAs i d := by
  have hf := hp.forwarded
  have hs := hf.housed.surveyed
  have hi : i ∈ part := by simp [hpart]
  obtain ⟨d, hcompact, hd⟩ := compact_before hf hp.classes hp.bitmap hp.forwarding hp.adjusted
    hp.slots hpart
  have hregion := hd.other i (hd.region_next hf hp.adjusted hpart).1
  obtain ⟨heap, hcycle⟩ := hd.cycle
  refine ⟨d, hcompact, by rw [hcycle]; rfl, by rw [hcycle]; rfl, by rw [hcycle]; rfl, hd.layout,
    hd.headers, congrArg Region.bottom hregion, congrArg Region.top hregion, fun a ha k hk => ?_⟩
  rw [hp.liveIn_eq hi] at ha
  rw [hp.classes] at hk
  have hle := hs.headerWords_le ((hs.mem_liveIn (hf.housed.isPart.inside i hi) a).1 ha).1
  exact hd.load hf hpart ha (by omega)

end Poised

end Groups

/-- A collection of a well-formed heap gets to where objects are about to move. -/
theorem exists_poised {c : ParallelCycle} {h : Heap} {roots : Roots}
    (hw : WellFormed h c.classes roots) (hheap : c.state.heap = h)
    (hbitmap : c.bitmap = (h.trace c.classes roots (.ofLayout h.layout)).bitmap)
    (hsaved : c.state.saved = #[])
    (hready : c.state.forwarding.Ready h.layout h.compactHeaders) :
    ∃ p c₁ outcome c₂ changed roots' c₃ h₁ n e starts kept tops bs vs s,
      c.plan = .ok (p, c₁) ∧
      c₁.growIfRequested.forward p = .ok (outcome, c₂) ∧
      c₂.growIfRequested.adjust roots = .ok (changed, roots', c₃) ∧
      Planned h c.bitmap p h₁ ∧
      Poised h₁ c.classes c.bitmap (Reaches h c.classes roots) p.compacting n e starts kept tops bs
        vs s c₃ := by
  obtain ⟨-, -, -, -, hshows, -, -⟩ := hw.trace
  rw [← hbitmap] at hshows
  have hplanned := Plan.planned_build hw.settled.toTabled c.bitmap
  have hs₀ := hw.surveyed_of_shows hshows
  have hs := hw.surveyed hshows hplanned
  have hidle := hplanned.idle hw.settled.idle
  have hbuild : Plan.build h c.bitmap = ((Plan.build h c.bitmap).1, (Plan.build h c.bitmap).2) := rfl
  generalize (Plan.build h c.bitmap).2 = h₁ at *
  generalize (Plan.build h c.bitmap).1 = p at *
  -- plan
  obtain ⟨n, f, g₁, hplan, hlists, htotal, hen, hmem, -, hrec, -⟩ :=
    plan_spec hheap hbuild hplanned hs₀ hs hready
  obtain ⟨hrec, -⟩ := hrec.growIfRequested
  let c₁ : ParallelCycle := { c with state := { c.state with heap := g₁, forwarding := f } }
  -- forward
  have hregular : ∀ i ∈ p.compacting, (h₁.region i).kind = .regular := fun i hi =>
    (hplanned.region_compacting hi).2.2.2
  obtain ⟨outcome, s₂, n', tops, bs, hforward, hf, -⟩ :=
    forward_spec (c := c₁.growIfRequested) (p := p) rfl rfl rfl hplanned.humongous_eq hs
      (mustered hplanned hs₀ hs hlists htotal) hlists hidle hregular hen
      (by rw [← hmem] at hrec ⊢; exact hrec) rfl hsaved
  let c₂ : ParallelCycle := { c₁.growIfRequested with state := s₂ }
  have hf := hf.growIfRequested
  -- adjust
  obtain ⟨changed, h₂, hadjust, hadj⟩ := adjust_spec (c := c₂.growIfRequested) rfl rfl hf
    fun r => hplanned.ground.reaches_or_outside
  exact ⟨p, c₁, outcome, c₂, changed, _, _, h₁, n', _, _, _, tops, bs, _, _, hplan, hforward, hadjust,
    hplanned, hf, rfl, rfl, rfl, hadj⟩

/-- The only object of the part goes to the bottom of its first region, if it fits there. -/
theorem Forwarded.place_only {h : Heap} {t : ClassTable} {b : Bitmap} {live : Address → Prop}
    {n : Announced} {e : Encoding} {starts : StartTable} {kept : Nat} {tops : Nat → Address}
    {bs : List Berth} {vs : List HumongousMove} {s : Relocation} {i : Nat} {rest : List Nat}
    {a : Address} (hf : Forwarded h t b live (i :: rest) n e starts kept tops bs vs s)
    (hkept : kept = 0) (honly : (i :: rest).flatMap (h.liveIn b) = [a])
    (hfits : (h.layout.bottom i).toNat + 8 * h.movedWords t a ≤ (h.layout.regionStop i).toNat) :
    Berth.placeOf (h.places bs vs) a = h.layout.bottom i := by
  have hroom : (h.layout.bottom i).toNat
      + 8 * (if h.layout.bottom i = a then h.wordsAt t a else h.movedWords t a)
        ≤ (h.layout.regionStop i).toNat := by
    have hle := Surveyed.wordsAt_le_movedWords h t a
    split <;> omega
  have hfound : h.nextFit a (h.wordsAt t a) (h.movedWords t a) (h.layout.bottom i) (i :: rest)
      = some (h.layout.bottom i, i :: rest) := by
    unfold Heap.nextFit
    rw [if_pos hroom]
  have hbs : bs = [⟨a, h.layout.bottom i, h.wordsFrom t a (h.layout.bottom i), i⟩] := by
    rw [hf.fits hkept, honly]
    unfold Heap.layOut Heap.layNext
    rw [List.foldl_cons, List.foldl_nil, List.headD_cons]
    dsimp only
    rw [hfound]
    rfl
  exact hf.housed.placeOf_object (p := ⟨a, h.layout.bottom i, h.wordsFrom t a _, i⟩)
    (by rw [hbs]; exact List.mem_singleton_self _)

end ParallelCycle

/-! ### An object that leaves its region -/

/-- A heap in which the only object that can be reached is the one of `words` words at the bottom of
the second region, and the first region is regular, but empty. -/
structure Heap.BehindEmpty (h : Heap) (t : ClassTable) (words : Nat) : Prop where
  wellFormed : WellFormed h t #[h.layout.bottom 1]
  inside : 1 < h.regions.size
  only : ∀ b, Reaches h t #[h.layout.bottom 1] b ↔ b = h.layout.bottom 1
  regular : (h.region 0).kind = .regular ∧ (h.region 1).kind = .regular
  empty : (h.region 0).top = h.layout.bottom 0
  top : (h.region 1).top.toNat = (h.layout.bottom 1).toNat + 8 * words
  free : ∀ i < h.regions.size, 1 < i → (h.region i).kind = .free

/-- There are such heaps for every class whose instances fit in a region. -/
theorem exists_behindEmpty {config : Config} {base : Address} {t : ClassTable} {classId : UInt32}
    {c : ClassInfo} (hv : config.Valid) (hb : config.Backed base) (ht : t.Sound)
    (hheaders : t.compactHeaders = config.compactHeaders) (hc : t.info classId = some c)
    (hwords : c.words.toNat ≤ 2 ^ config.regionShift.toNat)
    (hfew : config.heapBytes.toNat < 8 * 2 ^ 32) (hmore : 1 < config.numRegions.toNat) :
    ∃ h : Heap, h.layout = ⟨base, config.regionShift, config.numRegions.toNat⟩ ∧
      h.compactHeaders = config.compactHeaders ∧ h.BehindEmpty t c.words.toNat := by
  obtain ⟨h, -, hlayout, hcompact, hnew, hw⟩ := wellFormed_new hv hb ht hheaders
  have hl := hw.settled.layout
  have hnum : h.regions.size = config.numRegions.toNat := by rw [hw.settled.count, hlayout]
  have hstride : h.layout.stride = 8 * 2 ^ config.regionShift.toNat := by
    rw [hlayout]
    rfl
  have hbytes := toNat_shiftLeft_three c.words
  have hheap := hl.toNat_heapWords
  rw [← hw.settled.count, hnum, hstride, ← hv.toNat_heapBytes] at hheap
  have hstop := hl.toNat_regionStop (i := 1) (by rw [← hw.settled.count]; omega)
  have hlast := (h.layout.regionStop 1).toNat_lt
  -- the first region becomes regular, and the object is made in the second one
  have hopened := (Heap.refuses_opening hw.settled (i := 0) (by omega)
    (by rw [hnew 0 (by omega)]; rfl)).toKeeps
  have hw₁ : WellFormed (h.opening 0) t #[] := (hw.wellFormed_of_roots
    (WellFormed.mutated_keeps hopened) hopened.ground.memory fun _ hv => hv).1
  have hregion : ∀ i, 0 ≠ i → (h.opening 0).region i = h.region i := fun i hi => by
    rw [Heap.region_opening, if_neg fun hh => hi hh.1]
  have hsecond := (hregion 1 (by decide)).trans (hnew 1 (by omega))
  have hmakes : (h.opening 0).Makes ((h.opening 0).taking 1 c.words) c.words
      ((h.opening 0).region 1).top :=
    Heap.makes_taking hw₁.settled (by rw [hopened.ground.size]; omega) (by rw [hsecond]; rfl) (by
      unfold Heap.Roomful
      rw [hsecond]
      show (h.layout.bottom 1).toNat + _ ≤ (h.layout.regionStop 1).toNat
      omega) (by omega)
  have htaking : ∀ i, ((h.opening 0).taking 1 c.words).region i = _ :=
    Heap.region_taking (by rw [hopened.ground.size]; omega)
  have hlower : ∀ i, 1 ≠ i → ((h.opening 0).taking 1 c.words).region i = (h.opening 0).region i :=
    fun i hi => (htaking i).trans (if_neg hi)
  have hraised := (htaking 1).trans (if_pos rfl)
  have hbottom : ((h.opening 0).region 1).top = h.layout.bottom 1 := by rw [hsecond]; rfl
  obtain ⟨m, hw₂, hreach⟩ := hw₁.instantiate_made (by
    rw [hopened.ground.layout]
    omega) hc hmakes
  rw [hbottom] at hw₂ hreach
  have hground := hopened.ground.trans hmakes.ground
  have hgrid : (((h.opening 0).taking 1 c.words).withMemory m).layout = h.layout := hground.layout
  refine ⟨((h.opening 0).taking 1 c.words).withMemory m, hgrid.trans hlayout,
    hground.headers.trans hcompact, hgrid ▸ hw₂, ?_, hgrid ▸ hreach, ⟨?_, ?_⟩, ?_, ?_,
    fun i hi h1 => ?_⟩
  · show 1 < ((h.opening 0).taking 1 c.words).regions.size
    rw [hground.size]
    omega
  · show (((h.opening 0).taking 1 c.words).region 0).kind = _
    rw [hlower 0 (by decide), Heap.region_opening, if_pos ⟨rfl, by omega⟩]
  · show (((h.opening 0).taking 1 c.words).region 1).kind = _
    rw [hraised]
  · show (((h.opening 0).taking 1 c.words).region 0).top = _
    rw [hgrid, hlower 0 (by decide), Heap.top_opening, hnew 0 (by omega)]
    rfl
  · show (((h.opening 0).taking 1 c.words).region 1).top.toNat = _
    rw [hgrid, hraised, hbottom, Address.offset_eq_nth]
    exact Address.toNat_nth (by omega)
  · have hsize : i < ((h.opening 0).taking 1 c.words).regions.size := hi
    rw [hground.size] at hsize
    show (((h.opening 0).taking 1 c.words).region i).kind = _
    rw [hlower i (by omega), hregion i (by omega), hnew i hsize]
    rfl

namespace Heap.BehindEmpty

variable {h h₁ : Heap} {t : ClassTable} {b : Bitmap} {words : Nat} {p : Plan}
  (hb : h.BehindEmpty t words)
include hb

/-- The first two regions take part in a collection. -/
theorem compacting_eq (hp : Planned h b p h₁) : p.compacting = [0, 1] := by
  have hl := hb.wellFormed.settled.layout
  have hdense : p.densePrefix = 0 := by
    by_contra hpos
    have hfull := hp.full 0 (Nat.pos_of_ne_zero hpos)
    rw [hb.wellFormed.settled.bottom 0 (by have := hb.inside; omega), hb.empty, Bitmap.countWords,
      if_pos (UInt64.le_refl _)] at hfull
    have hwords := hl.toNat_regionWords
    have hstride := h.layout.stride_pos
    omega
  obtain ⟨k, hk⟩ : ∃ k, h.regions.size = k + 2 := ⟨h.regions.size - 2, by have := hb.inside; omega⟩
  have hrest : (List.range' 2 k).filter h.isRegularAt = [] := by
    rw [List.filter_eq_nil_iff]
    intro i hi
    rw [List.mem_range'_1] at hi
    unfold Heap.isRegularAt
    rw [hb.free i (by omega) (by omega)]
    decide
  rw [hp.compacting, hdense, hk, Nat.sub_zero, List.range'_succ, List.range'_succ,
    List.filter_cons_of_pos (by simp [Heap.isRegularAt, hb.regular.1]),
    List.filter_cons_of_pos (by simp [Heap.isRegularAt, hb.regular.2]), hrest]

/-- The object goes to the first region, if the encoding keeps nothing in place. -/
theorem place_eq (hp : Planned h b p h₁) (hclassic : h.compactHeaders = false)
    (hsmall : 8 * (words + 1) ≤ h.layout.stride) {live : Address → Prop}
    (hlive : ∀ a, live a ↔ a = h.layout.bottom 1) {n : Forwarding.Announced} {e : Encoding}
    {starts : StartTable} {kept : Nat} {tops : Nat → Address} {bs : List Berth}
    {vs : List HumongousMove} {s : Relocation}
    (hf : ParallelCycle.Forwarded h₁ t b live [0, 1] n e starts kept tops bs vs s) :
    h.layout.bottom 1 ∈ h₁.liveIn b 1 ∧
      Berth.placeOf (h₁.places bs vs) (h.layout.bottom 1) = h.layout.bottom 0 := by
  have hh := hf.housed
  have hl := hb.wellFormed.settled.layout
  have hcount := hb.wellFormed.settled.count
  have hinside := hb.inside
  have hground := hp.ground
  have hindex := hl.indexOf_bottom (i := 1) (by omega)
  have hmem : h.layout.bottom 1 ∈ h₁.liveIn b 1 := by
    rw [hh.surveyed.mem_liveIn (hh.isPart.inside 1 (by simp)), hlive, hground.layout, hindex]
    exact ⟨rfl, rfl⟩
  have honly : [0, 1].flatMap (h₁.liveIn b) = [h.layout.bottom 1] := by
    have hnodup := Surveyed.nodup_of_pairwise hh.ascending
    refine List.perm_singleton.1 ((List.perm_ext_iff_of_nodup hnodup (List.nodup_singleton _)).2
      fun x => ?_)
    rw [List.mem_singleton]
    refine ⟨fun hx => (hlive x).1 (hh.mem_objects.1 hx).1, ?_⟩
    rintro rfl
    exact List.mem_flatMap.2 ⟨1, by simp, hmem⟩
  have hwords : h₁.wordsAt t (h.layout.bottom 1) ≤ words := by
    have hregion := (hp.region_compacting (i := 1) (by simp [hb.compacting_eq hp])).2.2
    have hend := hh.surveyed.end_le_top ((hlive _).2 rfl) (by
      rw [hground.layout, hindex, hregion.2]
      rfl)
    rw [hground.layout, hindex, hregion.1, hb.top] at hend
    omega
  refine ⟨hmem, ?_⟩
  rw [← hground.layout] at honly ⊢
  refine hf.place_only (hf.free (.inl (hground.headers.trans hclassic))) honly ?_
  have hstop := hl.toNat_regionStop (i := 0) (by omega)
  rw [hground.layout]
  unfold Heap.movedWords
  split <;> omega

end Heap.BehindEmpty

namespace ParallelCycle

/-! ### The groups of a collection -/

/-- From planning on, a collection knows the groups in which it will move the objects of a region.
Those that go to another region go to one stretch of it, in their order, and it does not matter
whether they go there at once or by way of a shadow. -/
theorem shadow_copies {c : ParallelCycle} {h : Heap} {roots : Roots}
    (hw : WellFormed h c.classes roots) (hheap : c.state.heap = h)
    (hbitmap : c.bitmap = (h.trace c.classes roots (.ofLayout h.layout)).bitmap)
    (hsaved : c.state.saved = #[])
    (hready : c.state.forwarding.Ready h.layout h.compactHeaders) :
    ∃ p c₁ outcome c₂ changed roots' c₃,
      c.plan = .ok (p, c₁) ∧
      c₁.growIfRequested.forward p = .ok (outcome, c₂) ∧
      c₂.growIfRequested.adjust roots = .ok (changed, roots', c₃) ∧
      ∀ before source after, p.compacting = before ++ source :: after →
        ∃ groups,
          -- when the turn of the region comes, and whenever its headers are still intact
          (∃ d, c₃.compact before = .ok d ∧ c₃.FindsAs source d) ∧
          (∀ d, c₃.FindsAs source d → d.groupsFrom source = .ok groups) ∧
          ∀ group ∈ groups, ∃ first rest target, group = first :: rest ∧
            (∀ r ∈ group, h.layout.indexOf r.source = source ∧
              h.layout.indexOf r.target = target) ∧
            (target ≠ source → MoveRecord.Joined group ∧
              -- whatever has been written to the memory by then
              ∀ k : ParallelCycle, k.state.heap.regions.size = h.regions.size →
                h.memory.SameSpan k.state.heap.memory →
                (∀ done r later, group = done ++ r :: later → r.target
                  = first.target.nth (MoveRecord.images done k.state.heap.memory).length) ∧
                k.MovesAlike source target first rest) := by
  obtain ⟨p, c₁, outcome, c₂, changed, roots', c₃, h₁, n, e, starts, kept, tops, bs, vs, s, hplan,
    hforward, hadjust, hplanned, hp⟩ := exists_poised hw hheap hbitmap hsaved hready
  have hground := hplanned.ground
  have hf := hp.forwarded
  refine ⟨p, c₁, outcome, c₂, changed, roots', c₃, hplan, hforward, hadjust,
    fun before source after hpart => ?_⟩
  have hi : source ∈ p.compacting := by simp [hpart]
  refine ⟨_, hp.exists_findsAs hpart, fun d hd => hp.groupsFrom hi hd, fun group hg => ?_⟩
  obtain ⟨first, rest, rfl, htarget, hmoves, hclear, hjoined⟩ :=
    hf.housed.group_spec hf.chained hi hg
  rw [hground.layout] at hmoves hjoined htarget
  refine ⟨first, rest, _, rfl, fun r hr => ⟨(hmoves r hr).1, (hmoves r hr).2.1⟩, fun hother =>
    ⟨hjoined hother, fun k hsize hspan => ?_⟩⟩
  rw [← hground.memory] at hspan
  have hsound : ∀ r ∈ first :: rest, r.Sound k.state.heap.memory ∧ r.source.toNat % 8 = 0 ∧
      r.target.toNat % 8 = 0 := fun r hr => by
    obtain ⟨-, -, hsource, htarget, hsound⟩ := hmoves r hr
    exact ⟨hsound hspan, hsource, htarget⟩
  exact ⟨fun done r later heq => (hjoined hother).target_eq (fun q hq => (hsound q hq).1) _ heq,
    movesAlike (by rwa [hsize, ← hground.size]) hsound hclear (hjoined hother) source⟩

/-- A heap of four regions with one object of four words, in the second of them, and a cycle that
is about to plan.  The object goes to the first region, and may go there by way of a shadow. -/
theorem shadow_copies_leaving : ∃ (c : ParallelCycle) (h : Heap) (a : Address),
    WellFormed h c.classes #[a] ∧ c.state.heap = h ∧
      c.bitmap = (h.trace c.classes #[a] (.ofLayout h.layout)).bitmap ∧ c.state.saved = #[] ∧
      c.state.forwarding.Ready h.layout h.compactHeaders ∧
      ∃ (d : ParallelCycle) (groups : List (List MoveRecord)) (first : MoveRecord)
        (rest : List MoveRecord), d.groupsFrom 1 = .ok groups ∧ first :: rest ∈ groups ∧
        h.layout.indexOf a = 1 ∧ h.layout.indexOf first.target = 0 ∧
        MoveRecord.Joined (first :: rest) ∧ c.MovesAlike 1 0 first rest := by
  let config : Config := { regionShift := 4, numRegions := 4, blockShift := 2 }
  let node : ClassInfo := ⟨"Node", 4, [2]⟩
  let t : ClassTable := ⟨false, #[node]⟩
  have hv : config.Valid := by decide
  have hnode : (ClassTable.empty false).register node = .ok (0, t) := rfl
  have ht : t.Sound := ClassTable.sound_register (ClassTable.sound_empty false) hnode
  have hbacked : config.Backed 0x10000 := by decide
  have hinfo : t.info 0 = some node := rfl
  obtain ⟨h, hlayout, hheaders, hb⟩ := exists_behindEmpty hv hbacked ht rfl hinfo (by decide)
    (by decide) (by decide)
  have hw := hb.wellFormed
  have hl := hw.settled.layout
  have hnum : h.layout.numRegions = 4 := by rw [hlayout]; rfl
  have hindex := hl.indexOf_bottom (i := 1) (by omega)
  obtain ⟨col, -, -, hcol, -⟩ := Collector.exists_new (h := h) hv
    (Collector.refusal_eq_none_iff.2 ⟨by rw [hlayout], by rw [hlayout], hheaders⟩)
  let c : ParallelCycle := (col.marked ⟨fun _ => 0, 0⟩ h t #[h.layout.bottom 1]).begun t
    (h.trace t #[h.layout.bottom 1] (.ofLayout h.layout)).bitmap
  obtain ⟨p, c₁, outcome, c₂, changed, roots', c₃, hplan, hforward, hadjust, hgroups⟩ :=
    shadow_copies (c := c) hw rfl rfl hcol.saved hcol.ready
  obtain ⟨p', c₁', outcome', c₂', changed', roots'', c₃', h₁, n, e, starts, kept, tops, bs, vs, s,
    hplan', hforward', hadjust', hplanned, hp⟩ :=
    exists_poised (c := c) hw rfl rfl hcol.saved hcol.ready
  obtain ⟨rfl, rfl⟩ := Prod.mk.inj (Except.ok.inj (hplan.symm.trans hplan'))
  obtain ⟨rfl, rfl⟩ := Prod.mk.inj (Except.ok.inj (hforward.symm.trans hforward'))
  obtain ⟨-, hcycle⟩ := Prod.mk.inj (Except.ok.inj (hadjust.symm.trans hadjust'))
  obtain ⟨-, rfl⟩ := Prod.mk.inj hcycle
  have hpart := hb.compacting_eq hplanned
  rw [hpart] at hp
  obtain ⟨hmem, hplace⟩ := hb.place_eq hplanned hheaders (by rw [hlayout]; decide) hb.only
    hp.forwarded
  obtain ⟨groups, ⟨d, -, hd⟩, hfrom, hgroup⟩ := hgroups [0] 1 [] hpart
  have hknown := Except.ok.inj ((hfrom d hd).symm.trans (hp.groupsFrom (by simp) hd))
  -- the move of the object is in a group
  obtain ⟨group, hgroups, hr⟩ : ∃ group ∈ groups, h₁.recordFor c.classes s.heap.memory
      (!s.forwarding.overwritesMarks) (Berth.placeOf (h₁.places bs vs)) (h.layout.bottom 1)
        ∈ group := by
    rw [← List.mem_flatten, hknown]
    unfold groupsByTarget
    rw [List.flatten_splitBy, Heap.mem_recordsOf]
    refine ⟨_, hmem, ?_, rfl⟩
    rw [hplace]
    exact fun heq => absurd (hl.bottom_injective (by omega) (by omega) heq) (by decide)
  obtain ⟨first, rest, target, rfl, hall, hother⟩ := hgroup group hgroups
  obtain rfl : target = 0 := by
    rw [← (hall _ hr).2]
    show h.layout.indexOf (Berth.placeOf (h₁.places bs vs) (h.layout.bottom 1)) = 0
    rw [hplace, hl.indexOf_bottom (by omega)]
  obtain ⟨hjoined, halike⟩ := hother (by decide)
  exact ⟨c, h, _, hw, rfl, rfl, hcol.saved, hcol.ready, d, groups, first, rest, hfrom d hd, hgroups,
    hindex, (hall first (by simp)).2, hjoined, (halike c rfl (.refl _)).2⟩

end ParallelCycle

end MarkCompact
