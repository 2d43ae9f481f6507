/-
MarkCompact/Proofs/TwoTargets.lean

Offsets from two bases, and objects that grow.

An encoding that has two bases for each region allows the objects of one region to go to two
regions.  Without growth they never need a third, but objects that take their hash along may
fill more than the two.  Then the others of their region are kept in place: the cursor goes to
them, and what lies between is left as it is (`Disciplined`).

A log tells which targets had been used when an object was kept.  No later object of its region
moves, for that one would go on in its own region, which is a third target.

Main result: `sliding_disciplined`.
-/
import MarkCompact.Proofs.Placements

namespace MarkCompact

/-- A relation that holds between every entry of a list and all those before it. -/
theorem pairwise_of_earlier {α : Type} {R : α → α → Prop} {l : List α}
    (h : ∀ before a, before ++ [a] <+: l → ∀ c ∈ before, R c a) : l.Pairwise R := by
  induction l using List.reverseRecOn with
  | nil => exact List.Pairwise.nil
  | append_singleton l a ih =>
    rw [List.pairwise_append]
    refine ⟨ih fun before c hbefore => h before c (hbefore.trans (List.prefix_append _ _)),
      List.pairwise_singleton .., fun c hc d hd => ?_⟩
    rw [List.mem_singleton.1 hd]
    exact h l a (List.prefix_refl _) c hc

/-- What comes before an entry of a list. -/
theorem exists_earlier {α : Type} {l : List α} {a : α} (ha : a ∈ l) :
    ∃ before, before ++ [a] <+: l := by
  obtain ⟨before, rest, rfl⟩ := List.append_of_mem ha
  exact ⟨before, rest, by simp⟩

namespace CompactionPoint

open Forwarding

/-- The objects of a log go to two regions for each region that they come from, and where that is
not enough they are kept in place. -/
structure Disciplined (h : Heap) (t : ClassTable) (part : List Nat) (log : List Placement)
    (g : Heap) : Prop where
  /-- The objects of one region go to no more than two regions. -/
  few : ∀ i, ((log.filter fun e => e.place.moved && h.layout.indexOf e.object == i).map
    fun e => h.layout.indexOf e.place.target).toFinset.card ≤ 2
  kept : ∀ d ∈ log, d.kept = true →
    d.place.target = d.object ∧ d.place.words.toNat = h.wordsAt t d.object
  /-- Once an object has been kept in place, no later one of its region moves. -/
  settled : log.Pairwise fun d e => d.kept = true →
    h.layout.indexOf e.object = h.layout.indexOf d.object → e.place.moved = false
  /-- Nothing goes to the regions between the one that was open and that of the object. -/
  skipped : ∀ d ∈ log, d.kept = true → ∀ j ∈ part, d.opened < j →
    j < h.layout.indexOf d.object → (g.region j).compactionTop = h.layout.bottom j
  /-- Objects of later regions go behind the object. -/
  behind : log.Pairwise fun d e => d.kept = true →
    h.layout.indexOf d.object < h.layout.indexOf e.object → d.stop ≤ e.place.target.toNat

variable {h : Heap} {t : ClassTable} {b : Bitmap} {live : Address → Prop} {part : List Nat}
  {n : Announced} {e : Encoding} {starts : StartTable} {s : Relocation} {kept : Nat}
  {tops : Nat → Address} {as : List Address} {log : List Placement}

/-! ### Targets of a region -/

/-- Where an object of a region has gone, the region has a target. -/
theorem mem_targetsOf_log {l : Layout} {d : Placement} (hd : d ∈ log)
    (hmoved : d.place.target ≠ d.object) :
    l.indexOf d.place.target
      ∈ targetsOf l (Berth.moves (log.map (Placement.berth l))) (l.indexOf d.object) :=
  mem_targetsOf (e := (d.object, d.place.target))
    (Berth.mem_moves.2 ⟨_, List.mem_map_of_mem hd, hmoved, rfl⟩)

/-- What has been used before is used in the end. -/
theorem targetsOf_log_subset {l : Layout} {before : List Placement} (hbefore : before <+: log)
    (i : Nat) : targetsOf l (Berth.moves (before.map (Placement.berth l))) i
      ⊆ targetsOf l (Berth.moves (log.map (Placement.berth l))) i := by
  refine targetsOf_subset (fun m hm => ?_) i
  obtain ⟨r, hr, hne, heq⟩ := Berth.mem_moves.1 hm
  exact Berth.mem_moves.2 ⟨r, (hbefore.map (Placement.berth l)).subset hr, hne, heq⟩

namespace Lodged

section

variable (hs : Stocked h t b live) (hp : h.Part part) (hlive : ∀ a ∈ as, live a)
  (ht : Telling h part log) (hlayout : n.layout = h.layout)
  (hl : Lodged h t part as n .sliding starts s kept tops (log.map (Placement.berth h.layout)))

include hlayout hl in
/-- No region has a third target. -/
theorem length_targetsOf_le (i : Nat) :
    (targetsOf h.layout (Berth.moves (log.map (Placement.berth h.layout))) i).length
      ≤ basesPerRegion := by
  have hcode := hl.encoding
  have hrec := hl.records
  generalize s.forwarding = f at hcode hrec
  cases f with
  | sliding x =>
    rw [← hlayout] at hrec ⊢
    exact hrec.encodes.1.room i
  | header => cases hcode
  | hashed x => cases hcode
  | dense x => cases hcode

include hlayout hl ht in
/-- So the objects of a region go to no more than two regions. -/
theorem card_targets_le (i : Nat) :
    ((log.filter fun e => e.place.moved && h.layout.indexOf e.object == i).map
      fun e => h.layout.indexOf e.place.target).toFinset.card ≤ 2 := by
  refine le_trans (Finset.card_le_card fun j hj => ?_)
    ((List.toFinset_card_le _).trans (hl.length_targetsOf_le hlayout i))
  rw [List.mem_toFinset] at hj ⊢
  obtain ⟨d, hd, rfl⟩ := List.mem_map.1 hj
  obtain ⟨hmem, hd⟩ := List.mem_filter.1 hd
  rw [Bool.and_eq_true, beq_iff_eq, ht.moved d hmem, decide_eq_true_eq] at hd
  rw [← hd.2]
  exact mem_targetsOf_log hmem hd.1

include hs hp hlive ht hlayout hl in
/-- An object of a region of which one has been kept in place stays where it is: it would go on in
its own region, and that is a third target. -/
theorem settled_of_kept {before : List Placement} {d e : Placement}
    (hbefore : before ++ [e] <+: log) (hd : d ∈ before) (hkept : d.kept = true)
    (hsame : h.layout.indexOf e.object = h.layout.indexOf d.object) : e.place.moved = false := by
  have hplaced := hl.placements hs hp hlive ht
  have he : e ∈ log := hbefore.subset (by simp)
  have hd' : d ∈ log := hbefore.subset (List.mem_append_left _ hd)
  rw [ht.moved e he, decide_eq_false_iff_not]
  intro hmoved
  obtain ⟨earlier, hearlier⟩ := exists_earlier hd
  have hearlier' := (hearlier.trans (List.prefix_append _ _)).trans hbefore
  obtain ⟨hstay, hfull, hnot⟩ := ht.kept earlier d hearlier' hkept
  -- the place of the later object lies between the two objects
  have hregion : h.layout.indexOf e.place.target = h.layout.indexOf d.object := by
    have hbehind := (List.pairwise_append.1 (hplaced.apart.sublist hbefore.sublist)).2.2 d hd e
      (List.mem_singleton_self e)
    have hleft := hplaced.left e he
    have hlt := hplaced.lt_stop hs hd' (hlive _ (hl.object_mem hd'))
    obtain ⟨hin, h1, -⟩ := hs.region (hlive _ (hl.object_mem hd'))
    obtain ⟨-, -, h2⟩ := hs.region (hlive _ (hl.object_mem he))
    have h3 := (hs.tabled.top _ hin).2.1
    rw [hsame] at h2
    rw [hs.tabled.bottom _ hin] at h1
    rw [hs.tabled.stop _ hin] at h3
    rw [hs.tabled.count] at hin
    have h4 := hs.tabled.layout.toNat_regionStop hin
    rw [hstay] at hlt
    exact hs.tabled.layout.indexOf_eq hin (by omega) (by omega)
  have hthird : h.layout.indexOf d.object
      ∈ targetsOf h.layout (Berth.moves (log.map (Placement.berth h.layout)))
        (h.layout.indexOf d.object) := by
    have := mem_targetsOf_log (l := h.layout) he hmoved
    rwa [hregion, hsame] at this
  have hsub := targetsOf_log_subset (l := h.layout) ((List.prefix_append _ _).trans hearlier')
    (h.layout.indexOf d.object)
  have hlength := ((List.nodup_cons.2 ⟨hnot, nodup_targetsOf ..⟩).subperm
    (List.cons_subset.2 ⟨hthird, hsub⟩)).length_le
  have hroom := hl.length_targetsOf_le hlayout (h.layout.indexOf d.object)
  rw [List.length_cons] at hlength
  omega

include hs hp hlive ht hl in
/-- The regions between the one that was open and that of an object that is kept in place stay
empty: what came before lies farther left, and what comes after farther right. -/
theorem skipped_of_kept {d : Placement} (hd : d ∈ log) (hstay : d.place.target = d.object) {j : Nat}
    (hj : j ∈ part) (hopened : d.opened < j) (hsource : j < h.layout.indexOf d.object) :
    (s.heap.region j).compactionTop = h.layout.bottom j := by
  have hplaced := hl.placements hs hp hlive ht
  have htl := hs.tabled.layout
  obtain ⟨before, hbefore⟩ := exists_earlier hd
  obtain ⟨hopen, hleft⟩ := ht.opened before d hbefore
  obtain ⟨rest, hrest⟩ := hbefore
  have hopen := hp.inside _ hopen
  have hin := hp.inside j hj
  obtain ⟨hin', hbottom, -⟩ := hs.region (hlive _ (hl.object_mem hd))
  rw [hs.tabled.bottom _ hin'] at hbottom
  rw [hs.tabled.count] at hopen hin hin'
  have hafter := htl.regionStop_le_bottom hopened hin.le
  have hahead := htl.regionStop_le_bottom hsource hin'.le
  have hnone : ∀ c ∈ log, h.layout.indexOf c.place.target ≠ j := by
    rintro c hc rfl
    obtain ⟨-, hfrom, hstop, -⟩ := hl.laid.berthed _ (List.mem_map_of_mem hc)
    have hstop := hstop.trans (hl.laid.extent _ hj).2.1
    change (h.layout.bottom (h.layout.indexOf c.place.target)).toNat ≤ c.place.target.toNat at hfrom
    change c.stop ≤ (h.layout.regionStop (h.layout.indexOf c.place.target)).toNat at hstop
    rw [htl.toNat_regionStop hin] at hstop
    have hlt := hplaced.lt_stop hs hc (hlive _ (hl.object_mem hc))
    have hapart := hplaced.apart
    rw [← hrest, List.append_assoc, List.pairwise_append] at hapart
    rw [← hrest, List.append_assoc, List.mem_append, List.singleton_append, List.mem_cons] at hc
    rcases hc with hc | rfl | hc
    · have hc := hleft c hc
      rw [htl.toNat_regionStop hopen] at hc
      change c.stop ≤ _ at hc
      omega
    · rw [hstay] at hsource
      exact absurd hsource (Nat.lt_irrefl _)
    · have hbehind := (List.pairwise_cons.1 hapart.2.1).1 c hc
      have hlt' := hplaced.lt_stop hs hd (hlive _ (hl.object_mem hd))
      rw [hstay] at hlt'
      omega
  apply UInt64.toNat_inj.1
  rw [hl.compactionTop hj, endIn_of_none hnone]

include hs hp hlive ht hlayout hl in
/-- Two targets for each region are enough, if objects are kept in place where they are not. -/
theorem disciplined : Disciplined h t part log s.heap := by
  have hplaced := hl.placements hs hp hlive ht
  have hstays : ∀ d ∈ log, d.kept = true → d.place.target = d.object := fun d hd hkept => by
    obtain ⟨before, hbefore⟩ := exists_earlier hd
    exact (ht.kept before d hbefore hkept).1
  refine ⟨hl.card_targets_le ht hlayout, fun d hd hkept => ?_, ?_, fun d hd hkept j hj => ?_,
    hplaced.apart.imp fun hle _ _ => hle⟩
  · have hstay := hstays d hd hkept
    have hwords := hplaced.words d hd
    rw [if_pos hstay] at hwords
    exact ⟨hstay, hwords⟩
  · exact pairwise_of_earlier fun before e hbefore d hd =>
      hl.settled_of_kept hs hp hlive ht hlayout hbefore hd
  · exact hl.skipped_of_kept hs hp hlive ht hd (hstays d hd hkept) hj

end

end Lodged

/-! ### Offsets from two bases -/

/-- Regions that have begun to take part hold nothing yet. -/
theorem enlisted_of_begun (ht : h.Tabled) (hp : h.Part part)
    (hbegun : ∀ i ∈ part, (h.region i).beginCompaction = h.region i) :
    h.Enlisted part h.layout.bottom h := by
  refine ⟨rfl, rfl, rfl, fun i hi => ?_, fun _ _ => rfl⟩
  rw [← ht.bottom i (hp.inside i hi)]
  exact (hbegun i hi).symm

/-- Live objects are given to a compaction point in ascending order, each after its region, and
the encoding has two bases for each region. Then every object is placed, the objects of a region
go to two regions at most, and where objects are kept in place the point abides by it. -/
theorem sliding_disciplined (hs : Stocked h t b live) (hp : h.Part part)
    (hbegun : ∀ i ∈ part, (h.region i).beginCompaction = h.region i) (hheap : s.heap = h)
    {x : Sliding} (hready : (Forwarding.sliding x).Ready h.layout h.compactHeaders)
    (hforwarding : s.forwarding = .sliding x.clear) (hsaved : s.saved = #[])
    {offers : List Offer} (hregions : Offer.regions offers = part)
    (ho : Offer.Orderly h live offers) :
    ∃ f, offers.foldlM (Feed.take t) (.start s) = .ok f ∧
      f.log.map Placement.object = Offer.objects offers ∧
      Disciplined h t part f.log f.closed := by
  let n : Announced :=
    ⟨h.layout, h.compactHeaders, (h.liveList b).length, fun i => some (h.liveIn b i).length⟩
  have hm : Mustered h t b live part n :=
    ⟨hs, hp, ⟨rfl, rfl, fun _ _ => rfl⟩, fun l hn hl => hs.length_le_liveList hn hl⟩
  have hrec : s.forwarding.Records n h.memory s.heap.memory [] := by
    rw [hforwarding, hheap]
    exact ⟨Memory.SameSpan.refl _, fun _ _ => rfl, List.nodup_nil, by simp, by simp,
      Sliding.holds_clear hready.1 hready.2, by simp⟩
  obtain ⟨f, tops, hrun, htelling, hlodged, -⟩ := lodged_run (e := .sliding) hm
    (hheap.symm ▸ enlisted_of_begun hs.tabled hp hbegun) hrec (by rw [hforwarding]; rfl) hsaved
    hregions ho
  refine ⟨f, hrun, ?_, hlodged.disciplined hs hp (fun a ha => ho.live_of_mem ha) htelling rfl⟩
  rw [← hlodged.laid.objects, map_object_berth]

/-! ### Pairs that grow -/

/-- Six pairs at the bottom of region 0, which leave four of its words, and the eight of a full
region 2. -/
def pairs : List Address :=
  [0x10000, 0x10010, 0x10020, 0x10030, 0x10040, 0x10050,
    0x10100, 0x10110, 0x10120, 0x10130, 0x10140, 0x10150, 0x10160, 0x10170]

/-- The mark of a pair that has been asked for its hash. A pair that moves takes three words, so
region 0 has room for one more of them and region 1 for five. -/
def pairMark : Mark := (Mark.freshOf 0).withHashed

/-- Three regions of sixteen words that have begun to take part, with these pairs in them. -/
def pairHeap : Heap :=
  let l : Layout := ⟨0x10000, 4, 3⟩
  { memory := ⟨l.base, 4096, Std.HashMap.ofList (pairs.map fun a => (a, pairMark.raw))⟩
    layout := l
    regions := ((List.range 3).map fun i =>
      { (Region.new i (l.bottom i) (l.regionStop i)).beginCompaction with
        top := l.regionStop i, kind := .regular }).toArray
    starts := .new l
    compactHeaders := true }

def pairClasses : ClassTable := ⟨true, #[⟨"Pair", 2, []⟩]⟩

theorem pairs_apart : pairs.Pairwise fun a c => a.toNat + 8 * 2 ≤ c.toNat := by decide +kernel

theorem pairs_inside {a : Address} (ha : a ∈ pairs) : pairHeap.contains a = true ∧
    pairHeap.layout.base.toNat ≤ a.toNat ∧ a.toNat + 8 * 2 ≤ pairHeap.layout.stop.toNat ∧
    a.toNat % 8 = 0 := by
  have hall : pairs.all fun a => pairHeap.contains a = true ∧
      pairHeap.layout.base.toNat ≤ a.toNat ∧ a.toNat + 8 * 2 ≤ pairHeap.layout.stop.toNat ∧
      a.toNat % 8 = 0 := by decide +kernel
  exact of_decide_eq_true (List.all_eq_true.1 hall a ha)

theorem pairs_regions {a : Address} (ha : a ∈ pairs) :
    pairHeap.layout.indexOf a ∈ [0, 1, 2] ∧
      (pairHeap.region (pairHeap.layout.indexOf a)).kind = .regular ∧
      (pairHeap.layout.bottom (pairHeap.layout.indexOf a)).toNat ≤ a.toNat ∧
      a.toNat + 8 * 2 ≤ (pairHeap.region (pairHeap.layout.indexOf a)).top.toNat := by
  have hall : pairs.all fun a => pairHeap.layout.indexOf a ∈ [0, 1, 2] ∧
      (pairHeap.region (pairHeap.layout.indexOf a)).kind = .regular ∧
      (pairHeap.layout.bottom (pairHeap.layout.indexOf a)).toNat ≤ a.toNat ∧
      a.toNat + 8 * 2 ≤ (pairHeap.region (pairHeap.layout.indexOf a)).top.toNat := by
    decide +kernel
  exact of_decide_eq_true (List.all_eq_true.1 hall a ha)

theorem nodup_pairs : pairs.Nodup :=
  pairs_apart.imp fun {a c} hle heq => by
    rw [heq] at hle
    omega

theorem loadMark_pair {a : Address} (ha : a ∈ pairs) : pairHeap.memory.loadMark a = pairMark := by
  have hload : pairHeap.memory.load a = pairMark.raw := by
    refine Std.HashMap.getD_ofList_of_mem (beq_self_eq_true a) ?_ ?_
    · rw [List.pairwise_map]
      exact nodup_pairs.imp fun hne => by simpa using hne
    · exact List.mem_map_of_mem ha
  unfold Memory.loadMark
  rw [hload]

theorem infoOf_pair {a : Address} (ha : a ∈ pairs) :
    pairHeap.infoOf pairClasses a = .ok ⟨"Pair", 2, []⟩ := by
  apply Heap.infoOf_of_info
  unfold Heap.classOf
  rw [loadMark_pair ha]
  rfl

theorem size_pair {a : Address} (ha : a ∈ pairs) : pairHeap.size pairClasses a = .ok 2 := by
  rw [Heap.size_of_info (infoOf_pair ha), loadMark_pair ha]
  rfl

theorem stocked_pairHeap : Stocked pairHeap pairClasses
    ((Bitmap.ofLayout pairHeap.layout).markAll (fun _ => 2) pairs) (· ∈ pairs) := by
  have hsound : pairHeap.layout.Sound := by decide
  have hwords : ∀ a ∈ pairs, pairHeap.wordsAt pairClasses a = 2 := fun a ha =>
    Heap.wordsAt_of_size (size_pair ha)
  have hregular : ∀ i < 3, (pairHeap.region i).kind = .regular := by decide
  refine ⟨⟨⟨hsound, by decide, by decide, by decide, by decide⟩, by decide, by decide, ?_, ?_⟩,
    ⟨rfl, by decide, by decide, by decide, by decide⟩,
    ⟨by simp [pairClasses, ClassTable.headerWords], by simp [pairClasses], by simp [pairClasses]⟩,
    rfl, ⟨?_, ?_⟩, ?_⟩
  · intro i hi hk
    rw [hregular i hi] at hk
    cases hk
  · intro i hi hk
    rw [hregular i hi] at hk
    cases hk
  · intro a ha
    obtain ⟨hin, hkind, hbottom, htop⟩ := pairs_regions ha
    refine ⟨_, 2, (pairs_inside ha).1, infoOf_pair ha, size_pair ha, by decide, ?_,
      .inl ⟨_, ?_, hkind, hbottom, htop⟩⟩
    · rw [loadMark_pair ha]
      exact (Mark.proper_freshOf 0).withHashed
    · simp only [List.mem_cons, List.not_mem_nil, or_false] at hin
      change pairHeap.layout.indexOf a < 3
      omega
  · intro a c ha hc hlt
    rw [hwords a ha]
    rcases eq_or_of_pairwise pairs_apart ha hc with rfl | h | h
    · exact absurd hlt (Nat.lt_irrefl _)
    · exact h
    · omega
  · refine ((Bitmap.shows_ofLayout pairHeap.layout _).markAll hsound.spans pairs nodup_pairs
      (fun _ _ => id) ?_ ?_).congr (fun a => or_iff_left id) fun a ha => ?_
    · intro a ha
      obtain ⟨-, h1, h2, h3⟩ := pairs_inside ha
      exact ⟨h1, by omega, h3⟩
    · exact fun a ha => (pairs_inside ha).2.2.1
    · rw [hwords a (by simpa using ha)]

/-- In the heap with these pairs, to which the three regions are given before the pairs. -/
theorem sliding_disciplined_pairs :
    ∃ (h : Heap) (t : ClassTable) (b : Bitmap) (offers : List Offer) (x : Sliding) (f : Feed),
      Stocked h t b (· ∈ pairs) ∧ h.Part [0, 1, 2] ∧
      (∀ i ∈ [0, 1, 2], (h.region i).beginCompaction = h.region i) ∧
      (Forwarding.sliding x).Ready h.layout h.compactHeaders ∧
      Offer.regions offers = [0, 1, 2] ∧ Offer.objects offers = pairs ∧
      Offer.Orderly h (· ∈ pairs) offers ∧
      offers.foldlM (Feed.take t) (.start ⟨h, .sliding x.clear, #[]⟩) = .ok f ∧
      f.log.map Placement.object = pairs ∧ Disciplined h t [0, 1, 2] f.log f.closed := by
  have hpart : pairHeap.Part [0, 1, 2] := ⟨by decide, by decide, by decide⟩
  have hbegun : ∀ i ∈ [0, 1, 2], (pairHeap.region i).beginCompaction = pairHeap.region i := by
    simp only [List.forall_mem_cons, List.not_mem_nil, false_imp_iff, implies_true, and_true]
    exact ⟨rfl, rfl, rfl⟩
  have horderly : Offer.Orderly pairHeap (· ∈ pairs)
      ([0, 1, 2].map .region ++ pairs.map .object) :=
    Offer.orderly_regions_first (pairs_apart.imp fun hle => by omega) fun a ha =>
      ⟨ha, (pairs_regions ha).1⟩
  let x : Sliding := ⟨pairHeap.layout, Array.replicate (3 * basesPerRegion) none⟩
  have hready : (Forwarding.sliding x).Ready pairHeap.layout pairHeap.compactHeaders :=
    ⟨rfl, Array.size_replicate⟩
  obtain ⟨f, hrun, hobjects, hdisciplined⟩ :=
    sliding_disciplined (s := ⟨pairHeap, .sliding x.clear, #[]⟩) stocked_pairHeap hpart hbegun rfl
      hready rfl rfl (by simp) horderly
  rw [Offer.objects_append, Offer.objects_map_region, Offer.objects_map_object,
    List.nil_append] at hobjects
  exact ⟨_, _, _, _, x, f, stocked_pairHeap, hpart, hbegun, hready, by simp, by simp, horderly, hrun,
    hobjects, hdisciplined⟩

end CompactionPoint

end MarkCompact
