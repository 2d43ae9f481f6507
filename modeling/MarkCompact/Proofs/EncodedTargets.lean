/-
MarkCompact/Proofs/EncodedTargets.lean

New addresses as offsets, one after the other.

Whatever order the objects come in, each new address is encoded in bits that fit into a mark, and
the bits stand for it from then on (`Sliding.Encodes`): further addresses take further slots, and
a slot that is taken stays as it is.  There are as many slots taken as there are pairs of a region
and a target of it.  Only a third target for one region is refused (`Sliding.Holds.claimBase_refused`).

This takes no more of the grid than that its words have addresses and its regions are not too
wide for an offset.

Main result: `Sliding.round_trip`.
-/
import MarkCompact.Proofs.SlidingBases

namespace MarkCompact

/-- As many targets as before, or more. -/
theorem length_targetsOf_mono {l : Layout} {moves moves' : List (Address × Address)}
    (hsub : moves ⊆ moves') (region : Nat) :
    (targetsOf l moves region).length ≤ (targetsOf l moves' region).length :=
  ((nodup_targetsOf l moves region).subperm (targetsOf_subset hsub region)).length_le

/-- Where all objects come from one region, only its targets count. -/
theorem length_targetsOf_le_of_region {l : Layout} {moves : List (Address × Address)} {i k : Nat}
    (hregion : ∀ move ∈ moves, l.indexOf move.1 = i) (hle : (targetsOf l moves i).length ≤ k)
    (r : Nat) : (targetsOf l moves r).length ≤ k := by
  by_cases hr : r = i
  · rwa [hr]
  · rw [targetsOf_of_none fun move hmove => by
      rw [hregion move hmove]
      exact Ne.symm hr]
    exact Nat.zero_le k

/-- The pairs of a region and a target of it. -/
def pairsOf (l : Layout) (moves : List (Address × Address)) : Finset (Nat × Nat) :=
  (moves.map fun move => (l.indexOf move.1, l.indexOf move.2)).toFinset

theorem pairsOf_snoc (l : Layout) (moves : List (Address × Address)) (a v : Address) :
    pairsOf l (moves ++ [(a, v)]) = insert (l.indexOf a, l.indexOf v) (pairsOf l moves) := by
  ext pair
  simp [pairsOf]

theorem mem_pairsOf_iff {l : Layout} {moves : List (Address × Address)} {i j : Nat} :
    (i, j) ∈ pairsOf l moves ↔ j ∈ targetsOf l moves i := by
  rw [pairsOf, List.mem_toFinset, List.mem_map]
  constructor
  · rintro ⟨move, hmem, heq⟩
    obtain ⟨rfl, rfl⟩ := Prod.mk.inj heq
    exact mem_targetsOf hmem
  · intro hmem
    obtain ⟨move, hmove, hsource, htarget⟩ := exists_of_mem_targetsOf hmem
    exact ⟨move, hmove, Prod.ext hsource htarget⟩

namespace Sliding

variable {s : Sliding} {l : Layout} {moves : List (Address × Address)} {ws : List Word}
  {a v : Address}

/-- Encodes one more new address, after the bits of those before. -/
def encodeNext (r : List Word × Sliding) (move : Address × Address) :
    Except Fault (List Word × Sliding) := do
  let (bits, s) ← r.2.encode move.1 move.2
  return (r.1 ++ [bits], s)

/-- Encodes new addresses one after the other: the bits of each, in order. -/
def encodeAll (s : Sliding) (moves : List (Address × Address)) :
    Except Fault (List Word × Sliding) :=
  moves.foldlM encodeNext ([], s)

/-! ### Bits -/

/-- Bits that make a mark a forwarded one, and lie where its lock, its age and the offset do. -/
structure Within (bits : Word) : Prop where
  lock : bits &&& lockMask = 0b11
  self : bits &&& selfMask = 0
  within : bits &&& ~~~(lockMask ||| ageMask ||| offsetMask) = 0

theorem within_encoded {offset : Word} (h : offset.toNat < 2 ^ 23) (slot : Nat) :
    Within ((offset <<< 9) ||| (if slot = 1 then secondBaseBit else 0) ||| 0b11) := by
  have hand : ∀ {k : Word}, offsetMask &&& k = 0 →
      ((offset <<< 9) ||| (if slot = 1 then secondBaseBit else 0) ||| 0b11) &&& k
        = ((if slot = 1 then secondBaseBit else 0) &&& k) ||| (0b11 &&& k) := fun hk => by
    rw [or_and_distrib, or_and_distrib, shiftLeft_and h hk, UInt64.zero_or]
  refine ⟨?_, ?_, ?_⟩ <;> rw [hand (by decide)] <;> split <;> decide

/-- The bits are those that a mark with no other bits would have. -/
theorem encode_eq {s' : Sliding} {slot : Nat} (hlayout : s.layout = l)
    (hclaim : s.claimBase (l.indexOf a) (l.baseOf v) = .ok (slot, s')) :
    s.encode a v = .ok ((mergedMark ⟨0⟩ ((l.baseOf v).wordsTo v) slot).raw, s') := by
  unfold encode mergedMark
  rw [hlayout]
  refine bind_eq_ok hclaim ?_
  rw [show (0 : Word) &&& ~~~encodedMask = 0 by decide, UInt64.zero_or]
  rfl

theorem encode_error {fault : Fault} (hlayout : s.layout = l)
    (hclaim : s.claimBase (l.indexOf a) (l.baseOf v) = .error fault) :
    s.encode a v = .error fault := by
  unfold encode
  dsimp only
  rw [hlayout, hclaim]
  rfl

/-! ### One after the other -/

/-- The slots are those of these new addresses, and each of the given bits stands for its own. -/
structure Encodes (s : Sliding) (l : Layout) (moves : List (Address × Address)) (ws : List Word) :
    Prop where
  holds : s.Holds l moves
  decoded : List.Forall₂ (fun move bits => s.decode move.1 bits = .ok move.2) moves ws
  fits : ∀ bits ∈ ws, Within bits
  claimed : s.claimed = (pairsOf l moves).card

/-- Nothing has been encoded yet. -/
theorem encodes_nil (hs : s.Holds l []) (hclaimed : s.claimed = 0) : s.Encodes l [] [] :=
  ⟨hs, .nil, by simp, hclaimed⟩

/-- One more new address, as long as its region is no third target. -/
theorem Encodes.encode (h : s.Encodes l moves ws) (hl : l.Addressable) (ha : l.OnGrid a)
    (hv : l.OnGrid v) (hroom : l.indexOf v ∈ targetsOf l moves (l.indexOf a) ∨
      (targetsOf l moves (l.indexOf a)).length < basesPerRegion) :
    ∃ bits s', s.encode a v = .ok (bits, s') ∧ s'.Encodes l (moves ++ [(a, v)]) (ws ++ [bits]) := by
  obtain ⟨slot, s', hclaim, hslot, hholds, hbase, hkeep⟩ :=
    h.holds.claimBase hl ha.region hv.region hroom
  have hsmall := (offset_lt hl hv).1
  refine ⟨_, s', encode_eq h.holds.layout hclaim, hholds, ?_, ?_, ?_⟩
  · refine List.rel_append (h.decoded.imp fun move bits hdecode =>
      decode_mono (hholds.layout.trans h.holds.layout.symm) hkeep hdecode) ?_
    exact .cons (decode_merged hl hholds.layout ⟨0⟩ hv hslot hbase) .nil
  · intro bits hbits
    rcases List.mem_append.1 hbits with hbits | hbits
    · exact h.fits bits hbits
    · rw [List.mem_singleton.1 hbits]
      have := within_encoded hsmall slot
      unfold mergedMark
      simpa using this
  · have hrun := h.holds.claimBase_eq hl ha.region hv.region
    change s.claimBase (l.indexOf a) (l.baseOf v) = _ at hrun
    rw [hclaim] at hrun
    rw [pairsOf_snoc]
    by_cases hmem : l.indexOf v ∈ targetsOf l moves (l.indexOf a)
    · rw [if_pos hmem] at hrun
      obtain rfl : s' = s := (Prod.mk.inj (Except.ok.inj hrun)).2
      rw [Finset.insert_eq_of_mem (mem_pairsOf_iff.2 hmem), h.claimed]
    · have hnew := hroom.resolve_left hmem
      rw [if_neg hmem, if_pos hnew] at hrun
      obtain rfl : s' = _ := (Prod.mk.inj (Except.ok.inj hrun)).2
      have hfree : s.base (l.indexOf a) (targetsOf l moves (l.indexOf a)).length = none := by
        rw [h.holds.slots _ ha.region _ hnew, List.getElem?_eq_none (le_refl _)]
        rfl
      rw [claimed_setBase h.holds.count ha.region hnew (Holds.bottom_ne_greatest hl hv.region) hfree,
        h.claimed, Finset.card_insert_of_notMem fun hpair => hmem (mem_pairsOf_iff.1 hpair)]

/-- A third target is refused. -/
theorem Holds.claimBase_refused (h : s.Holds l moves) (hl : l.Addressable) (ha : l.OnGrid a)
    (hv : l.OnGrid v)
    (hthird : basesPerRegion < (targetsOf l (moves ++ [(a, v)]) (l.indexOf a)).length) :
    ∃ i j, targetsOf l moves (l.indexOf a) = [i, j] ∧
      s.claimBase (l.indexOf a) (l.baseOf v)
        = .error (.thirdTarget (l.indexOf a) (l.bottom i) (l.bottom j) (l.baseOf v)) := by
  have hrun := h.claimBase_eq hl ha.region hv.region
  have hroom := h.room (l.indexOf a)
  have hnew : l.indexOf v ∉ targetsOf l moves (l.indexOf a) := fun hmem => by
    rw [targetsOf_snoc_of_mem hmem] at hthird
    omega
  rw [targetsOf_snoc_of_notMem hnew, List.length_append, List.length_singleton] at hthird
  rw [if_neg hnew, if_neg (by omega)] at hrun
  obtain ⟨i, j, htargets⟩ := List.length_eq_two.1 (show (targetsOf l moves (l.indexOf a)).length = 2
    by unfold basesPerRegion at *; omega)
  refine ⟨i, j, htargets, ?_⟩
  rw [htargets] at hrun
  exact hrun

/-! ### All of them -/

theorem holds_new (hl : l.Addressable) :
    ∃ s, Sliding.new l = .ok s ∧ s.Holds l [] ∧ s.claimed = 0 := by
  have hshift : l.regionShift ≤ greatestRegionShift := UInt32.le_iff_toNat_le.2 hl.greatest
  let s : Sliding := ⟨l, Array.replicate (l.numRegions * basesPerRegion) none⟩
  refine ⟨s, if_pos hshift, ?_, ?_⟩
  · have hholds := holds_clear (s := s) rfl Array.size_replicate
    have hclear : s.clear = s := by simp [clear, s]
    rwa [hclear] at hholds
  · simp [claimed, s, List.countP_replicate]

/-- What has been encoded before is not encoded again. -/
theorem isPrefix_of_encodeNext {after : List (Address × Address)} {r r' : List Word × Sliding}
    (hrun : after.foldlM encodeNext r = .ok r') : r.1 <+: r'.1 := by
  refine foldlM_keeps (fun q => r.1 <+: q.1) ?_ (List.prefix_refl r.1) hrun
  intro move q q' hq hnext
  obtain ⟨⟨bits, s'⟩, -, heq⟩ := exists_of_bind_eq_ok hnext
  obtain rfl : (q.1 ++ [bits], s') = q' := Except.ok.inj heq
  exact hq.trans (List.prefix_append ..)

/-- Where no region has a third target, all new addresses are encoded. -/
theorem encodes_encodeAll (hl : l.Addressable) {s₀ : Sliding} (hs : s₀.Holds l [])
    (hclaimed : s₀.claimed = 0) (hgrid : ∀ move ∈ moves, l.OnGrid move.1 ∧ l.OnGrid move.2)
    (hfew : ∀ r, (targetsOf l moves r).length ≤ basesPerRegion) :
    ∃ ws s, s₀.encodeAll moves = .ok (ws, s) ∧ s.Encodes l moves ws := by
  obtain ⟨⟨ws, s⟩, hrun, hencodes⟩ := foldlM_induct (f := encodeNext)
    (fun done r => r.2.Encodes l done r.1) moves ([], s₀) (encodes_nil hs hclaimed) (by
      rintro done ⟨a, v⟩ rest ⟨ws, s⟩ hsplit h
      obtain ⟨ha, hv⟩ := hgrid (a, v) (by simp [hsplit])
      have hroom : l.indexOf v ∈ targetsOf l done (l.indexOf a) ∨
          (targetsOf l done (l.indexOf a)).length < basesPerRegion := by
        refine or_iff_not_imp_left.2 fun hnew => ?_
        have hsub : done ++ [(a, v)] ⊆ moves := by simp [hsplit]
        have hlength := (length_targetsOf_mono hsub (l.indexOf a)).trans (hfew _)
        rw [targetsOf_snoc_of_notMem hnew, List.length_append, List.length_singleton] at hlength
        omega
      obtain ⟨bits, s', hnext, h'⟩ := h.encode hl ha hv hroom
      exact ⟨(ws ++ [bits], s'), bind_eq_ok hnext rfl, h'⟩)
  exact ⟨ws, s, hrun, hencodes⟩

/-- On every grid whose words have addresses and whose regions are not too wide, new addresses are
encoded in any order as long as no region has a third target.  The bits are those of a forwarded
mark and lie outside the class and the hash state; at any time those given out so far stand for
their own addresses, and as many slots are taken as there are pairs of a region and a target.  The
first third target is refused, with the two that the region has. -/
theorem round_trip (hl : l.Addressable)
    (hgrid : ∀ move ∈ moves, l.OnGrid move.1 ∧ l.OnGrid move.2)
    (hfew : ∀ r, (targetsOf l moves r).length ≤ basesPerRegion) :
    ∃ s₀ ws s, Sliding.new l = .ok s₀ ∧ s₀.encodeAll moves = .ok (ws, s) ∧
      (∀ bits ∈ ws, Within bits) ∧
      (∀ before, before <+: moves → ∃ s', s₀.encodeAll before = .ok (ws.take before.length, s') ∧
        List.Forall₂ (fun move bits => s'.decode move.1 bits = .ok move.2) before
          (ws.take before.length) ∧
        s'.claimed = (pairsOf l before).card) ∧
      List.Forall₂ (fun move bits => s.decode move.1 bits = .ok move.2) moves ws ∧
      ∀ a v, l.OnGrid a → l.OnGrid v →
        basesPerRegion < (targetsOf l (moves ++ [(a, v)]) (l.indexOf a)).length →
        ∃ i j, targetsOf l moves (l.indexOf a) = [i, j] ∧ s.encode a v
          = .error (.thirdTarget (l.indexOf a) (l.bottom i) (l.bottom j) (l.baseOf v)) := by
  obtain ⟨s₀, hnew, hholds, hclaimed⟩ := holds_new hl
  obtain ⟨ws, s, hrun, hencodes⟩ := encodes_encodeAll hl hholds hclaimed hgrid hfew
  refine ⟨s₀, ws, s, hnew, hrun, hencodes.fits, ?_, hencodes.decoded, fun a v ha hv hthird => ?_⟩
  · rintro before ⟨after, rfl⟩
    obtain ⟨ws', s', hbefore, hencodes'⟩ := encodes_encodeAll hl hholds hclaimed
      (fun move hmove => hgrid move (List.mem_append_left _ hmove)) fun r =>
        (length_targetsOf_mono (List.subset_append_left before after) r).trans (hfew r)
    have hafter : after.foldlM encodeNext (ws', s') = .ok (ws, s) := by
      unfold encodeAll at hrun hbefore
      rw [List.foldlM_append, hbefore] at hrun
      exact hrun
    have htake : ws' = ws.take before.length := by
      rw [hencodes'.decoded.length_eq]
      exact List.prefix_iff_eq_take.1 (isPrefix_of_encodeNext hafter)
    rw [← htake]
    exact ⟨s', hbefore, hencodes'.decoded, hencodes'.claimed⟩
  · obtain ⟨i, j, htargets, hclaim⟩ := hencodes.holds.claimBase_refused hl ha hv hthird
    exact ⟨i, j, htargets, encode_error hencodes.holds.layout hclaim⟩

/-- At the upper end of the addresses, in regions of the greatest width: the first word of region 2
goes to the last of region 0, its last word to the first of region 1, and its second word finds no
third target. -/
theorem round_trip_upper_end : ∃ (l : Layout) (moves : List (Address × Address)) (s₀ : Sliding)
    (ws : List Word) (s : Sliding), l.Addressable ∧ l.regionShift = 23 ∧
      (∀ move ∈ moves, l.OnGrid move.1 ∧ l.OnGrid move.2) ∧
      (∀ r, (targetsOf l moves r).length ≤ basesPerRegion) ∧
      moves = [(0xfffffffffc000000, 0xfffffffff7fffff8), (0xfffffffffffffff8, 0xfffffffff8000000)] ∧
      Sliding.new l = .ok s₀ ∧ s₀.encodeAll moves = .ok (ws, s) ∧
      List.Forall₂ (fun move bits => s.decode move.1 bits = .ok move.2) moves ws ∧
      s.encode 0xfffffffffc000008 0xfffffffffc000000
        = .error (.thirdTarget 2 0xfffffffff4000000 0xfffffffff8000000 0xfffffffffc000000) := by
  let l : Layout := ⟨0xfffffffff4000000, 23, 3⟩
  let moves : List (Address × Address) :=
    [(0xfffffffffc000000, 0xfffffffff7fffff8), (0xfffffffffffffff8, 0xfffffffff8000000)]
  have hl : l.Addressable := by decide
  have hgrid : ∀ move ∈ moves, l.OnGrid move.1 ∧ l.OnGrid move.2 := by
    intro move hmove
    simp only [moves, List.mem_cons, List.not_mem_nil, or_false] at hmove
    rcases hmove with rfl | rfl <;> decide
  have hsource : ∀ move ∈ moves, l.indexOf move.1 = 2 := by
    intro move hmove
    simp only [moves, List.mem_cons, List.not_mem_nil, or_false] at hmove
    rcases hmove with rfl | rfl <;> decide
  have hfew := length_targetsOf_le_of_region (k := basesPerRegion) hsource (by decide)
  obtain ⟨s₀, ws, s, hnew, hrun, -, -, hdecoded, hrefused⟩ := round_trip hl hgrid hfew
  obtain ⟨i, j, htargets, hthird⟩ := hrefused 0xfffffffffc000008 0xfffffffffc000000
    (by decide) (by decide) (by decide)
  have hij : targetsOf l moves (l.indexOf 0xfffffffffc000008) = [0, 1] := by decide
  obtain ⟨rfl, rfl⟩ : i = 0 ∧ j = 1 := by
    rw [hij] at htargets
    simpa [eq_comm] using htargets
  rw [show l.indexOf 0xfffffffffc000008 = 2 by decide,
    show l.bottom 0 = 0xfffffffff4000000 by decide, show l.bottom 1 = 0xfffffffff8000000 by decide,
    show l.baseOf 0xfffffffffc000000 = 0xfffffffffc000000 by decide] at hthird
  exact ⟨l, moves, s₀, ws, s, hl, rfl, hgrid, hfew, rfl, hnew, hrun, hdecoded, hthird⟩

end Sliding

end MarkCompact
