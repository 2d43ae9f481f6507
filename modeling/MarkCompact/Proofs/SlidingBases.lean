/-
MarkCompact/Proofs/SlidingBases.lean

What an encoded address stands for.

The slots of a region hold the bases of the regions to which its objects have gone, in
the order in which they were first gone to (`targetsOf`).  A slot that is taken stays
as it is, so a mark that selects it goes on standing for the same address.

Main results: `Sliding.Holds.claimBase_eq` (a base is found, or takes the next slot, or there is
none for it), `Sliding.Holds.claimBase` (as long as an object goes to one of two regions, there is
a slot) and `Sliding.decode_merged` (what is encoded is decoded).
-/
import MarkCompact.Proofs.Bitmaps
import MarkCompact.Proofs.DenseTables
import MarkCompact.Proofs.Marks
import MarkCompact.Forwarding.Sliding

namespace MarkCompact

/-! ### Encoded bits -/

/-- The mark with an encoded address: its offset, and the bit of its slot. -/
def mergedMark (mark : Mark) (offset : Word) (slot : Nat) : Mark :=
  ⟨(mark.raw &&& ~~~encodedMask) |||
    ((offset <<< 9) ||| (if slot = 1 then secondBaseBit else 0) ||| 0b11)⟩

theorem shiftLeft_within {offset : Word} (h : offset.toNat < 2 ^ 23) :
    (offset <<< 9) &&& offsetMask = offset <<< 9 := by
  apply UInt64.toNat_inj.1
  have hval : (offset <<< 9).toNat = offset.toNat * 2 ^ 9 := by
    rw [UInt64.toNat_shiftLeft]
    show offset.toNat <<< 9 % 2 ^ 64 = _
    rw [Nat.shiftLeft_eq]
    omega
  have hmask : offsetMask.toNat = (2 ^ 23 - 1) * 2 ^ 9 := rfl
  rw [UInt64.toNat_and, hval, hmask, ← Nat.shiftLeft_eq, ← Nat.shiftLeft_eq, ← Nat.shiftLeft_and_distrib,
    Nat.and_two_pow_sub_one_eq_mod, Nat.mod_eq_of_lt h]

theorem shiftLeft_and {offset : Word} (h : offset.toNat < 2 ^ 23) {k : Word}
    (hk : offsetMask &&& k = 0) : (offset <<< 9) &&& k = 0 :=
  and_eq_zero_of_within hk (shiftLeft_within h)

theorem shiftLeft_shiftRight {offset : Word} (h : offset.toNat < 2 ^ 23) :
    (offset <<< 9) >>> 9 = offset := by
  apply UInt64.toNat_inj.1
  rw [UInt64.toNat_shiftRight, UInt64.toNat_shiftLeft]
  show (offset.toNat <<< 9 % 2 ^ 64) >>> 9 = _
  rw [Nat.shiftLeft_eq, Nat.shiftRight_eq_div_pow]
  omega

/-- The bits of a merged mark under a mask that keeps apart from the offset. -/
theorem mergedMark_and (mark : Mark) {offset : Word} (h : offset.toNat < 2 ^ 23) (slot : Nat)
    {k : Word} (hk : offsetMask &&& k = 0) :
    (mergedMark mark offset slot).raw &&& k = ((mark.raw &&& ~~~encodedMask) &&& k) |||
      (((if slot = 1 then secondBaseBit else 0) &&& k) ||| (0b11 &&& k)) := by
  unfold mergedMark
  dsimp only
  rw [or_and_distrib, or_and_distrib, or_and_distrib, shiftLeft_and h hk, UInt64.zero_or]

theorem and_not_and {b k : Word} (a : Word) (h : k &&& ~~~b = 0) : (a &&& ~~~b) &&& k = 0 := by
  rw [UInt64.and_assoc, UInt64.and_comm (~~~b), h, UInt64.and_zero]

theorem mergedMark_kept (mark : Mark) {offset : Word} (h : offset.toNat < 2 ^ 23) (slot : Nat) :
    (mergedMark mark offset slot).raw &&& keptMask = mark.raw &&& keptMask := by
  rw [mergedMark_and mark h slot (by decide), and_of_cleared mark.raw (by decide)]
  split <;> simp [show secondBaseBit &&& keptMask = 0 by decide,
    show (0b11 : Word) &&& keptMask = 0 by decide]

theorem isForwarded_mergedMark (mark : Mark) {offset : Word} (h : offset.toNat < 2 ^ 23)
    (slot : Nat) : (mergedMark mark offset slot).isForwarded = true := by
  rw [Mark.isForwarded_eq, mergedMark_and mark h slot (by decide),
    and_not_and mark.raw (by decide)]
  split <;> decide

theorem isSelfForwarded_mergedMark (mark : Mark) {offset : Word} (h : offset.toNat < 2 ^ 23)
    (slot : Nat) : (mergedMark mark offset slot).isSelfForwarded = false := by
  unfold Mark.isSelfForwarded
  rw [mergedMark_and mark h slot (by decide), and_not_and mark.raw (by decide)]
  split <;> simp [show secondBaseBit &&& selfMask = 0 by decide,
    show (0b11 : Word) &&& selfMask = 0 by decide]

theorem mergedMark_slot (mark : Mark) {offset : Word} (h : offset.toNat < 2 ^ 23) (slot : Nat) :
    ((mergedMark mark offset slot).raw &&& secondBaseBit != 0) = (slot == 1) := by
  rw [mergedMark_and mark h slot (by decide), and_not_and mark.raw (by decide)]
  by_cases hs : slot = 1
  · rw [if_pos hs, hs]
    decide
  · rw [if_neg hs, beq_eq_false_iff_ne.2 hs]
    decide

theorem mergedMark_offset (mark : Mark) {offset : Word} (h : offset.toNat < 2 ^ 23) (slot : Nat) :
    ((mergedMark mark offset slot).raw &&& offsetMask) >>> 9 = offset := by
  unfold mergedMark
  dsimp only
  rw [or_and_distrib, or_and_distrib, or_and_distrib, and_not_and mark.raw (by decide),
    shiftLeft_within h, show (0b11 : Word) &&& offsetMask = 0 by decide]
  have hslot : (if slot = 1 then secondBaseBit else 0) &&& offsetMask = 0 := by
    split <;> decide
  rw [hslot, UInt64.or_zero, UInt64.or_zero, UInt64.zero_or, shiftLeft_shiftRight h]

/-! ### Bases -/

/-- A region that is gone to, after those that have been gone to before. -/
def addTarget (regions : List Nat) (region : Nat) : List Nat :=
  if regions.contains region then regions else regions ++ [region]

/-- The regions to which objects of one region have gone, in the order in which they were
first gone to. -/
def targetsOf (l : Layout) (moves : List (Address × Address)) (region : Nat) : List Nat :=
  (movesOf l moves region).foldl (fun regions e => addTarget regions (l.indexOf e.2)) []

theorem targetsOf_snoc (l : Layout) (moves : List (Address × Address)) (a v : Address)
    (region : Nat) :
    targetsOf l (moves ++ [(a, v)]) region
      = if l.indexOf a = region then addTarget (targetsOf l moves region) (l.indexOf v)
        else targetsOf l moves region := by
  unfold targetsOf
  rw [movesOf_snoc, List.foldl_append]
  by_cases h : l.indexOf a = region
  · rw [if_pos h, if_pos h]
    rfl
  · rw [if_neg h, if_neg h]
    rfl

theorem targetsOf_snoc_of_mem {l : Layout} {moves : List (Address × Address)} {a v : Address}
    (hmem : l.indexOf v ∈ targetsOf l moves (l.indexOf a)) (region : Nat) :
    targetsOf l (moves ++ [(a, v)]) region = targetsOf l moves region := by
  rw [targetsOf_snoc]
  split
  · rename_i hregion
    rw [← hregion, addTarget, if_pos (by simpa using hmem)]
  · rfl

theorem targetsOf_snoc_of_notMem {l : Layout} {moves : List (Address × Address)} {a v : Address}
    (hnew : l.indexOf v ∉ targetsOf l moves (l.indexOf a)) :
    targetsOf l (moves ++ [(a, v)]) (l.indexOf a)
      = targetsOf l moves (l.indexOf a) ++ [l.indexOf v] := by
  rw [targetsOf_snoc, if_pos rfl, addTarget, if_neg (by simpa using hnew)]

theorem targetsOf_of_none {l : Layout} {moves : List (Address × Address)} {region : Nat}
    (h : ∀ e ∈ moves, l.indexOf e.1 ≠ region) : targetsOf l moves region = [] := by
  have hnil : movesOf l moves region = [] := by
    rw [List.eq_nil_iff_forall_not_mem]
    intro e he
    obtain ⟨hmem, heq⟩ := mem_movesOf.1 he
    exact h e hmem heq
  unfold targetsOf
  rw [hnil]
  rfl

theorem nodup_targetsOf (l : Layout) (moves : List (Address × Address)) (region : Nat) :
    (targetsOf l moves region).Nodup := by
  refine foldl_induct (fun _ (regions : List Nat) => regions.Nodup) _ _ List.nodup_nil ?_
  intro done e rest regions _ hnodup
  unfold addTarget
  split
  · exact hnodup
  · rename_i hnew
    rw [List.nodup_append]
    refine ⟨hnodup, List.nodup_singleton _, ?_⟩
    intro x hx y hy hxy
    obtain rfl := List.mem_singleton.1 hy
    exact hnew (by simpa [hxy] using hx)

/-- With one more of the regions that may be gone to there are still no more than these. -/
theorem mem_targetsOf_or_lt {l : Layout} {moves : List (Address × Address)} {region i : Nat}
    {regions : List Nat} (hwithin : ∀ j ∈ targetsOf l moves region, j ∈ regions)
    (hin : i ∈ regions) :
    i ∈ targetsOf l moves region ∨ (targetsOf l moves region).length < regions.length := by
  by_cases hmem : i ∈ targetsOf l moves region
  · exact .inl hmem
  · have hsub : i :: targetsOf l moves region ⊆ regions := by
      intro j hj
      rcases List.mem_cons.1 hj with rfl | hj
      · exact hin
      · exact hwithin j hj
    have hle := ((List.nodup_cons.2 ⟨hmem, nodup_targetsOf ..⟩).subperm hsub).length_le
    rw [List.length_cons] at hle
    exact .inr hle

/-- A target is a region to which an object has gone. -/
theorem exists_of_mem_targetsOf {l : Layout} {moves : List (Address × Address)} {region i : Nat}
    (hi : i ∈ targetsOf l moves region) :
    ∃ e ∈ moves, l.indexOf e.1 = region ∧ l.indexOf e.2 = i := by
  induction moves using List.reverseRecOn with
  | nil => exact absurd hi List.not_mem_nil
  | append_singleton moves move ih =>
    obtain ⟨a, v⟩ := move
    have hbefore : i ∈ targetsOf l moves region →
        ∃ e ∈ moves ++ [(a, v)], l.indexOf e.1 = region ∧ l.indexOf e.2 = i := fun hi =>
      (ih hi).imp fun e he => ⟨List.mem_append_left _ he.1, he.2⟩
    rw [targetsOf_snoc] at hi
    split at hi
    · rename_i hregion
      unfold addTarget at hi
      split at hi
      · exact hbefore hi
      · rcases List.mem_append.1 hi with hi | hi
        · exact hbefore hi
        · exact ⟨(a, v), by simp, hregion, (List.mem_singleton.1 hi).symm⟩
    · exact hbefore hi

/-- A region to which an object has gone is a target. -/
theorem mem_targetsOf {l : Layout} {moves : List (Address × Address)} {e : Address × Address}
    (he : e ∈ moves) : l.indexOf e.2 ∈ targetsOf l moves (l.indexOf e.1) := by
  have hadd : ∀ (regions : List Nat) (i : Nat), i ∈ addTarget regions i := by
    intro regions i
    unfold addTarget
    split
    · rename_i hi
      exact List.contains_iff_mem.1 hi
    · exact List.mem_append_right _ (List.mem_singleton_self i)
  induction moves using List.reverseRecOn with
  | nil => exact absurd he List.not_mem_nil
  | append_singleton moves move ih =>
    obtain ⟨a, v⟩ := move
    rw [targetsOf_snoc]
    rcases List.mem_append.1 he with hold | hnew
    · have hmem := ih hold
      split
      · unfold addTarget
        split
        · exact hmem
        · exact List.mem_append_left _ hmem
      · exact hmem
    · rw [List.mem_singleton.1 hnew, if_pos rfl]
      exact hadd _ _

/-- More moves do not make targets fewer. -/
theorem targetsOf_subset {l : Layout} {moves moves' : List (Address × Address)}
    (hsub : moves ⊆ moves') (region : Nat) : targetsOf l moves region ⊆ targetsOf l moves' region := by
  intro i hi
  obtain ⟨e, he, rfl, rfl⟩ := exists_of_mem_targetsOf hi
  exact mem_targetsOf (hsub he)

theorem Layout.IsWord.onGrid {l : Layout} {a : Address} (ha : l.IsWord a) (hl : l.Sound) :
    l.OnGrid a :=
  ⟨ha.bottom, hl.indexOf_lt ((hl.contains_iff a).2 ⟨ha.bottom, ha.stop⟩), ha.aligned⟩

namespace Sliding

/-- The slots hold the bases of the regions that have been gone to. -/
structure Holds (s : Sliding) (l : Layout) (moves : List (Address × Address)) : Prop where
  layout : s.layout = l
  count : s.bases.size = l.numRegions * basesPerRegion
  slots : ∀ r < l.numRegions, ∀ k < basesPerRegion,
    s.base r k = (targetsOf l moves r)[k]?.map l.bottom
  room : ∀ r, (targetsOf l moves r).length ≤ basesPerRegion
  inside : ∀ r, ∀ i ∈ targetsOf l moves r, i < l.numRegions

variable {s : Sliding} {l : Layout} {moves : List (Address × Address)}

theorem holds_clear (hlayout : s.layout = l) (hcount : s.bases.size = l.numRegions * basesPerRegion) :
    s.clear.Holds l [] := by
  refine ⟨hlayout, ?_, ?_, fun _ => Nat.zero_le _, fun _ _ hi => by simp [targetsOf, movesOf] at hi⟩
  · exact Array.size_replicate.trans hcount
  · intro r _ k _
    unfold base clear
    dsimp only
    rw [Array.getElem?_replicate]
    split <;> rfl

theorem base_setBase (hcount : s.bases.size = l.numRegions * basesPerRegion) {r k : Nat}
    (hr : r < l.numRegions) (hk : k < basesPerRegion) {a : Address} (ha : a ≠ Address.greatest)
    {r' k' : Nat} (hk' : k' < basesPerRegion) :
    (s.setBase r k a).base r' k' = if r = r' ∧ k = k' then some a else s.base r' k' := by
  have hin : r * basesPerRegion + k < s.bases.size := by
    rw [hcount]
    unfold basesPerRegion at *
    omega
  unfold base setBase
  dsimp only
  rw [Array.getElem?_setIfInBounds, Address.asEntry_of_ne ha]
  by_cases hsame : r * basesPerRegion + k = r' * basesPerRegion + k'
  · -- slots of different regions do not overlap, as there are `basesPerRegion` for each
    have : r = r' ∧ k = k' := by
      unfold basesPerRegion at *
      omega
    rw [if_pos hsame, if_pos hin, if_pos this]
    rfl
  · have : ¬ (r = r' ∧ k = k') := by
      rintro ⟨rfl, rfl⟩
      exact hsame rfl
    rw [if_neg hsame, if_neg this]

/-- One more base in a slot that was not used. -/
theorem claimed_setBase (hcount : s.bases.size = l.numRegions * basesPerRegion) {r k : Nat}
    (hr : r < l.numRegions) (hk : k < basesPerRegion) {a : Address} (ha : a ≠ Address.greatest)
    (hfree : s.base r k = none) : (s.setBase r k a).claimed = s.claimed + 1 := by
  have hin : r * basesPerRegion + k < s.bases.size := by
    rw [hcount]
    unfold basesPerRegion at *
    omega
  have hnone : s.bases.toList[r * basesPerRegion + k] = none := by
    unfold base at hfree
    rwa [Array.getElem?_eq_getElem hin, Option.join_some] at hfree
  unfold claimed setBase
  dsimp only
  rw [Array.toList_setIfInBounds, Address.asEntry_of_ne ha, List.countP_set (by simpa using hin), hnone]
  simp

namespace Holds

theorem bottom_ne_greatest (hl : l.Addressable) {i : Nat} (hi : i < l.numRegions) :
    l.bottom i ≠ Address.greatest := by
  intro heq
  have hmod := hl.bottom_mod hi
  rw [heq] at hmod
  have : Address.greatest.toNat % 8 = 7 := rfl
  omega

/-- What the slots of a region say of a further base: it is found, or takes the next slot, or
there is none for it. -/
theorem claimBase_eq (h : s.Holds l moves) (hl : l.Addressable) {r k : Nat} (hr : r < l.numRegions)
    (hk : k < l.numRegions) :
    s.claimBase r (l.bottom k) =
      if k ∈ targetsOf l moves r then .ok ((targetsOf l moves r).idxOf k, s)
      else if (targetsOf l moves r).length < basesPerRegion then
        .ok ((targetsOf l moves r).length, s.setBase r (targetsOf l moves r).length (l.bottom k))
      else .error (.thirdTarget r (l.bottom ((targetsOf l moves r).getD 0 0))
        (l.bottom ((targetsOf l moves r).getD 1 0)) (l.bottom k)) := by
  have h0 := h.slots r hr 0 (by decide)
  have h1 := h.slots r hr 1 (by decide)
  have hroom := h.room r
  have hbottom : ∀ i ∈ targetsOf l moves r, (l.bottom i = l.bottom k ↔ i = k) := fun i hi =>
    ⟨hl.bottom_injective (h.inside r i hi) hk, congrArg _⟩
  unfold Sliding.claimBase
  rw [h0, h1]
  generalize targetsOf l moves r = targets at *
  -- no more targets than slots, so three cases are left
  match targets with
  | [] => rfl
  | [i] =>
    have hi := hbottom i (by simp)
    by_cases hik : i = k
    · simp [hik]
    · simp [hi, hik, Ne.symm hik, basesPerRegion]
  | [i, j] =>
    have hi := hbottom i (by simp)
    have hj := hbottom j (by simp)
    by_cases hik : i = k
    · simp [hik]
    · by_cases hjk : j = k
      · simp [hi, hik, hjk, List.idxOf_cons_ne _ hik]
      · simp [hi, hik, hj, hjk, Ne.symm hik, Ne.symm hjk, basesPerRegion]
  | i :: j :: k' :: rest =>
    simp only [List.length_cons, basesPerRegion] at hroom
    omega

/-- A region that has been gone to is no new target. -/
theorem known (h : s.Holds l moves) {a v : Address}
    (hmem : l.indexOf v ∈ targetsOf l moves (l.indexOf a)) : s.Holds l (moves ++ [(a, v)]) := by
  have hsame : ∀ r, targetsOf l (moves ++ [(a, v)]) r = targetsOf l moves r :=
    targetsOf_snoc_of_mem hmem
  refine ⟨h.layout, h.count, fun r hr k hk => ?_, fun r => ?_, fun r => ?_⟩
  · rw [hsame]
    exact h.slots r hr k hk
  · rw [hsame]
    exact h.room r
  · rw [hsame]
    exact h.inside r

/-- A new target takes the slot behind those of the others. -/
theorem setBase (h : s.Holds l moves) (hl : l.Addressable) {a v : Address}
    (ha : l.indexOf a < l.numRegions) (hv : l.indexOf v < l.numRegions)
    (hnew : l.indexOf v ∉ targetsOf l moves (l.indexOf a))
    (hroom : (targetsOf l moves (l.indexOf a)).length < basesPerRegion) :
    (s.setBase (l.indexOf a) (targetsOf l moves (l.indexOf a)).length (l.baseOf v)).Holds l
      (moves ++ [(a, v)]) := by
  have hadd := targetsOf_snoc_of_notMem hnew
  have hne : l.baseOf v ≠ Address.greatest := bottom_ne_greatest hl hv
  refine ⟨h.layout, Array.size_setIfInBounds.trans h.count, ?_, ?_, ?_⟩
  · intro r hr k hk
    rw [base_setBase h.count ha hroom hne hk]
    by_cases hra : l.indexOf a = r
    · subst hra
      rw [hadd]
      by_cases hks : (targetsOf l moves (l.indexOf a)).length = k
      · subst hks
        -- the slot that has been taken
        rw [if_pos ⟨rfl, rfl⟩, List.getElem?_concat_length]
        rfl
      · rw [if_neg fun hh => hks hh.2, h.slots _ ha k hk]
        rcases Nat.lt_or_ge k (targetsOf l moves (l.indexOf a)).length with hlt | hge
        · rw [List.getElem?_append_left hlt]
        · rw [List.getElem?_eq_none hge, List.getElem?_eq_none (by
            rw [List.length_append, List.length_singleton]
            omega)]
    · rw [if_neg fun hh => hra hh.1, targetsOf_snoc, if_neg hra]
      exact h.slots r hr k hk
  · intro r
    by_cases hra : l.indexOf a = r
    · rw [← hra, hadd, List.length_append, List.length_singleton]
      omega
    · rw [targetsOf_snoc, if_neg hra]
      exact h.room r
  · intro r i hi
    by_cases hra : l.indexOf a = r
    · rw [← hra, hadd, List.mem_append, List.mem_singleton] at hi
      rcases hi with hi | rfl
      · exact h.inside _ i hi
      · exact hv
    · rw [targetsOf_snoc, if_neg hra] at hi
      exact h.inside r i hi

/-- The base of a region is remembered, in a slot that was taken by it or by none. -/
theorem claimBase (h : s.Holds l moves) (hl : l.Addressable) {a v : Address}
    (ha : l.indexOf a < l.numRegions) (hv : l.indexOf v < l.numRegions)
    (hroom : l.indexOf v ∈ targetsOf l moves (l.indexOf a) ∨
      (targetsOf l moves (l.indexOf a)).length < basesPerRegion) :
    ∃ slot s', s.claimBase (l.indexOf a) (l.baseOf v) = .ok (slot, s') ∧
      slot < basesPerRegion ∧ s'.Holds l (moves ++ [(a, v)]) ∧
      s'.base (l.indexOf a) slot = some (l.baseOf v) ∧
      ∀ r k b, k < basesPerRegion → s.base r k = some b → s'.base r k = some b := by
  have hrun := h.claimBase_eq hl ha hv
  by_cases hmem : l.indexOf v ∈ targetsOf l moves (l.indexOf a)
  · rw [if_pos hmem] at hrun
    have hlt := (List.idxOf_lt_length_of_mem hmem).trans_le (h.room _)
    refine ⟨_, s, hrun, hlt, h.known hmem, ?_, fun _ _ _ _ hb => hb⟩
    rw [h.slots _ ha _ hlt, List.getElem?_idxOf hmem]
    rfl
  · have hroom := hroom.resolve_left hmem
    rw [if_neg hmem, if_pos hroom] at hrun
    have hne : l.baseOf v ≠ Address.greatest := bottom_ne_greatest hl hv
    refine ⟨_, _, hrun, hroom, h.setBase hl ha hv hmem hroom, ?_, fun r k b hk hb => ?_⟩
    · exact (base_setBase h.count ha hroom hne hroom).trans (if_pos ⟨rfl, rfl⟩)
    · refine (base_setBase h.count ha hroom hne hk).trans ((if_neg ?_).trans hb)
      -- the slot was free, so no base has been overwritten
      rintro ⟨rfl, rfl⟩
      rw [h.slots _ ha _ hroom, List.getElem?_eq_none (le_refl _)] at hb
      cases hb

end Holds

/-- The offset of a word from the base of its region. -/
theorem offset_lt (hl : l.Addressable) {v : Address} (hv : l.OnGrid v) :
    ((l.baseOf v).wordsTo v).toNat < 2 ^ 23 ∧ (l.baseOf v).offset ((l.baseOf v).wordsTo v) = v := by
  obtain ⟨h1, h2⟩ := hl.mem_region hv
  have h3 : l.stride ≤ 8 * 2 ^ 23 := Nat.mul_le_mul_left 8 (Nat.pow_le_pow_right (by decide) hl.greatest)
  have h4 := hl.bottom_mod hv.region
  have h5 := hv.aligned
  change (l.baseOf v).toNat % 8 = 0 at h4
  refine ⟨?_, Address.offset_wordsTo h1 (by omega)⟩
  rw [Address.toNat_wordsTo h1]
  omega

/-- What is encoded is decoded. -/
theorem decode_merged (hl : l.Addressable) (hlayout : s.layout = l) (mark : Mark) {a v : Address}
    (hv : l.OnGrid v) {slot : Nat} (hslot : slot < basesPerRegion)
    (hbase : s.base (l.indexOf a) slot = some (l.baseOf v)) :
    s.decode a (mergedMark mark ((l.baseOf v).wordsTo v) slot).raw = .ok v := by
  obtain ⟨hsmall, hback⟩ := offset_lt hl hv
  have hselect : (if ((mergedMark mark ((l.baseOf v).wordsTo v) slot).raw &&& secondBaseBit != 0)
      = true then 1 else 0) = slot := by
    rw [mergedMark_slot mark hsmall]
    unfold basesPerRegion at hslot
    obtain rfl | rfl : slot = 0 ∨ slot = 1 := by omega
    · rfl
    · rfl
  unfold decode
  dsimp only
  rw [hselect, hlayout, hbase]
  dsimp only
  rw [mergedMark_offset mark hsmall, hback]

/-- What bits stand for is not lost when more is remembered. -/
theorem decode_mono {s' : Sliding} (hlayout : s'.layout = s.layout)
    (hkeep : ∀ r k b, k < basesPerRegion → s.base r k = some b → s'.base r k = some b) {bits : Word}
    {a v : Address} (h : s.decode a bits = .ok v) : s'.decode a bits = .ok v := by
  unfold decode at h ⊢
  rw [hlayout]
  dsimp only at h ⊢
  have hslot : (if bits &&& secondBaseBit != 0 then 1 else 0) < basesPerRegion := by
    split <;> decide
  cases hbase : s.base (s.layout.indexOf a) (if bits &&& secondBaseBit != 0 then 1 else 0) with
  | none =>
    rw [hbase] at h
    cases h
  | some b =>
    rw [hbase] at h
    rw [hkeep _ _ _ hslot hbase]
    exact h

theorem target_merged (hl : l.Addressable) (hlayout : s.layout = l) {mark : Mark} {a v : Address}
    (hv : l.OnGrid v) {slot : Nat} (hslot : slot < basesPerRegion)
    (hbase : s.base (l.indexOf a) slot = some (l.baseOf v)) :
    s.target (mergedMark mark ((l.baseOf v).wordsTo v) slot) a = .ok (some v) := by
  obtain ⟨hsmall, -⟩ := offset_lt hl hv
  unfold target
  rw [isForwarded_mergedMark mark hsmall, isSelfForwarded_mergedMark mark hsmall,
    if_neg (by decide), if_neg (by decide), decode_merged hl hlayout mark hv hslot hbase]
  rfl

end Sliding

end MarkCompact
