/-
MarkCompact/Proofs/Words.lean

Addresses and regions as numbers.

The arithmetic of the collector wraps at 64 bits.  On the addresses of a heap
that lies in one piece it never does, and this file moves every operation to
`Nat`, where `omega` can work: an address is its number of bytes, an object of
`n` words at `a` takes the bytes from `a.toNat` up to `a.toNat + 8 * n`.

`Layout.Sound` is what the operating system and the configuration promise of a
grid: it begins at a word that is not the null word, the size of a region is
within bounds, and the last region ends before the last address.

Main results: `Layout.mem_region_iff` (every address of the grid lies in
exactly one region) and the `toNat_*` equations.
-/
import Mathlib.Tactic
import MarkCompact.Heap.Layout

namespace MarkCompact

/-! ### Words -/

theorem toNat_shiftLeft_three (n : UInt64) : (n <<< wordShift).toNat = 8 * n.toNat % 2 ^ 64 := by
  rw [UInt64.toNat_shiftLeft]
  show n.toNat <<< 3 % 2 ^ 64 = _
  rw [Nat.shiftLeft_eq, Nat.mul_comm]

theorem and_seven_eq_zero_iff (a : UInt64) : a &&& 7 = 0 ↔ a.toNat % 8 = 0 := by
  rw [← UInt64.toNat_inj, UInt64.toNat_and]
  show a.toNat &&& 2 ^ 3 - 1 = 0 ↔ _
  rw [Nat.and_two_pow_sub_one_eq_mod]

theorem toNat_min (a b : UInt64) : (min a b).toNat = min a.toNat b.toNat := by
  show (if a ≤ b then a else b).toNat = _
  split
  · rename_i h
    rw [UInt64.le_iff_toNat_le] at h
    omega
  · rename_i h
    rw [UInt64.le_iff_toNat_le] at h
    omega

namespace Address

theorem isAligned_iff (a : Address) : a.isAligned = true ↔ a.toNat % 8 = 0 := by
  unfold isAligned wordBytes
  rw [beq_iff_eq]
  exact and_seven_eq_zero_iff a

theorem toNat_offset {a : Address} {n : WordCount} (h : a.toNat + 8 * n.toNat < 2 ^ 64) :
    (a.offset n).toNat = a.toNat + 8 * n.toNat := by
  unfold offset
  rw [UInt64.toNat_add, toNat_shiftLeft_three]
  omega

theorem toNat_wordsTo {a b : Address} (h : a.toNat ≤ b.toNat) :
    (a.wordsTo b).toNat = (b.toNat - a.toNat) / 8 := by
  unfold wordsTo
  rw [UInt64.toNat_shiftRight, UInt64.toNat_sub_of_le _ _ (UInt64.le_iff_toNat_le.2 h)]
  show (b.toNat - a.toNat) >>> 3 = _
  rw [Nat.shiftRight_eq_div_pow]

/-- Going so many words up, and counting them. -/
theorem offset_wordsTo {a b : Address} (h : a.toNat ≤ b.toNat)
    (aligned : (b.toNat - a.toNat) % 8 = 0) : a.offset (a.wordsTo b) = b := by
  apply UInt64.toNat_inj.1
  have h1 := toNat_wordsTo h
  have h2 := b.toNat_lt
  rw [toNat_offset (by omega)]
  omega

theorem toNat_add_mul {a : Address} {i : Nat} (h : a.toNat + 8 * i < 2 ^ 64) :
    (a + i.toUInt64 * wordBytes).toNat = a.toNat + 8 * i := by
  have h1 : i.toUInt64.toNat = i := by
    rw [UInt64.toNat_ofNat']
    omega
  have h2 : (i.toUInt64 * wordBytes).toNat = 8 * i := by
    rw [UInt64.toNat_mul, h1]
    show i * 8 % 2 ^ 64 = _
    omega
  rw [UInt64.toNat_add, h2]
  omega

theorem toNat_add_wordBytes {a : Address} (h : a.toNat + 8 < 2 ^ 64) :
    (a + wordBytes).toNat = a.toNat + 8 := by
  rw [UInt64.toNat_add]
  show (a.toNat + 8) % 2 ^ 64 = _
  omega

theorem toNat_offset_ofNat {a : Address} {i : Nat} (h : a.toNat + 8 * i < 2 ^ 64) :
    (a.offset i.toUInt64).toNat = a.toNat + 8 * i := by
  have h1 : i.toUInt64.toNat = i := by
    rw [UInt64.toNat_ofNat']
    omega
  rw [toNat_offset (by omega), h1]

/-! ### Pages -/

private theorem and_not_mask (a : UInt64) : (a &&& ~~~((4096 : UInt64) - 1)).toNat
    = a.toNat / 4096 * 4096 := by
  have h : a &&& ~~~((4096 : UInt64) - 1) = (a >>> 12) <<< 12 := by
    apply UInt64.toBitVec_inj.1
    have hmask : (~~~((4096 : UInt64) - 1)).toBitVec = ~~~(4095#64) := by decide
    ext i hi
    rw [UInt64.toBitVec_and, hmask, UInt64.toBitVec_shiftLeft, UInt64.toBitVec_shiftRight]
    show _ = ((a.toBitVec >>> 12) <<< 12)[i]
    have hbit : (4095#64)[i] = decide (i < 12) := by
      rw [← BitVec.getLsbD_eq_getElem, BitVec.getLsbD_ofNat]
      show (decide (i < 64) && (2 ^ 12 - 1).testBit i) = _
      rw [Nat.testBit_two_pow_sub_one]
      simp [hi]
    simp only [BitVec.getElem_and, BitVec.getElem_not, BitVec.getElem_shiftLeft,
      BitVec.getElem_ushiftRight, hbit]
    by_cases hlt : i < 12
    · simp [hlt]
    · simp only [hlt, decide_false, Bool.not_false, Bool.and_true]
      rw [← BitVec.getLsbD_eq_getElem]
      congr 1
      omega
  rw [h, UInt64.toNat_shiftLeft, UInt64.toNat_shiftRight]
  show (a.toNat >>> 12) <<< 12 % 2 ^ 64 = _
  rw [Nat.shiftRight_eq_div_pow, Nat.shiftLeft_eq]
  have := a.toNat_lt
  omega

theorem toNat_alignDown_page (a : Address) :
    (a.alignDown 4096).toNat = a.toNat / 4096 * 4096 :=
  and_not_mask a

theorem toNat_alignUp_page {a : Address} (h : a.toNat + 4095 < 2 ^ 64) :
    (a.alignUp 4096).toNat = (a.toNat + 4095) / 4096 * 4096 := by
  have h1 : (a + 4096 - 1).toNat = a.toNat + 4095 := by
    rw [UInt64.toNat_sub, UInt64.toNat_add]
    show (2 ^ 64 - 1 + (a.toNat + 4096) % 2 ^ 64) % 2 ^ 64 = _
    omega
  unfold alignUp
  rw [and_not_mask, h1]

end Address

/-! ### The grid of regions -/

namespace Layout

/-- The bytes of a region. -/
def stride (l : Layout) : Nat := 8 * 2 ^ l.regionShift.toNat

/-- A grid that lies in one piece of memory. -/
@[mk_iff]
structure Sound (l : Layout) : Prop where
  /-- No word of the grid has the null address. -/
  nonzero : 0 < l.base.toNat
  aligned : l.base.toNat % 8 = 0
  least : 4 ≤ l.regionShift.toNat
  greatest : l.regionShift.toNat ≤ 23
  /-- The address after the last region is an address. -/
  fits : l.base.toNat + l.numRegions * l.stride < 2 ^ 64

instance (l : Layout) : Decidable l.Sound := decidable_of_iff _ (l.sound_iff).symm

variable {l : Layout}

theorem stride_pos (l : Layout) : 0 < l.stride := by
  unfold stride
  have := Nat.one_le_two_pow (n := l.regionShift.toNat)
  omega

theorem stride_mod (l : Layout) : l.stride % 8 = 0 := by
  unfold stride
  omega

/-! ### Grids of addresses -/

/-- A grid every word of which has an address, whatever the size of its regions. -/
@[mk_iff]
structure Addressable (l : Layout) : Prop where
  aligned : l.base.toNat % 8 = 0
  greatest : l.regionShift.toNat ≤ 23
  /-- The last region ends no later than the addresses do. -/
  fits : l.base.toNat + l.numRegions * l.stride ≤ 2 ^ 64

instance (l : Layout) : Decidable l.Addressable := decidable_of_iff _ (l.addressable_iff).symm

/-- The address of a word of one of the regions. -/
@[mk_iff]
structure OnGrid (l : Layout) (a : Address) : Prop where
  base : l.base.toNat ≤ a.toNat
  region : l.indexOf a < l.numRegions
  aligned : a.toNat % 8 = 0

instance (l : Layout) (a : Address) : Decidable (l.OnGrid a) :=
  decidable_of_iff _ (l.onGrid_iff a).symm

theorem Sound.addressable (h : l.Sound) : l.Addressable :=
  ⟨h.aligned, h.greatest, h.fits.le⟩

namespace Addressable

theorem toNat_byteShift (h : l.Addressable) :
    l.byteShift.toUInt64.toNat = l.regionShift.toNat + 3 := by
  have := h.greatest
  unfold byteShift
  rw [UInt32.toNat_toUInt64, UInt32.toNat_add]
  show (l.regionShift.toNat + 3) % 2 ^ 32 = _
  omega

theorem toNat_byteShift_mod (h : l.Addressable) :
    l.byteShift.toUInt64.toNat % 64 = l.regionShift.toNat + 3 := by
  have := h.greatest
  rw [h.toNat_byteShift]
  omega

/-- So many regions, in bytes. -/
theorem toNat_shiftRegions (h : l.Addressable) {i : Nat} (hi : i * l.stride < 2 ^ 64) :
    (i.toUInt64 <<< l.byteShift.toUInt64).toNat = i * l.stride := by
  have hcount : i.toUInt64.toNat = i := by
    have := Nat.le_mul_of_pos_right i l.stride_pos
    rw [UInt64.toNat_ofNat']
    omega
  have hstride : i * (2 ^ l.regionShift.toNat * 2 ^ 3) = i * l.stride := by
    unfold stride
    ring
  rw [UInt64.toNat_shiftLeft, h.toNat_byteShift_mod, hcount, Nat.shiftLeft_eq, Nat.pow_add, hstride,
    Nat.mod_eq_of_lt hi]

theorem toNat_bottom (h : l.Addressable) {i : Nat} (hi : i < l.numRegions) :
    (l.bottom i).toNat = l.base.toNat + i * l.stride := by
  have hfits := h.fits
  have hle : (i + 1) * l.stride ≤ l.numRegions * l.stride := Nat.mul_le_mul_right _ hi
  have hpos := l.stride_pos
  rw [Nat.succ_mul] at hle
  unfold bottom
  rw [UInt64.toNat_add, h.toNat_shiftRegions (by omega)]
  omega

theorem bottom_mod (h : l.Addressable) {i : Nat} (hi : i < l.numRegions) :
    (l.bottom i).toNat % 8 = 0 := by
  rw [h.toNat_bottom hi, Nat.add_mod, Nat.mul_mod, l.stride_mod, h.aligned]
  simp

theorem bottom_injective (h : l.Addressable) {i j : Nat} (hi : i < l.numRegions)
    (hj : j < l.numRegions) (heq : l.bottom i = l.bottom j) : i = j := by
  have hsame := congrArg UInt64.toNat heq
  rw [h.toNat_bottom hi, h.toNat_bottom hj, Nat.add_left_cancel_iff] at hsame
  exact Nat.eq_of_mul_eq_mul_right l.stride_pos hsame

theorem indexOf_eq_div (h : l.Addressable) {a : Address} (ha : l.base.toNat ≤ a.toNat) :
    l.indexOf a = (a.toNat - l.base.toNat) / l.stride := by
  unfold indexOf
  rw [UInt64.toNat_shiftRight, h.toNat_byteShift_mod,
    UInt64.toNat_sub_of_le _ _ (UInt64.le_iff_toNat_le.2 ha), Nat.shiftRight_eq_div_pow,
    Nat.pow_add]
  unfold stride
  rw [Nat.mul_comm 8]

/-- A word lies in its region. -/
theorem mem_region (h : l.Addressable) {a : Address} (ha : l.OnGrid a) :
    (l.baseOf a).toNat ≤ a.toNat ∧ a.toNat < (l.baseOf a).toNat + l.stride := by
  have hdiv := h.indexOf_eq_div ha.base
  have hbase := ha.base
  unfold baseOf
  rw [h.toNat_bottom ha.region]
  rw [eq_comm, Nat.div_eq_iff l.stride_pos] at hdiv
  have := l.stride_pos
  omega

end Addressable

namespace Sound

theorem stride_ge (h : l.Sound) : 128 ≤ l.stride := by
  unfold stride
  have := Nat.pow_le_pow_right (n := 2) (by decide) h.least
  omega

theorem stride_le (h : l.Sound) : l.stride ≤ 8 * 2 ^ 23 := by
  unfold stride
  have := Nat.pow_le_pow_right (n := 2) (by decide) h.greatest
  omega

theorem numRegions_lt (h : l.Sound) : l.numRegions < 2 ^ 57 := by
  have h1 := h.fits
  have h2 := h.stride_ge
  by_contra hge
  have h3 : 2 ^ 57 * 128 ≤ l.numRegions * l.stride := Nat.mul_le_mul (by omega) h2
  omega

theorem toNat_bottom (h : l.Sound) {i : Nat} (hi : i ≤ l.numRegions) :
    (l.bottom i).toNat = l.base.toNat + i * l.stride := by
  have hfits := h.fits
  have hle : i * l.stride ≤ l.numRegions * l.stride := Nat.mul_le_mul_right _ hi
  unfold bottom
  rw [UInt64.toNat_add, h.addressable.toNat_shiftRegions (by omega)]
  omega

theorem toNat_stop (h : l.Sound) : l.stop.toNat = l.base.toNat + l.numRegions * l.stride := by
  rw [← l.bottom_numRegions, h.toNat_bottom (le_refl _)]

/-- A region ends one stride after its bottom. -/
theorem toNat_regionStop (h : l.Sound) {i : Nat} (hi : i < l.numRegions) :
    (l.regionStop i).toNat = (l.bottom i).toNat + l.stride := by
  rw [regionStop_eq_bottom_succ, h.toNat_bottom hi, h.toNat_bottom hi.le, Nat.succ_mul]
  omega

theorem bottom_mod (h : l.Sound) {i : Nat} (hi : i ≤ l.numRegions) :
    (l.bottom i).toNat % 8 = 0 := by
  rw [h.toNat_bottom hi, Nat.add_mod, Nat.mul_mod, l.stride_mod, h.aligned]
  simp

theorem base_le_bottom (h : l.Sound) {i : Nat} (hi : i ≤ l.numRegions) :
    l.base.toNat ≤ (l.bottom i).toNat := by
  rw [h.toNat_bottom hi]
  omega

theorem bottom_le_stop (h : l.Sound) {i : Nat} (hi : i ≤ l.numRegions) :
    (l.bottom i).toNat ≤ l.stop.toNat := by
  rw [h.toNat_bottom hi, h.toNat_stop]
  have := Nat.mul_le_mul_right l.stride hi
  omega

/-- A region lies before every later one. -/
theorem regionStop_le_bottom (h : l.Sound) {i j : Nat} (hij : i < j) (hj : j ≤ l.numRegions) :
    (l.bottom i).toNat + l.stride ≤ (l.bottom j).toNat := by
  rw [h.toNat_bottom hj, h.toNat_bottom (by omega)]
  have := Nat.mul_le_mul_right l.stride (Nat.succ_le_of_lt hij)
  rw [Nat.succ_mul] at this
  omega

theorem bottom_mono (h : l.Sound) {i j : Nat} (hij : i ≤ j) (hj : j ≤ l.numRegions) :
    (l.bottom i).toNat ≤ (l.bottom j).toNat := by
  rcases Nat.eq_or_lt_of_le hij with rfl | hlt
  · exact le_refl _
  · have := h.regionStop_le_bottom hlt hj
    omega

/-- Adjacent regions have words in them. -/
theorem bottom_lt_regionStop (h : l.Sound) {i j : Nat} (hij : i ≤ j) (hj : j < l.numRegions) :
    l.bottom i < l.regionStop j := by
  have h1 := h.bottom_mono hij hj.le
  have h2 := h.toNat_regionStop hj
  have h3 := l.stride_pos
  rw [UInt64.lt_iff_toNat_lt]
  omega

theorem bottom_injective (h : l.Sound) {i j : Nat} (hi : i ≤ l.numRegions) (hj : j ≤ l.numRegions)
    (heq : l.bottom i = l.bottom j) : i = j := by
  have hpos := l.stride_pos
  rcases Nat.lt_trichotomy i j with hlt | rfl | hlt
  · have := h.regionStop_le_bottom hlt hj
    rw [heq] at this
    omega
  · rfl
  · have := h.regionStop_le_bottom hlt hi
    rw [heq] at this
    omega

theorem contains_iff (_ : l.Sound) (a : Address) :
    l.contains a = true ↔ l.base.toNat ≤ a.toNat ∧ a.toNat < l.stop.toNat := by
  unfold contains
  rw [Bool.and_eq_true, decide_eq_true_eq, decide_eq_true_eq, UInt64.le_iff_toNat_le,
    UInt64.lt_iff_toNat_lt]

/-- Every address of the grid lies in exactly one region. -/
theorem mem_region_iff (h : l.Sound) {a : Address} {i : Nat} (hi : i < l.numRegions) :
    (l.bottom i).toNat ≤ a.toNat ∧ a.toNat < (l.bottom i).toNat + l.stride ↔
      l.contains a = true ∧ l.indexOf a = i := by
  rw [h.contains_iff, h.toNat_stop, h.toNat_bottom hi.le]
  have hle : (i + 1) * l.stride ≤ l.numRegions * l.stride := Nat.mul_le_mul_right _ hi
  rw [Nat.succ_mul] at hle
  constructor
  · rintro ⟨h1, h2⟩
    refine ⟨⟨by omega, by omega⟩, ?_⟩
    have hpos := l.stride_pos
    rw [h.addressable.indexOf_eq_div (by omega), Nat.div_eq_iff hpos]
    omega
  · rintro ⟨⟨h1, h2⟩, h3⟩
    have hpos := l.stride_pos
    rw [h.addressable.indexOf_eq_div h1, Nat.div_eq_iff hpos] at h3
    omega

theorem indexOf_eq (h : l.Sound) {a : Address} {i : Nat} (hi : i < l.numRegions)
    (h1 : (l.bottom i).toNat ≤ a.toNat) (h2 : a.toNat < (l.bottom i).toNat + l.stride) :
    l.indexOf a = i :=
  ((h.mem_region_iff hi).1 ⟨h1, h2⟩).2

theorem indexOf_bottom (h : l.Sound) {i : Nat} (hi : i < l.numRegions) :
    l.indexOf (l.bottom i) = i :=
  h.indexOf_eq hi (le_refl _) (by have := l.stride_pos; omega)

theorem indexOf_lt (h : l.Sound) {a : Address} (ha : l.contains a = true) :
    l.indexOf a < l.numRegions := by
  rw [h.contains_iff, h.toNat_stop] at ha
  rw [h.addressable.indexOf_eq_div ha.1, Nat.div_lt_iff_lt_mul l.stride_pos]
  omega

theorem bottom_indexOf (h : l.Sound) {a : Address} (ha : l.contains a = true) :
    (l.bottom (l.indexOf a)).toNat ≤ a.toNat ∧
      a.toNat < (l.bottom (l.indexOf a)).toNat + l.stride :=
  (h.mem_region_iff (h.indexOf_lt ha)).2 ⟨ha, rfl⟩

theorem toNat_regionWords (h : l.Sound) : 8 * l.regionWords.toNat = l.stride := by
  unfold regionWords stride
  have h1 : l.regionShift.toUInt64.toNat % 64 = l.regionShift.toNat := by
    have := h.greatest
    rw [UInt32.toNat_toUInt64]
    omega
  have h2 : 2 ^ l.regionShift.toNat < 2 ^ 64 :=
    Nat.pow_lt_pow_right (by decide) (by have := h.greatest; omega)
  rw [UInt64.toNat_shiftLeft, h1, Nat.shiftLeft_eq, UInt64.toNat_one, Nat.one_mul,
    Nat.mod_eq_of_lt h2]

theorem toNat_heapWords (h : l.Sound) : 8 * l.heapWords.toNat = l.numRegions * l.stride := by
  have hfits := h.fits
  have hlt := h.numRegions_lt
  have h0 : l.numRegions.toUInt64.toNat = l.numRegions := by
    rw [UInt64.toNat_ofNat']
    omega
  have h1 : l.regionShift.toUInt64.toNat % 64 = l.regionShift.toNat := by
    have := h.greatest
    rw [UInt32.toNat_toUInt64]
    omega
  have h2 : l.numRegions * l.stride = 8 * (l.numRegions * 2 ^ l.regionShift.toNat) := by
    unfold stride
    ring
  unfold heapWords
  rw [UInt64.toNat_shiftLeft, h0, h1, Nat.shiftLeft_eq]
  omega

/-- How many regions are asked for, also when the sum wraps. -/
theorem toNat_regionsFor_div (h : l.Sound) (words : WordCount) :
    (l.regionsFor words).toNat = (words + l.regionWords - 1).toNat / l.regionWords.toNat := by
  have hregion := h.toNat_regionWords
  have hshift : l.regionShift.toUInt64.toNat % 64 = l.regionShift.toNat := by
    have := h.greatest
    rw [UInt32.toNat_toUInt64]
    omega
  have hpow : 2 ^ l.regionShift.toNat = l.regionWords.toNat := by
    unfold stride at hregion
    omega
  unfold regionsFor
  rw [UInt64.toNat_shiftRight, hshift, Nat.shiftRight_eq_div_pow, hpow]

/-- How many regions so many words need. -/
theorem toNat_regionsFor (h : l.Sound) {words : WordCount} (hw : words.toNat < 2 ^ 62) :
    (l.regionsFor words).toNat = (8 * words.toNat + l.stride - 1) / l.stride := by
  have h1 := h.toNat_regionWords
  have h2 := h.stride_ge
  have h3 := h.stride_le
  have h4 : (words + l.regionWords - 1).toNat = words.toNat + l.regionWords.toNat - 1 := by
    rw [UInt64.toNat_sub, UInt64.toNat_add]
    show (2 ^ 64 - 1 + (words.toNat + l.regionWords.toNat) % 2 ^ 64) % 2 ^ 64 = _
    omega
  rw [h.toNat_regionsFor_div, h4, ← h1]
  generalize l.regionWords.toNat = p at *
  rw [show 8 * words.toNat + 8 * p - 1 = 7 + 8 * (words.toNat + p - 1) from by omega,
    ← Nat.div_div_eq_div_mul, show (7 + 8 * (words.toNat + p - 1)) / 8 = words.toNat + p - 1 from by
      omega]

/-- The regions of a count of words hold these words, and one fewer would not. -/
theorem regionsFor_bounds (h : l.Sound) {words : WordCount} (hw : words.toNat < 2 ^ 62)
    (hpos : 0 < words.toNat) :
    8 * words.toNat ≤ (l.regionsFor words).toNat * l.stride ∧
      ((l.regionsFor words).toNat - 1) * l.stride < 8 * words.toNat ∧
      0 < (l.regionsFor words).toNat := by
  rw [h.toNat_regionsFor hw]
  have h1 := l.stride_pos
  have hx : 0 < 8 * words.toNat := by omega
  generalize l.stride = q at h1 ⊢
  generalize 8 * words.toNat = x at hx ⊢
  have h2 : (x + q - 1) / q * q ≤ x + q - 1 := Nat.div_mul_le_self ..
  have h3 : x + q - 1 < (x + q - 1) / q * q + q := Nat.lt_div_mul_add h1
  have h4 : 0 < (x + q - 1) / q := Nat.div_pos (by omega) h1
  generalize (x + q - 1) / q = n at *
  obtain ⟨k, rfl⟩ : ∃ k, n = k + 1 := ⟨n - 1, by omega⟩
  simp only [Nat.add_sub_cancel, Nat.add_mul, Nat.one_mul] at *
  refine ⟨by omega, by omega, by omega⟩

/-- Only counts that do not wrap need some regions, and not too many of them. -/
theorem small_of_regionsFor (h : l.Sound) {words : WordCount}
    (hpos : 0 < (l.regionsFor words).toNat) (hle : (l.regionsFor words).toNat ≤ l.numRegions) :
    0 < words.toNat ∧ words.toNat < 2 ^ 62 := by
  have hregion := h.toNat_regionWords
  have hstride := h.stride_ge
  have hgreatest := h.stride_le
  have hfits := h.fits
  have hlt := words.toNat_lt
  have hsum : (words + l.regionWords - 1).toNat
      = (words.toNat + l.regionWords.toNat + (2 ^ 64 - 1)) % 2 ^ 64 := by
    rw [UInt64.toNat_sub, UInt64.toNat_add]
    show (2 ^ 64 - 1 + (words.toNat + l.regionWords.toNat) % 2 ^ 64) % 2 ^ 64 = _
    omega
  rw [h.toNat_regionsFor_div] at hpos hle
  generalize (words + l.regionWords - 1).toNat = x at *
  have hregions : l.numRegions * l.stride = 8 * (l.numRegions * l.regionWords.toNat) := by
    rw [← hregion]
    ring
  -- a sum that wraps is less than the words of a region, and needs none
  have hleast : l.regionWords.toNat ≤ x := by
    by_contra hsmall
    rw [Nat.div_eq_of_lt (Nat.lt_of_not_le hsmall)] at hpos
    exact absurd hpos (by decide)
  have hmost : x < l.numRegions * l.regionWords.toNat + l.regionWords.toNat := by
    have h1 := Nat.mul_le_mul_right l.regionWords.toNat hle
    have h2 := Nat.lt_div_mul_add (a := x) (b := l.regionWords.toNat) (by omega)
    omega
  omega

end Sound

end Layout

end MarkCompact
