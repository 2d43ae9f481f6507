/-
MarkCompact/Proofs/LoadFactors.lean

How large a dense table can get.

The slots of a dense table come from a quotient of floating-point numbers, and a
table that is too large would make the arithmetic on slots wrap.  A crude bound is
enough, and it needs no theory of rounding: every operation is followed through the
definitions of `Float.Model`, and only the exponent is kept in sight.

`Fine E x` says that a number is zero, or has a mantissa of at most 53 bits and an
exponent of at most `E`; so it is less than `2 ^ (53 + E)`.

Main result: `capacityFor_le_pow` (a table for fewer than `2 ^ d` objects has at most
`2 ^ (d + 4)` slots, whatever load factor a valid configuration asks for).
-/
import Mathlib
import MarkCompact.Config
import MarkCompact.Forwarding.Dense

namespace MarkCompact

open Float.Model (UnpackedFloat Format totalExponent)
open Float.Model.UnpackedFloat

/-! ### Exponents -/

/-- Zero, or a mantissa of at most 53 bits and an exponent of at most `E`. -/
def Fine (E : Int) : UnpackedFloat → Prop
  | .zero _ => True
  | .finite _ m e _ => m < 2 ^ 53 ∧ e ≤ E
  | _ => False

/-- As `Fine`, before the mantissa has been cut off. -/
def Coarse (E : Int) : UnpackedFloat → Prop
  | .zero _ => True
  | .finite _ _ e _ => e ≤ E
  | _ => False

theorem mantissaBits_binary64 : Format.binary64.mantissaBits = 53 := rfl

theorem exponentBias_binary64 : Format.binary64.exponentBias = 1023 := rfl

theorem targetExponent_binary64 (n : Int) :
    Format.binary64.targetExponent n = max (n - 53) (-1074) := rfl

/-- What is read from a packed number. -/
theorem fine_unpack_packComponents {E : Int} (s : Sign)
    (e : BitVec Format.binary64.exponentBits)
    (v : BitVec Format.binary64.mantissaBitsWithoutImplicit) (hinf : e ≠ -1#_)
    (hmin : -1074 ≤ E) (he : (e.toNat : Int) - 1075 ≤ E) :
    Fine E (unpack .binary64 (packComponents .binary64 s e v)) := by
  unfold unpack
  simp only [unpackExponent_packComponents, unpackMantissa_packComponents, if_neg hinf]
  split
  · rename_i hzero
    split
    · exact trivial
    · refine ⟨v.isLt.trans (by decide), ?_⟩
      rw [hzero]
      show ((0 : Nat) : Int) - ((1023 : Nat) + (52 : Nat)) + 1 ≤ E
      omega
  · refine ⟨((1#1) ++ v).isLt, ?_⟩
    show (e.toNat : Int) - ((1023 : Nat) + (52 : Nat)) ≤ E
    omega

/-- A number that is stored and read again. -/
theorem fine_unpack_pack {E : Int} (hmin : -1074 ≤ E) (hmax : E ≤ 900) {x : UnpackedFloat}
    (hx : Coarse E x) : Fine E (unpack .binary64 (pack .binary64 x)) := by
  have hzero : ((0#_ : BitVec Format.binary64.exponentBits).toNat : Int) - 1075 ≤ E := by
    show ((0 : Nat) : Int) - 1075 ≤ E
    omega
  have hne : (0#_ : BitVec Format.binary64.exponentBits) ≠ -1#_ := by decide
  cases x with
  | infinity s => exact absurd hx id
  | notANumber => exact absurd hx id
  | zero s => exact fine_unpack_packComponents s 0#_ 0#_ hne hmin hzero
  | finite s m e hm =>
    have he : e ≤ E := hx
    unfold pack
    dsimp only
    rw [exponentBias_binary64, mantissaBits_binary64]
    generalize hk : (e + (1023 : Nat) + (52 : Nat)).toNat = k
    have hsmall : k < 2047 := by omega
    have hval : (BitVec.ofNat Format.binary64.exponentBits k).toNat = k := by
      rw [BitVec.toNat_ofNat]
      exact Nat.mod_eq_of_lt (hsmall.trans (by decide))
    rw [if_neg (show ¬ 2 ^ 11 ≤ k + 1 by omega)]
    split
    · refine fine_unpack_packComponents s _ _ ?_ hmin ?_
      · intro hall
        rw [hall] at hval
        have : (-1#_ : BitVec Format.binary64.exponentBits).toNat = 2047 := rfl
        omega
      · rw [hval]
        omega
    · exact fine_unpack_packComponents s 0#_ _ hne hmin hzero

theorem coarse_finite {E : Int} (s : Sign) (m : Nat) {e : Int} (he : e ≤ E) :
    Coarse E (if h : m = 0 then .zero s else .finite s m e (Nat.pos_of_ne_zero h)) := by
  split
  · exact trivial
  · exact he

/-! ### Shifting and rounding -/

theorem mantissa_shiftRight (n : Nat) (em : ExtendedMantissa) :
    (em >>> n).mantissa = em.mantissa / 2 ^ n := by
  show (n.repeat ExtendedMantissa.shiftRightOne em).mantissa = _
  induction n with
  | zero => simp [Nat.repeat]
  | succ n ih =>
    rw [Nat.repeat]
    show (n.repeat ExtendedMantissa.shiftRightOne em).mantissa / 2 = _
    rw [ih, Nat.div_div_eq_div_mul, Nat.pow_succ]

theorem roundedMantissa_le (em : ExtendedMantissa) : em.roundedMantissa ≤ em.mantissa + 1 := by
  unfold ExtendedMantissa.roundedMantissa
  cases em.accuracy with
  | exact => exact Nat.le_succ _
  | inexact o =>
    cases o with
    | lt => exact Nat.le_succ _
    | eq =>
      show em.mantissa + em.mantissa % 2 ≤ _
      omega
    | gt => exact Nat.le_refl _

theorem mantissa_ofMantissaAndAccuracy (m : Nat) (acc : Accuracy) :
    (ExtendedMantissa.ofMantissaAndAccuracy m acc).mantissa = m := by
  cases acc with
  | exact => rfl
  | inexact o => cases o <;> rfl

theorem log2_lt_of_lt {m k : Nat} (hk : 0 < k) (h : m < 2 ^ k) : m.log2 < k := by
  by_cases hm : m = 0
  · subst hm
    simpa using hk
  · exact (Nat.log2_lt hm).2 h

/-- Rounding raises the position of the leading digit by at most one. -/
theorem coarse_roundWithAccuracy {T E : Int} (s : Sign) {m : Nat} {e : Int} (acc : Accuracy)
    (htotal : totalExponent m e ≤ T) (he : e ≤ E) (hT : T - 52 ≤ E) (hE : -1074 ≤ E) :
    Coarse E (roundWithAccuracy .binary64 s m e acc) := by
  unfold roundWithAccuracy shiftToTargetExponent shiftToExponent
  simp only [targetExponent_binary64]
  refine coarse_finite s _ ?_
  generalize hk : (max (totalExponent m e - 53) (-1074) - e).toNat = k
  generalize hr : ((ExtendedMantissa.ofMantissaAndAccuracy m acc) >>> k).roundedMantissa = r
  unfold totalExponent at *
  -- the rounded mantissa has one digit more than what is left of the old one
  have hrounded : (r.log2 : Int) ≤ max ((m.log2 : Int) + 1 - k) 0 := by
    have h1 := roundedMantissa_le ((ExtendedMantissa.ofMantissaAndAccuracy m acc) >>> k)
    rw [hr, mantissa_shiftRight, mantissa_ofMantissaAndAccuracy] at h1
    have h2 := Nat.lt_log2_self (n := m)
    have h3 : m / 2 ^ k < 2 ^ (m.log2 + 1 - k) := by
      rw [Nat.div_lt_iff_lt_mul (Nat.two_pow_pos k), ← Nat.pow_add]
      exact h2.trans_le (Nat.pow_le_pow_right (by decide) (by omega))
    have h4 : r < 2 ^ (m.log2 + 1 - k + 1) := by
      have := Nat.two_pow_pos (m.log2 + 1 - k)
      rw [Nat.pow_succ]
      omega
    have h5 := log2_lt_of_lt (Nat.succ_pos _) h4
    omega
  omega

/-! ### The operations -/

theorem coarse_ofNat {n d : Nat} (hd : 0 < d) (hn : n < 2 ^ d) :
    Coarse (d - 52) (ofNat .binary64 n) := by
  unfold ofNat ofInt UnpackedFloat.normalize
  rcases Nat.eq_zero_or_pos n with rfl | hpos
  · exact trivial
  · have hcmp : compare (n : Int) 0 = .gt := by
      rw [compare_gt_iff_gt]
      exact_mod_cast hpos
    rw [hcmp]
    dsimp only
    unfold UnpackedFloat.round decreaseExponent
    simp only [targetExponent_binary64, Int.toNat_natCast]
    have hlog := log2_lt_of_lt hd hn
    generalize hk : (0 - max (totalExponent n 0 - 53) (-1074)).toNat = k
    unfold totalExponent at hk
    refine coarse_roundWithAccuracy (T := d) _ _ ?_ (by omega) (by omega) (by omega)
    unfold totalExponent
    rw [Nat.shiftLeft_eq]
    have : (n * 2 ^ k).log2 < n.log2 + 1 + k := by
      refine log2_lt_of_lt (by omega) ?_
      rw [Nat.pow_add]
      exact Nat.mul_lt_mul_of_pos_right Nat.lt_log2_self (Nat.two_pow_pos k)
    omega

/-- The quotient by a number that is a half at least. -/
theorem coarse_div {E : Int} (hE : -1074 ≤ E) {x : UnpackedFloat} (hx : Fine E x) (s : Sign)
    {m₂ : Nat} {e₂ : Int} (hpos : 0 < m₂) (hm : 2 ^ 52 ≤ m₂) (he : -53 ≤ e₂) :
    Coarse (E + 2) (x.div .binary64 (.finite s m₂ e₂ hpos)) := by
  cases x with
  | infinity s => exact absurd hx id
  | notANumber => exact absurd hx id
  | zero s => exact trivial
  | finite s₁ m₁ e₁ hm₁ =>
    obtain ⟨h1, h2⟩ : m₁ < 2 ^ 53 ∧ e₁ ≤ E := hx
    have hlog₁ := log2_lt_of_lt (by decide) h1
    have hlog₂ : 52 ≤ m₂.log2 := by
      rw [Nat.le_log2 (by omega)]
      exact hm
    unfold div divCore
    simp only [targetExponent_binary64]
    unfold totalExponent
    generalize htarget : min (e₁ - e₂) (max ((m₁.log2 : Int) + 1 + e₁ - (m₂.log2 + 1 + e₂) - 53)
      (-1074)) = target
    generalize hk : (e₁ - e₂ - target).toNat = k
    refine coarse_roundWithAccuracy (T := E + 54) _ _ ?_ (by omega) (by omega) (by omega)
    unfold totalExponent
    have hquot : (m₁ <<< k / m₂).log2 < k + 1 := by
      refine log2_lt_of_lt (by omega) ?_
      rw [Nat.div_lt_iff_lt_mul (by omega), Nat.shiftLeft_eq]
      have h3 : m₁ * 2 ^ k < 2 ^ 53 * 2 ^ k := Nat.mul_lt_mul_of_pos_right h1 (Nat.two_pow_pos k)
      have h4 : 2 ^ (k + 1) * 2 ^ 52 ≤ 2 ^ (k + 1) * m₂ := Nat.mul_le_mul_left _ hm
      have h5 : 2 ^ (k + 1) * 2 ^ 52 = 2 ^ 53 * 2 ^ k := by
        rw [Nat.pow_succ]
        ring
      omega
    omega

theorem toUInt64_le {x : UnpackedFloat} {n : Nat} (hn : n ≤ 53) (hx : Fine (-n) x) :
    x.toUInt64.toNat ≤ 2 ^ (53 - n) := by
  have hclamp : ∀ k : Nat, (UInt64.ofNatClamp k).toNat ≤ k := by
    intro k
    unfold UInt64.ofNatClamp
    split
    · exact Nat.le_of_eq (UInt64.toNat_ofNatLT ..)
    · rw [UInt64.toNat_ofNatLT]
      omega
  refine (hclamp _).trans ?_
  cases x with
  | infinity s => exact absurd hx id
  | notANumber => exact absurd hx id
  | zero s => exact Nat.zero_le _
  | finite s m e hm =>
    obtain ⟨h1, h2⟩ : m < 2 ^ 53 ∧ e ≤ -n := hx
    unfold toInt roundToInt decreaseExponent shiftToExponent
    dsimp only
    rw [mantissa_shiftRight, mantissa_ofMantissaAndAccuracy,
      show (e - 0).toNat = 0 from by omega, Nat.shiftLeft_zero]
    have hquot : m / 2 ^ (0 - (e - ((0 : Nat) : Int))).toNat ≤ 2 ^ (53 - n) := by
      apply Nat.div_le_of_le_mul
      rw [← Nat.pow_add]
      exact h1.le.trans (Nat.pow_le_pow_right (by decide) (by omega))
    generalize m / 2 ^ (0 - (e - ((0 : Nat) : Int))).toNat = q at hquot
    cases s with
    | positive => simpa [Sign.apply] using hquot
    | negative => simp [Sign.apply]

/-! ### Load factors -/

/-- A load factor within the bounds is a positive number with a full mantissa. -/
theorem unpack_loadFactor {x : Float} (hhalf : 0.5 ≤ x) (hone : x ≤ 1.0) :
    ∃ (m : Nat) (e : Int) (hm : 0 < m), x.toModel.unpack = .finite .positive m e hm ∧
      2 ^ 52 ≤ m ∧ -53 ≤ e := by
  have h1 : (UnpackedFloat.finite .positive (2 ^ 52) (-53) (by decide)).le x.toModel.unpack
      = true := of_decide_eq_true hhalf
  have h2 : x.toModel.unpack.le (.finite .positive (2 ^ 52) (-52) (by decide)) = true :=
    of_decide_eq_true hone
  -- a number that is no subnormal one has a full mantissa
  have hfull : ∀ s m e hm, x.toModel.unpack = .finite s m e hm → e ≠ -1074 → 2 ^ 52 ≤ m := by
    intro s m e hm heq hne
    change unpack .binary64 _ = _ at heq
    unfold unpack at heq
    dsimp only at heq
    split at heq
    · split at heq <;> cases heq
    · split at heq
      · rename_i hzero
        split at heq
        · cases heq
        · injection heq with _ _ he
          rw [hzero] at he
          exact absurd he.symm hne
      · injection heq with _ hm _
        rw [← hm, BitVec.toNat_append]
        exact Nat.left_le_or.trans' (by decide)
  generalize x.toModel.unpack = y at *
  cases y with
  | infinity s =>
    cases s with
    | positive => exact absurd h2 (by decide)
    | negative => exact absurd h1 (by decide)
  | notANumber => cases h1
  | zero s => cases h1
  | finite s m e hm =>
    cases s with
    | negative => cases h1
    | positive =>
      refine ⟨m, e, hm, rfl, ?_⟩
      have hle : ((compare (-53) e).then (compare (2 ^ 52) m)).isLE = true := h1
      rcases Int.lt_trichotomy e (-53) with hlt | rfl | hgt
      · have : compare (-53) e = .gt := by
          rw [compare_gt_iff_gt]
          exact hlt
        rw [this] at hle
        cases hle
      · exact ⟨hfull _ m (-53) hm rfl (by decide), le_refl _⟩
      · exact ⟨hfull _ m e hm rfl (by omega), hgt.le⟩

namespace RegionTable

/-- However full a table may get, it is not much larger than the number of its entries. -/
theorem capacityFor_le_pow {loadFactor : Float} (hhalf : 0.5 ≤ loadFactor) (hone : loadFactor ≤ 1.0)
    {d : Nat} (hpos : 0 < d) (hd : d ≤ 50) {expected : Nat} (hsmall : expected < 2 ^ d) :
    capacityFor expected loadFactor ≤ 2 ^ (d + 4) := by
  obtain ⟨m, e, hm, hunpack, h1, h2⟩ := unpack_loadFactor hhalf hone
  have hexpected : expected.toUInt64.toNat = expected := by
    rw [UInt64.toNat_ofNat']
    exact Nat.mod_eq_of_lt (hsmall.trans_le (Nat.pow_le_pow_right (by decide) (by omega)))
  have hnum : Fine (d - 52) expected.toUInt64.toFloat.toModel.unpack := by
    show Fine _ (unpack .binary64 (pack .binary64 (ofNat .binary64 expected.toUInt64.toNat)))
    rw [hexpected]
    exact fine_unpack_pack (by omega) (by omega) (coarse_ofNat hpos hsmall)
  have hquot : Fine (-(50 - d : Nat)) (expected.toUInt64.toFloat / loadFactor).toModel.unpack := by
    refine fine_unpack_pack (by omega) (by omega) ?_
    rw [hunpack, show (-((50 - d : Nat) : Int)) = (d - 52 : Int) + 2 by omega]
    exact coarse_div (by omega) hnum .positive hm h1 h2
  have hwhole := toUInt64_le (by omega) hquot
  rw [show 53 - (50 - d) = d + 3 by omega] at hwhole
  have hpow : 2 ^ (d + 4) = 2 * 2 ^ (d + 3) := Nat.pow_succ'
  have hthree : 2 ^ (d + 3) = 8 * 2 ^ d := by
    rw [Nat.pow_add, Nat.mul_comm]
  have hrounded : roundedUp (expected.toUInt64.toFloat / loadFactor) ≤ 2 ^ (d + 3) + 1 := by
    unfold roundedUp
    dsimp only
    split
    · exact Nat.succ_le_succ hwhole
    · exact hwhole.trans (Nat.le_succ _)
  unfold capacityFor
  exact powerOfTwoFrom_le ⟨d + 4, rfl⟩ (Nat.max_le.2 ⟨by omega, by omega⟩)

theorem capacityFor_le {c : Config} (hc : c.loadFactorInBounds = true) {expected : Nat}
    (hsmall : expected < 2 ^ 24) : capacityFor expected c.denseLoadFactor ≤ 2 ^ 28 := by
  unfold Config.loadFactorInBounds at hc
  rw [Bool.and_eq_true, decide_eq_true_eq, decide_eq_true_eq] at hc
  exact capacityFor_le_pow hc.1 hc.2 (by decide) (by decide) hsmall

end RegionTable

end MarkCompact
