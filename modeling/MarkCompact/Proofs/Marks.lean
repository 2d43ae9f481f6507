/-
MarkCompact/Proofs/Marks.lean

The bits of marks.

A mark is changed by clearing some bits and setting others, so what another part of
the mark says afterwards only depends on whether the parts have a bit in common.
Two facts about words carry everything here (`and_of_cleared` and `and_of_set`).

Main results: what each header operation leaves alone (`and_withLock`,
`and_withHashed`, `and_withHash`), and that it produces a proper mark again
(`Proper.withLock`, `Proper.withHashed`, `Proper.withHash`), and `carried_kept` and
`carried_relocated` (the mark of a moved object says what the old one said).
-/
import MarkCompact.Proofs.WellFormed

namespace MarkCompact

/-! ### Words -/

theorem or_and_distrib (a b k : Word) : (a ||| b) &&& k = (a &&& k) ||| (b &&& k) := by
  apply UInt64.toBitVec_inj.1
  ext i hi
  simp only [UInt64.toBitVec_and, UInt64.toBitVec_or, BitVec.getElem_and, BitVec.getElem_or]
  cases k.toBitVec[i] <;> simp

/-- Clearing bits outside a mask changes nothing under the mask. -/
theorem and_of_cleared {k b : Word} (a : Word) (h : k &&& b = 0) : (a &&& ~~~b) &&& k = a &&& k := by
  apply UInt64.toBitVec_inj.1
  ext i hi
  have here := congrArg (fun w : UInt64 => w.toBitVec[i]) h
  simp only [UInt64.toBitVec_and, UInt64.toBitVec_not, BitVec.getElem_and, BitVec.getElem_not,
    UInt64.toBitVec_ofNat, BitVec.getElem_zero] at here ⊢
  cases hk : k.toBitVec[i] <;> simp_all

/-- Setting bits outside a mask changes nothing under the mask. -/
theorem and_of_set {k b : Word} (a : Word) (h : b &&& k = 0) : (a ||| b) &&& k = a &&& k := by
  rw [or_and_distrib, h, UInt64.or_zero]

theorem and_eq_zero_of_within {k b c : Word} (h : c &&& k = 0) (hb : b &&& c = b) : b &&& k = 0 := by
  rw [← hb, UInt64.and_assoc, h, UInt64.and_zero]

theorem and_eq_of_subset {a b k : Word} (h : a &&& k = b &&& k) {j : Word} (hj : k &&& j = j) :
    a &&& j = b &&& j := by
  rw [← hj, ← UInt64.and_assoc, h, UInt64.and_assoc]

/-- The bits of a mark that are kept when its object moves. -/
def keptMask : Word := classMask ||| hashedMask ||| expandedMask

namespace Mark

/-! ### Parts of a mark -/

theorem isHashed_congr {m m' : Mark} (h : m'.raw &&& hashedMask = m.raw &&& hashedMask) :
    m'.isHashed = m.isHashed := by
  unfold isHashed
  rw [h]

theorem isExpanded_congr {m m' : Mark} (h : m'.raw &&& expandedMask = m.raw &&& expandedMask) :
    m'.isExpanded = m.isExpanded := by
  unfold isExpanded
  rw [h]

theorem hash_congr {m m' : Mark} (h : m'.raw &&& hashMask = m.raw &&& hashMask) :
    m'.hash = m.hash := by
  unfold hash
  rw [h]

theorem classId_eq (m : Mark) : m.classId = ((m.raw &&& classMask) >>> 32).toUInt32 := by
  have h : classMask >>> 32 = 0xffffffff := by decide
  unfold classId
  rw [UInt64.shiftRight_and, h]
  apply UInt32.toNat_inj.1
  rw [UInt64.toNat_toUInt32, UInt64.toNat_toUInt32, UInt64.toNat_and]
  show _ = ((m.raw >>> 32).toNat &&& (2 ^ 32 - 1)) % 2 ^ 32
  rw [Nat.and_two_pow_sub_one_eq_mod, Nat.mod_mod]

theorem classId_congr {m m' : Mark} (h : m'.raw &&& classMask = m.raw &&& classMask) :
    m'.classId = m.classId := by
  rw [classId_eq, classId_eq, h]

theorem lock_congr {m m' : Mark} (h : m'.raw &&& lockMask = m.raw &&& lockMask) :
    m'.lock = m.lock := h

/-! ### What the operations leave alone -/

theorem and_withLock (m : Mark) (bits : Word) {k : Word} (hk : k &&& lockMask = 0) :
    (m.withLock bits).raw &&& k = m.raw &&& k := by
  unfold withLock
  rw [and_of_set _ (and_eq_zero_of_within (c := lockMask) (by rw [UInt64.and_comm, hk])
    (by rw [UInt64.and_assoc, UInt64.and_self])), and_of_cleared _ hk]

theorem and_withHashed (m : Mark) {k : Word} (hk : hashedMask &&& k = 0) :
    m.withHashed.raw &&& k = m.raw &&& k :=
  and_of_set _ hk

/-- The bits of a hash, shifted to their place. -/
theorem hash_within (v : UInt32) :
    ((v.toUInt64 &&& 0x7fffffff) <<< 9) &&& hashMask = (v.toUInt64 &&& 0x7fffffff) <<< 9 := by
  have h : hashMask = (0x7fffffff : UInt64) <<< 9 := by decide
  rw [h, ← UInt64.shiftLeft_and, UInt64.and_assoc, UInt64.and_self]

theorem and_withHash (m : Mark) (v : UInt32) {k : Word} (h1 : k &&& hashMask = 0)
    (h2 : hashedMask &&& k = 0) : (m.withHash v).raw &&& k = m.raw &&& k := by
  unfold withHash
  rw [and_of_set _ h2, and_of_set _ (and_eq_zero_of_within (by rw [UInt64.and_comm, h1])
    (hash_within v)), and_of_cleared _ h1]

/-- A hash of 31 bits is read back. -/
theorem hash_withHash (m : Mark) {v : UInt32} (hv : v.toNat < 0x80000000) :
    (m.withHash v).hash = v := by
  have h0 : hashedMask &&& hashMask = 0 := by decide
  have h1 : (m.raw &&& ~~~hashMask) &&& hashMask = 0 := by
    rw [UInt64.and_assoc, UInt64.not_and_self, UInt64.and_zero]
  have h2 : v.toUInt64 &&& 0x7fffffff = v.toUInt64 := by
    apply UInt64.toNat_inj.1
    rw [UInt64.toNat_and, UInt32.toNat_toUInt64]
    show v.toNat &&& (2 ^ 31 - 1) = _
    rw [Nat.and_two_pow_sub_one_eq_mod, Nat.mod_eq_of_lt (by omega)]
  unfold hash withHash
  dsimp only
  rw [and_of_set _ h0, or_and_distrib, h1, UInt64.zero_or, hash_within, h2]
  apply UInt32.toNat_inj.1
  rw [UInt64.toNat_toUInt32, UInt64.toNat_shiftRight, UInt64.toNat_shiftLeft,
    UInt32.toNat_toUInt64]
  show ((v.toNat <<< 9) % 2 ^ 64) >>> 9 % 2 ^ 32 = _
  rw [Nat.shiftLeft_eq, Nat.shiftRight_eq_div_pow]
  omega

theorem isHashed_of_or (w : Word) : (Mark.mk (w ||| hashedMask)).isHashed = true :=
  isHashed_withHashed ⟨w⟩

theorem isHashed_withHash (m : Mark) (v : UInt32) : (m.withHash v).isHashed = true :=
  isHashed_of_or _

theorem not_isExpanded_of {m : Mark} (h : m.raw &&& expandedMask = 0) : m.isExpanded = false := by
  unfold isExpanded
  rw [h]
  rfl

/-! ### Proper marks -/

theorem isForwarded_eq (m : Mark) : m.isForwarded = (m.raw &&& lockMask == 0b11) := rfl

theorem Proper.withLock {m : Mark} {compact : Bool} (hm : m.Proper compact) {bits : Word}
    (hbits : bits &&& lockMask ≠ 0b11) : (m.withLock bits).Proper compact := by
  have hstray : strayMask compact &&& lockMask = 0 := by cases compact <;> decide
  have hhashed : (m.withLock bits).isHashed = m.isHashed :=
    isHashed_congr (and_withLock m bits (by decide))
  have hexpanded : (m.withLock bits).isExpanded = m.isExpanded :=
    isExpanded_congr (and_withLock m bits (by decide))
  refine ⟨?_, ?_, ?_, ?_⟩
  · unfold isForwarded
    rw [lock_withLock]
    simpa using hbits
  · rw [and_withLock m bits hstray]
    exact hm.noStray
  · intro hc hh
    rw [and_withLock m bits (by decide)]
    exact hm.hashAsked hc (by rw [← hhashed]; exact hh)
  · rw [hhashed, hexpanded]
    exact hm.expandedAsked

theorem Proper.withHashed {m : Mark} (hm : m.Proper true) : m.withHashed.Proper true := by
  refine ⟨?_, ?_, ?_, ?_⟩
  · rw [isForwarded_eq, and_withHashed m (by decide)]
    exact hm.notForwarded
  · rw [and_withHashed m (by decide)]
    exact hm.noStray
  · intro hc
    exact absurd hc (by decide)
  · intro _
    exact isHashed_withHashed m

theorem Proper.withHash {m : Mark} (hm : m.Proper false) (v : UInt32) :
    (m.withHash v).Proper false := by
  refine ⟨?_, ?_, ?_, ?_⟩
  · rw [isForwarded_eq, and_withHash m v (by decide) (by decide)]
    exact hm.notForwarded
  · rw [and_withHash m v (by decide) (by decide)]
    exact hm.noStray
  · intro _ hh
    rw [isHashed_withHash] at hh
    exact absurd hh (by decide)
  · intro _
    exact isHashed_withHash m v

theorem proper_fresh : fresh.Proper false := by
  refine ⟨by decide, by decide, ?_, ?_⟩
  · intro _ _
    decide
  · intro h
    exact absurd h (by decide)

/-- A class number takes the upper half only. -/
theorem freshOf_and (classId : UInt32) {k : Word} (hk : classMask &&& k = 0) :
    (freshOf classId).raw &&& k = 1 &&& k := by
  have hwithin : (classId.toUInt64 <<< 32) &&& classMask = classId.toUInt64 <<< 32 := by
    have h1 : classMask = (0xffffffff : UInt64) <<< 32 := by decide
    have h2 : classId.toUInt64 &&& 0xffffffff = classId.toUInt64 := by
      apply UInt64.toNat_inj.1
      rw [UInt64.toNat_and, UInt32.toNat_toUInt64]
      show classId.toNat &&& (2 ^ 32 - 1) = _
      rw [Nat.and_two_pow_sub_one_eq_mod, Nat.mod_eq_of_lt classId.toNat_lt]
    rw [h1, ← UInt64.shiftLeft_and, h2]
  unfold freshOf
  rw [or_and_distrib, and_eq_zero_of_within hk hwithin, UInt64.zero_or]

theorem proper_freshOf (classId : UInt32) : (freshOf classId).Proper true := by
  refine ⟨?_, ?_, ?_, ?_⟩
  · rw [isForwarded_eq, freshOf_and classId (by decide)]
    decide
  · rw [freshOf_and classId (by decide)]
    decide
  · intro hc
    exact absurd hc (by decide)
  · intro h
    rw [not_isExpanded_of] at h
    · exact absurd h (by decide)
    · rw [freshOf_and classId (by decide)]
      decide

/-! ### Marks of moved objects -/

/-- The mark of a moved object says what the mark `m` said before, and that the object has
`grown`. -/
structure Carried (m m' : Mark) (compact grown : Bool) : Prop where
  proper : m'.Proper compact
  lock : m'.lock = m.lock
  hashed : m'.isHashed = m.isHashed
  expanded : m'.isExpanded = (m.isExpanded || grown)
  classId : compact = true → m'.classId = m.classId
  hash : compact = false → m.isHashed = true → m'.hash = m.hash

theorem Carried.refl {m : Mark} {compact : Bool} (hm : m.Proper compact) :
    m.Carried m compact false :=
  ⟨hm, rfl, rfl, by rw [Bool.or_false], fun _ => rfl, fun _ _ => rfl⟩

theorem and_withExpanded (m : Mark) {k : Word} (hk : expandedMask &&& k = 0) :
    m.withExpanded.raw &&& k = m.raw &&& k := by
  unfold withExpanded
  exact and_of_set m.raw hk

/-- A mark that is kept notes that its object has grown. -/
theorem carried_withExpanded {m : Mark} (hm : m.Proper true) (hh : m.isHashed = true) :
    m.Carried m.withExpanded true true := by
  have hhashed : m.withExpanded.isHashed = m.isHashed :=
    isHashed_congr (and_withExpanded m (by decide))
  refine ⟨⟨?_, ?_, ?_, ?_⟩, lock_congr (and_withExpanded m (by decide)), hhashed, ?_,
    fun _ => classId_congr (and_withExpanded m (by decide)), ?_⟩
  · rw [isForwarded_eq, and_withExpanded m (by decide)]
    exact hm.notForwarded
  · rw [and_withExpanded m (by decide)]
    exact hm.noStray
  · intro hc
    exact absurd hc (by decide)
  · intro _
    rw [hhashed]
    exact hh
  · rw [isExpanded_withExpanded, Bool.or_true]
  · intro hc
    exact absurd hc (by decide)

/-- The mark as it is kept aside or left alone. -/
theorem carried_kept {m : Mark} {compact grown : Bool} (hm : m.Proper compact)
    (hgrown : grown = true → compact = true ∧ m.isHashed = true) :
    m.Carried (if grown then m.withExpanded else m) compact grown := by
  cases grown with
  | false => exact Carried.refl hm
  | true =>
    obtain ⟨rfl, hh⟩ := hgrown rfl
    exact carried_withExpanded hm hh

theorem lock_cases (m : Mark) : m.lock = 0 ∨ m.lock = 1 ∨ m.lock = 2 ∨ m.lock = 3 := by
  have hlt : m.lock.toNat ≤ 3 := by
    unfold lock
    rw [UInt64.toNat_and]
    exact Nat.and_le_right
  have hval : ∀ k : Nat, k ≤ 3 → m.lock.toNat = k → m.lock = k.toUInt64 := by
    intro k hk h
    rw [← h]
    simp
  rcases Nat.lt_or_ge m.lock.toNat 1 with h | h
  · exact .inl (hval 0 (by decide) (by omega))
  · rcases Nat.lt_or_ge m.lock.toNat 2 with h' | h'
    · exact .inr (.inl (hval 1 (by decide) (by omega)))
    · rcases Nat.lt_or_ge m.lock.toNat 3 with h'' | h''
      · exact .inr (.inr (.inl (hval 2 (by decide) (by omega))))
      · exact .inr (.inr (.inr (hval 3 (by decide) (by omega))))

/-- A proper mark that need not be kept aside is unlocked. -/
theorem lock_of_not_mustPreserve {m : Mark} {compact : Bool} (hm : m.Proper compact)
    (hkeep : m.mustPreserve compact = false) : m.lock = 1 := by
  unfold mustPreserve isLocked at hkeep
  rw [Bool.or_eq_false_iff, Bool.or_eq_false_iff] at hkeep
  have h3 := hm.notForwarded
  unfold isForwarded at h3
  rcases lock_cases m with h | h | h | h
  · rw [h] at hkeep
    exact absurd hkeep.1.1 (by decide)
  · exact h
  · rw [h] at hkeep
    exact absurd hkeep.1.2 (by decide)
  · rw [h] at h3
    exact absurd h3 (by decide)

/-- A mark is made anew from its kept bits, if from any. -/
theorem relocated_congr {m m' : Mark} {compact : Bool} (grown : Bool)
    (hkept : compact = true → m'.raw &&& keptMask = m.raw &&& keptMask) :
    m'.relocated compact grown = m.relocated compact grown := by
  unfold relocated
  cases compact with
  | false => rfl
  | true =>
    have hsame := hkept rfl
    unfold keptMask at hsame
    rw [if_pos rfl, if_pos rfl, hsame]

/-- A compact mark that is made anew, under any mask. -/
theorem and_relocated_compact (m : Mark) (grown : Bool) (k : Word) :
    (m.relocated true grown).raw &&& k
      = ((m.raw &&& keptMask) &&& k) ||| ((1 : Word) &&& k)
        ||| ((if grown then expandedMask else 0) &&& k) := by
  unfold relocated keptMask
  cases grown with
  | false =>
    show ((m.raw &&& _) ||| (0b01 : Word)) &&& k = _
    rw [or_and_distrib]
    simp
  | true =>
    show (((m.raw &&& _) ||| (0b01 : Word)) ||| expandedMask) &&& k = _
    rw [or_and_distrib, or_and_distrib]
    simp

/-- A classic mark that is made anew replaces one that says nothing but that the object is
unlocked. -/
theorem carried_fresh {m : Mark} (hm : m.Proper false) (hkeep : m.mustPreserve false = false) :
    m.Carried fresh false false := by
  have hlock := lock_of_not_mustPreserve hm hkeep
  have hnot : m.isHashed = false := by
    unfold mustPreserve at hkeep
    rw [Bool.or_eq_false_iff] at hkeep
    simpa using hkeep.2
  have hexpanded : m.isExpanded = false := by
    cases he : m.isExpanded with
    | false => rfl
    | true =>
      rw [hm.expandedAsked he] at hnot
      cases hnot
  refine ⟨proper_fresh, ?_, ?_, ?_, fun hc => absurd hc (by decide), ?_⟩
  · rw [hlock]
    decide
  · rw [hnot]
    decide
  · rw [hexpanded]
    decide
  · intro _ hh
    rw [hnot] at hh
    cases hh

/-- A compact mark that is made anew keeps the class and the hash state, and notes whether the
object has grown. -/
theorem carried_relocated_compact {m m' : Mark} {grown : Bool} (hm : m.Proper true)
    (hkeep : m.mustPreserve true = false) (hkept : m'.raw &&& keptMask = m.raw &&& keptMask)
    (hgrown : grown = true → m.isHashed = true) :
    m.Carried (m'.relocated true grown) true grown := by
  have hand := and_relocated_compact m' grown
  rw [hkept] at hand
  -- masks that a fresh mark does not touch
  have hunder : ∀ k : Word, keptMask &&& k = k → (1 : Word) &&& k = 0 →
      expandedMask &&& k = 0 → (m'.relocated true grown).raw &&& k = m.raw &&& k := by
    intro k h1 h2 h3
    rw [hand, h2, UInt64.and_assoc, h1, UInt64.or_zero]
    have : (if grown then expandedMask else 0) &&& k = 0 := by
      cases grown
      · exact UInt64.zero_and
      · exact h3
    rw [this, UInt64.or_zero]
  have hhashed : (m'.relocated true grown).isHashed = m.isHashed :=
    isHashed_congr (hunder hashedMask (by decide) (by decide) (by decide))
  have hexpanded : (m'.relocated true grown).isExpanded = (m.isExpanded || grown) := by
    unfold isExpanded
    rw [hand, UInt64.and_assoc, show keptMask &&& expandedMask = expandedMask by decide,
      show (1 : Word) &&& expandedMask = 0 by decide, UInt64.or_zero]
    cases grown with
    | false => simp
    | true =>
      rw [Bool.or_true, bne_iff_ne]
      have := isExpanded_withExpanded ⟨m.raw &&& expandedMask⟩
      unfold isExpanded withExpanded at this
      rw [or_and_distrib, UInt64.and_assoc, UInt64.and_self, bne_iff_ne] at this
      exact this
  have hlock : (m'.relocated true grown).lock = 1 := by
    unfold lock
    rw [hand, UInt64.and_assoc, show keptMask &&& lockMask = 0 by decide, UInt64.and_zero,
      UInt64.zero_or]
    cases grown <;> decide
  refine ⟨⟨?_, ?_, ?_, ?_⟩, ?_, hhashed, hexpanded, fun _ => ?_, ?_⟩
  · unfold isForwarded
    rw [hlock]
    decide
  · rw [hand, UInt64.and_assoc, show keptMask &&& strayMask true = 0 by decide, UInt64.and_zero,
      UInt64.zero_or]
    cases grown <;> decide
  · intro hc
    exact absurd hc (by decide)
  · rw [hhashed, hexpanded, Bool.or_eq_true]
    rintro (he | hg)
    · exact hm.expandedAsked he
    · exact hgrown hg
  · rw [hlock, lock_of_not_mustPreserve hm hkeep]
  · exact classId_congr (hunder classMask (by decide) (by decide) (by decide))
  · intro hc
    exact absurd hc (by decide)

/-- The mark that is made anew from what forwarding has left of `m`. -/
theorem carried_relocated {m m' : Mark} {compact grown : Bool} (hm : m.Proper compact)
    (hkeep : m.mustPreserve compact = false)
    (hkept : compact = true → m'.raw &&& keptMask = m.raw &&& keptMask)
    (hgrown : grown = true → compact = true ∧ m.isHashed = true) :
    m.Carried (m'.relocated compact grown) compact grown := by
  cases compact with
  | false =>
    obtain rfl : grown = false := by
      cases grown with
      | false => rfl
      | true => exact absurd (hgrown rfl).1 (by decide)
    exact carried_fresh hm hkeep
  | true => exact carried_relocated_compact hm hkeep (hkept rfl) fun hg => (hgrown hg).2

end Mark

end MarkCompact
