/-
MarkCompact/Proofs/Planes.lean

A plane of bits answers as a set of positions would.

Every question about a range is answered chunk by chunk with masks.  Here the
chunks go away: `Plane.get` is the only view of a plane, and each operation is
one equation about it.

* `get_setRange`, `get_clearRange` — setting a range adds exactly its positions, and
  clearing one removes exactly these;
* `count_eq` — counting is counting positions one by one;
* `next_eq_some_iff`, `next_eq_none_iff` — the search finds the least position;
* `bitsFrom_eq` — the list of a range is the positions of the range, filtered.

The one fact about masks that carries all of them is `bitSet_bitMask`.
-/
import Mathlib.Data.List.Basic
import Mathlib.Data.Nat.Bitwise
import MarkCompact.Liveness.Bitmap

namespace MarkCompact

/-! ### Bits of a chunk -/

theorem bitSet_or (c d : UInt64) (i : Nat) : bitSet (c ||| d) i = (bitSet c i || bitSet d i) := by
  simp [bitSet]

theorem bitSet_and (c d : UInt64) (i : Nat) : bitSet (c &&& d) i = (bitSet c i && bitSet d i) := by
  simp [bitSet]

theorem bitSet_not (c : UInt64) {i : Nat} (h : i < chunkBits) : bitSet (~~~c) i = !bitSet c i := by
  show (~~~c.toBitVec).getLsbD i = !c.toBitVec.getLsbD i
  rw [BitVec.getLsbD_not, decide_eq_true (show i < 64 from h), Bool.true_and]

@[simp] theorem bitSet_zero (i : Nat) : bitSet 0 i = false := by
  simp [bitSet]

theorem bitSet_of_le (c : UInt64) {i : Nat} (h : chunkBits ≤ i) : bitSet c i = false := by
  unfold bitSet
  apply Nat.testBit_lt_two_pow
  have h1 := c.toNat_lt
  have h2 : 2 ^ 64 ≤ 2 ^ i := Nat.pow_le_pow_right (by decide) h
  omega

/-- The mask of a run of bits within one chunk holds exactly these bits. -/
theorem bitSet_bitMask {first length : Nat} (h : first + length ≤ chunkBits) (i : Nat) :
    bitSet (bitMask first length) i = (decide (first ≤ i) && decide (i < first + length)) := by
  simp only [chunkBits] at h
  unfold bitMask
  split
  · rename_i hfull
    simp only [chunkBits] at hfull
    obtain rfl : first = 0 := by omega
    subst hfull
    by_cases hi : i < 64
    · have hall : (~~~(0 : UInt64)).toNat = 2 ^ 64 - 1 := by decide
      show Nat.testBit (~~~(0 : UInt64)).toNat i = _
      rw [hall, Nat.testBit_two_pow_sub_one]
      simp [hi]
    · rw [bitSet_of_le _ (by simp only [chunkBits]; omega)]
      simp
      omega
  · rename_i hfull
    simp only [chunkBits] at hfull
    -- a shorter run is `2 ^ length - 1`, shifted to its first bit
    have hlen : length < 64 := by omega
    have hone : ((1 : UInt64) <<< length.toUInt64).toNat = 2 ^ length := by
      rw [UInt64.toNat_shiftLeft]
      have h1 : length.toUInt64.toNat % 64 = length := by
        simp
        omega
      have h2 : 2 ^ length < 2 ^ 64 := Nat.pow_lt_pow_right (by decide) hlen
      rw [h1, Nat.shiftLeft_eq, UInt64.toNat_one, Nat.one_mul, Nat.mod_eq_of_lt h2]
    have hpos : 1 ≤ 2 ^ length := Nat.one_le_two_pow
    have hsub : (((1 : UInt64) <<< length.toUInt64) - 1).toNat = 2 ^ length - 1 := by
      rw [UInt64.toNat_sub_of_le]
      · rw [hone]; rfl
      · rw [UInt64.le_iff_toNat_le, hone]; exact hpos
    unfold bitSet
    rw [UInt64.toNat_shiftLeft, hsub]
    by_cases hf : first = 64
    · have h0 : length = 0 := by omega
      subst h0
      simp
    · have h1 : first.toUInt64.toNat % 64 = first := by
        simp
        omega
      rw [h1, Nat.testBit_mod_two_pow, Nat.testBit_shiftLeft, Nat.testBit_two_pow_sub_one]
      by_cases h2 : first ≤ i <;> by_cases h3 : i < first + length <;> simp [h2, h3] <;> omega

theorem popCount_eq (c : UInt64) : popCount c = (List.range chunkBits).countP (bitSet c) := by
  unfold popCount
  split
  · rename_i h
    subst h
    symm
    rw [List.countP_eq_zero]
    simp
  · rfl

theorem lowestBit?_eq (c : UInt64) : lowestBit? c = (List.range chunkBits).find? (bitSet c) := by
  unfold lowestBit?
  split
  · rename_i h
    subst h
    symm
    rw [List.find?_eq_none]
    simp
  · rfl

theorem bitSet_shiftRight (c : UInt64) {k : Nat} (hk : k < chunkBits) (i : Nat) :
    bitSet (c >>> k.toUInt64) i = bitSet c (k + i) := by
  simp only [chunkBits] at hk
  unfold bitSet
  rw [UInt64.toNat_shiftRight]
  have h1 : k.toUInt64.toNat % 64 = k := by
    simp
    omega
  rw [h1, Nat.testBit_shiftRight]

/-! ### The chunks of a range -/

/-- A run of positions in two pieces. -/
theorem range'_split {a m b : Nat} (h1 : a ≤ m) (h2 : m ≤ b) :
    List.range' a (b - a) = List.range' a (m - a) ++ List.range' m (b - m) := by
  obtain ⟨k, rfl⟩ := Nat.exists_eq_add_of_le h1
  rw [Nat.add_sub_cancel_left, List.range'_append_1]
  congr 1
  omega

/-- The mask of a chunk that a range reaches holds the positions of the range in it. -/
theorem bitSet_chunkMask {first stop chunk : Nat} (h : first / chunkBits ≤ chunk) {i : Nat}
    (hi : i < chunkBits) :
    bitSet (bitMask (max first (chunk * chunkBits) % chunkBits)
        (min stop ((chunk + 1) * chunkBits) - max first (chunk * chunkBits))) i
      = (decide (max first (chunk * chunkBits) ≤ chunk * chunkBits + i)
        && decide (chunk * chunkBits + i < min stop ((chunk + 1) * chunkBits))) := by
  rw [Bool.eq_iff_iff]
  simp only [Bool.and_eq_true, decide_eq_true_eq]
  simp only [chunkBits] at h hi ⊢
  have hlo : chunk * 64 ≤ max first (chunk * 64) ∧ max first (chunk * 64) < (chunk + 1) * 64 := by
    omega
  have hhi : min stop ((chunk + 1) * 64) ≤ (chunk + 1) * 64 := Nat.min_le_right ..
  generalize max first (chunk * 64) = lo at hlo ⊢
  generalize min stop ((chunk + 1) * 64) = hi' at hhi ⊢
  rw [bitSet_bitMask (by simp only [chunkBits]; omega)]
  simp only [Bool.and_eq_true, decide_eq_true_eq]
  omega

/-- The part of a range that lies in one chunk. -/
theorem mem_chunkMasks {first stop chunk : Nat} {mask : UInt64}
    (h : (chunk, mask) ∈ chunkMasks first stop) (i : Nat) (hi : i < chunkBits) :
    bitSet mask i = (decide (first ≤ chunk * chunkBits + i) && decide (chunk * chunkBits + i < stop)) := by
  unfold chunkMasks at h
  split at h
  · rename_i hlt
    simp only [List.mem_map, Prod.mk.injEq] at h
    obtain ⟨c, hc, rfl, rfl⟩ := h
    simp only [List.mem_range'_1] at hc
    rw [bitSet_chunkMask hc.1 hi, Bool.eq_iff_iff]
    simp only [Bool.and_eq_true, decide_eq_true_eq]
    simp only [chunkBits] at hi ⊢
    omega
  · simp at h

theorem chunk_mem_chunkMasks {first stop bit : Nat} (h1 : first ≤ bit) (h2 : bit < stop) :
    ∃ mask, (bit / chunkBits, mask) ∈ chunkMasks first stop := by
  unfold chunkMasks
  rw [if_pos (by omega)]
  refine ⟨_, List.mem_map.2 ⟨bit / chunkBits, ?_, rfl⟩⟩
  simp only [List.mem_range'_1, chunkBits]
  omega

theorem nodup_chunkMasks (first stop : Nat) : ((chunkMasks first stop).map Prod.fst).Nodup := by
  unfold chunkMasks
  split
  · rw [List.map_map]
    show ((List.range' _ _).map id).Nodup
    rw [List.map_id]
    exact List.nodup_range'
  · simp

namespace Plane

theorem chunk_modify (p : Plane) (index : Nat) (f : UInt64 → UInt64) (c : Nat) :
    chunk (p.modify index f) c = if c = index ∧ c < p.size then f (p.chunk c) else p.chunk c := by
  unfold chunk
  rw [Array.getElem?_modify]
  by_cases h : index = c
  · subst h
    by_cases hc : index < p.size
    · simp [hc]
    · simp [hc]
  · rw [if_neg h, if_neg (by omega)]

theorem chunk_foldl_modify (f : UInt64 → UInt64 → UInt64) (l : List (Nat × UInt64)) (p : Plane)
    (hl : (l.map Prod.fst).Nodup) (c : Nat) (hc : c < p.size) :
    (l.foldl (fun p (x : Nat × UInt64) => p.modify x.1 (f x.2)) p).chunk c =
      match l.find? (·.1 == c) with
      | some x => f x.2 (p.chunk c)
      | none => p.chunk c := by
  induction l generalizing p with
  | nil => rfl
  | cons x l ih =>
    rw [List.map_cons, List.nodup_cons] at hl
    rw [List.foldl_cons, ih _ hl.2 (by simpa using hc), chunk_modify, List.find?_cons]
    by_cases h : x.1 = c
    · -- no later mask is for the same chunk
      subst h
      have hnone : l.find? (·.1 == x.1) = none := by
        rw [List.find?_eq_none]
        intro y hy
        simp only [beq_iff_eq]
        intro hyx
        exact hl.1 (List.mem_map.2 ⟨y, hy, hyx⟩)
      simp [hnone, hc]
    · have h' : ¬ (c = x.1 ∧ c < p.size) := fun hh => h hh.1.symm
      have hb : (x.1 == c) = false := by simpa using h
      rw [if_neg h', hb]

theorem size_foldl_modify (f : UInt64 → UInt64 → UInt64) (l : List (Nat × UInt64)) (p : Plane) :
    (l.foldl (fun p (x : Nat × UInt64) => p.modify x.1 (f x.2)) p).size = p.size := by
  induction l generalizing p with
  | nil => rfl
  | cons x l ih => rw [List.foldl_cons, ih]; simp

@[simp] theorem size_setRange (p : Plane) (first stop : Nat) :
    (p.setRange first stop).size = p.size :=
  size_foldl_modify (fun m c => c ||| m) _ _

@[simp] theorem size_clearRange (p : Plane) (first stop : Nat) :
    (p.clearRange first stop).size = p.size :=
  size_foldl_modify (fun m c => c &&& ~~~m) _ _

/-- What is done to the chunks that a range meets, each with its mask, is done to the positions of
the range. -/
theorem get_foldl_masks (f : UInt64 → UInt64 → UInt64) (g : Bool → Bool → Bool)
    (hbits : ∀ m c i, i < chunkBits → bitSet (f m c) i = g (bitSet c i) (bitSet m i))
    (hkeeps : ∀ x, g x false = x) (p : Plane) {first stop : Nat} (bit : Nat)
    (h : bit < p.size * chunkBits) :
    get ((chunkMasks first stop).foldl (fun p (x : Nat × UInt64) => p.modify x.1 (f x.2)) p) bit
      = g (p.get bit) (decide (first ≤ bit) && decide (bit < stop)) := by
  have hc : bit / chunkBits < p.size := by
    simp only [chunkBits] at h ⊢
    omega
  have hmod : bit % chunkBits < chunkBits := by
    simp only [chunkBits]
    omega
  have hdiv : bit / chunkBits * chunkBits + bit % chunkBits = bit := Nat.div_add_mod' ..
  unfold get
  rw [chunk_foldl_modify f _ _ (nodup_chunkMasks first stop) _ hc]
  cases hf : (chunkMasks first stop).find? (·.1 == bit / chunkBits) with
  | some x =>
    have hmem := List.mem_of_find?_eq_some hf
    have heq := @List.find?_some _ _ _ _ hf
    obtain ⟨c, mask⟩ := x
    obtain rfl : c = bit / chunkBits := by simpa using heq
    show bitSet (f mask _) _ = _
    rw [hbits _ _ _ hmod, mem_chunkMasks hmem _ hmod, hdiv]
  | none =>
    -- a chunk without a mask does not meet the range
    have hout : ¬ (first ≤ bit ∧ bit < stop) := by
      rintro ⟨h1, h2⟩
      obtain ⟨mask, hmask⟩ := chunk_mem_chunkMasks h1 h2
      rw [List.find?_eq_none] at hf
      exact hf _ hmask (by simp)
    have hfalse : (decide (first ≤ bit) && decide (bit < stop)) = false := by
      simpa using hout
    rw [hfalse, hkeeps]

/-- Setting a range adds exactly its positions. -/
theorem get_setRange (p : Plane) {first stop : Nat} (bit : Nat) (h : bit < p.size * chunkBits) :
    (p.setRange first stop).get bit
      = (p.get bit || (decide (first ≤ bit) && decide (bit < stop))) :=
  get_foldl_masks (fun m c => c ||| m) (· || ·) (fun m c i _ => bitSet_or c m i) Bool.or_false p bit h

/-- Clearing a range removes exactly its positions. -/
theorem get_clearRange (p : Plane) {first stop : Nat} (bit : Nat) (h : bit < p.size * chunkBits) :
    (p.clearRange first stop).get bit
      = (p.get bit && !(decide (first ≤ bit) && decide (bit < stop))) :=
  get_foldl_masks (fun m c => c &&& ~~~m) (· && !·)
    (fun m c i hi => by rw [bitSet_and, bitSet_not _ hi]) Bool.and_true p bit h

@[simp] theorem get_blank (chunks bit : Nat) : (blank chunks).get bit = false := by
  unfold get chunk blank
  rw [Array.getElem?_replicate]
  split <;> simp

@[simp] theorem size_blank (chunks : Nat) : (blank chunks).size = chunks := by
  simp [blank]

theorem get_of_size_le (p : Plane) {bit : Nat} (h : p.size * chunkBits ≤ bit) :
    p.get bit = false := by
  unfold get chunk
  have hc : p.size ≤ bit / chunkBits := by
    simp only [chunkBits] at h ⊢
    omega
  rw [Array.getElem?_eq_none hc]
  simp

/-- A bit outside a range stays as it is. -/
theorem get_setRange_of_outside {p : Plane} {first stop bit : Nat} (h : p.get bit = false)
    (hout : bit < first ∨ stop ≤ bit) : (p.setRange first stop).get bit = false := by
  by_cases hbit : bit < p.size * chunkBits
  · rw [get_setRange p bit hbit, h]
    simp
    omega
  · exact get_of_size_le _ (by simpa using hbit)

/-- A plane is known from its bits. -/
theorem ext_get {p q : Plane} (hsize : p.size = q.size) (hget : ∀ bit, p.get bit = q.get bit) :
    p = q := by
  refine Array.ext hsize fun c hp hq => UInt64.toNat_inj.1 (Nat.eq_of_testBit_eq fun i => ?_)
  by_cases hi : i < chunkBits
  · have hbit := hget (c * chunkBits + i)
    simp only [chunkBits] at hi
    unfold get chunk bitSet at hbit
    simp only [chunkBits] at hbit
    rw [show (c * 64 + i) / 64 = c from by omega, show (c * 64 + i) % 64 = i from by omega,
      Array.getElem?_eq_getElem hp, Array.getElem?_eq_getElem hq] at hbit
    exact hbit
  · exact (bitSet_of_le _ (Nat.le_of_not_lt hi)).trans (bitSet_of_le _ (Nat.le_of_not_lt hi)).symm

/-! ### Counting -/

private theorem countP_chunk (p : Plane) {c lo hi : Nat} {mask : UInt64}
    (hlo : c * chunkBits ≤ lo) (hhi : hi ≤ (c + 1) * chunkBits)
    (hm : ∀ i < chunkBits, bitSet mask i
      = (decide (lo ≤ c * chunkBits + i) && decide (c * chunkBits + i < hi))) :
    popCount (p.chunk c &&& mask) = (List.range' lo (hi - lo)).countP p.get := by
  have hget : ∀ i ∈ List.range chunkBits, bitSet (p.chunk c &&& mask) i
      = (p.get (c * chunkBits + i) && (decide (lo ≤ c * chunkBits + i)
          && decide (c * chunkBits + i < hi))) := by
    intro i hi
    have hi' : i < chunkBits := List.mem_range.1 hi
    have h1 : (c * chunkBits + i) / chunkBits = c := by
      simp only [chunkBits] at hi' ⊢
      omega
    have h2 : (c * chunkBits + i) % chunkBits = i := by
      simp only [chunkBits] at hi' ⊢
      omega
    rw [bitSet_and, hm i hi']
    unfold get
    rw [h1, h2]
  rw [popCount_eq, List.countP_congr (fun i hi => by rw [hget i hi])]
  have hshift : (List.range chunkBits).map (c * chunkBits + ·) = List.range' (c * chunkBits) chunkBits := by
    rw [← List.range'_eq_map_range]
  rw [show (fun i => p.get (c * chunkBits + i) && (decide (lo ≤ c * chunkBits + i)
      && decide (c * chunkBits + i < hi)))
    = (fun j => p.get j && (decide (lo ≤ j) && decide (j < hi))) ∘ (c * chunkBits + ·) from rfl,
    ← List.countP_map, hshift]
  -- the chunk is what lies before the range, the range, and what lies behind it
  by_cases hle : lo ≤ hi
  · have hsplit : List.range' (c * chunkBits) chunkBits
        = List.range' (c * chunkBits) (lo - c * chunkBits) ++ (List.range' lo (hi - lo)
          ++ List.range' hi (chunkBits - (hi - c * chunkBits))) := by
      have h1 := range'_split hlo hle
      have h2 := range'_split (a := c * chunkBits) (m := hi) (b := c * chunkBits + chunkBits)
        (by omega) (by rw [Nat.add_mul] at hhi; omega)
      rw [Nat.add_sub_cancel_left] at h2
      rw [h2, h1, List.append_assoc]
      congr 3
      omega
    have hbefore : (List.range' (c * chunkBits) (lo - c * chunkBits)).countP
        (fun j => p.get j && (decide (lo ≤ j) && decide (j < hi))) = 0 := by
      rw [List.countP_eq_zero]
      intro j hj
      simp only [List.mem_range'_1] at hj
      simp
      omega
    have hafter : (List.range' hi (chunkBits - (hi - c * chunkBits))).countP
        (fun j => p.get j && (decide (lo ≤ j) && decide (j < hi))) = 0 := by
      rw [List.countP_eq_zero]
      intro j hj
      simp only [List.mem_range'_1] at hj
      simp
      omega
    rw [hsplit, List.countP_append, List.countP_append, hbefore, hafter, Nat.zero_add, Nat.add_zero]
    apply List.countP_congr
    intro j hj
    simp only [List.mem_range'_1] at hj
    have h1 : lo ≤ j := hj.1
    have h2 : j < hi := by omega
    simp [h1, h2]
  · rw [show hi - lo = 0 from by omega]
    simp only [List.range'_zero, List.countP_nil, List.countP_eq_zero]
    intro j _
    simp
    omega

/-- Counting a range chunk by chunk is counting its positions one by one. -/
theorem count_eq (p : Plane) (first stop : Nat) :
    p.count first stop = (List.range' first (stop - first)).countP p.get := by
  unfold count
  by_cases hlt : first < stop
  · unfold chunkMasks
    rw [if_pos hlt]
    dsimp only
    generalize hn : (stop - 1) / chunkBits + 1 - first / chunkBits = n
    -- the chunks up to some point cover the range up to the end of the last of them
    have key : ∀ k, (((List.range' (first / chunkBits) k).map fun chunk =>
        (chunk, bitMask (max first (chunk * chunkBits) % chunkBits)
          (min stop ((chunk + 1) * chunkBits) - max first (chunk * chunkBits)))).map
        fun x => popCount (p.chunk x.1 &&& x.2)).foldr (· + ·) 0
        = (List.range' first (min stop ((first / chunkBits + k) * chunkBits) - first)).countP
            p.get := by
      intro k
      induction k with
      | zero =>
        rw [show min stop ((first / chunkBits + 0) * chunkBits) - first = 0 from by
          simp only [chunkBits]; omega]
        rfl
      | succ k ih =>
        rw [List.range'_concat, List.map_append, List.map_append, List.foldr_append]
        simp only [List.map_cons, List.map_nil, List.foldr_cons, List.foldr_nil, Nat.one_mul,
          Nat.add_zero]
        have hpull : ∀ (l : List Nat) (x : Nat), l.foldr (· + ·) x = l.foldr (· + ·) 0 + x := by
          intro l x
          induction l with
          | nil => simp
          | cons y l ihl => simp only [List.foldr_cons]; rw [ihl]; omega
        rw [hpull, ih]
        generalize hc : first / chunkBits + k = c
        have hle : first / chunkBits ≤ c := by omega
        rw [countP_chunk p (Nat.le_max_right ..) (Nat.min_le_right ..)
          (fun i hi => bitSet_chunkMask hle hi)]
        rw [show first / chunkBits + (k + 1) = c + 1 from by omega]
        by_cases hover : c * chunkBits ≤ stop
        · have hmid : max first (c * chunkBits) = first + (min stop (c * chunkBits) - first) := by
            simp only [chunkBits] at hover hc ⊢
            omega
          rw [hmid, ← List.countP_append]
          congr 1
          rw [List.range'_append_1]
          congr 1
          simp only [chunkBits] at hover hc ⊢
          omega
        · rw [show min stop ((c + 1) * chunkBits) - max first (c * chunkBits) = 0 from by
            simp only [chunkBits] at hover ⊢; omega]
          rw [show min stop ((c + 1) * chunkBits) = min stop (c * chunkBits) from by
            simp only [chunkBits] at hover ⊢; omega]
          simp
    refine (key n).trans ?_
    congr 2
    simp only [chunkBits] at hn ⊢
    omega
  · unfold chunkMasks
    rw [if_neg hlt, show stop - first = 0 from by omega]
    rfl

/-! ### Searching -/

/-- A position of a chunk, seen from an earlier one. -/
theorem bitSet_shiftRight_chunk (p : Plane) {bit j : Nat} (hle : bit ≤ j)
    (hlt : j < (bit / chunkBits + 1) * chunkBits) :
    bitSet (p.chunk (bit / chunkBits) >>> (bit % chunkBits).toUInt64) (j - bit) = p.get j := by
  rw [bitSet_shiftRight _ (Nat.mod_lt _ (by decide))]
  unfold get
  simp only [chunkBits] at hlt ⊢
  rw [show j / 64 = bit / 64 from by omega, show j % 64 = bit % 64 + (j - bit) from by omega]

/-- The lowest bit from a position on in its chunk is the next one of the plane. -/
theorem get_of_lowestBit?_eq_some {p : Plane} {bit i : Nat}
    (hi : lowestBit? (p.chunk (bit / chunkBits) >>> (bit % chunkBits).toUInt64) = some i) :
    p.get (bit + i) = true ∧ ∀ j, bit ≤ j → j < bit + i → p.get j = false := by
  rw [lowestBit?_eq, List.find?_range_eq_some] at hi
  obtain ⟨hset, hmem, hmin⟩ := hi
  have hlt : bit % chunkBits + i < chunkBits := by
    by_contra hge
    rw [bitSet_shiftRight _ (Nat.mod_lt _ (by decide)), bitSet_of_le _ (Nat.le_of_not_lt hge)] at hset
    cases hset
  have hin : bit + i < (bit / chunkBits + 1) * chunkBits := by
    simp only [chunkBits] at hlt ⊢
    omega
  refine ⟨?_, fun j h1 h2 => ?_⟩
  · rw [← bitSet_shiftRight_chunk p (Nat.le_add_right bit i) hin, Nat.add_sub_cancel_left]
    exact hset
  · rw [← bitSet_shiftRight_chunk p h1 (h2.trans hin)]
    simpa using hmin (j - bit) (by omega)

/-- Where there is none, no bit of the rest of the chunk is set. -/
theorem get_of_lowestBit?_eq_none {p : Plane} {bit : Nat}
    (hnone : lowestBit? (p.chunk (bit / chunkBits) >>> (bit % chunkBits).toUInt64) = none) {j : Nat}
    (h1 : bit ≤ j) (h2 : j < (bit / chunkBits + 1) * chunkBits) : p.get j = false := by
  rw [lowestBit?_eq, List.find?_eq_none] at hnone
  rw [← bitSet_shiftRight_chunk p h1 h2]
  simpa using hnone (j - bit) (by
    rw [List.mem_range]
    simp only [chunkBits] at h2 ⊢
    omega)

/-- The least position of a range, as a search over its positions. -/
theorem next_eq (p : Plane) (bit stop : Nat) :
    p.next bit stop = (List.range' bit (stop - bit)).find? p.get := by
  fun_induction next p bit stop with
  | case1 bit inside i hi fits =>
    obtain ⟨hset, hmin⟩ := get_of_lowestBit?_eq_some hi
    symm
    rw [List.find?_range'_eq_some]
    refine ⟨hset, List.mem_range'_1.2 (by omega), fun j h1 h2 => ?_⟩
    rw [hmin j h1 h2, Bool.not_false]
  | case2 bit inside i hi fits =>
    obtain ⟨-, hmin⟩ := get_of_lowestBit?_eq_some hi
    symm
    rw [List.find?_eq_none]
    intro j hj
    rw [List.mem_range'_1] at hj
    rw [hmin j hj.1 (by omega)]
    decide
  | case3 bit inside hnone ih =>
    rw [ih]
    have hge : bit ≤ (bit / chunkBits + 1) * chunkBits := by
      simp only [chunkBits]
      omega
    -- nothing is set up to the next chunk, where the search goes on
    have hempty : ∀ n, bit + n ≤ (bit / chunkBits + 1) * chunkBits →
        (List.range' bit n).find? p.get = none := by
      intro n hn
      rw [List.find?_eq_none]
      intro j hj
      rw [List.mem_range'_1] at hj
      rw [get_of_lowestBit?_eq_none hnone hj.1 (by omega)]
      decide
    by_cases hle : (bit / chunkBits + 1) * chunkBits ≤ stop
    · rw [range'_split hge hle, List.find?_append, hempty _ (by omega), Option.none_or]
    · rw [show stop - (bit / chunkBits + 1) * chunkBits = 0 from by omega, hempty _ (by omega)]
      rfl
  | case4 bit h =>
    rw [show stop - bit = 0 from by omega]
    rfl

theorem next_eq_some_iff (p : Plane) {bit stop found : Nat} :
    p.next bit stop = some found ↔
      p.get found = true ∧ (bit ≤ found ∧ found < stop) ∧
        ∀ j, bit ≤ j → j < found → p.get j = false := by
  rw [next_eq, List.find?_range'_eq_some]
  simp only [List.mem_range'_1, Bool.not_eq_true']
  constructor
  · rintro ⟨h1, h2, h3⟩
    exact ⟨h1, ⟨h2.1, by omega⟩, h3⟩
  · rintro ⟨h1, h2, h3⟩
    exact ⟨h1, ⟨h2.1, by omega⟩, h3⟩

theorem next_eq_none_iff (p : Plane) {bit stop : Nat} :
    p.next bit stop = none ↔ ∀ j, bit ≤ j → j < stop → p.get j = false := by
  rw [next_eq, List.find?_eq_none]
  simp only [List.mem_range'_1, Bool.not_eq_true]
  constructor
  · intro h j h1 h2
    exact h j ⟨h1, by omega⟩
  · intro h j hj
    exact h j hj.1 (by omega)

/-- The positions of a range, filtered. -/
theorem bitsFrom_eq (p : Plane) (bit stop : Nat) :
    p.bitsFrom bit stop = (List.range' bit (stop - bit)).filter p.get := by
  fun_induction bitsFrom p bit stop with
  | case1 bit i found ih =>
    rw [ih]
    obtain ⟨hset, ⟨h1, h2⟩, hmin⟩ := (next_eq_some_iff p).1 found
    have hsplit : List.range' bit (stop - bit)
        = List.range' bit (i - bit) ++ i :: List.range' (i + 1) (stop - (i + 1)) := by
      rw [← List.range'_succ, show stop - (i + 1) + 1 = stop - i from by omega]
      exact range'_split h1 (by omega)
    -- the search passes clear positions only
    have hfront : (List.range' bit (i - bit)).filter p.get = [] := by
      rw [List.filter_eq_nil_iff]
      intro j hj
      simp only [List.mem_range'_1] at hj
      rw [hmin j hj.1 (by omega)]
      simp
    rw [hsplit, List.filter_append, hfront, List.nil_append, List.filter_cons_of_pos hset]
  | case2 bit found =>
    symm
    rw [List.filter_eq_nil_iff]
    intro j hj
    simp only [List.mem_range'_1] at hj
    rw [(next_eq_none_iff p).1 found j hj.1 (by omega)]
    simp

/-- As many positions are counted as are listed. -/
theorem length_bitsFrom (p : Plane) (bit stop : Nat) :
    (p.bitsFrom bit stop).length = p.count bit stop := by
  rw [bitsFrom_eq, count_eq, List.countP_eq_length_filter]

theorem mem_bitsFrom (p : Plane) (bit stop i : Nat) :
    i ∈ p.bitsFrom bit stop ↔ (bit ≤ i ∧ i < stop) ∧ p.get i = true := by
  rw [bitsFrom_eq, List.mem_filter, List.mem_range'_1]
  constructor
  · rintro ⟨h1, h2⟩
    exact ⟨⟨h1.1, by omega⟩, h2⟩
  · rintro ⟨h1, h2⟩
    exact ⟨⟨h1.1, by omega⟩, h2⟩

end Plane

end MarkCompact
