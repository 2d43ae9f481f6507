/-
MarkCompact/Proofs/WordSets.lean

The bitmap in chunks, against two sets of words.

The words of the covered range are numbered from its base on.  Kept word by word, a bitmap would be
two sets of such numbers, the words at which live objects begin and the words that live objects
have (`WordSets`).  A plane in chunks holds such a set as far as the range goes
(`Plane.Holds`), each change of a plane is one of the set, and each question about a range is one
about the part of the set that lies in the range.  What the last chunk holds past the range does
not show.

Main result: `Bitmap.answers_applyAll` (after any changes all answers are those of the sets).
-/
import Mathlib.Data.Finset.Sort
import Mathlib.Order.Interval.Finset.Nat
import MarkCompact.Proofs.Bitmaps

namespace MarkCompact

/-! ### Sets of words -/

/-- The numbers of the words at which live objects begin, and of all their words. -/
structure WordSets where
  starts : Finset Nat
  live : Finset Nat
  deriving DecidableEq

namespace WordSets

/-- Nothing is live. -/
def empty : WordSets := ⟨∅, ∅⟩

/-- Marks an object of so many words, unless one begins there already. -/
def mark (s : WordSets) (word words : Nat) : Bool × WordSets :=
  if word ∈ s.starts then (false, s)
  else (true, ⟨insert word s.starts, s.live ∪ Finset.Ico word (word + words)⟩)

/-- Unmarks the words of a range. -/
def clearRange (s : WordSets) (first stop : Nat) : WordSets :=
  ⟨s.starts \ Finset.Ico first stop, s.live \ Finset.Ico first stop⟩

end WordSets

/-! ### Planes -/

namespace Plane

/-- Among the first `n` bits of the plane those of the set are set. -/
structure Holds (p : Plane) (n : Nat) (s : Finset Nat) : Prop where
  size : n ≤ p.size * chunkBits
  get : ∀ i < n, (p.get i = true ↔ i ∈ s)

variable {p : Plane} {n : Nat} {s : Finset Nat}

theorem holds_blank {chunks : Nat} (h : n ≤ chunks * chunkBits) : (blank chunks).Holds n ∅ :=
  ⟨by rwa [size_blank], fun i _ => by simp⟩

namespace Holds

theorem setRange (h : p.Holds n s) (first stop : Nat) :
    (p.setRange first stop).Holds n (s ∪ Finset.Ico first stop) := by
  refine ⟨by rw [size_setRange]; exact h.size, fun i hi => ?_⟩
  rw [get_setRange p i (Nat.lt_of_lt_of_le hi h.size), Bool.or_eq_true, h.get i hi, Finset.mem_union,
    Finset.mem_Ico, Bool.and_eq_true, decide_eq_true_eq, decide_eq_true_eq]

theorem clearRange (h : p.Holds n s) (first stop : Nat) :
    (p.clearRange first stop).Holds n (s \ Finset.Ico first stop) := by
  refine ⟨by rw [size_clearRange]; exact h.size, fun i hi => ?_⟩
  rw [get_clearRange p i (Nat.lt_of_lt_of_le hi h.size), Bool.and_eq_true, h.get i hi,
    Finset.mem_sdiff, Finset.mem_Ico, Bool.not_eq_true', ← Bool.not_eq_true, Bool.and_eq_true,
    decide_eq_true_eq, decide_eq_true_eq]

/-- The bits of a range are listed as the part of the set that lies in the range, sorted. -/
theorem bitsFrom_eq_sort (h : p.Holds n s) {first stop : Nat} (hstop : stop ≤ n) :
    p.bitsFrom first stop = (s ∩ Finset.Ico first stop).sort := by
  have hasc := pairwise_bitsFrom p first stop
  have hset : (p.bitsFrom first stop).toFinset = s ∩ Finset.Ico first stop := by
    ext i
    rw [List.mem_toFinset, mem_bitsFrom, Finset.mem_inter, Finset.mem_Ico, and_comm]
    exact and_congr_left fun hi => h.get i (by omega)
  rw [← hset]
  exact ((List.toFinset_sort _ (hasc.imp fun hlt => hlt.ne)).2 (hasc.imp fun hlt => hlt.le)).symm

/-- As many bits are counted as the set has members in the range. -/
theorem count_eq_card (h : p.Holds n s) {first stop : Nat} (hstop : stop ≤ n) :
    p.count first stop = (s ∩ Finset.Ico first stop).card := by
  rw [← length_bitsFrom, h.bitsFrom_eq_sort hstop, Finset.length_sort]

/-- The search ends at the least member in the range, or at the end of the range. -/
theorem isLeast_next (h : p.Holds n s) {first stop : Nat} (hstop : stop ≤ n) :
    IsLeast (insert stop {i | i ∈ s ∧ first ≤ i ∧ i < stop}) ((p.next first stop).getD stop) := by
  cases hnext : p.next first stop with
  | some found =>
    obtain ⟨hset, ⟨h1, h2⟩, hfirst⟩ := (next_eq_some_iff p).1 hnext
    refine ⟨.inr ⟨(h.get found (by omega)).1 hset, h1, h2⟩, ?_⟩
    rintro i (rfl | ⟨hi, h3, h4⟩)
    · exact h2.le
    · by_contra hlt
      have hnot := hfirst i h3 (Nat.not_le.1 hlt)
      rw [(h.get i (by omega)).2 hi] at hnot
      cases hnot
  | none =>
    have hnone := (next_eq_none_iff p).1 hnext
    refine ⟨.inl rfl, ?_⟩
    rintro i (rfl | ⟨hi, h3, h4⟩)
    · exact le_refl _
    · have hnot := hnone i h3 h4
      rw [(h.get i (by omega)).2 hi] at hnot
      cases hnot

end Holds

end Plane

/-! ### Bitmaps -/

namespace Bitmap

/-- The bitmap over `covered` words from `base` on holds the sets. -/
structure Represents (base : Address) (covered : Nat) (b : Bitmap) (s : WordSets) : Prop where
  fits : base.toNat + 8 * covered < 2 ^ 64
  base : b.base = base
  starts : b.starts.Holds covered s.starts
  live : b.live.Holds covered s.live

variable {base : Address} {covered i j : Nat} {b : Bitmap} {s : WordSets}

theorem represents_new {covered : WordCount} (hfits : base.toNat + 8 * covered.toNat < 2 ^ 64) :
    Represents base covered.toNat (new base covered) .empty := by
  have hchunks : covered.toNat ≤ (covered.toNat + (chunkBits - 1)) / chunkBits * chunkBits := by
    simp only [chunkBits]
    omega
  exact ⟨hfits, rfl, Plane.holds_blank hchunks, Plane.holds_blank hchunks⟩

namespace Represents

/-- The number of a word is the position of its bit. -/
theorem bitOf_nth (h : Represents base covered b s) (hi : i ≤ covered) :
    b.bitOf (base.nth i) = i := by
  have hfits := h.fits
  rw [← h.base] at hfits ⊢
  exact Bitmap.bitOf_nth (by omega)

theorem toNat_nth_le (h : Represents base covered b s) (hi : i ≤ covered) (hj : j ≤ covered) :
    (base.nth i).toNat ≤ (base.nth j).toNat ↔ i ≤ j := by
  have hfits := h.fits
  rw [Address.toNat_nth (by omega), Address.toNat_nth (by omega)]
  omega

/-! Changes -/

theorem mark_of_mem (h : Represents base covered b s) (hi : i < covered) (hmem : i ∈ s.starts)
    (words : WordCount) : b.mark (base.nth i) words = (false, b) := by
  unfold Bitmap.mark
  dsimp only
  rw [h.bitOf_nth hi.le, if_pos ((h.starts.get i hi).2 hmem)]

theorem mark (h : Represents base covered b s) (hi : i < covered) (words : WordCount) :
    (b.mark (base.nth i) words).1 = (s.mark i words.toNat).1 ∧
      Represents base covered (b.mark (base.nth i) words).2 (s.mark i words.toNat).2 := by
  by_cases hmem : i ∈ s.starts
  · rw [h.mark_of_mem hi hmem, WordSets.mark, if_pos hmem]
    exact ⟨rfl, h⟩
  · have hnew : ¬ b.starts.get i = true := fun hget => hmem ((h.starts.get i hi).1 hget)
    unfold Bitmap.mark WordSets.mark
    dsimp only
    rw [h.bitOf_nth hi.le, if_neg hnew, if_neg hmem]
    refine ⟨rfl, h.fits, h.base, ?_, h.live.setRange i (i + words.toNat)⟩
    have hstart := h.starts.setRange i (i + 1)
    rwa [Nat.Ico_succ_singleton, Finset.union_comm, ← Finset.insert_eq] at hstart

theorem clearRange (h : Represents base covered b s) (hi : i ≤ covered) (hj : j ≤ covered) :
    Represents base covered (b.clearRange (base.nth i) (base.nth j)) (s.clearRange i j) := by
  unfold Bitmap.clearRange WordSets.clearRange
  by_cases hle : j ≤ i
  · rw [if_pos (UInt64.le_iff_toNat_le.2 ((h.toNat_nth_le hj hi).2 hle)), Finset.Ico_eq_empty_of_le hle,
      Finset.sdiff_empty, Finset.sdiff_empty]
    exact h
  · rw [if_neg fun hle' => hle ((h.toNat_nth_le hj hi).1 (UInt64.le_iff_toNat_le.1 hle')),
      h.bitOf_nth hi, h.bitOf_nth hj]
    exact ⟨h.fits, h.base, h.starts.clearRange i j, h.live.clearRange i j⟩

theorem clear (h : Represents base covered b s) : Represents base covered b.clear .empty :=
  ⟨h.fits, h.base, Plane.holds_blank h.starts.size, Plane.holds_blank h.live.size⟩

/-! Questions about ranges -/

/-- Between two places that are not in order nothing is counted. -/
theorem count_nth (h : Represents base covered b s) (hi : i ≤ covered) (hj : j ≤ covered)
    (p : Plane) :
    (if base.nth j ≤ base.nth i then 0
      else p.count (b.bitOf (base.nth i)) (b.bitOf (base.nth j))) = p.count i j := by
  rw [h.bitOf_nth hi, h.bitOf_nth hj]
  split
  · rename_i hle
    have hle' := (h.toNat_nth_le hj hi).1 (UInt64.le_iff_toNat_le.1 hle)
    rw [Plane.count_eq, Nat.sub_eq_zero_of_le hle']
    rfl
  · rfl

theorem countWords (h : Represents base covered b s) (hi : i ≤ covered) (hj : j ≤ covered) :
    b.countWords (base.nth i) (base.nth j) = (s.live ∩ Finset.Ico i j).card :=
  (h.count_nth hi hj b.live).trans (h.live.count_eq_card hj)

theorem countObjects (h : Represents base covered b s) (hi : i ≤ covered) (hj : j ≤ covered) :
    b.countObjects (base.nth i) (base.nth j) = (s.starts ∩ Finset.Ico i j).card :=
  (h.count_nth hi hj b.starts).trans (h.starts.count_eq_card hj)

theorem nextMarked (h : Represents base covered b s) (hi : i ≤ covered) (hj : j ≤ covered) :
    ∃ k, b.nextMarked (base.nth i) (base.nth j) = base.nth k ∧
      IsLeast (insert j {n | n ∈ s.starts ∧ i ≤ n ∧ n < j}) k := by
  refine ⟨_, ?_, h.starts.isLeast_next hj⟩
  unfold Bitmap.nextMarked addressOf
  rw [h.bitOf_nth hi, h.bitOf_nth hj, h.base]
  cases b.starts.next i j <;> rfl

theorem markedIn (h : Represents base covered b s) (hi : i ≤ covered) (hj : j ≤ covered) :
    b.markedIn (base.nth i) (base.nth j) = (s.starts ∩ Finset.Ico i j).sort.map base.nth := by
  rcases Nat.lt_or_ge i j with hlt | hle
  · rw [markedIn_eq b ((h.toNat_nth_le hi hj).2 hlt.le), h.bitOf_nth hi, h.bitOf_nth hj,
      h.starts.bitsFrom_eq_sort hj]
    unfold addressOf
    rw [h.base]
    rfl
  · unfold Bitmap.markedIn
    rw [if_neg fun hlt => ?_, Finset.Ico_eq_empty_of_le hle, Finset.inter_empty, Finset.sort_empty]
    · rfl
    · exact absurd ((h.toNat_nth_le hj hi).2 hle) (Nat.not_le.2 (UInt64.lt_iff_toNat_lt.1 hlt))

end Represents

/-! ### Runs -/

/-- A change of a bitmap.  Words are given by their numbers. -/
inductive Change where
  | mark (word : Nat) (words : WordCount)
  | clearRange (first stop : Nat)
  | clear

namespace Change

/-- Whether a change keeps to the first `covered` words.  A range may end where they end. -/
def Inside (covered : Nat) : Change → Prop
  | mark word words => word < covered ∧ word + words.toNat ≤ covered
  | clearRange first stop => first ≤ covered ∧ stop ≤ covered
  | clear => True

/-- The bitmap after a change. -/
def apply (b : Bitmap) : Change → Bitmap
  | mark word words => (b.mark (b.base.nth word) words).2
  | clearRange first stop => b.clearRange (b.base.nth first) (b.base.nth stop)
  | clear => b.clear

/-- The sets after a change. -/
def applyToSets (s : WordSets) : Change → WordSets
  | mark word words => (s.mark word words.toNat).2
  | clearRange first stop => s.clearRange first stop
  | clear => .empty

end Change

/-- Each change of the bitmap is one of the sets. -/
theorem Represents.apply (h : Represents base covered b s) {c : Change} (hc : c.Inside covered) :
    Represents base covered (c.apply b) (c.applyToSets s) := by
  cases c with
  | mark word words =>
    unfold Change.apply
    rw [h.base]
    exact (h.mark hc.1 words).2
  | clearRange first stop =>
    unfold Change.apply
    rw [h.base]
    exact h.clearRange hc.1 hc.2
  | clear => exact h.clear

theorem Represents.applyAll (h : Represents base covered b s) {cs : List Change}
    (hcs : ∀ c ∈ cs, c.Inside covered) :
    Represents base covered (cs.foldl Change.apply b) (cs.foldl Change.applyToSets s) := by
  induction cs generalizing b s with
  | nil => exact h
  | cons c cs ih =>
    exact ih (h.apply (hcs c List.mem_cons_self)) fun c' hc' => hcs c' (List.mem_cons_of_mem _ hc')

/-- What the bitmap answers is what the sets say, wherever ranges begin and end. -/
structure Answers (base : Address) (covered : Nat) (b : Bitmap) (s : WordSets) : Prop where
  isMarked : ∀ i < covered, (b.isMarked (base.nth i) = true ↔ i ∈ s.starts)
  isLive : ∀ i < covered, (b.isLive (base.nth i) = true ↔ i ∈ s.live)
  mark : ∀ i < covered, ∀ words : WordCount,
    (b.mark (base.nth i) words).1 = (s.mark i words.toNat).1
  /-- An object is marked once. -/
  marked : ∀ i < covered, i ∈ s.starts → ∀ words, b.mark (base.nth i) words = (false, b)
  countWords : ∀ i ≤ covered, ∀ j ≤ covered,
    b.countWords (base.nth i) (base.nth j) = (s.live ∩ Finset.Ico i j).card
  countObjects : ∀ i ≤ covered, ∀ j ≤ covered,
    b.countObjects (base.nth i) (base.nth j) = (s.starts ∩ Finset.Ico i j).card
  /-- The end of the range stands for no object. -/
  nextMarked : ∀ i ≤ covered, ∀ j ≤ covered, ∃ k,
    b.nextMarked (base.nth i) (base.nth j) = base.nth k ∧
      IsLeast (insert j {n | n ∈ s.starts ∧ i ≤ n ∧ n < j}) k
  /-- The list ends, and has each start once, in ascending order. -/
  markedIn : ∀ i ≤ covered, ∀ j ≤ covered,
    b.markedIn (base.nth i) (base.nth j) = (s.starts ∩ Finset.Ico i j).sort.map base.nth

theorem Represents.answers (h : Represents base covered b s) : Answers base covered b s where
  isMarked i hi := by
    unfold Bitmap.isMarked
    rw [h.bitOf_nth hi.le, h.starts.get i hi]
  isLive i hi := by
    unfold Bitmap.isLive
    rw [h.bitOf_nth hi.le, h.live.get i hi]
  mark _ hi words := (h.mark hi words).1
  marked _ hi hmem := h.mark_of_mem hi hmem
  countWords _ hi _ hj := h.countWords hi hj
  countObjects _ hi _ hj := h.countObjects hi hj
  nextMarked _ hi _ hj := h.nextMarked hi hj
  markedIn _ hi _ hj := h.markedIn hi hj

/-- A new bitmap that has been changed in any way answers as two sets of words do that have been
changed in the same way.  Words are counted from the base, which need not be aligned itself; all of
them must have addresses, and so must the end of the range. -/
theorem answers_applyAll {base : Address} {covered : WordCount}
    (hfits : base.toNat + 8 * covered.toNat < 2 ^ 64) {cs : List Change}
    (hcs : ∀ c ∈ cs, c.Inside covered.toNat) :
    Answers base covered.toNat (cs.foldl Change.apply (new base covered))
      (cs.foldl Change.applyToSets .empty) :=
  ((represents_new hfits).applyAll hcs).answers

/-- Objects that overlap, one of them over three chunks, a second mark at a start, and a cleared
range that takes a part of an object with it. -/
theorem answers_applyAll_overlapping :
    let b := [Change.mark 60 70, .mark 62 4, .mark 60 1, .clearRange 61 64].foldl Change.apply
      (new 0x40000000 200)
    b.isMarked 0x400001e0 = true ∧ b.mark 0x400001e0 9 = (false, b) ∧
      b.countWords 0x40000000 0x40000640 = 67 ∧ b.countObjects 0x40000000 0x40000640 = 1 ∧
      b.markedIn 0x40000008 0x40000640 = [0x400001e0] := by
  intro b
  have h := @answers_applyAll 0x40000000 200 (by decide)
    [.mark 60 70, .mark 62 4, .mark 60 1, .clearRange 61 64] (by simp [Change.Inside])
  have hstart : 60 ∈ ([Change.mark 60 70, .mark 62 4, .mark 60 1, .clearRange 61 64].foldl
      Change.applyToSets .empty).starts := by decide +kernel
  refine ⟨(h.isMarked 60 (by decide)).2 hstart, h.marked 60 (by decide) hstart 9,
    (h.countWords 0 (by decide) 200 (by decide)).trans (by decide +kernel),
    (h.countObjects 0 (by decide) 200 (by decide)).trans (by decide +kernel),
    (h.markedIn 1 (by decide) 200 (by decide)).trans ?_⟩
  have hone : ([Change.mark 60 70, .mark 62 4, .mark 60 1, .clearRange 61 64].foldl
      Change.applyToSets .empty).starts ∩ Finset.Ico 1 200 = {60} := by decide +kernel
  refine (congrArg (fun s : Finset Nat => s.sort.map _) hone).trans ?_
  rw [Finset.sort_singleton]
  rfl

end Bitmap

end MarkCompact
