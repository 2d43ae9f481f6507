/-
MarkCompact/Proofs/Transfers.lean

Moving many objects, one after the other, in the memory that still holds them.

A move writes one run of words (`Memory.Written`).  A sequence of moves is
described by what each of them is to leave (`Transfer`): the run and its words,
as they are read in the memory before the first move.  `Memory.Transferred` says
that a memory is the result.  Two facts carry every sequence of moves:

* runs that are apart do not disturb each other (`Transferred.snoc`);
* an object that is apart from all runs written so far is still what it was
  (`Transferred.load_nth`), and so the next move reads the right words.

Main results: `MoveRecord.copy_spec` (one move of an object) and
`MoveRecord.copyAll_transferred` (several).
-/
import MarkCompact.Proofs.Cells
import MarkCompact.Move.Copy

namespace MarkCompact

/-- Two runs of words without a word in common. -/
def Address.Apart (a : Address) (n : Nat) (b : Address) (k : Nat) : Prop :=
  a.toNat + 8 * n ≤ b.toNat ∨ b.toNat + 8 * k ≤ a.toNat

theorem Address.Apart.symm {a b : Address} {n k : Nat} (h : a.Apart n b k) : b.Apart k a n :=
  Or.symm h

namespace Memory

/-- What writing `n` words from `b` on leaves; `image` says which words. -/
structure Written (m m' : Memory) (b : Address) (n : Nat) (image : Nat → Word) : Prop where
  span : SameSpan m m'
  inside : ∀ i < n, m'.load (b.nth i) = image i
  outside : ∀ c : Address, c.toNat < b.toNat ∨ b.toNat + 8 * n ≤ c.toNat → m'.load c = m.load c

theorem Copied.written {m m' : Memory} {a b : Address} {n : Nat} (h : Copied m m' a b n) :
    Written m m' b n fun i => m.load (a.nth i) :=
  ⟨h.span, h.inside, h.outside⟩

/-- One word less and one word more. -/
theorem Written.store {m m' : Memory} {b : Address} {n : Nat} {image : Nat → Word}
    (h : Written m m' b n image) {i : Nat} (hi : i ≤ n) (fits : b.toNat + 8 * max n (i + 1) < 2 ^ 64)
    (w : Word) :
    Written m (m'.store (b.nth i) w) b (max n (i + 1)) fun j => if j = i then w else image j := by
  have hat : (b.nth i).toNat = b.toNat + 8 * i := Address.toNat_nth (by omega)
  refine ⟨h.span.trans (sameSpan_store ..), ?_, ?_⟩
  · intro j hj
    by_cases hji : j = i
    · subst hji
      simp
    · have hne : b.nth i ≠ b.nth j := by
        intro heq
        exact hji (Address.nth_injective (by omega) (by omega) heq).symm
      rw [load_store_of_ne _ hne, if_neg hji]
      exact h.inside j (by omega)
  · intro c hc
    have hne : b.nth i ≠ c := by
      intro heq
      rw [← heq, hat] at hc
      omega
    rw [load_store_of_ne _ hne]
    exact h.outside c (by omega)

/-! ### Sequences of moves -/

/-- What one move is to leave: a run and its words. -/
structure Transfer where
  target : Address
  words : Nat
  image : Nat → Word

/-- The memory `m` is what the moves of `done` leave of `m₀`. -/
structure Transferred (m₀ m : Memory) (done : List Transfer) : Prop where
  span : SameSpan m₀ m
  there : ∀ r ∈ done, ∀ i < r.words, m.load (r.target.nth i) = r.image i
  elsewhere : ∀ c : Address,
    (∀ r ∈ done, c.toNat < r.target.toNat ∨ r.target.toNat + 8 * r.words ≤ c.toNat) →
    m.load c = m₀.load c

theorem transferred_nil (m : Memory) : Transferred m m [] :=
  ⟨SameSpan.refl m, by simp, fun _ _ => rfl⟩

/-- One more move, apart from the ones before it. -/
theorem Transferred.snoc {m₀ m m' : Memory} {done : List Transfer} {r : Transfer}
    (h : Transferred m₀ m done) (hw : Written m m' r.target r.words r.image)
    (hapart : ∀ q ∈ done, q.target.Apart q.words r.target r.words)
    (hfits : ∀ q ∈ done, q.target.toNat + 8 * q.words < 2 ^ 64) :
    Transferred m₀ m' (done ++ [r]) := by
  refine ⟨h.span.trans hw.span, ?_, ?_⟩
  · intro q hq i hi
    rcases List.mem_append.1 hq with hq | hq
    · have hfit := hfits q hq
      have hat : (q.target.nth i).toNat = q.target.toNat + 8 * i := Address.toNat_nth (by omega)
      have hout := hapart q hq
      unfold Address.Apart at hout
      rw [hw.outside _ (by omega)]
      exact h.there q hq i hi
    · obtain rfl := List.mem_singleton.1 hq
      exact hw.inside i hi
  · intro c hc
    rw [hw.outside c (hc r (by simp))]
    exact h.elsewhere c fun q hq => hc q (by simp [hq])

/-- What is apart from all moves is still there. -/
theorem Transferred.load_nth {m₀ m : Memory} {done : List Transfer} (h : Transferred m₀ m done)
    {a : Address} {n : Nat} (fits : a.toNat + 8 * n < 2 ^ 64)
    (hapart : ∀ r ∈ done, r.target.Apart r.words a n) {i : Nat} (hi : i < n) :
    m.load (a.nth i) = m₀.load (a.nth i) := by
  have hat : (a.nth i).toNat = a.toNat + 8 * i := Address.toNat_nth (by omega)
  apply h.elsewhere
  intro r hr
  have hout := hapart r hr
  unfold Address.Apart at hout
  omega

end Memory

/-! ### One move -/

namespace MoveRecord

/-- The word number `i` of the object after its move out of `m`. -/
def word (r : MoveRecord) (m : Memory) (i : Nat) : Word :=
  if i = 0 then r.mark.raw
  else if i < r.size.toNat then m.load (r.source.nth i)
  else r.source.identityHash.toUInt64

/-- What the move out of `m` is to leave. -/
def transfer (r : MoveRecord) (m : Memory) : Memory.Transfer :=
  ⟨r.target, r.copySize.toNat, r.word m⟩

/-- A move that stays inside the memory. -/
structure Sound (r : MoveRecord) (m : Memory) : Prop where
  source : m.Covers r.source r.size.toNat
  target : m.Covers r.target r.copySize.toNat
  nonempty : 0 < r.size.toNat
  /-- The object takes its hash along or it does not. -/
  grown : r.copySize.toNat = r.size.toNat ∨ r.copySize.toNat = r.size.toNat + 1

theorem Sound.span {r : MoveRecord} {m m' : Memory} (h : r.Sound m) (hspan : m.SameSpan m') :
    r.Sound m' :=
  ⟨hspan.covers h.source, hspan.covers h.target, h.nonempty, h.grown⟩

/-- Only the words of the object are read. -/
theorem word_congr {r : MoveRecord} {m m' : Memory}
    (h : ∀ i < r.size.toNat, m'.load (r.source.nth i) = m.load (r.source.nth i)) (i : Nat) :
    r.word m' i = r.word m i := by
  unfold word
  split
  · rfl
  · split
    · rename_i hi
      exact h i hi
    · rfl

/-- A move leaves the object at its target, with its new mark and with its hash if it has
grown. -/
theorem copy_spec {r : MoveRecord} {m : Memory} (h : r.Sound m) :
    ∃ m', r.copy m = .ok m' ∧ m.Written m' r.target r.copySize.toNat (r.word m) := by
  have htop := h.target.top
  have hfits := h.target.fits
  have hsmall : r.copySize.toNat ≥ r.size.toNat := by
    rcases h.grown with hg | hg <;> omega
  have hcov : m.Covers r.target r.size.toNat := ⟨h.target.bottom, by omega, hfits⟩
  obtain ⟨m1, hm1, hcopied⟩ := Memory.copyWords_spec h.source hcov
  unfold copy
  rw [hm1]
  by_cases hg : r.grown = true
  · have hlt : r.size.toNat < r.copySize.toNat := UInt64.lt_iff_toNat_lt.1 (by simpa [grown] using hg)
    have hsize : r.copySize.toNat = r.size.toNat + 1 := by rcases h.grown with hg | hg <;> omega
    have h1 := (hcopied.written.store (le_refl r.size.toNat) (by omega)
      r.source.identityHash.toUInt64).store (Nat.zero_le _) (by omega) r.mark.raw
    rw [← Address.offset_eq_nth, Address.nth_zero] at h1
    have hcount : max (max r.size.toNat (r.size.toNat + 1)) (0 + 1) = r.copySize.toNat := by omega
    rw [hcount] at h1
    refine ⟨_, ?_, h1.span, ?_, h1.outside⟩
    · show Except.ok _ = _
      rw [if_pos hg]
      rfl
    · intro i hi
      rw [h1.inside i hi]
      unfold word
      by_cases h0 : i = 0
      · rw [if_pos h0, if_pos h0]
      · rw [if_neg h0, if_neg h0]
        by_cases hi' : i < r.size.toNat
        · rw [if_pos hi', if_neg (by omega)]
        · rw [if_neg hi', if_pos (by omega)]
  · have hsize : r.copySize.toNat = r.size.toNat := by
      rcases h.grown with hg' | hg'
      · exact hg'
      · exact absurd (by simpa [grown] using UInt64.lt_iff_toNat_lt.2 (by omega)) hg
    have hpos := h.nonempty
    have h1 := hcopied.written.store (Nat.zero_le _) (by omega) r.mark.raw
    rw [Address.nth_zero] at h1
    have hcount : max r.size.toNat (0 + 1) = r.copySize.toNat := by omega
    rw [hcount] at h1
    refine ⟨_, ?_, h1.span, ?_, h1.outside⟩
    · show Except.ok _ = _
      rw [if_neg hg]
      rfl
    · intro i hi
      rw [h1.inside i hi]
      unfold word
      by_cases h0 : i = 0
      · rw [if_pos h0, if_pos h0]
      · rw [if_neg h0, if_neg h0, if_pos (by omega)]

/-! ### Several moves -/

/-- The move `q` writes neither what `r` reads nor what it writes. -/
structure Clear (q r : MoveRecord) : Prop where
  source : q.target.Apart q.copySize.toNat r.source r.size.toNat
  target : q.target.Apart q.copySize.toNat r.target r.copySize.toNat

theorem Sound.fits {r : MoveRecord} {m : Memory} (h : r.Sound m) :
    r.source.toNat + 8 * r.size.toNat < 2 ^ 64 ∧ r.target.toNat + 8 * r.copySize.toNat < 2 ^ 64 :=
  ⟨Nat.lt_of_le_of_lt h.source.top h.source.fits, Nat.lt_of_le_of_lt h.target.top h.target.fits⟩

/-- Moves that are clear of an object leave its words. -/
theorem load_source {m₀ m : Memory} {done : List MoveRecord} {r : MoveRecord}
    (h : m₀.Transferred m (done.map (·.transfer m₀))) (hr : r.Sound m₀)
    (hclear : ∀ q ∈ done, q.Clear r) {i : Nat} (hi : i < r.size.toNat) :
    m.load (r.source.nth i) = m₀.load (r.source.nth i) := by
  refine h.load_nth hr.fits.1 (fun x hx => ?_) hi
  obtain ⟨q, hq, rfl⟩ := List.mem_map.1 hx
  exact (hclear q hq).source

/-- What one more move writes out of the present memory, it writes as if it were the first one. -/
theorem transferred_snoc {m₀ m m' : Memory} {done : List MoveRecord} {r : MoveRecord}
    (h : m₀.Transferred m (done.map (·.transfer m₀))) (hr : r.Sound m₀)
    (hsound : ∀ q ∈ done, q.Sound m₀) (hclear : ∀ q ∈ done, q.Clear r)
    (hw : m.Written m' r.target r.copySize.toNat (r.word m)) :
    m₀.Transferred m' ((done ++ [r]).map (·.transfer m₀)) := by
  rw [List.map_append, List.map_singleton]
  refine h.snoc ⟨hw.span, fun i hi => ?_, hw.outside⟩ (fun x hx => ?_) fun x hx => ?_
  · exact (hw.inside i hi).trans (word_congr (fun j hj => load_source h hr hclear hj) i)
  · obtain ⟨q, hq, rfl⟩ := List.mem_map.1 hx
    exact (hclear q hq).target
  · obtain ⟨q, hq, rfl⟩ := List.mem_map.1 hx
    exact (hsound q hq).fits.2

/-- After moves that are clear of it an object is moved as if it were the first one. -/
theorem copy_transferred {m₀ m : Memory} {done : List MoveRecord} {r : MoveRecord}
    (h : m₀.Transferred m (done.map (·.transfer m₀))) (hr : r.Sound m₀)
    (hsound : ∀ q ∈ done, q.Sound m₀) (hclear : ∀ q ∈ done, q.Clear r) :
    ∃ m', r.copy m = .ok m' ∧ m₀.Transferred m' ((done ++ [r]).map (·.transfer m₀)) := by
  obtain ⟨m', hcopy, hwritten⟩ := copy_spec (hr.span h.span)
  exact ⟨m', hcopy, transferred_snoc h hr hsound hclear hwritten⟩

/-- Moves of which none disturbs a later one are all made. -/
theorem copyAll_transferred {m₀ m : Memory} {done rs : List MoveRecord}
    (h : m₀.Transferred m (done.map (·.transfer m₀))) (hsound : ∀ r ∈ done ++ rs, r.Sound m₀)
    (hclear : (done ++ rs).Pairwise Clear) :
    ∃ m', copyAll rs m = .ok m' ∧ m₀.Transferred m' ((done ++ rs).map (·.transfer m₀)) := by
  induction rs generalizing done m with
  | nil => exact ⟨m, rfl, by rw [List.append_nil]; exact h⟩
  | cons r rs ih =>
    obtain ⟨m₁, hcopy, h₁⟩ := copy_transferred h (hsound r (by simp))
      (fun q hq => hsound q (List.mem_append_left _ hq))
      fun q hq => (List.pairwise_append.1 hclear).2.2 q hq r List.mem_cons_self
    rw [List.append_cons] at hsound hclear
    obtain ⟨m', hrest, h'⟩ := ih h₁ hsound hclear
    refine ⟨m', ?_, by rw [List.append_cons]; exact h'⟩
    unfold copyAll
    rw [List.foldlM_cons, hcopy]
    exact hrest

end MoveRecord

end MarkCompact
