/-
MarkCompact/Proofs/LiveWords.lean

Counting live words.

A bitmap that shows objects which do not overlap counts, between two places that
cut through no object, the words of the objects in between
(`Shows.countWords_eq_sum`).  Searching it finds the next object
(`Shows.nextMarked_spec`).  That is all that new addresses computed from a bitmap
rest on.
-/
import MarkCompact.Proofs.LiveObjects

namespace MarkCompact

namespace Bitmap

variable {b : Bitmap} {l : Layout} {live : Address → Prop} {words : Address → Nat}

/-- Objects of the grid that do not overlap. -/
structure Spread (l : Layout) (live : Address → Prop) (words : Address → Nat) : Prop where
  isWord : ∀ a, live a → l.IsWord a
  nonempty : ∀ a, live a → 0 < words a
  stop : ∀ a, live a → a.toNat + 8 * words a ≤ l.stop.toNat
  disjoint : ∀ a c, live a → live c → a.toNat < c.toNat → a.toNat + 8 * words a ≤ c.toNat

/-! ### Counting -/

theorem countWords_eq (hl : l.Spans) (hb : b.Fits l) {first limit : Address} (hf : l.IsEdge first)
    (ht : l.IsEdge limit) :
    b.countWords first limit
      = (List.range' (b.bitOf first) (b.bitOf limit - b.bitOf first)).countP b.live.get := by
  unfold countWords
  by_cases hle : limit ≤ first
  · have h1 := (hb.bitOf_le_bitOf hl ht hf).2 (UInt64.le_iff_toNat_le.1 hle)
    rw [if_pos hle, show b.bitOf limit - b.bitOf first = 0 from by omega]
    rfl
  · rw [if_neg hle, Plane.count_eq]

theorem countWords_add (hl : l.Spans) (hb : b.Fits l) {first mid limit : Address}
    (hf : l.IsEdge first) (hm : l.IsEdge mid) (ht : l.IsEdge limit)
    (h1 : first.toNat ≤ mid.toNat) (h2 : mid.toNat ≤ limit.toNat) :
    b.countWords first limit = b.countWords first mid + b.countWords mid limit := by
  rw [countWords_eq hl hb hf ht, countWords_eq hl hb hf hm, countWords_eq hl hb hm ht,
    range'_split ((hb.bitOf_le_bitOf hl hf hm).2 h1) ((hb.bitOf_le_bitOf hl hm ht).2 h2),
    List.countP_append]

/-- The word of a position in a range. -/
theorem Fits.isWord_addressOf (hl : l.Spans) (hb : b.Fits l) {first limit : Address}
    (hf : l.IsEdge first) (ht : l.IsEdge limit) {i : Nat}
    (hi : i ∈ List.range' (b.bitOf first) (b.bitOf limit - b.bitOf first)) :
    l.IsWord (b.addressOf i) ∧ first.toNat ≤ (b.addressOf i).toNat ∧
      (b.addressOf i).toNat < limit.toNat ∧ b.bitOf (b.addressOf i) = i := by
  rw [List.mem_range'_1, hb.bitOf_eq hf.bottom, hb.bitOf_eq ht.bottom] at hi
  have hfits := hl.fits
  have hstop := hl.toNat_stop
  have hbase := hl.aligned
  obtain ⟨f1, f2, f3⟩ := hf
  obtain ⟨t1, t2, t3⟩ := ht
  have hval : (b.addressOf i).toNat = l.base.toNat + 8 * i := by
    rw [hb.addressOf_eq, Address.toNat_nth (by omega)]
  exact ⟨⟨by omega, by omega, by omega⟩, by omega, by omega, hb.bitOf_addressOf (by omega)⟩

theorem countWords_of_none (hl : l.Spans) (hb : b.Fits l) {first limit : Address}
    (hf : l.IsEdge first) (ht : l.IsEdge limit)
    (hnone : ∀ a, l.IsWord a → first.toNat ≤ a.toNat → a.toNat < limit.toNat → b.isLive a = false) :
    b.countWords first limit = 0 := by
  rw [countWords_eq hl hb hf ht, List.countP_eq_zero]
  intro i hi
  obtain ⟨hw, h1, h2, hbit⟩ := hb.isWord_addressOf hl hf ht hi
  have hdead := hnone _ hw h1 h2
  unfold isLive at hdead
  rw [hbit] at hdead
  simp [hdead]

theorem countWords_of_all (hl : l.Spans) (hb : b.Fits l) {first limit : Address}
    (hf : l.IsEdge first) (ht : l.IsEdge limit)
    (hall : ∀ a, l.IsWord a → first.toNat ≤ a.toNat → a.toNat < limit.toNat → b.isLive a = true) :
    b.countWords first limit = (limit.toNat - first.toNat) / 8 := by
  have hfull : (List.range' (b.bitOf first) (b.bitOf limit - b.bitOf first)).countP b.live.get
      = (List.range' (b.bitOf first) (b.bitOf limit - b.bitOf first)).length := by
    rw [List.countP_eq_length]
    intro i hi
    obtain ⟨hw, h1, h2, hbit⟩ := hb.isWord_addressOf hl hf ht hi
    have hlive := hall _ hw h1 h2
    unfold isLive at hlive
    rwa [hbit] at hlive
  have hbase := hl.aligned
  obtain ⟨f1, f2, f3⟩ := hf
  obtain ⟨t1, t2, t3⟩ := ht
  rw [countWords_eq hl hb ⟨f1, f2, f3⟩ ⟨t1, t2, t3⟩, hfull, List.length_range', hb.bitOf_eq f1,
    hb.bitOf_eq t1]
  omega

/-- No range has more live words than words. -/
theorem countWords_le (hl : l.Spans) (hb : b.Fits l) {first limit : Address} (hf : l.IsEdge first)
    (ht : l.IsEdge limit) : b.countWords first limit ≤ (limit.toNat - first.toNat) / 8 := by
  have hle : (List.range' (b.bitOf first) (b.bitOf limit - b.bitOf first)).countP b.live.get
      ≤ (List.range' (b.bitOf first) (b.bitOf limit - b.bitOf first)).length :=
    List.countP_le_length
  have hbase := hl.aligned
  obtain ⟨f1, f2, f3⟩ := hf
  obtain ⟨t1, t2, t3⟩ := ht
  rw [countWords_eq hl hb ⟨f1, f2, f3⟩ ⟨t1, t2, t3⟩]
  rw [List.length_range', hb.bitOf_eq f1, hb.bitOf_eq t1] at hle
  rw [hb.bitOf_eq f1, hb.bitOf_eq t1]
  omega

/-- In a range with as many live words as words all words are live. -/
theorem isLive_of_countWords (hl : l.Spans) (hb : b.Fits l) {first limit : Address}
    (hf : l.IsEdge first) (ht : l.IsEdge limit)
    (hfull : (limit.toNat - first.toNat) / 8 ≤ b.countWords first limit) {a : Address}
    (ha : l.IsWord a) (h1 : first.toNat ≤ a.toNat) (h2 : a.toNat < limit.toNat) :
    b.isLive a = true := by
  have hbase := hl.aligned
  have hword := ha.aligned
  obtain ⟨f1, f2, f3⟩ := hf
  obtain ⟨t1, t2, t3⟩ := ht
  rw [countWords_eq hl hb ⟨f1, f2, f3⟩ ⟨t1, t2, t3⟩] at hfull
  have hall : (List.range' (b.bitOf first) (b.bitOf limit - b.bitOf first)).countP b.live.get
      = (List.range' (b.bitOf first) (b.bitOf limit - b.bitOf first)).length := by
    refine Nat.le_antisymm List.countP_le_length (Nat.le_trans ?_ hfull)
    rw [List.length_range', hb.bitOf_eq f1, hb.bitOf_eq t1]
    omega
  refine List.countP_eq_length.1 hall (b.bitOf a) (List.mem_range'_1.2 ?_)
  rw [hb.bitOf_eq f1, hb.bitOf_eq t1, hb.bitOf_eq ha.bottom]
  omega

/-- The end of an object is a place between two words. -/
theorem Spread.isEdge_end (hl : l.Spans) (hd : Spread l live words) {a : Address} (ha : live a) :
    l.IsEdge (a.nth (words a)) ∧ (a.nth (words a)).toNat = a.toNat + 8 * words a := by
  have h1 := hd.isWord a ha
  have h2 := hd.stop a ha
  have h3 := hl.toNat_stop
  have h4 := hl.fits
  have hval : (a.nth (words a)).toNat = a.toNat + 8 * words a := Address.toNat_nth (by omega)
  have h5 := h1.bottom
  have h6 := h1.aligned
  exact ⟨⟨by omega, by omega, by omega⟩, hval⟩

/-- Between two places that cut through no object, the words of the objects are counted. -/
theorem Shows.countWords_eq_sum (hl : l.Spans) (hs : b.Shows l live words)
    (hd : Spread l live words) (as : List Address) {first limit : Address} (hf : l.IsEdge first)
    (ht : l.IsEdge limit) (hle : first.toNat ≤ limit.toNat)
    (hasc : as.Pairwise fun a c => a.toNat < c.toNat)
    (hmem : ∀ a, a ∈ as ↔ live a ∧ first.toNat ≤ a.toNat ∧ a.toNat < limit.toNat)
    (hbefore : ∀ a, live a → a.toNat < first.toNat → a.toNat + 8 * words a ≤ first.toNat)
    (hwithin : ∀ a ∈ as, a.toNat + 8 * words a ≤ limit.toNat) :
    b.countWords first limit = (as.map words).sum := by
  -- no object reaches over the start of the range, so a live word is one of the listed objects
  induction as generalizing first with
  | nil =>
    rw [List.map_nil, List.sum_nil]
    refine countWords_of_none hl hs.fits hf ht fun a hw h1 h2 => ?_
    rw [← Bool.not_eq_true, hs.words a hw]
    rintro ⟨o, ho, h3, h4⟩
    by_cases hof : o.toNat < first.toNat
    · have := hbefore o ho hof
      omega
    · have := (hmem o).2 ⟨ho, by omega, by omega⟩
      simp at this
  | cons a as ih =>
    obtain ⟨ha, h1, h2⟩ := (hmem a).1 (by simp)
    have hw := hd.isWord a ha
    have hin := hwithin a (by simp)
    obtain ⟨hedge, hend⟩ := hd.isEdge_end hl ha
    obtain ⟨hlt, hasc'⟩ := List.pairwise_cons.1 hasc
    have hgap : b.countWords first a = 0 := by
      refine countWords_of_none hl hs.fits hf hw.isEdge fun w hw' h3 h4 => ?_
      rw [← Bool.not_eq_true, hs.words w hw']
      rintro ⟨o, ho, h5, h6⟩
      by_cases hof : o.toNat < first.toNat
      · have := hbefore o ho hof
        omega
      · rcases List.mem_cons.1 ((hmem o).2 ⟨ho, by omega, by omega⟩) with rfl | hmem'
        · omega
        · have := hlt o hmem'
          omega
    have hbody : b.countWords a (a.nth (words a)) = words a := by
      rw [countWords_of_all hl hs.fits hw.isEdge hedge, hend]
      · omega
      · intro w hw' h3 h4
        exact (hs.words w hw').2 ⟨a, ha, h3, by omega⟩
    rw [countWords_add hl hs.fits hf hw.isEdge ht h1 (by omega), hgap,
      countWords_add hl hs.fits hw.isEdge hedge ht (by omega) (by omega), hbody, List.map_cons,
      List.sum_cons, ih hedge (by omega) hasc' ?_ ?_ fun c hc => hwithin c (by simp [hc])]
    · omega
    · intro c
      constructor
      · intro hc
        obtain ⟨h3, h4, h5⟩ := (hmem c).1 (by simp [hc])
        have := hd.disjoint a c ha h3 (hlt c hc)
        exact ⟨h3, by omega, h5⟩
      · rintro ⟨h3, h4, h5⟩
        rcases List.mem_cons.1 ((hmem c).2 ⟨h3, by omega, h5⟩) with rfl | hc
        · have := hd.nonempty c ha
          omega
        · exact hc
    · intro c hc hlt'
      rw [hend] at hlt' ⊢
      by_cases hca : c.toNat < a.toNat
      · have := hd.disjoint c a hc ha hca
        omega
      · have hceq : c = a ∨ a.toNat < c.toNat := by
          rcases Nat.lt_or_ge a.toNat c.toNat with h | h
          · exact .inr h
          · exact .inl (UInt64.toNat_inj.1 (by omega))
        rcases hceq with rfl | h
        · exact le_refl _
        · have := hd.disjoint a c ha hc h
          omega

/-! ### Searching -/

/-- The search finds the next object, or answers with the end of the range. -/
theorem Shows.nextMarked_spec (hl : l.Spans) (hs : b.Shows l live words)
    (hd : Spread l live words) {first limit : Address} (hf : l.IsEdge first) (ht : l.IsEdge limit)
    (hle : first.toNat ≤ limit.toNat) :
    l.IsEdge (b.nextMarked first limit) ∧ first.toNat ≤ (b.nextMarked first limit).toNat ∧
      (b.nextMarked first limit).toNat ≤ limit.toNat ∧
      (∀ a, live a → first.toNat ≤ a.toNat → (b.nextMarked first limit).toNat ≤ a.toNat ∨
        limit.toNat ≤ a.toNat) ∧
      ((b.nextMarked first limit).toNat < limit.toNat → live (b.nextMarked first limit)) := by
  unfold nextMarked
  cases hnext : b.starts.next (b.bitOf first) (b.bitOf limit) with
  | none =>
    refine ⟨ht, hle, le_refl _, fun a ha h1 => ?_, fun h => absurd h (Nat.lt_irrefl _)⟩
    right
    by_contra hlt
    have hw := hd.isWord a ha
    have h2 := (Plane.next_eq_none_iff _).1 hnext (b.bitOf a)
      ((hs.fits.bitOf_le_bitOf hl hf hw.isEdge).2 h1)
      ((hs.fits.bitOf_lt_bitOf hl hw.isEdge ht).2 (by omega))
    have h3 := (hs.starts a hw).2 ha
    unfold isMarked at h3
    rw [h2] at h3
    cases h3
  | some i =>
    obtain ⟨hset, ⟨h1, h2⟩, hmin⟩ := (Plane.next_eq_some_iff _).1 hnext
    obtain ⟨hw, h3, h4, hbit⟩ := hs.fits.isWord_addressOf hl hf ht (i := i)
      (List.mem_range'_1.2 ⟨h1, by omega⟩)
    have hlive : live (b.addressOf i) := (hs.starts _ hw).1 (by
      unfold isMarked
      rw [hbit]
      exact hset)
    refine ⟨hw.isEdge, h3, h4.le, fun a ha h5 => ?_, fun _ => hlive⟩
    left
    by_contra hlt
    change ¬ (b.addressOf i).toNat ≤ a.toNat at hlt
    have hwa := hd.isWord a ha
    have h6 := hmin (b.bitOf a) ((hs.fits.bitOf_le_bitOf hl hf hwa.isEdge).2 h5) (by
      have := (hs.fits.bitOf_lt_bitOf hl hwa.isEdge hw.isEdge).2 (by omega)
      omega)
    have h7 := (hs.starts a hwa).2 ha
    unfold isMarked at h7
    rw [h6] at h7
    cases h7

end Bitmap

/-- The live objects of a heap do not overlap. -/
theorem Surveyed.spread {h : Heap} {t : ClassTable} {b : Bitmap} {live : Address → Prop}
    (hs : Surveyed h t b live) : Bitmap.Spread h.layout live (h.wordsAt t) :=
  ⟨fun _ ha => hs.isWord ha, fun _ ha => hs.wordsAt_pos ha, fun _ ha => hs.end_le ha,
    hs.populated.disjoint⟩

end MarkCompact
