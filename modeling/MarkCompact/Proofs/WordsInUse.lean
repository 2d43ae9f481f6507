/-
MarkCompact/Proofs/WordsInUse.lean

How many words are in use.

The regions are counted from their bottoms to their tops.  Above a top nothing is live, so that
the words in use are those of the live objects as soon as there are no others between them: no
dead object, and no gap (`Heap.Gapless`).

Main results: `Surveyed.sum_words_le` (the live objects have no more words than the heap) and
`Surveyed.usedWords_eq`.
-/
import MarkCompact.Proofs.LiveWords
import MarkCompact.Proofs.Charts
import MarkCompact.Proofs.SerialCycle

namespace MarkCompact

/-- Every word in use is one of a live object. -/
def Heap.Gapless (h : Heap) (t : ClassTable) (live : Address → Prop) : Prop :=
  ∀ i < h.regions.size, ∀ x, h.layout.IsWord x → (h.layout.bottom i).toNat ≤ x.toNat →
    x.toNat < (h.region i).top.toNat →
    ∃ a, live a ∧ a.toNat ≤ x.toNat ∧ x.toNat < a.toNat + 8 * h.wordsAt t a

namespace Surveyed

variable {h : Heap} {t : ClassTable} {b : Bitmap} {live : Address → Prop}

/-- The live words of the grid are those of the live objects. -/
theorem countWords_grid (hs : Surveyed h t b live) :
    b.countWords (h.layout.bottom 0) (h.layout.bottom h.layout.numRegions)
      = ((h.liveList b).map (h.wordsAt t)).sum := by
  have hl := hs.tabled.layout
  refine hs.shows.countWords_eq_sum hl.spans hs.spread _ (hl.isEdge_bottom (Nat.zero_le _))
    (hl.isEdge_bottom (Nat.le_refl _)) ?_ hs.pairwise_liveList ?_ ?_ ?_
  · rw [Layout.bottom_zero, h.layout.bottom_numRegions, hl.toNat_stop]
    omega
  · intro a
    rw [hs.mem_liveList, Layout.bottom_zero, h.layout.bottom_numRegions]
    exact ⟨fun ha => ⟨ha, (hs.isWord ha).bottom, (hs.isWord ha).stop⟩, And.left⟩
  · intro a ha hlt
    have hbottom := (hs.isWord ha).bottom
    rw [Layout.bottom_zero] at hlt
    omega
  · intro a ha
    rw [h.layout.bottom_numRegions]
    exact hs.end_le ((hs.mem_liveList a).1 ha)

/-- The live objects have no more words than the heap. -/
theorem sum_words_le (hs : Surveyed h t b live) :
    ((h.liveList b).map (h.wordsAt t)).sum ≤ h.layout.heapWords.toNat := by
  have hl := hs.tabled.layout
  have hle := Bitmap.countWords_le hl.spans hs.shows.fits (hl.isEdge_bottom (Nat.zero_le _))
    (hl.isEdge_bottom (Nat.le_refl _))
  have hwords := hl.toNat_heapWords
  rw [hs.countWords_grid, Layout.bottom_zero, h.layout.bottom_numRegions, hl.toNat_stop] at hle
  omega

/-- The live words of the first regions, region by region. -/
theorem countWords_regions (hs : Surveyed h t b live) {k : Nat} (hk : k ≤ h.layout.numRegions) :
    b.countWords (h.layout.bottom 0) (h.layout.bottom k)
      = ((List.range k).map fun i =>
          b.countWords (h.layout.bottom i) (h.layout.bottom (i + 1))).sum := by
  have hl := hs.tabled.layout
  induction k with
  | zero =>
    rw [Bitmap.countWords, if_pos (UInt64.le_refl _)]
    rfl
  | succ k ih =>
    have h1 := hl.toNat_bottom (i := 0) (Nat.zero_le _)
    have h2 := hl.base_le_bottom (Nat.le_of_succ_le hk)
    have h3 := hl.toNat_regionStop hk
    rw [Layout.regionStop_eq_bottom_succ] at h3
    rw [Bitmap.countWords_add hl.spans hs.shows.fits (hl.isEdge_bottom (Nat.zero_le _))
      (hl.isEdge_bottom (Nat.le_of_succ_le hk)) (hl.isEdge_bottom hk) (by omega) (by omega),
      ih (Nat.le_of_succ_le hk), List.range_succ, List.map_append, List.sum_append]
    simp

/-- Nothing is live above the top of a region. -/
theorem isLive_above (hs : Surveyed h t b live) {i : Nat} (hi : i < h.regions.size) {x : Address}
    (hx : h.layout.IsWord x) (h1 : (h.region i).top.toNat ≤ x.toNat)
    (h2 : x.toNat < (h.layout.regionStop i).toNat) : b.isLive x = false := by
  have hl := hs.tabled.layout
  by_contra hlive
  rw [Bool.not_eq_false] at hlive
  obtain ⟨o, ho, hle, hlt⟩ := (hs.shows.words x hx).1 hlive
  obtain ⟨c, words, hobject⟩ := hs.populated.object o ho
  rw [hobject.wordsAt_eq] at hlt
  have hbelow := hobject.place.lt_top hs.tabled ((hl.contains_iff x).2 ⟨hx.bottom, hx.stop⟩) hle hlt
  have hbottom := (hs.tabled.top i hi).1
  rw [hs.tabled.bottom i hi] at hbottom
  have hi' : i < h.layout.numRegions := hs.tabled.count ▸ hi
  rw [hl.toNat_regionStop hi'] at h2
  rw [hl.indexOf_eq hi' (by omega) h2] at hbelow
  omega

/-- Without gaps as many words are in use in a region as are live in it. -/
theorem usedWords_region (hs : Surveyed h t b live) (hgapless : h.Gapless t live) {i : Nat}
    (hi : i < h.regions.size) : (h.region i).usedWords.toNat
      = b.countWords (h.layout.bottom i) (h.layout.bottom (i + 1)) := by
  have hl := hs.tabled.layout
  have hi' : i < h.layout.numRegions := hs.tabled.count ▸ hi
  obtain ⟨htop, hstop, -⟩ := hs.tabled.top i hi
  have hedge := hs.isEdge_top hi
  rw [hs.tabled.bottom i hi] at htop
  rw [hs.tabled.stop i hi] at hstop
  rw [Bitmap.countWords_add hl.spans hs.shows.fits (hl.isEdge_bottom hi'.le) hedge
    (hl.isEdge_bottom hi') htop hstop,
    Bitmap.countWords_of_all hl.spans hs.shows.fits (hl.isEdge_bottom hi'.le) hedge fun x hx h1 h2 =>
      (hs.shows.words x hx).2 (hgapless i hi x hx h1 h2),
    Bitmap.countWords_of_none hl.spans hs.shows.fits hedge (hl.isEdge_bottom hi') fun x hx h1 h2 =>
      hs.isLive_above hi hx h1 h2]
  unfold Region.usedWords
  rw [Address.toNat_wordsTo (by rw [hs.tabled.bottom i hi]; exact htop), hs.tabled.bottom i hi]
  omega

/-- Without gaps the words in use are those of the live objects. -/
theorem usedWords_eq (hs : Surveyed h t b live) (hgapless : h.Gapless t live) :
    h.usedWords.toNat = ((h.liveList b).map (h.wordsAt t)).sum := by
  have hl := hs.tabled.layout
  have hregions : h.regions.toList.map Region.usedWords
      = (List.range h.regions.size).map fun i => (h.region i).usedWords := by
    rw [h.toList_regions, List.map_map]
    rfl
  have hcounted : (List.range h.regions.size).map (fun i => (h.region i).usedWords.toNat)
      = (List.range h.layout.numRegions).map fun i =>
          b.countWords (h.layout.bottom i) (h.layout.bottom (i + 1)) := by
    rw [← hs.tabled.count]
    exact List.map_congr_left fun i hi => hs.usedWords_region hgapless (List.mem_range.1 hi)
  -- the sum of words does not wrap
  have hsum : ∀ ws : List WordCount, (ws.map UInt64.toNat).sum < 2 ^ 64 →
      (ws.foldr (· + ·) 0).toNat = (ws.map UInt64.toNat).sum := by
    intro ws
    induction ws with
    | nil => exact fun _ => rfl
    | cons w ws ih =>
      intro hlt
      rw [List.map_cons, List.sum_cons] at hlt ⊢
      rw [List.foldr_cons, UInt64.toNat_add, ih (by omega), Nat.mod_eq_of_lt hlt]
  have htotal : (((List.range h.regions.size).map fun i => (h.region i).usedWords).map
      UInt64.toNat).sum = ((h.liveList b).map (h.wordsAt t)).sum := by
    rw [List.map_map]
    show ((List.range h.regions.size).map fun i => (h.region i).usedWords.toNat).sum = _
    rw [hcounted, ← hs.countWords_regions (Nat.le_refl _), hs.countWords_grid]
  unfold Heap.usedWords
  rw [hregions, hsum _ (by
    rw [htotal]
    exact Nat.lt_of_le_of_lt hs.sum_words_le h.layout.heapWords.toNat_lt), htotal]

end Surveyed

end MarkCompact
