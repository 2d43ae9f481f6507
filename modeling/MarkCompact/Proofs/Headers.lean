/-
MarkCompact/Proofs/Headers.lean

What headers still say once new addresses have been recorded.

An encoding may overwrite the mark of an object, and the phases after that still read its
class and its size.  They get them from what is left: the word after a classic mark, and
the bits of a compact mark that no encoding touches.  `Heap.HeaderKept h t a m` says that
the header of `a` in the memory `m` is that of `h`, as far as it is read.

Main results: `HeaderKept.infoOf`, `HeaderKept.copySize`, `Records.headerKept`, and
`Stocked.copySize` (the words an object takes at a new place).
-/
import MarkCompact.Proofs.Recording
import MarkCompact.Proofs.Fields

namespace MarkCompact

namespace Heap

/-- The header of `a` in the memory `m` still says of what class and how large the object of
`h` is. -/
structure HeaderKept (h : Heap) (t : ClassTable) (a : Address) (m : Memory) : Prop where
  mark : t.compactHeaders = true →
    (m.loadMark a).raw &&& keptMask = (h.memory.loadMark a).raw &&& keptMask
  later : ∀ k, 0 < k → k < t.headerWords.toNat → m.load (a.nth k) = h.memory.load (a.nth k)

namespace HeaderKept

variable {h g : Heap} {t : ClassTable} {a : Address} {m : Memory}

/-- A header that has not been touched since. -/
theorem congr {m' : Memory} (hk : h.HeaderKept t a m)
    (hsame : ∀ k < t.headerWords.toNat, m'.load (a.nth k) = m.load (a.nth k)) :
    h.HeaderKept t a m' := by
  refine ⟨fun hc => ?_, fun k h0 hlt => (hsame k hlt).trans (hk.later k h0 hlt)⟩
  have h0 := hsame 0 t.headerWords_pos
  rw [Address.nth_zero] at h0
  rw [← hk.mark hc]
  unfold Memory.loadMark
  rw [h0]

theorem isExpanded (hk : h.HeaderKept t a g.memory) (hc : t.compactHeaders = true) :
    (g.memory.loadMark a).isExpanded = (h.memory.loadMark a).isExpanded :=
  Mark.isExpanded_congr (and_eq_of_subset (hk.mark hc) (by decide))

theorem isHashed (hk : h.HeaderKept t a g.memory) (hc : t.compactHeaders = true) :
    (g.memory.loadMark a).isHashed = (h.memory.loadMark a).isHashed :=
  Mark.isHashed_congr (and_eq_of_subset (hk.mark hc) (by decide))

theorem classOf (hk : h.HeaderKept t a g.memory) : g.classOf t a = h.classOf t a := by
  unfold Heap.classOf
  by_cases hc : t.compactHeaders = true
  · rw [if_pos hc, if_pos hc]
    exact Mark.classId_congr (and_eq_of_subset (hk.mark hc) (by decide))
  · have h1 := hk.later 1 (by decide) (by unfold ClassTable.headerWords; rw [if_neg hc]; decide)
    have hone : a.nth 1 = a.offset 1 := rfl
    rw [hone] at h1
    rw [if_neg hc, if_neg hc, h1]

theorem infoOf (hk : h.HeaderKept t a g.memory) : g.infoOf t a = h.infoOf t a := by
  simp only [Heap.infoOf, hk.classOf]

theorem size (hk : h.HeaderKept t a g.memory) : g.size t a = h.size t a := by
  unfold Heap.size
  rw [hk.infoOf]
  cases hc : t.compactHeaders with
  | false => rfl
  | true => rw [hk.isExpanded hc]

theorem grows (hk : h.HeaderKept t a g.memory) (hheaders : g.compactHeaders = h.compactHeaders)
    (htable : t.compactHeaders = h.compactHeaders) :
    g.grows (g.memory.loadMark a) = h.grows (h.memory.loadMark a) := by
  unfold Heap.grows
  rw [hheaders]
  cases hc : h.compactHeaders with
  | false => rfl
  | true => rw [hk.isHashed (htable.trans hc), hk.isExpanded (htable.trans hc)]

theorem copySize (hk : h.HeaderKept t a g.memory) (hheaders : g.compactHeaders = h.compactHeaders)
    (htable : t.compactHeaders = h.compactHeaders) :
    g.copySize t a (g.memory.loadMark a) true = h.copySize t a (h.memory.loadMark a) true := by
  unfold Heap.copySize
  rw [hk.size, hk.grows hheaders htable]

end HeaderKept

/-- Whether the object at an address takes a hash word along when it moves. -/
def growsAt (h : Heap) (a : Address) : Bool := h.grows (h.memory.loadMark a)

/-- The words that the object at an address takes at any other place. -/
def movedWords (h : Heap) (t : ClassTable) (a : Address) : Nat :=
  h.wordsAt t a + if h.growsAt a then 1 else 0

theorem movedWords_of_memory {g h : Heap} (hheaders : g.compactHeaders = h.compactHeaders)
    (hmemory : g.memory = h.memory) (t : ClassTable) (a : Address) :
    g.movedWords t a = h.movedWords t a := by
  unfold movedWords growsAt grows
  rw [wordsAt_congr hmemory, hmemory, hheaders]

/-- With classic headers no object grows. -/
theorem growsAt_of_classic {h : Heap} (hclassic : h.compactHeaders = false) (a : Address) :
    h.growsAt a = false := by
  unfold growsAt grows
  rw [hclassic]
  rfl

theorem movedWords_of_classic {h : Heap} (hclassic : h.compactHeaders = false) (t : ClassTable)
    (a : Address) : h.movedWords t a = h.wordsAt t a := by
  unfold movedWords
  rw [growsAt_of_classic hclassic]
  rfl

end Heap

namespace Surveyed

variable {h : Heap} {t : ClassTable} {b : Bitmap} {live : Address → Prop}

theorem wordsAt_le_movedWords (h : Heap) (t : ClassTable) (a : Address) :
    h.wordsAt t a ≤ h.movedWords t a ∧ h.movedWords t a ≤ h.wordsAt t a + 1 := by
  unfold Heap.movedWords
  split <;> omega

end Surveyed

namespace Stocked

variable {h : Heap} {t : ClassTable} {b : Bitmap} {live : Address → Prop}

/-- What is read of a live object before it moves. -/
theorem copySize (hs : Stocked h t b live) {a : Address} (ha : live a) :
    ∃ size moved, h.size t a = .ok size ∧ size.toNat = h.wordsAt t a ∧
      h.copySize t a (h.memory.loadMark a) true = .ok moved ∧
      moved.toNat = h.movedWords t a ∧ (size < moved ↔ h.growsAt a = true) := by
  obtain ⟨c, words, ho⟩ := hs.populated.object a ha
  have hfit := hs.fits ha
  have hwords := ho.wordsAt_eq
  refine ⟨words, if h.growsAt a then words + 1 else words, ho.size, hwords.symm, ?_, ?_, ?_⟩
  · unfold Heap.copySize
    rw [ho.size]
    rfl
  · unfold Heap.movedWords
    rw [hwords]
    split
    · rw [UInt64.toNat_add]
      show (words.toNat + 1) % 2 ^ 64 = _
      omega
    · rfl
  · cases h.growsAt a with
    | false =>
      rw [if_neg Bool.false_ne_true]
      exact ⟨fun hlt => absurd hlt (UInt64.lt_irrefl words), fun hh => absurd hh Bool.false_ne_true⟩
    | true =>
      rw [if_pos rfl, UInt64.lt_iff_toNat_lt, UInt64.toNat_add]
      refine ⟨fun _ => rfl, fun _ => ?_⟩
      show _ < (words.toNat + 1) % 2 ^ 64
      omega

/-- The mark of one live object is no later word of the header of another. -/
theorem later_ne_mark (hs : Stocked h t b live) {a c : Address} (ha : live a) (hc : live c)
    {k : Nat} (h0 : 0 < k) (hk : k < t.headerWords.toNat) : a.nth k ≠ c := by
  intro heq
  have h1 := hs.headerWords_le ha
  rw [← Address.nth_zero c] at heq
  have h2 := (hs.word_unique ha hc (by omega) (hs.wordsAt_pos hc) heq).2
  omega

end Stocked

/-- Recording new addresses of live objects keeps what is read of headers. -/
theorem Forwarding.Records.headerKept {f : Forwarding} {n : Announced} {h : Heap} {t : ClassTable}
    {b : Bitmap} {live : Address → Prop} {m : Memory} {moves : List (Address × Address)}
    (hr : f.Records n h.memory m moves) (hs : Stocked h t b live) (hl : n.layout = h.layout)
    (hcompact : n.compact = h.compactHeaders) (hlive : ∀ e ∈ moves, live e.1) {a : Address}
    (ha : live a) : h.HeaderKept t a m := by
  refine ⟨fun hc => hr.kept (by rw [hl]; exact hs.tabled.layout)
    (hcompact.trans (hs.headers.symm.trans hc)) a, fun k h0 hk => ?_⟩
  apply hr.elsewhere
  intro hmem
  obtain ⟨e, he, heq⟩ := List.mem_map.1 hmem
  exact hs.later_ne_mark ha (hlive e he) h0 hk heq.symm

end MarkCompact
