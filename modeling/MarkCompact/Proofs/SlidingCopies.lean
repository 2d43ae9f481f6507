/-
MarkCompact/Proofs/SlidingCopies.lean

Objects that slide to the left, one after the other, in the memory that they share.

The target of an object may overlap the object itself and the objects before it, and an object
that takes its hash along is one word longer there.  But it ends where it ended before or to the
left of that, so it ends where the next object begins or to the left of that.  So what is written
never reaches an object that is still to be moved (`MoveRecord.Slides.clear`), and the moves come
to the same as if all objects were read before the first word is written (`MoveRecord.AtOnce`).

The copy loop of the serial style moves objects in this way as well.  It reads the size of an
object when its turn comes, from a header that is still in place, and copies the mark along with
the other words (`SerialCycle.moves`).

Main result: `MoveRecord.atOnce_of_slides`.
-/
import MarkCompact.Proofs.SerialMoves

namespace MarkCompact

/-! ### Moves to the left -/

namespace MoveRecord

/-- Moves to the left within `m`, in the order in which they are made. -/
structure Slides (m : Memory) (rs : List MoveRecord) : Prop where
  /-- An object has a mark. -/
  marked : ∀ r ∈ rs, 0 < r.size.toNat
  /-- The object takes its hash along or it does not. -/
  grown : ∀ r ∈ rs, r.copySize.toNat = r.size.toNat ∨ r.copySize.toNat = r.size.toNat + 1
  source : ∀ r ∈ rs, m.Covers r.source r.size.toNat
  target : ∀ r ∈ rs, m.base.toNat ≤ r.target.toNat
  /-- No object ends to the right of where it ended before. -/
  left : ∀ r ∈ rs, r.target.toNat + 8 * r.copySize.toNat ≤ r.source.toNat + 8 * r.size.toNat
  sources : rs.Pairwise fun q r => q.source.toNat + 8 * q.size.toNat ≤ r.source.toNat
  targets : rs.Pairwise fun q r => q.target.toNat + 8 * q.copySize.toNat ≤ r.target.toNat

/-- The memory `m'` is what the moves leave of `m`, as if all words were read before the first one
is written. -/
structure AtOnce (m m' : Memory) (rs : List MoveRecord) : Prop where
  mark : ∀ r ∈ rs, m'.load r.target = r.mark.raw
  words : ∀ r ∈ rs, ∀ i, 1 ≤ i → i < r.size.toNat →
    m'.load (r.target.nth i) = m.load (r.source.nth i)
  hash : ∀ r ∈ rs, r.grown = true →
    m'.load (r.target.nth r.size.toNat) = r.source.identityHash.toUInt64
  elsewhere : ∀ c : Address,
    (∀ r ∈ rs, c.toNat < r.target.toNat ∨ r.target.toNat + 8 * r.copySize.toNat ≤ c.toNat) →
    m'.load c = m.load c

namespace Slides

variable {m m' : Memory} {rs done : List MoveRecord} {r : MoveRecord}

theorem sound (h : Slides m rs) : ∀ r ∈ rs, r.Sound m := by
  intro r hr
  have hsource := h.source r hr
  have htop := hsource.top
  have hleft := h.left r hr
  exact ⟨hsource, ⟨h.target r hr, by omega, hsource.fits⟩, h.marked r hr, h.grown r hr⟩

/-- A move neither writes what is still to be read nor where is still to be written. -/
theorem clear (h : Slides m rs) : rs.Pairwise Clear := by
  have hboth := List.pairwise_and_iff.2 ⟨h.sources, h.targets⟩
  refine hboth.imp_of_mem fun {q r} hq _ hqr => ?_
  have hleft := h.left q hq
  exact ⟨.inl (hleft.trans hqr.1), .inl hqr.2⟩

theorem clear_last (h : Slides m (done ++ [r])) : ∀ q ∈ done, q.Clear r := fun q hq =>
  (List.pairwise_append.1 h.clear).2.2 q hq r List.mem_cons_self

theorem of_append (h : Slides m (rs ++ done)) : Slides m rs := by
  have hmem : ∀ r ∈ rs, r ∈ rs ++ done := fun r hr => List.mem_append_left _ hr
  exact ⟨fun r hr => h.marked r (hmem r hr), fun r hr => h.grown r (hmem r hr),
    fun r hr => h.source r (hmem r hr), fun r hr => h.target r (hmem r hr),
    fun r hr => h.left r (hmem r hr), (List.pairwise_append.1 h.sources).1,
    (List.pairwise_append.1 h.targets).1⟩

/-- Each word that a transfer leaves is the mark, a word of the object, or its hash. -/
theorem atOnce (h : Slides m rs) (hm : m.Transferred m' (rs.map (·.transfer m))) :
    AtOnce m m' rs := by
  have hthere : ∀ r ∈ rs, ∀ i < r.copySize.toNat, m'.load (r.target.nth i) = r.word m i :=
    fun r hr i hi => hm.there _ (List.mem_map_of_mem hr) i hi
  have hsize : ∀ r ∈ rs, r.size.toNat ≤ r.copySize.toNat := by
    intro r hr
    rcases h.grown r hr with hg | hg <;> omega
  refine ⟨fun r hr => ?_, fun r hr i h1 hi => ?_, fun r hr hgrown => ?_, fun c hc => ?_⟩
  · have hat := hthere r hr 0 (Nat.lt_of_lt_of_le (h.marked r hr) (hsize r hr))
    rwa [Address.nth_zero] at hat
  · rw [hthere r hr i (Nat.lt_of_lt_of_le hi (hsize r hr))]
    unfold word
    rw [if_neg (by omega), if_pos hi]
  · have hlt : r.size.toNat < r.copySize.toNat :=
      UInt64.lt_iff_toNat_lt.1 (of_decide_eq_true hgrown)
    have hpos := h.marked r hr
    rw [hthere r hr _ hlt]
    unfold word
    rw [if_neg (by omega), if_neg (Nat.lt_irrefl _)]
  · refine hm.elsewhere c fun x hx => ?_
    obtain ⟨r, hr, rfl⟩ := List.mem_map.1 hx
    exact hc r hr

/-- Moves to the left are all made, and come to the same as one assignment to all targets. -/
theorem copyAll (h : Slides m rs) : ∃ m', copyAll rs m = .ok m' ∧ AtOnce m m' rs := by
  have hnone : m.Transferred m (([] : List MoveRecord).map (·.transfer m)) := Memory.transferred_nil m
  obtain ⟨m', hrun, hm⟩ := copyAll_transferred hnone h.sound h.clear
  exact ⟨m', hrun, h.atOnce hm⟩

end Slides

/-- An object that takes its mark along from where it lies is copied word by word. -/
theorem word_of_mark {r : MoveRecord} {m : Memory} (hmark : r.mark.raw = m.load r.source) {i : Nat}
    (hi : i < r.size.toNat) : r.word m i = m.load (r.source.nth i) := by
  unfold word
  rcases Nat.eq_zero_or_pos i with rfl | hpos
  · rw [if_pos rfl, Address.nth_zero, hmark]
  · rw [if_neg (by omega), if_pos hi]

end MoveRecord

/-! ### The copy loop of the serial style -/

/-- The header of an object is a part of it. -/
theorem Heap.headerWords_le_of_size {h : Heap} {t : ClassTable} {a : Address} {words : WordCount}
    (ht : t.Sound) (hs : h.size t a = .ok words) (hpos : 0 < words.toNat) :
    t.headerWords.toNat ≤ words.toNat := by
  by_cases hc : t.compactHeaders = true
  · unfold ClassTable.headerWords
    rw [if_pos hc]
    exact hpos
  · obtain ⟨c, hinfo, hwords⟩ := exists_of_bind_eq_ok hs
    have hclass := ht.header c (ClassTable.mem_of_info (info_of_infoOf hinfo))
    rw [Bool.not_eq_true] at hc
    rw [hc, Bool.false_and, if_neg Bool.false_ne_true] at hwords
    obtain rfl : c.words = words := Except.ok.inj hwords
    exact UInt64.le_iff_toNat_le.1 hclass

namespace SerialCycle

open MoveRecord (Slides AtOnce)

/-- The objects that the copy loop goes over, in its order. -/
def objects (c : SerialCycle) : List Address :=
  c.regions.flatMap fun i => c.bitmap.markedIn (c.heap.region i).bottom (c.heap.region i).top

/-- The move of an object to where the table sends it.  Nothing grows and the mark stays. -/
def moveOf (c : SerialCycle) (a : Address) : MoveRecord :=
  let words := (c.heap.size c.classes a).toOption.getD 0
  ⟨a, c.table.forwardee c.bitmap a, words, words, c.heap.memory.loadMark a⟩

/-- The moves of the copy loop. -/
def moves (c : SerialCycle) : List MoveRecord := c.objects.map c.moveOf

/-- Forgetting objects is noted in the table of starts only. -/
theorem exists_foldl_clearStarts (is : List Nat) (h : Heap) :
    ∃ starts, is.foldl clearStarts h = { h with starts } := by
  induction is generalizing h with
  | nil => exact ⟨h.starts, rfl⟩
  | cons i is ih =>
    obtain ⟨starts, hrest⟩ := ih (clearStarts h i)
    exact ⟨starts, by rw [List.foldl_cons, hrest]; rfl⟩

/-- An object that has words has a size. -/
theorem size_eq_moveOf {c : SerialCycle} {a : Address} (hpos : 0 < (c.moveOf a).size.toNat) :
    c.heap.size c.classes a = .ok (c.moveOf a).size := by
  unfold moveOf at hpos ⊢
  cases hs : c.heap.size c.classes a with
  | error e =>
    rw [hs] at hpos
    exact absurd hpos (Nat.lt_irrefl 0)
  | ok words => rfl

/-- Moving an object copies the words that it has now. -/
theorem moveObject_copied {c : SerialCycle} {s : SerialOutcome × Heap} {a : Address}
    {words : WordCount} (hsize : s.2.size c.classes a = .ok words)
    (hfrom : s.2.memory.Covers a words.toNat)
    (hto : s.2.memory.Covers (c.table.forwardee c.bitmap a) words.toNat) :
    ∃ s', c.moveObject s a = .ok s' ∧ s'.2.regions = s.2.regions ∧
      s.2.memory.Copied s'.2.memory a (c.table.forwardee c.bitmap a) words.toNat := by
  obtain ⟨o, g⟩ := s
  unfold moveObject
  dsimp only at hsize ⊢
  rw [hsize]
  by_cases hsame : c.table.forwardee c.bitmap a = a
  · refine ⟨(o, g.recordStart (c.table.forwardee c.bitmap a)), ?_, rfl, ?_⟩
    · show (if _ then _ else _) = _
      rw [if_pos hsame]
      rfl
    · rw [hsame]
      exact ⟨Memory.SameSpan.refl _, fun _ _ => rfl, fun _ _ => rfl⟩
  · obtain ⟨m, hcopy, hcopied⟩ := Memory.copyWords_spec hfrom hto
    refine ⟨({ o with movedObjects := o.movedObjects + 1, movedWords := o.movedWords + words.toNat },
      (g.withMemory m).recordStart (c.table.forwardee c.bitmap a)), ?_, rfl, hcopied⟩
    show (if _ then _ else _) = _
    rw [if_neg hsame, hcopy]
    rfl

/-- One more object is moved, after those to its left. -/
theorem moveObject_transferred {c : SerialCycle} {s : SerialOutcome × Heap} {done : List Address}
    {a : Address} (ht : c.classes.Sound) (hslides : Slides c.heap.memory ((done ++ [a]).map c.moveOf))
    (hm : c.heap.memory.Transferred s.2.memory
      ((done.map c.moveOf).map (·.transfer c.heap.memory))) :
    ∃ s', c.moveObject s a = .ok s' ∧ s'.2.regions = s.2.regions ∧
      c.heap.memory.Transferred s'.2.memory
        (((done ++ [a]).map c.moveOf).map (·.transfer c.heap.memory)) := by
  rw [List.map_append, List.map_singleton] at hslides ⊢
  have hlast : c.moveOf a ∈ done.map c.moveOf ++ [c.moveOf a] := by simp
  have hsound := hslides.sound _ hlast
  have hkept : ∀ i < (c.moveOf a).size.toNat,
      s.2.memory.load (a.nth i) = c.heap.memory.load (a.nth i) :=
    fun i hi => MoveRecord.load_source hm hsound hslides.clear_last hi
  -- the header is still in place, and so the size is read as before
  have hsize := size_eq_moveOf hsound.nonempty
  have hheader := Heap.headerWords_le_of_size ht hsize hsound.nonempty
  have hsize' : s.2.size c.classes a = .ok (c.moveOf a).size :=
    (Heap.size_congr_header fun k hk => hkept k (Nat.lt_of_lt_of_le hk hheader)).trans hsize
  obtain ⟨s', hstep, hregions, hcopied⟩ := moveObject_copied hsize'
    (hm.span.covers hsound.source) (hm.span.covers hsound.target)
  refine ⟨s', hstep, hregions, MoveRecord.transferred_snoc hm hsound
    (fun q hq => hslides.sound q (List.mem_append_left _ hq)) hslides.clear_last ?_⟩
  refine ⟨hcopied.span, fun i hi => (hcopied.inside i hi).trans ?_, hcopied.outside⟩
  refine (MoveRecord.word_of_mark (r := c.moveOf a) ?_ hi).symm
  have hmark := hkept 0 hsound.nonempty
  rw [Address.nth_zero] at hmark
  exact hmark.symm

/-- The copy loop makes its moves as if all at once. -/
theorem compact_atOnce {c : SerialCycle} (ht : c.classes.Sound)
    (hslides : Slides c.heap.memory c.moves) :
    ∃ o h', c.compact = .ok (o, { c with heap := h' }) ∧ AtOnce c.heap.memory h'.memory c.moves := by
  obtain ⟨starts, hcleared⟩ := exists_foldl_clearStarts c.regions c.heap
  obtain ⟨⟨o, h'⟩, hrun, -, hm⟩ := foldlM_flatMap_induct (f := c.moveObject)
    (fun i => c.bitmap.markedIn (c.heap.region i).bottom (c.heap.region i).top)
    (fun s i => c.bitmap.markedIn (s.2.region i).bottom (s.2.region i).top)
    (fun as s => s.2.regions = c.heap.regions ∧ c.heap.memory.Transferred s.2.memory
      ((as.map c.moveOf).map (·.transfer c.heap.memory)))
    c.regions (⟨0, 0, 0, 0⟩, c.regions.foldl clearStarts c.heap)
    (by
      rw [hcleared]
      exact ⟨rfl, Memory.transferred_nil _⟩)
    (by
      rintro as s i ⟨hregions, -⟩
      unfold Heap.region
      rw [hregions])
    (by
      rintro as a rest s heq ⟨hregions, hm⟩
      have hall : Slides c.heap.memory ((as ++ [a]).map c.moveOf ++ rest.map c.moveOf) := by
        rw [← List.map_append, List.append_assoc, List.singleton_append, ← heq]
        exact hslides
      obtain ⟨s', hstep, hkept, hm'⟩ := moveObject_transferred ht hall.of_append hm
      exact ⟨s', hstep, hkept.trans hregions, hm'⟩)
  refine ⟨o, h', ?_, hslides.atOnce hm⟩
  unfold compact
  dsimp only
  rw [hrun]
  rfl

end SerialCycle

/-! ### One after the other and at once -/

namespace MoveRecord

/-- Moves to the left that are made in order leave what one assignment to all targets would leave:
the marks, the other words of the objects as they were before the first move, the hashes of the
objects that have grown, and every other word as it was.  So does the copy loop of the serial
style, which takes the mark along like any other word. -/
theorem atOnce_of_slides :
    (∀ (rs : List MoveRecord) (m : Memory), Slides m rs →
      ∃ m', MoveRecord.copyAll rs m = .ok m' ∧ AtOnce m m' rs) ∧
    ∀ c : SerialCycle, c.classes.Sound → Slides c.heap.memory c.moves →
      ∃ o h', c.compact = .ok (o, { c with heap := h' }) ∧
        AtOnce c.heap.memory h'.memory c.moves ∧
        ∀ r ∈ c.moves, r.copySize = r.size ∧ ∀ i < r.size.toNat,
          h'.memory.load (r.target.nth i) = c.heap.memory.load (r.source.nth i) := by
  refine ⟨fun rs m h => h.copyAll, fun c ht h => ?_⟩
  obtain ⟨o, h', hrun, hall⟩ := SerialCycle.compact_atOnce ht h
  refine ⟨o, h', hrun, hall, fun r hr => ?_⟩
  obtain ⟨a, -, rfl⟩ := List.mem_map.1 hr
  refine ⟨rfl, fun i hi => ?_⟩
  rcases Nat.eq_zero_or_pos i with rfl | hpos
  · rw [Address.nth_zero, Address.nth_zero]
    exact hall.mark _ hr
  · exact hall.words _ hr i hpos hi

/-- Two objects that take their hashes along.  The target of the second one begins in the first
one and ends in the second one. -/
def twoGrowing : List MoveRecord :=
  [⟨0x1010, 0x1000, 3, 4, ⟨0x181⟩⟩, ⟨0x1028, 0x1020, 3, 4, ⟨0x100000181⟩⟩]

/-- A region with two objects of three words, which are to slide by two words. -/
def twoTriples : SerialCycle where
  classes := ⟨false, #[⟨"Triple", 3, []⟩]⟩
  bitmap := (((Bitmap.new 0x1000 16).mark 0x1010 3).2.mark 0x1028 3).2
  heap :=
    { memory := ((⟨0x1000, 0x1000, ∅⟩ : Memory).store 0x1020 5).store 0x1038 6
      layout := ⟨0x1000, 4, 1⟩
      regions := #[{ Region.new 0 0x1000 0x1080 with top := 0x1040, kind := .regular }]
      starts := .new ⟨0x1000, 4, 1⟩
      compactHeaders := false }
  table := ⟨0x1000, 4, #[some 0x1000]⟩
  regions := [0]
  spaces := #[]

theorem objects_twoTriples : twoTriples.objects = [0x1010, 0x1028] := by
  have hregions : twoTriples.regions = [0] := rfl
  have hbottom : (twoTriples.heap.region 0).bottom = 0x1000 := rfl
  have htop : (twoTriples.heap.region 0).top = 0x1040 := rfl
  unfold SerialCycle.objects
  rw [hregions, List.flatMap_singleton, hbottom, htop, Bitmap.markedIn_eq _ (by decide),
    Plane.bitsFrom_eq]
  decide +kernel

/-- Apart from two words the memory is blank. -/
theorem load_twoTriples {c : Address} (hc : c ≠ 0x1020 ∧ c ≠ 0x1038) :
    twoTriples.heap.memory.load c = 0 := by
  unfold twoTriples
  rw [Memory.load_store_of_ne _ hc.2.symm, Memory.load_store_of_ne _ hc.1.symm]
  simp [Memory.load]

theorem moveOf_twoTriples {a : Address} (hmark : a ≠ 0x1020 ∧ a ≠ 0x1038)
    (hclass : a.offset 1 ≠ 0x1020 ∧ a.offset 1 ≠ 0x1038) : twoTriples.moveOf a
      = ⟨a, twoTriples.table.forwardee twoTriples.bitmap a, 3, 3, ⟨0⟩⟩ := by
  have hzero : twoTriples.heap.classOf twoTriples.classes a = 0 := by
    show (twoTriples.heap.memory.load (a.offset 1)).toUInt32 = 0
    rw [load_twoTriples hclass]
    rfl
  have hsize : twoTriples.heap.size twoTriples.classes a = .ok 3 :=
    Heap.size_of_info (Heap.infoOf_of_info (by rw [hzero]; rfl))
  unfold SerialCycle.moveOf Memory.loadMark
  rw [hsize, load_twoTriples hmark]
  rfl

theorem moves_twoTriples :
    twoTriples.moves = [⟨0x1010, 0x1000, 3, 3, ⟨0⟩⟩, ⟨0x1028, 0x1018, 3, 3, ⟨0⟩⟩] := by
  unfold SerialCycle.moves
  rw [objects_twoTriples, List.map_cons, List.map_singleton, moveOf_twoTriples (by decide) (by decide),
    moveOf_twoTriples (by decide) (by decide)]
  decide +kernel

theorem atOnce_of_slides_overlapping :
    (∃ m', MoveRecord.copyAll twoGrowing twoTriples.heap.memory = .ok m' ∧
      m'.load 0x1010 = 5 ∧ m'.load 0x1018 = (0x1010 : Address).identityHash.toUInt64 ∧
      m'.load 0x1020 = 0x100000181 ∧ m'.load 0x1030 = 6 ∧
      m'.load 0x1038 = (0x1028 : Address).identityHash.toUInt64 ∧ m'.load 0x1040 = 0) ∧
    ∃ o h', twoTriples.compact = .ok (o, { twoTriples with heap := h' }) ∧
      h'.memory.load 0x1010 = 5 ∧ h'.memory.load 0x1018 = 0 ∧ h'.memory.load 0x1028 = 6 ∧
      h'.memory.load 0x1038 = 6 := by
  have hmemory : twoTriples.heap.memory.base = 0x1000 ∧ twoTriples.heap.memory.size = 0x1000 :=
    ⟨rfl, rfl⟩
  have hcovers : ∀ a : Address, 0x1000 ≤ a.toNat → a.toNat + 24 ≤ 0x2000 →
      twoTriples.heap.memory.Covers a 3 := by
    intro a hlow hhigh
    refine ⟨?_, ?_, ?_⟩ <;> rw [hmemory.1] <;> try rw [hmemory.2]
    · exact hlow
    · exact hhigh
    · decide
  have hgrowing : Slides twoTriples.heap.memory twoGrowing := by
    refine ⟨by decide, by decide, ?_, by decide, by decide, by decide, by decide⟩
    simp only [twoGrowing, List.forall_mem_cons]
    exact ⟨hcovers _ (by decide) (by decide), hcovers _ (by decide) (by decide), by simp⟩
  have htriples : Slides twoTriples.heap.memory twoTriples.moves := by
    rw [moves_twoTriples]
    refine ⟨by decide, by decide, ?_, by decide, by decide, by decide, by decide⟩
    simp only [List.forall_mem_cons]
    exact ⟨hcovers _ (by decide) (by decide), hcovers _ (by decide) (by decide), by simp⟩
  have hclasses : twoTriples.classes.Sound :=
    ⟨by decide, by simp [twoTriples], by simp [twoTriples]⟩
  have hfive : twoTriples.heap.memory.load 0x1020 = 5 := by
    unfold twoTriples
    rw [Memory.load_store_of_ne _ (by decide), Memory.load_store_self]
  have hsix : twoTriples.heap.memory.load 0x1038 = 6 := Memory.load_store_self ..
  obtain ⟨m', hrun, hm⟩ := atOnce_of_slides.1 twoGrowing twoTriples.heap.memory hgrowing
  obtain ⟨o, h', hcompact, hall, -⟩ := atOnce_of_slides.2 twoTriples hclasses htriples
  rw [moves_twoTriples] at hall
  have hfirst : ⟨0x1010, 0x1000, 3, 4, ⟨0x181⟩⟩ ∈ twoGrowing := List.mem_cons_self
  have hsecond : ⟨0x1028, 0x1020, 3, 4, ⟨0x100000181⟩⟩ ∈ twoGrowing := by simp [twoGrowing]
  refine ⟨⟨m', hrun, ?_, hm.hash _ hfirst rfl, hm.mark _ hsecond, ?_, hm.hash _ hsecond rfl, ?_⟩,
    o, h', hcompact, ?_, ?_, ?_, ?_⟩
  · exact (hm.words _ hfirst 2 (by decide) (by decide)).trans hfive
  · exact (hm.words _ hsecond 2 (by decide) (by decide)).trans hsix
  · rw [hm.elsewhere 0x1040 (by decide), load_twoTriples (by decide)]
  · exact (hall.words _ List.mem_cons_self 2 (by decide) (by decide)).trans hfive
  · exact hall.mark ⟨0x1028, 0x1018, 3, 3, ⟨0⟩⟩ (by simp)
  · exact (hall.words ⟨0x1028, 0x1018, 3, 3, ⟨0⟩⟩ (by simp) 2 (by decide) (by decide)).trans hsix
  · exact (hall.elsewhere 0x1038 (by decide)).trans hsix

end MoveRecord

end MarkCompact
