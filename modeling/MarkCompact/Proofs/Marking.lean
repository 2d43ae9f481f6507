/-
MarkCompact/Proofs/Marking.lean

Marking finds what can be reached, whatever the order in which it looks.

The objects that can be reached from the roots form a graph in the heap: instances of
registered classes that do not overlap (`Heap.ObjectGraph`).  Nothing is asked of the graph
itself, so it may have cycles and objects that are referred to many times, and the roots may
hold nothing, the same object twice, or addresses outside the heap.

* `ObjectGraph.sum_wordsAt_le` — the words of the objects fit in the heap, so their sum does
  not wrap;
* `Shuffled.reaches`, `Shuffled.traceable` — the same objects can be reached, and tracing can follow
  them, when the fields of the classes and the roots stand in another order;
* `Traceable.trace_congr` — and then tracing comes to the same.

Main result: `Heap.ObjectGraph.trace_complete` (a clear bitmap that covers the heap comes to show
exactly the objects that can be reached; they are counted once each, with their words; and another
order of roots and fields gives the same bitmap and the same counts).
-/
import Mathlib.Algebra.BigOperators.Group.Finset.Basic
import Mathlib.Order.Interval.Finset.Nat
import MarkCompact.Proofs.Instances

namespace MarkCompact

/-- What can be reached from the roots are instances of registered classes inside the heap that do
not overlap. -/
structure Heap.ObjectGraph (h : Heap) (t : ClassTable) (roots : Roots) : Prop
    extends h.Traceable t roots where
  disjoint : ∀ a c, Reaches h t roots a → Reaches h t roots c → a.toNat < c.toNat →
    a.toNat + 8 * h.wordsAt t a ≤ c.toNat

theorem WellFormed.objectGraph {h : Heap} {t : ClassTable} {roots : Roots}
    (hw : WellFormed h t roots) : h.ObjectGraph t roots :=
  ⟨hw.traceable, hw.populated.disjoint⟩

variable {h : Heap} {t t' : ClassTable} {roots roots' : Roots}

/-! ### The words of all objects -/

namespace Heap.ObjectGraph

/-- The objects that can be reached have no more words than the heap. -/
theorem sum_wordsAt_le (hw : h.ObjectGraph t roots) {l : List Address} (hnodup : l.Nodup)
    (hreach : ∀ a ∈ l, Reaches h t roots a) :
    (l.map (h.wordsAt t)).sum ≤ h.layout.heapWords.toNat := by
  have hwords := hw.layout.toNat_heapWords
  have hstop := hw.layout.toNat_stop
  have hbase := hw.layout.aligned
  have hword : ∀ a ∈ l, h.layout.IsWord a := fun a ha =>
    hw.isWord hw.layout.covers_self (hreach a ha)
  -- the positions that the words of an object take in the grid
  let taken (a : Address) : Finset Nat :=
    Finset.Ico ((a.toNat - h.layout.base.toNat) / 8)
      ((a.toNat - h.layout.base.toNat) / 8 + h.wordsAt t a)
  have hdisjoint : (l.toFinset : Set Address).PairwiseDisjoint taken := by
    intro a ha c hc hne
    have ha := List.mem_toFinset.1 (Finset.mem_coe.1 ha)
    have hc := List.mem_toFinset.1 (Finset.mem_coe.1 hc)
    have ha1 := (hword a ha).bottom
    have ha2 := (hword a ha).aligned
    have hc1 := (hword c hc).bottom
    have hc2 := (hword c hc).aligned
    refine Finset.disjoint_left.2 fun i hi hi' => ?_
    simp only [taken, Finset.mem_Ico] at hi hi'
    rcases Nat.lt_trichotomy a.toNat c.toNat with hlt | heq | hlt
    · have := hw.disjoint a c (hreach a ha) (hreach c hc) hlt
      omega
    · exact hne (UInt64.toNat_inj.1 heq)
    · have := hw.disjoint c a (hreach c hc) (hreach a ha) hlt
      omega
  have hinside : l.toFinset.biUnion taken ⊆ Finset.range h.layout.heapWords.toNat := by
    intro i hi
    obtain ⟨a, ha, hia⟩ := Finset.mem_biUnion.1 hi
    have ha := List.mem_toFinset.1 ha
    have h1 := (hword a ha).bottom
    have h2 := (hword a ha).aligned
    have h3 := hw.inside a (hreach a ha)
    simp only [taken, Finset.mem_Ico] at hia
    rw [Finset.mem_range]
    omega
  calc (l.map (h.wordsAt t)).sum
      = ∑ a ∈ l.toFinset, (taken a).card := by
        rw [List.sum_toFinset _ hnodup]
        simp [taken]
    _ = (l.toFinset.biUnion taken).card := (Finset.card_biUnion hdisjoint).symm
    _ ≤ h.layout.heapWords.toNat := by simpa using Finset.card_le_card hinside

end Heap.ObjectGraph

/-! ### Another order -/

/-- The same classes, with their fields in another order. -/
structure ClassTable.Shuffled (t t' : ClassTable) : Prop where
  headers : t'.compactHeaders = t.compactHeaders
  info : ∀ classId c, t.info classId = some c →
    ∃ c', t'.info classId = some c' ∧ c'.words = c.words ∧ c'.fields.Perm c.fields

namespace ClassTable.Shuffled

variable (hshuffled : t.Shuffled t')
include hshuffled

theorem infoOf {a : Address} {c : ClassInfo} (hc : h.infoOf t a = .ok c) :
    ∃ c', h.infoOf t' a = .ok c' ∧ c'.words = c.words ∧ c'.fields.Perm c.fields := by
  have hclass : h.classOf t' a = h.classOf t a := by
    unfold Heap.classOf
    rw [hshuffled.headers]
  obtain ⟨c', hc', hsame⟩ := hshuffled.info _ c (Heap.info_of_infoOf hc)
  exact ⟨c', Heap.infoOf_of_info (hclass ▸ hc'), hsame⟩

theorem wordsAt {a : Address} {c : ClassInfo} (hc : h.infoOf t a = .ok c) :
    h.wordsAt t' a = h.wordsAt t a := by
  obtain ⟨c', hc', hwords, -⟩ := hshuffled.infoOf hc
  rw [Heap.wordsAt_of_size (Heap.size_of_info hc), Heap.wordsAt_of_size (Heap.size_of_info hc'),
    hshuffled.headers, hwords]

theorem refersTo {a v : Address} {c : ClassInfo} (hc : h.infoOf t a = .ok c) :
    h.RefersTo t' a v ↔ h.RefersTo t a v := by
  obtain ⟨c', hc', -, hfields⟩ := hshuffled.infoOf hc
  unfold Heap.RefersTo
  constructor
  · rintro ⟨d, f, hd, hf, hv⟩
    obtain rfl : d = c' := Except.ok.inj (hd.symm.trans hc')
    exact ⟨c, f, hc, hfields.mem_iff.1 hf, hv⟩
  · rintro ⟨d, f, hd, hf, hv⟩
    obtain rfl : d = c := Except.ok.inj (hd.symm.trans hc)
    exact ⟨c', f, hc', hfields.mem_iff.2 hf, hv⟩

/-- The same objects can be reached. -/
theorem reaches (hw : h.Traceable t roots) (hroots : roots'.toList.Perm roots.toList) :
    Reaches h t' roots' = Reaches h t roots := by
  have hlive : ∀ a, a ∈ roots'.live ↔ a ∈ roots.live := fun a => (hroots.filter _).mem_iff
  funext v
  refine propext ⟨fun hv => ?_, fun hv => ?_⟩
  · refine hv.least (p := Reaches h t roots) (fun a hmem hin => ?_) fun a v _ ha hav => ?_
    · exact .root ((hlive a).1 hmem) hin
    · obtain ⟨c, hc⟩ := hw.registered a ha
      exact ha.refersTo ((hshuffled.refersTo hc).1 hav)
  · refine hv.least (p := Reaches h t' roots') (fun a hmem hin => ?_) fun a v ha ha' hav => ?_
    · exact .root ((hlive a).2 hmem) hin
    · obtain ⟨c, hc⟩ := hw.registered a ha
      exact ha'.refersTo ((hshuffled.refersTo hc).2 hav)

theorem traceable (hw : h.Traceable t roots) (hroots : roots'.toList.Perm roots.toList) :
    h.Traceable t' roots' := by
  have hreaches := hshuffled.reaches hw hroots
  refine ⟨hw.layout, hw.mapped, fun a ha => ?_, fun a ha => ?_⟩
  · rw [hreaches] at ha
    obtain ⟨c, hc⟩ := hw.registered a ha
    obtain ⟨c', hc', -⟩ := hshuffled.infoOf hc
    exact ⟨c', hc'⟩
  · rw [hreaches] at ha
    obtain ⟨c, hc⟩ := hw.registered a ha
    rw [hshuffled.wordsAt hc]
    exact hw.inside a ha

end ClassTable.Shuffled

/-! ### What marking finds -/

/-- Tracing has run to its end, and has found what can be reached: the bitmap shows it, and the
counts are those of the objects and of their words. -/
structure Tracing.Complete (s : Tracing) (h : Heap) (t : ClassTable) (roots : Roots)
    (g : Layout) : Prop where
  sound : s.fault = none
  ended : s.grey = []
  starts : ∀ a, g.IsWord a → (s.bitmap.isMarked a = true ↔ Reaches h t roots a)
  words : ∀ a, g.IsWord a → (s.bitmap.isLive a = true ↔
    ∃ o, Reaches h t roots o ∧ o.toNat ≤ a.toNat ∧ a.toNat < o.toNat + 8 * h.wordsAt t o)
  counted : ∃ found : List Address, found.Nodup ∧ (∀ a, a ∈ found ↔ Reaches h t roots a) ∧
    s.liveObjects = found.length ∧ s.liveWords.toNat = (found.map (h.wordsAt t)).sum

namespace Heap

/-- Another order of the roots and of the fields gives the same bitmap and the same counts. -/
theorem Traceable.trace_congr {g : Layout} (hw : h.Traceable t roots) (hg : g.Covers h.layout)
    {b : Bitmap} (hb : b.Shows g (fun _ => False) (h.wordsAt t)) (hshuffled : t.Shuffled t')
    (hroots : roots'.toList.Perm roots.toList) :
    (h.trace t' roots' b).fault = none ∧ (h.trace t' roots' b).grey = [] ∧
      (h.trace t' roots' b).bitmap = (h.trace t roots b).bitmap ∧
      (h.trace t' roots' b).liveObjects = (h.trace t roots b).liveObjects ∧
      (h.trace t' roots' b).liveWords = (h.trace t roots b).liveWords := by
  have hreaches := hshuffled.reaches hw hroots
  obtain ⟨met, hs, -, hmem⟩ := hw.trace hg hb
  obtain ⟨met', hs', hended, hmem'⟩ := (hshuffled.traceable hw hroots).trace hg
    (hb.congr (fun _ => Iff.rfl) fun _ hfalse => hfalse.elim)
  rw [hreaches] at hmem'
  have hperm : met'.Perm met :=
    (List.perm_ext_iff_of_nodup hs'.nodup hs.nodup).2 fun a => by rw [hmem', hmem]
  have hwords : ∀ a ∈ met', h.wordsAt t' a = h.wordsAt t a := fun a ha => by
    obtain ⟨c, hc⟩ := hw.registered a ((hmem' a).1 ha)
    exact hshuffled.wordsAt hc
  refine ⟨hs'.sound, hended, ?_, ?_, ?_⟩
  · exact (hs'.shows.congr (fun _ => hperm.mem_iff) hwords).ext hg.spans hs.shows
  · rw [hs'.objects, hs.objects, hperm.length_eq]
  · rw [hs'.words, hs.words, List.map_congr_left hwords, (hperm.map _).sum_eq]

/-- Marking a clear bitmap that covers the heap ends, with exactly the objects that can be reached
marked and exactly their words live, each object counted once with its words; and the order of the
roots and of the fields makes no difference. -/
theorem ObjectGraph.trace_complete (hw : h.ObjectGraph t roots) {base : Address}
    {covered : WordCount} (haligned : base.toNat % 8 = 0)
    (hfits : base.toNat + 8 * covered.toNat < 2 ^ 64)
    (hbase : base.toNat ≤ h.layout.base.toNat)
    (hstop : h.layout.stop.toNat ≤ base.toNat + 8 * covered.toNat) :
    (h.trace t roots (.new base covered)).Complete h t roots (Bitmap.new base covered).grid ∧
      ∀ (t' : ClassTable) (roots' : Roots), t.Shuffled t' → roots'.toList.Perm roots.toList →
        let s := h.trace t roots (.new base covered)
        let s' := h.trace t' roots' (.new base covered)
        s'.fault = none ∧ s'.grey = [] ∧ s'.bitmap = s.bitmap ∧
          s'.liveObjects = s.liveObjects ∧ s'.liveWords = s.liveWords := by
  have hg : (Bitmap.new base covered).grid.Covers h.layout :=
    Bitmap.covers_grid haligned hfits hbase hstop
  have hb : (Bitmap.new base covered).Shows (Bitmap.new base covered).grid (fun _ => False)
      (h.wordsAt t) := Bitmap.shows_new ..
  refine ⟨?_, fun t' roots' hshuffled hroots => hw.trace_congr hg hb hshuffled hroots⟩
  obtain ⟨met, hs, hended, hmem⟩ := hw.trace hg hb
  have hshows := hs.shows.congr hmem fun _ _ => rfl
  refine ⟨hs.sound, hended, hshows.starts, hshows.words, met, hs.nodup, hmem, hs.objects, ?_⟩
  have hle := hw.sum_wordsAt_le hs.nodup hs.reached
  have hlt := h.layout.heapWords.toNat_lt
  rw [hs.words]
  exact UInt64.toNat_ofNat_of_lt' (by
    show _ < 2 ^ 64
    omega)

/-- An object that refers to itself, among roots that hold it twice, nothing once, and once a place
outside the heap. -/
theorem ObjectGraph.trace_complete_loop : ∃ (h : Heap) (t t' : ClassTable) (a : Address),
    h.ObjectGraph t #[a, 0, a, 8] ∧ Reaches h t #[a, 0, a, 8] a ∧ h.RefersTo t a a ∧
      h.contains 8 = false ∧ t.Shuffled t' ∧ t' ≠ t ∧
      (h.trace t #[a, 0, a, 8] (.new 0x10000 100)).Complete h t #[a, 0, a, 8]
        (Bitmap.new 0x10000 100).grid ∧
      (h.trace t' #[8, a, a, 0] (.new 0x10000 100)).bitmap
        = (h.trace t #[a, 0, a, 8] (.new 0x10000 100)).bitmap := by
  let config : Config := { regionShift := 4, numRegions := 4, blockShift := 2 }
  let pair : ClassInfo := ⟨"Pair", 4, [2, 3]⟩
  let riap : ClassInfo := ⟨"Pair", 4, [3, 2]⟩
  have hpair : (ClassTable.empty false).register pair = .ok (0, ⟨false, #[pair]⟩) := rfl
  have hv : config.Valid := by decide
  have hb : config.Backed 0x10000 := by decide
  have hinfo : (⟨false, #[pair]⟩ : ClassTable).info 0 = some pair := rfl
  obtain ⟨h, a, hlayout, -, hw, ha⟩ := exists_wellFormed hv hb
    (ClassTable.sound_register (ClassTable.sound_empty _) hpair) rfl hinfo (by decide) (by decide)
  obtain ⟨c, words, ho⟩ := hw.object ha
  obtain rfl : c = pair := by simpa using ClassTable.mem_of_info (info_of_infoOf ho.info)
  have hset : h.setReference ⟨false, #[pair]⟩ a 0 a
      = .ok (h.withMemory (h.memory.store (a.offset 2) a)) := by
    unfold setReference slot
    rw [ho.info]
    rfl
  obtain ⟨hmut, hw', -⟩ := hw.setReference ha (fun _ _ => ha) hset
  have hsound := hw'.settled.layout
  have hlayout' := hmut.layout.trans hlayout
  have hinfo' := (hmut.infoOf ha).trans ho.info
  have hload : (h.withMemory (h.memory.store (a.offset 2) a)).memory.load (a.offset 2) = a := by
    show (h.memory.store (a.offset 2) a).load (a.offset 2) = a
    rw [Memory.load_store, if_pos rfl]
  have hin : (h.withMemory (h.memory.store (a.offset 2) a)).contains a = true := by
    rw [hmut.contains]
    exact ha.contains
  generalize h.withMemory (h.memory.store (a.offset 2) a) = h' at *
  have hbase : h'.layout.base.toNat = 0x10000 := by
    rw [hlayout']
    rfl
  have hword := (hw'.mapped.isWord hsound hin).bottom
  have hne : a ≠ 0 := by
    rintro rfl
    have hzero : (0 : Address).toNat = 0 := rfl
    omega
  have hout : h'.contains 8 = false := by
    refine Bool.eq_false_iff.2 fun hinside => ?_
    have hbottom := (hw'.mapped.isWord hsound hinside).bottom
    have height : (8 : Address).toNat = 8 := rfl
    omega
  have hroot : Reaches h' ⟨false, #[pair]⟩ #[a] a :=
    .root (List.mem_filter.2 ⟨by simp, by simpa using hne⟩) hin
  have hroot' : Reaches h' ⟨false, #[pair]⟩ #[a, 0, a, 8] a :=
    .root (List.mem_filter.2 ⟨by simp, by simpa using hne⟩) hin
  have hgraph : h'.ObjectGraph ⟨false, #[pair]⟩ #[a, 0, a, 8] := by
    refine ((Mutated.refl hw'.settled).wellFormed hw' fun b hb => hb.least
      (p := Reaches h' _ #[a]) (fun v hv hinside => ?_) fun _ _ _ hb hv => hb.refersTo hv).objectGraph
    obtain ⟨hmem, hnonzero⟩ := List.mem_filter.1 hv
    simp only [List.mem_cons, List.not_mem_nil, or_false] at hmem
    rcases hmem with rfl | rfl | rfl | rfl
    · exact hroot
    · simp at hnonzero
    · exact hroot
    · rw [hout] at hinside
      cases hinside
  have hshuffled : ClassTable.Shuffled ⟨false, #[pair]⟩ ⟨false, #[riap]⟩ := by
    refine ⟨rfl, fun classId c hc => ?_⟩
    have hid : classId.toNat = 0 := by
      have hlt := (Array.getElem?_eq_some_iff.1 hc).1
      simpa using hlt
    obtain rfl : pair = c := by
      unfold ClassTable.info at hc
      rw [hid] at hc
      simpa using hc
    exact ⟨riap, by unfold ClassTable.info; rw [hid]; rfl, rfl, by decide⟩
  have hfits : (0x10000 : Address).toNat + 8 * (100 : WordCount).toNat < 2 ^ 64 := by decide
  obtain ⟨hcomplete, horder⟩ := hgraph.trace_complete (by decide) hfits (by rw [hlayout'])
    (by rw [hlayout']; decide)
  have hperm : List.Perm [8, a, a, 0] [a, 0, a, 8] := by
    rw [List.perm_iff_count]
    intro v
    simp only [List.count_cons, List.count_nil]
    omega
  exact ⟨h', _, ⟨false, #[riap]⟩, a, hgraph, hroot', ⟨pair, 2, hinfo', by decide, hload, hne, hin⟩,
    hout, hshuffled, by simp [pair, riap], hcomplete,
    (horder ⟨false, #[riap]⟩ #[8, a, a, 0] hshuffled hperm).2.2.1⟩

end Heap

end MarkCompact
