/-
MarkCompact/Proofs/HeaderStates.lean

What headers say after a collection.

A serial collection copies marks as they are.  A parallel one may have to make a mark anew or
write it back, and the mark of an object that takes its hash along changes by one bit.  Either
way the mark at the new place says what the mark said before (`Heap.HeaderSurvives`).

Main results: `ParallelCycle.Completed.headerSurvives` and
`SerialCycle.Completed.headerSurvives`.
-/
import MarkCompact.Proofs.ParallelRelocation
import MarkCompact.Proofs.SerialRelocation

namespace MarkCompact

/-- The 31 bits of a classic hash are kept, whether there is a hash or not. -/
theorem Mark.Carried.hash_eq {m m' : Mark} {grown : Bool} (hc : m.Carried m' false grown)
    (hm : m.Proper false) : m'.hash = m.hash := by
  cases hh : m.isHashed with
  | true => exact hc.hash rfl hh
  | false =>
    have h0 := hm.hashAsked rfl hh
    have h1 := hc.proper.hashAsked rfl (hc.hashed.trans hh)
    exact Mark.hash_congr (h1.trans h0.symm)

namespace Heap

/-- The header of the object at `v` in `h'` says what the one at `a` in `h` said. -/
structure HeaderSurvives (h h' : Heap) (t : ClassTable) (a v : Address) : Prop where
  notForwarded : (h'.memory.loadMark v).isForwarded = false
  lock : (h'.memory.loadMark v).lock = (h.memory.loadMark a).lock
  hashed : (h'.memory.loadMark v).isHashed = (h.memory.loadMark a).isHashed
  hash : h.compactHeaders = false → (h'.memory.loadMark v).hash = (h.memory.loadMark a).hash
  classId : h.compactHeaders = true →
    (h'.memory.loadMark v).classId = (h.memory.loadMark a).classId
  expanded : h.compactHeaders = true → ((h'.memory.loadMark v).isExpanded = true ↔
    (h.memory.loadMark a).isExpanded = true ∨ v ≠ a ∧ (h.memory.loadMark a).isHashed = true)
  words : h'.wordsAt t v = h.wordsAt t a + if h.growsTo a v then 1 else 0
  /-- The last word of an object that has grown. -/
  trailing : h.wordsAt t a < h'.wordsAt t v →
    h'.memory.load (v.nth (h'.wordsAt t v - 1)) = a.identityHash.toUInt64
  stays : v = a → h'.memory.loadMark v = h.memory.loadMark a

/-- Planning has not changed headers. -/
theorem HeaderSurvives.of_ground {h g h' : Heap} {t : ClassTable} {a v : Address}
    (hground : h.SameGround g) (hs : g.HeaderSurvives h' t a v) : h.HeaderSurvives h' t a v := by
  have hwords : g.wordsAt t a = h.wordsAt t a := wordsAt_congr hground.memory
  have hgrows : g.growsTo a v = h.growsTo a v := by
    unfold growsTo growsAt grows
    rw [hground.memory, hground.headers]
  obtain ⟨h1, h2, h3, h4, h5, h6, h7, h8, h9⟩ := hs
  rw [hground.memory] at h2 h3 h4 h5 h6 h9
  rw [hground.headers] at h4 h5 h6
  rw [hwords] at h7 h8
  rw [hgrows] at h7
  exact ⟨h1, h2, h3, h4, h5, h6, h7, h8, h9⟩

end Heap

/-- A parallel collection keeps what headers say. -/
theorem ParallelCycle.Completed.headerSurvives {h h₂ g h' : Heap} {t : ClassTable} {b : Bitmap}
    {live : Address → Prop} {part : List Nat} {n : Forwarding.Announced} {e : Encoding}
    {starts : StartTable} {kept : Nat} {tops : Nat → Address} {bs : List Berth}
    {vs : List HumongousMove} {s : Relocation} {release : Bool}
    (hc : Completed h t b live part n e starts kept tops bs vs s release h₂ g h') {a : Address}
    (ha : live a) : h.HeaderSurvives h' t a (Berth.placeOf (h.places bs vs) a) := by
  have hcarried := hc.carried ha
  have hwords := hc.wordsAt_place ha
  rw [h.wordsFrom_eq] at hwords
  obtain ⟨c, words, ho⟩ := hc.surveyed.populated.object a ha
  refine ⟨hcarried.proper.notForwarded, hcarried.lock, hcarried.hashed, ?_, hcarried.classId, ?_,
    hwords, ?_, fun hstays => ?_⟩
  · intro hclassic
    rw [hclassic] at hcarried
    have hmark := ho.mark
    rw [hclassic] at hmark
    exact hcarried.hash_eq hmark
  · intro hcompact
    rw [hcarried.expanded, Bool.or_eq_true, Heap.growsTo_eq_true]
    cases hexpanded : (h.memory.loadMark a).isExpanded with
    | true => simp
    | false => simp [hcompact]
  · intro hlt
    cases hgrows : h.growsTo a (Berth.placeOf (h.places bs vs) a) with
    | false =>
      rw [hgrows, if_neg Bool.false_ne_true] at hwords
      omega
    | true =>
      rw [hgrows, if_pos rfl] at hwords
      rw [hwords]
      exact hc.load_hash ha hgrows
  · rw [hstays]
    exact hc.loadMark_stays ha hstays

/-- A serial collection leaves headers as they are. -/
theorem SerialCycle.Completed.headerSurvives {h h₂ g h' : Heap} {t : ClassTable} {b : Bitmap}
    {live : Address → Prop} {d : Nat} {table : BlockOffsets} {spaces : Array Space}
    {bs : List Berth} {release : Bool} (hc : Completed h t b live d table spaces bs release h₂ g h')
    (hclassic : h.compactHeaders = false) {a : Address} (ha : live a) :
    h.HeaderSurvives h' t a (Berth.placeOf bs a) := by
  have hmark := hc.loadMark_place ha
  have hwords := hc.wordsAt_place ha
  obtain ⟨c, words, ho⟩ := hc.surveyed.populated.object a ha
  have hgrows : h.growsTo a (Berth.placeOf bs a) = false := by
    rw [Bool.eq_false_iff]
    intro hgrows
    rw [(Heap.growsTo_eq_true.1 hgrows).2.1] at hclassic
    cases hclassic
  refine ⟨?_, by rw [hmark], by rw [hmark], fun _ => by rw [hmark], fun _ => by rw [hmark], ?_, ?_,
    ?_, fun _ => hmark⟩
  · rw [hmark]
    exact ho.mark.notForwarded
  · intro hcompact
    rw [hclassic] at hcompact
    cases hcompact
  · rw [hwords, hgrows]
    rfl
  · intro hlt
    rw [hwords] at hlt
    exact absurd hlt (Nat.lt_irrefl _)

end MarkCompact
