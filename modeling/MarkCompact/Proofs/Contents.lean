/-
MarkCompact/Proofs/Contents.lean

What the words of an object are after a collection.

Wherever an object goes, its words at the new place can be told from those at the old one: its
mark is kept or made anew, its references have followed, every other word is the same, and a word
with the hash comes last if the object has grown (`Heap.wordAfter`).  No other word of the heap
has a part in it.

Main results: `ParallelCycle.Completed.load_word` and `SerialCycle.Completed.load_word`.
-/
import MarkCompact.Proofs.ParallelRelocation
import MarkCompact.Proofs.SerialRelocation

namespace MarkCompact

namespace Heap

variable {h h₂ g h' : Heap} {t : ClassTable} {b : Bitmap} {live : Address → Prop}

/-- The word number `k` of the object at `a` once the objects have gone where `move` says. -/
def wordAfter (h : Heap) (t : ClassTable) (overwrites : Bool) (move : Address → Address)
    (a : Address) (k : Nat) : Word :=
  if k = 0 then (h.markAfter overwrites a (move a)).raw
  else if k < h.wordsAt t a then
    if a.nth k ∈ h.fieldsAt t a then move (h.memory.load (a.nth k)) else h.memory.load (a.nth k)
  else a.identityHash.toUInt64

end Heap

/-- A word of a live object once references have followed. -/
theorem Surveyed.load_adjusted {h g g' : Heap} {t : ClassTable} {b : Bitmap}
    {live : Address → Prop} (hs : Surveyed h t b live) {move : Address → Address}
    (hadj : g.Adjusted g' ((h.liveList b).flatMap (h.fieldsAt t)) move) {a : Address}
    (ha : live a) {k : Nat} (hk : k < h.wordsAt t a) :
    g'.memory.load (a.nth k) = if a.nth k ∈ h.fieldsAt t a then move (g.memory.load (a.nth k))
      else g.memory.load (a.nth k) := by
  rw [hadj.load]
  have hiff : a.nth k ∈ (h.liveList b).flatMap (h.fieldsAt t) ↔ a.nth k ∈ h.fieldsAt t a := by
    rw [List.mem_flatMap]
    constructor
    · rintro ⟨c, hc, hx⟩
      have hlive := (hs.mem_liveList c).1 hc
      obtain ⟨i, -, hi, heq⟩ := hs.mem_fieldsAt hlive hx
      obtain ⟨rfl, -⟩ := hs.word_unique ha hlive hk hi heq
      exact hx
    · exact fun hx => ⟨a, (hs.mem_liveList a).2 ha, hx⟩
  simp only [hiff]

variable {h h₂ g h' : Heap} {t : ClassTable} {b : Bitmap} {live : Address → Prop}

/-! ### The parallel style -/

namespace ParallelCycle.Completed

variable {part : List Nat} {n : Forwarding.Announced} {e : Encoding} {starts : StartTable}
  {kept : Nat} {tops : Nat → Address} {bs : List Berth} {vs : List HumongousMove}
  {s : Relocation} {release : Bool}
  (hc : Completed h t b live part n e starts kept tops bs vs s release h₂ g h')
include hc

/-- A word of an object at its new place. -/
theorem load_word {a : Address} (ha : live a) {k : Nat}
    (hk : k < h.wordsFrom t a (Berth.placeOf (h.places bs vs) a)) :
    h'.memory.load ((Berth.placeOf (h.places bs vs) a).nth k)
      = h.wordAfter t s.forwarding.overwritesMarks (Berth.placeOf (h.places bs vs)) a k := by
  unfold Heap.wordAfter
  by_cases h0 : k = 0
  · rw [if_pos h0, h0, Address.nth_zero, ← hc.loadMark_place ha]
    rfl
  rw [if_neg h0]
  by_cases hold : k < h.wordsAt t a
  · rw [if_pos hold, hc.load_place ha (Nat.pos_of_ne_zero h0) hold,
      hc.surveyed.load_adjusted hc.adjusted ha hold,
      hc.load_recorded ha (Nat.pos_of_ne_zero h0) hold]
  · rw [if_neg hold]
    rw [h.wordsFrom_eq] at hk
    split at hk
    · rename_i hgrows
      rw [show k = h.wordsAt t a by omega, hc.load_hash ha hgrows]
    · omega

end ParallelCycle.Completed

/-! ### The serial style -/

/-- A word of an object at its new place. The serial style leaves marks alone. -/
theorem SerialCycle.Completed.load_word {d : Nat} {table : BlockOffsets} {spaces : Array Space}
    {bs : List Berth} {release : Bool}
    (hc : Completed h t b live d table spaces bs release h₂ g h')
    (hclassic : h.compactHeaders = false) {a : Address} (ha : live a) {k : Nat}
    (hk : k < h.wordsAt t a) :
    h'.memory.load ((Berth.placeOf bs a).nth k) = h.wordAfter t false (Berth.placeOf bs) a k := by
  unfold Heap.wordAfter
  have hgrows : h.growsAt a = false := Heap.growsAt_of_classic hclassic a
  by_cases h0 : k = 0
  · have hmark := hc.loadMark_place ha
    unfold Heap.markAfter
    dsimp only
    rw [if_pos h0, h0, Address.nth_zero, hgrows, Bool.false_and, if_neg Bool.false_ne_true,
      if_neg Bool.false_ne_true, ite_self, ← hmark]
    rfl
  · rw [if_neg h0, if_pos hk, hc.load_place ha hk, hc.surveyed.load_adjusted hc.adjusted ha hk]

end MarkCompact
