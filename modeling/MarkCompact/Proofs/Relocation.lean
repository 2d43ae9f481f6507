/-
MarkCompact/Proofs/Relocation.lean

What a collection owes to the program that runs on the heap.

A collection may move every object.  `Relocated h t roots h' roots' move` says
that it has done nothing else that a program could notice: every object that can
be reached is an object of the same class at its new place, with the same lock,
the same identity hash and the same words, its references and the roots follow,
and the objects do not overlap.  Both styles of collection are proved against
this one statement.

Main results: `Relocated.injective`, `Relocated.reaches_iff` (what can be reached
afterwards is what could be reached before, moved) and `Relocated.wellFormed`
(the heap is ready for the next collection).
-/
import MarkCompact.Proofs.LiveObjects
import MarkCompact.Proofs.Transfers
import MarkCompact.Object.Identity

namespace MarkCompact

/-- The instance of the class `c` at `a` in `h` is the one at `move a` in `h'`. -/
structure Heap.Rehomed (h h' : Heap) (t : ClassTable) (move : Address → Address) (a : Address)
    (c : ClassInfo) : Prop where
  object : ∃ words, h'.ObjectAt t (move a) c words
  lock : (h'.memory.loadMark (move a)).lock = (h.memory.loadMark a).lock
  hashed : (h'.memory.loadMark (move a)).isHashed = (h.memory.loadMark a).isHashed
  /-- A hash that has been asked for is still the answer. -/
  identity : (h.memory.loadMark a).isHashed = true →
    (h'.identityHash t (move a)).map Prod.fst = (h.identityHash t a).map Prod.fst
  fields : ∀ f ∈ c.fields, h'.memory.load ((move a).offset f) = move (h.memory.load (a.offset f))
  /-- Every other word after the mark. -/
  plain : ∀ i, 0 < i → i < c.words.toNat → i.toUInt64 ∉ c.fields →
    h'.memory.load ((move a).nth i) = h.memory.load (a.nth i)

/-- The heap `h'` with the roots `roots'` is the heap `h` with the roots `roots`, every object
`a` that can be reached moved to `move a`. -/
structure Relocated (h : Heap) (t : ClassTable) (roots : Roots) (h' : Heap) (roots' : Roots)
    (move : Address → Address) : Prop where
  layout : h'.layout = h.layout
  headers : h'.compactHeaders = h.compactHeaders
  settled : h'.Settled
  mapped : h'.Mapped
  /-- References to anything else stay. -/
  fixed : ∀ a, ¬ Reaches h t roots a → move a = a
  follow : roots' = roots.map move
  object : ∀ a c, Reaches h t roots a → h.infoOf t a = .ok c → h.Rehomed h' t move a c
  apart : ∀ a b, Reaches h t roots a → Reaches h t roots b → a ≠ b →
    (move a).Apart (h'.wordsAt t (move a)) (move b) (h'.wordsAt t (move b))

theorem WellFormed.words_pos {h : Heap} {t : ClassTable} (ht : t.Sound) {a : Address}
    {c : ClassInfo} {words : WordCount} (ho : h.ObjectAt t a c words) : 0 < words.toNat := by
  have hc := ClassTable.mem_of_info (Heap.info_of_infoOf ho.info)
  have h1 := UInt64.le_iff_toNat_le.1 (ht.header c hc)
  have h2 := UInt64.le_iff_toNat_le.1 ho.whole
  have h3 := t.headerWords_pos
  omega

theorem WellFormed.zero_not_contained {h : Heap} {t : ClassTable} {roots : Roots}
    (hw : WellFormed h t roots) : ¬ Reaches h t roots 0 := by
  intro hr
  have hc := ((hw.mapped.contains_iff hw.settled.layout 0).1 hr.contains).1
  have hb := ((hw.settled.layout.contains_iff 0).1 hc).1
  have hpos := hw.settled.layout.nonzero
  have hzero : (0 : Address).toNat = 0 := rfl
  omega

/-! ### What a collection has to establish -/

/-- A classic object that is hashed keeps its hash in its mark. -/
theorem Heap.identityHash_classic {h : Heap} {t : ClassTable} {a : Address}
    (hclassic : h.compactHeaders = false) (hh : (h.memory.loadMark a).isHashed = true) :
    h.identityHash t a = .ok ((h.memory.loadMark a).hash, h) := by
  unfold identityHash
  rw [hclassic]
  dsimp only
  rw [if_neg Bool.false_ne_true, if_pos hh]

/-- An object that has taken its hash along keeps it in its last word. -/
theorem Heap.identityHash_expanded {h : Heap} {t : ClassTable} {a : Address} {words : WordCount}
    (hcompact : h.compactHeaders = true) (hexp : (h.memory.loadMark a).isExpanded = true)
    (hsize : h.size t a = .ok words) (hpos : 0 < words.toNat) :
    h.identityHash t a = .ok ((h.memory.load (a.nth (words.toNat - 1))).toUInt32, h) := by
  have hlast : (words - 1).toNat = words.toNat - 1 :=
    UInt64.toNat_sub_of_le _ _ (UInt64.le_iff_toNat_le.2 hpos)
  unfold identityHash
  rw [if_pos hcompact, if_pos hexp, hsize, ← hlast, ← Address.offset_eq_nth]
  rfl

/-- Any other object with a compact header is hashed by its address. -/
theorem Heap.identityHash_compact {h : Heap} {t : ClassTable} {a : Address}
    (hcompact : h.compactHeaders = true) (hexp : (h.memory.loadMark a).isExpanded = false)
    (hh : (h.memory.loadMark a).isHashed = true) :
    h.identityHash t a = .ok (a.identityHash, h) := by
  unfold identityHash
  rw [if_pos hcompact, hexp, hh]
  rfl

theorem Heap.identityHash_congr {h g : Heap} {t : ClassTable} (hground : h.SameGround g)
    (a : Address) :
    (g.identityHash t a).map Prod.fst = (h.identityHash t a).map Prod.fst := by
  unfold identityHash
  rw [hground.headers, hground.memory, Heap.size_congr hground.memory]
  dsimp only
  split
  · split
    · cases h.size t a <;> rfl
    · split <;> rfl
  · split <;> rfl

/-- Planning has not changed what an object looks like. -/
theorem Heap.Rehomed.of_ground {h g h' : Heap} {t : ClassTable} {move : Address → Address}
    {a : Address} {c : ClassInfo} (hground : h.SameGround g) (hr : g.Rehomed h' t move a c) :
    h.Rehomed h' t move a c := by
  have hmem := hground.memory
  refine ⟨hr.object, ?_, ?_, ?_, ?_, ?_⟩
  · rw [hr.lock, hmem]
  · rw [hr.hashed, hmem]
  · intro hh
    rw [← Heap.identityHash_congr hground]
    exact hr.identity (by rwa [hmem])
  · intro f hf
    rw [hr.fields f hf, hmem]
  · intro i h1 h2 h3
    rw [hr.plain i h1 h2 h3, hmem]

/-- What the phases of a collection establish for the heap `g` after planning is a relocation
of the heap before. -/
theorem relocated_of_surveyed {h g h' : Heap} {t : ClassTable} {roots : Roots} {b : Bitmap}
    {move : Address → Address} (hground : h.SameGround g)
    (hs : Surveyed g t b (Reaches h t roots)) (hlayout : h'.layout = g.layout)
    (hheaders : h'.compactHeaders = g.compactHeaders) (hsettled : h'.Settled) (hmapped : h'.Mapped)
    (hfixed : ∀ a, ¬ Reaches h t roots a → move a = a)
    (hobject : ∀ a c words, Reaches h t roots a → g.ObjectAt t a c words →
      g.Rehomed h' t move a c)
    (hapart : ∀ a b, Reaches h t roots a → Reaches h t roots b → a ≠ b →
      (move a).Apart (h'.wordsAt t (move a)) (move b) (h'.wordsAt t (move b))) :
    Relocated h t roots h' (roots.map move) move := by
  refine ⟨hlayout.trans hground.layout, hheaders.trans hground.headers, hsettled, hmapped, hfixed,
    rfl, ?_, hapart⟩
  intro a c ha hc
  obtain ⟨cls, words, ho⟩ := hs.populated.object a ha
  obtain rfl : cls = c := by
    have := ho.info
    rw [Heap.infoOf_congr hground.memory, hc] at this
    simpa using this.symm
  exact (hobject a cls words ha ho).of_ground hground

namespace Relocated

variable {h h' : Heap} {t : ClassTable} {roots roots' : Roots} {move : Address → Address}

theorem objectAt (hr : Relocated h t roots h' roots' move) (hw : WellFormed h t roots)
    {a : Address} (ha : Reaches h t roots a) :
    ∃ c words, h.infoOf t a = .ok c ∧ h'.ObjectAt t (move a) c words := by
  obtain ⟨c, words, ho⟩ := hw.object ha
  obtain ⟨words', ho'⟩ := (hr.object a c ha ho.info).object
  exact ⟨c, words', ho.info, ho'⟩

theorem wordsAt_pos (hr : Relocated h t roots h' roots' move) (hw : WellFormed h t roots)
    {a : Address} (ha : Reaches h t roots a) : 0 < h'.wordsAt t (move a) := by
  obtain ⟨c, words, -, ho⟩ := hr.objectAt hw ha
  rw [ho.wordsAt_eq]
  exact WellFormed.words_pos hw.classes ho

/-- No two objects are moved to the same place. -/
theorem injective (hr : Relocated h t roots h' roots' move) (hw : WellFormed h t roots)
    {a b : Address} (ha : Reaches h t roots a) (hb : Reaches h t roots b)
    (heq : move a = move b) : a = b := by
  by_contra hne
  have hapart := hr.apart a b ha hb hne
  have hpos := hr.wordsAt_pos hw ha
  have hpos' := hr.wordsAt_pos hw hb
  unfold Address.Apart at hapart
  rw [heq] at hapart hpos
  omega

theorem move_zero (hr : Relocated h t roots h' roots' move) (hw : WellFormed h t roots) :
    move 0 = 0 :=
  hr.fixed 0 hw.zero_not_contained

theorem contains (hr : Relocated h t roots h' roots' move) (hw : WellFormed h t roots)
    (a : Address) : h'.contains a = h.contains a := by
  have h1 := hr.mapped.contains_iff hr.settled.layout a
  have h2 := hw.mapped.contains_iff hw.settled.layout a
  rw [hr.layout] at h1
  rw [Bool.eq_iff_iff]
  exact h1.trans h2.symm

/-- A reference refers to an object afterwards exactly if it did before. -/
theorem refers_iff (hr : Relocated h t roots h' roots' move) (hw : WellFormed h t roots)
    {v : Address} (hv : v ≠ 0 → h.contains v = true → Reaches h t roots v) :
    move v ≠ 0 ∧ h'.contains (move v) = true ↔ v ≠ 0 ∧ h.contains v = true := by
  by_cases hlive : Reaches h t roots v
  · obtain ⟨c, words, -, ho⟩ := hr.objectAt hw hlive
    have hne : v ≠ 0 := by
      rintro rfl
      exact hw.zero_not_contained hlive
    have hne' : move v ≠ 0 := by
      intro h0
      rw [← hr.move_zero hw] at h0
      -- the target lies in the grid, and the null address does not
      have hc := ((hr.mapped.contains_iff hr.settled.layout _).1 ho.inside).1
      have hb := ((hr.settled.layout.contains_iff _).1 hc).1
      have hpos := hr.settled.layout.nonzero
      rw [h0, hr.move_zero hw] at hb
      have hzero : (0 : Address).toNat = 0 := rfl
      omega
    exact ⟨fun _ => ⟨hne, hlive.contains⟩, fun _ => ⟨hne', ho.inside⟩⟩
  · rw [hr.fixed v hlive, hr.contains hw]

/-! ### What can be reached -/

/-- What a field refers to afterwards. -/
theorem refersTo (hr : Relocated h t roots h' roots' move) (hw : WellFormed h t roots)
    {a v : Address} (ha : Reaches h t roots a) :
    h'.RefersTo t (move a) v ↔ ∃ w, h.RefersTo t a w ∧ v = move w := by
  obtain ⟨c, words, hc, ho⟩ := hr.objectAt hw ha
  have hfields := (hr.object a c ha hc).fields
  constructor
  · rintro ⟨d, f, hd, hf, hload, hne, hin⟩
    rw [ho.info] at hd
    obtain rfl : c = d := by simpa using hd
    rw [hfields f hf] at hload
    have hv : h.memory.load (a.offset f) ≠ 0 → h.contains (h.memory.load (a.offset f)) = true →
        Reaches h t roots (h.memory.load (a.offset f)) := fun h1 h2 =>
      ha.refersTo ⟨c, f, hc, hf, rfl, h1, h2⟩
    obtain ⟨h1, h2⟩ := (hr.refers_iff hw hv).1 ⟨by rw [hload]; exact hne, by rw [hload]; exact hin⟩
    exact ⟨_, ⟨c, f, hc, hf, rfl, h1, h2⟩, hload.symm⟩
  · rintro ⟨w, href, rfl⟩
    have hlive := ha.refersTo href
    obtain ⟨d, f, hd, hf, hload, hne, hin⟩ := href
    rw [hc] at hd
    obtain rfl : c = d := by simpa using hd
    obtain ⟨h1, h2⟩ := (hr.refers_iff hw fun _ _ => hlive).2 ⟨hne, hin⟩
    refine ⟨c, f, ho.info, hf, ?_, h1, h2⟩
    rw [hfields f hf, hload]

theorem mem_live (hr : Relocated h t roots h' roots' move) {v : Address} :
    v ∈ roots'.toList ↔ ∃ w ∈ roots.toList, move w = v := by
  rw [hr.follow, Array.toList_map, List.mem_map]

/-- What can be reached afterwards is what could be reached before, moved. -/
theorem reaches_iff (hr : Relocated h t roots h' roots' move) (hw : WellFormed h t roots)
    {b : Address} : Reaches h' t roots' b ↔ ∃ a, Reaches h t roots a ∧ move a = b := by
  constructor
  · intro hb
    refine hb.least (p := fun b => ∃ a, Reaches h t roots a ∧ move a = b) ?_ ?_
    · intro v hv hin
      obtain ⟨hmem, hne⟩ := List.mem_filter.1 hv
      obtain ⟨w, hw', rfl⟩ := hr.mem_live.1 hmem
      have hreach : w ≠ 0 → h.contains w = true → Reaches h t roots w := fun h1 h2 =>
        .root (List.mem_filter.2 ⟨hw', by simpa using h1⟩) h2
      obtain ⟨h1, h2⟩ := (hr.refers_iff hw hreach).1 ⟨by simpa using hne, hin⟩
      exact ⟨w, hreach h1 h2, rfl⟩
    · rintro b v - ⟨a, ha, rfl⟩ href
      obtain ⟨w, hw', rfl⟩ := (hr.refersTo hw ha).1 href
      exact ⟨w, ha.refersTo hw', rfl⟩
  · rintro ⟨a, ha, rfl⟩
    refine ha.least (p := fun a => Reaches h' t roots' (move a)) ?_ ?_
    · intro v hv hin
      obtain ⟨hmem, hne⟩ := List.mem_filter.1 hv
      obtain ⟨h1, h2⟩ := (hr.refers_iff hw fun _ _ => .root hv hin).2 ⟨by simpa using hne, hin⟩
      exact .root (List.mem_filter.2 ⟨hr.mem_live.2 ⟨v, hmem, rfl⟩, by simpa using h1⟩) h2
    · intro a v ha ha' href
      exact ha'.refersTo ((hr.refersTo hw ha).2 ⟨v, href, rfl⟩)

/-! ### The next collection -/

/-- The heap is ready for the next collection. -/
theorem wellFormed (hr : Relocated h t roots h' roots' move) (hw : WellFormed h t roots) :
    WellFormed h' t roots' := by
  refine ⟨hr.settled, hr.mapped, hw.classes, ?_, ⟨?_, ?_⟩, ?_⟩
  · rw [hr.headers]
    exact hw.headers
  · intro b hb
    obtain ⟨a, ha, rfl⟩ := (hr.reaches_iff hw).1 hb
    obtain ⟨c, words, -, ho⟩ := hr.objectAt hw ha
    exact ⟨c, words, ho⟩
  · intro b d hb hd hlt
    obtain ⟨a, ha, rfl⟩ := (hr.reaches_iff hw).1 hb
    obtain ⟨e, he, rfl⟩ := (hr.reaches_iff hw).1 hd
    have hne : a ≠ e := by
      rintro rfl
      exact absurd hlt (Nat.lt_irrefl _)
    have hapart := hr.apart a e ha he hne
    unfold Address.Apart at hapart
    omega
  · intro l hn hl
    -- every object reached afterwards comes from one reached before
    have hback : ∀ b, ∃ a, b ∈ l → Reaches h t roots a ∧ move a = b := by
      intro b
      by_cases hb : b ∈ l
      · obtain ⟨a, ha⟩ := (hr.reaches_iff hw).1 (hl b hb)
        exact ⟨a, fun _ => ha⟩
      · exact ⟨0, fun hmem => absurd hmem hb⟩
    choose back hspec using hback
    have hlen := hw.few (l.map back) (hn.map_on fun b hb d hd heq => by
      rw [← (hspec b hb).2, ← (hspec d hd).2, heq]) (by
      intro a ha
      obtain ⟨b, hb, rfl⟩ := List.mem_map.1 ha
      exact (hspec b hb).1)
    rwa [List.length_map] at hlen

end Relocated

end MarkCompact
