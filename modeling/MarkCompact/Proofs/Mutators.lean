/-
MarkCompact/Proofs/Mutators.lean

The program that runs on the heap, between two collections.

It stores references, locks objects and asks for their identity hashes.
`Heap.Mutated h h' t live` says what all of these leave alone: every live object
keeps its place, its class and its size, and a hash that has been asked for
stays the answer.  What can be reached only shrinks, so a well-formed heap stays
well-formed.

Main results: `WellFormed.setReference`, `WellFormed.setLock`,
`WellFormed.identityHash` (the heap stays well-formed), and `Mutated.hash` (a
hash stays the answer).
-/
import MarkCompact.Proofs.Allocation
import MarkCompact.Proofs.Marks
import MarkCompact.Proofs.Relocation

namespace MarkCompact

variable {h h' : Heap} {t : ClassTable} {roots roots' : Roots} {a : Address}

/-! ### What a mutation leaves alone -/

namespace Heap

/-- The object at `a` in `h` is the same object in `h'`. -/
structure Kept (h h' : Heap) (t : ClassTable) (a : Address) : Prop where
  classOf : h'.classOf t a = h.classOf t a
  expanded : (h'.memory.loadMark a).isExpanded = (h.memory.loadMark a).isExpanded
  proper : (h.memory.loadMark a).Proper h.compactHeaders →
    (h'.memory.loadMark a).Proper h'.compactHeaders
  hashed : (h.memory.loadMark a).isHashed = true → (h'.memory.loadMark a).isHashed = true
  /-- A classic hash that has been asked for. -/
  hash : (h.memory.loadMark a).isHashed = true →
    (h'.memory.loadMark a).hash = (h.memory.loadMark a).hash
  /-- The trailing word of an object that carries its hash. -/
  trailing : ∀ words, h.size t a = .ok words → (h.memory.loadMark a).isExpanded = true →
    h'.memory.load (a.offset (words - 1)) = h.memory.load (a.offset (words - 1))

/-- The live objects of `h` are the same objects in `h'`. -/
structure Mutated (h h' : Heap) (t : ClassTable) (live : Address → Prop) : Prop where
  layout : h'.layout = h.layout
  headers : h'.compactHeaders = h.compactHeaders
  span : h.memory.SameSpan h'.memory
  settled : h'.Settled
  placed : ∀ b w, h.PlacedAt b w → h'.PlacedAt b w
  kept : ∀ b, live b → Kept h h' t b

/-- An object none of whose words change. -/
theorem Kept.of_words {words : WordCount} (hclassic : t.compactHeaders = false → 1 < words.toNat)
    (hheaders : h'.compactHeaders = h.compactHeaders) (hs : h.size t a = .ok words)
    (hpos : 0 < words.toNat) (hw : ∀ i < words.toNat, h'.memory.load (a.nth i) = h.memory.load (a.nth i)) :
    Kept h h' t a := by
  have hmark : h'.memory.loadMark a = h.memory.loadMark a := by
    have h0 := hw 0 hpos
    rw [Address.nth_zero] at h0
    unfold Memory.loadMark
    rw [h0]
  refine ⟨?_, by rw [hmark], by rw [hmark, hheaders]; exact id, by rw [hmark]; exact id,
    fun _ => by rw [hmark], ?_⟩
  · unfold Heap.classOf
    rw [hmark]
    split
    · rfl
    · rename_i hc
      rw [Address.offset_eq_nth]
      exact congrArg UInt64.toUInt32 (hw 1 (hclassic (by simpa using hc)))
  · intro words' hs' _
    obtain rfl : words = words' := by
      rw [hs] at hs'
      exact Except.ok.inj hs'
    have h1 := UInt64.toNat_sub_of_le words 1 (UInt64.le_iff_toNat_le.2 hpos)
    have hone : (1 : UInt64).toNat = 1 := rfl
    rw [Address.offset_eq_nth]
    exact hw _ (by omega)

namespace Mutated

variable {live : Address → Prop}

theorem refl (hs : h.Settled) : Mutated h h t live :=
  ⟨rfl, rfl, Memory.SameSpan.refl _, hs, fun _ _ hp => hp,
    fun _ _ => ⟨rfl, rfl, id, id, fun _ => rfl, fun _ _ _ => rfl⟩⟩

theorem infoOf (hm : Mutated h h' t live) (ha : live a) : h'.infoOf t a = h.infoOf t a := by
  unfold Heap.infoOf
  rw [(hm.kept a ha).classOf]

theorem size (hm : Mutated h h' t live) (ha : live a) : h'.size t a = h.size t a := by
  unfold Heap.size
  rw [hm.infoOf ha, (hm.kept a ha).expanded]

theorem wordsAt (hm : Mutated h h' t live) (ha : live a) : h'.wordsAt t a = h.wordsAt t a := by
  unfold Heap.wordsAt
  rw [hm.size ha]

theorem contains (hm : Mutated h h' t live) (b : Address) : h'.contains b = h.contains b :=
  contains_congr hm.layout hm.span b

theorem objectAt (hm : Mutated h h' t live) (ha : live a) {c : ClassInfo} {words : WordCount}
    (ho : h.ObjectAt t a c words) : h'.ObjectAt t a c words :=
  ⟨by rw [hm.contains]; exact ho.inside, by rw [hm.infoOf ha]; exact ho.info,
    by rw [hm.size ha]; exact ho.size, ho.whole, (hm.kept a ha).proper ho.mark,
    hm.placed a words ho.place⟩

/-- A hash that has been asked for stays the answer. -/
theorem hash (hm : Mutated h h' t live) (ha : live a) {words : WordCount}
    (hs : h.size t a = .ok words) (hh : (h.memory.loadMark a).isHashed = true) :
    (h'.identityHash t a).map Prod.fst = (h.identityHash t a).map Prod.fst := by
  have hk := hm.kept a ha
  have hs' : h'.size t a = .ok words := by rw [hm.size ha]; exact hs
  unfold identityHash
  dsimp only
  rw [hm.headers, hk.expanded, hk.hashed hh, hh, if_pos rfl, if_pos rfl, if_pos rfl, if_pos rfl]
  split
  · split
    · rename_i he
      rw [hs, hs']
      show Except.ok _ = Except.ok _
      rw [hk.trailing words hs he]
    · rfl
  · show Except.ok _ = Except.ok _
    rw [hk.hash hh]

/-- What can be reached only shrinks, so the heap stays well-formed. -/
theorem wellFormed (hm : Mutated h h' t (Reaches h t roots)) (hw : WellFormed h t roots)
    (hreach : ∀ b, Reaches h' t roots' b → Reaches h t roots b) : WellFormed h' t roots' := by
  refine ⟨hm.settled, hw.mapped.of_span hm.layout hm.span, hw.classes, ?_, ⟨?_, ?_⟩, ?_⟩
  · rw [hm.headers]
    exact hw.headers
  · intro b hb
    obtain ⟨c, words, ho⟩ := hw.object (hreach b hb)
    exact ⟨c, words, hm.objectAt (hreach b hb) ho⟩
  · intro b d hb hd hlt
    rw [hm.wordsAt (hreach b hb)]
    exact hw.populated.disjoint b d (hreach b hb) (hreach d hd) hlt
  · intro l hn hl
    exact hw.few l hn fun b hb => hreach b (hl b hb)

/-- A mutation after which nothing else can be reached. -/
theorem spec (hm : Mutated h h' t (Reaches h t roots)) (hw : WellFormed h t roots)
    (hreach : ∀ b, Reaches h' t roots' b → Reaches h t roots b) :
    Mutated h h' t (Reaches h t roots) ∧ WellFormed h' t roots' ∧
      ∀ b, Reaches h' t roots' b → Reaches h t roots b :=
  ⟨hm, hm.wellFormed hw hreach, hreach⟩

end Mutated

/-- What can be reached afterwards, when every root and every field that changes comes to hold
something that can be reached. -/
theorem Mutated.reaches (hm : Mutated h h' t (Reaches h t roots))
    (hroots : ∀ v ∈ roots'.live, h.contains v = true → Reaches h t roots v)
    (hfields : ∀ b c f, Reaches h t roots b → h.infoOf t b = .ok c → f ∈ c.fields →
      h'.memory.load (b.offset f) ≠ 0 → h.contains (h'.memory.load (b.offset f)) = true →
      Reaches h t roots (h'.memory.load (b.offset f)))
    {b : Address} (hb : Reaches h' t roots' b) : Reaches h t roots b := by
  refine Reaches.least ?_ ?_ hb
  · intro v hv hin
    exact hroots v hv (by rwa [← hm.contains])
  · intro b v _ ih hv
    obtain ⟨c, f, hc, hf, rfl, hne, hin⟩ := hv
    rw [hm.contains] at hin
    rw [hm.infoOf ih] at hc
    exact hfields b c f ih hc hf hne hin

end Heap

/-! ### Words of live objects -/

namespace WellFormed

theorem wordsAt_pos (hw : WellFormed h t roots) (ha : Reaches h t roots a) :
    0 < h.wordsAt t a := by
  obtain ⟨c, words, ho⟩ := hw.object ha
  rw [ho.wordsAt_eq]
  exact words_pos hw.classes ho

theorem end_lt (hw : WellFormed h t roots) (ha : Reaches h t roots a) :
    a.toNat + 8 * h.wordsAt t a < 2 ^ 64 := by
  obtain ⟨c, words, ho⟩ := hw.object ha
  have h1 := (ho.place.bounds hw.settled.toTabled).2
  have h2 := h.layout.stop.toNat_lt
  rw [ho.wordsAt_eq]
  omega

theorem apart (hw : WellFormed h t roots) {b : Address} (ha : Reaches h t roots a)
    (hb : Reaches h t roots b) (hne : a ≠ b) : a.Apart (h.wordsAt t a) b (h.wordsAt t b) := by
  rcases Nat.lt_trichotomy a.toNat b.toNat with hlt | heq | hlt
  · exact .inl (hw.populated.disjoint a b ha hb hlt)
  · exact absurd (UInt64.toNat_inj.1 heq) hne
  · exact .inr (hw.populated.disjoint b a hb ha hlt)

/-- A word of one live object is no word of another one. -/
theorem nth_ne (hw : WellFormed h t roots) {b : Address} (ha : Reaches h t roots a)
    (hb : Reaches h t roots b) (hne : a ≠ b) {i j : Nat} (hi : i < h.wordsAt t a)
    (hj : j < h.wordsAt t b) : a.nth i ≠ b.nth j := by
  intro heq
  have h1 := hw.end_lt ha
  have h2 := hw.end_lt hb
  have h3 := congrArg UInt64.toNat heq
  rw [Address.toNat_nth (by omega), Address.toNat_nth (by omega)] at h3
  rcases hw.apart ha hb hne with h4 | h4 <;> omega

/-- A classic object has a second word in its header. -/
theorem one_lt_words (hw : WellFormed h t roots) {c : ClassInfo} {words : WordCount}
    (ho : h.ObjectAt t a c words) (hclassic : t.compactHeaders = false) : 1 < words.toNat := by
  have h1 := hw.classes.header c (ClassTable.mem_of_info (Heap.info_of_infoOf ho.info))
  unfold ClassTable.headerWords at h1
  rw [hclassic, if_neg Bool.false_ne_true, UInt64.le_iff_toNat_le] at h1
  have h2 := UInt64.le_iff_toNat_le.1 ho.whole
  have h3 : (2 : UInt64).toNat = 2 := rfl
  omega

/-- A store into one live object leaves all others as they are. -/
theorem kept_store_of_ne (hw : WellFormed h t roots) {b : Address} (ha : Reaches h t roots a)
    (hb : Reaches h t roots b) (hne : a ≠ b) {i : Nat} (hi : i < h.wordsAt t a) (v : Word) :
    h.Kept (h.withMemory (h.memory.store (a.nth i) v)) t b := by
  obtain ⟨c, words, ho⟩ := hw.object hb
  refine Heap.Kept.of_words (hw.one_lt_words ho) rfl ho.size (words_pos hw.classes ho) ?_
  intro j hj
  exact Memory.load_store_of_ne _ (hw.nth_ne ha hb hne hi (by rwa [ho.wordsAt_eq])) v

/-- A store into a live object is a mutation if the object is the same afterwards. -/
theorem mutated_store (hw : WellFormed h t roots) (ha : Reaches h t roots a) {i : Nat}
    (hi : i < h.wordsAt t a) {v : Word}
    (hkept : h.Kept (h.withMemory (h.memory.store (a.nth i) v)) t a) :
    h.Mutated (h.withMemory (h.memory.store (a.nth i) v)) t (Reaches h t roots) := by
  refine ⟨rfl, rfl, Memory.sameSpan_store .., Heap.settled_of_regions hw.settled rfl rfl,
    fun b w hp => Heap.placedAt_withMemory hw.settled _ hp, ?_⟩
  intro b hb
  by_cases hab : a = b
  · rw [← hab]
    exact hkept
  · exact hw.kept_store_of_ne ha hb hab hi v

/-- A field of a live object is one of its words, and none of its header. -/
theorem field_bounds (hw : WellFormed h t roots) {c : ClassInfo} {words : WordCount}
    (ho : h.ObjectAt t a c words) {f : WordCount} (hf : f ∈ c.fields) :
    t.headerWords.toNat ≤ f.toNat ∧ f.toNat < c.words.toNat ∧ c.words.toNat ≤ words.toNat := by
  have hin := hw.classes.inside c (ClassTable.mem_of_info (Heap.info_of_infoOf ho.info)) f hf
  exact ⟨UInt64.le_iff_toNat_le.1 hin.1, UInt64.lt_iff_toNat_lt.1 hin.2,
    UInt64.le_iff_toNat_le.1 ho.whole⟩

/-! ### Storing a reference -/

/-- An object that carries its hash is one word longer than its class says. -/
theorem words_of_isExpanded (hw : WellFormed h t roots) {c : ClassInfo} {words : WordCount}
    (ho : h.ObjectAt t a c words) (he : (h.memory.loadMark a).isExpanded = true) :
    words.toNat = c.words.toNat + 1 ∧ (words - 1).toNat = c.words.toNat := by
  have hcompact : t.compactHeaders = true := by
    by_contra hc
    have hclassic : h.compactHeaders = false := by
      rw [← hw.headers]
      simpa using hc
    have hstray := ho.mark.noStray
    rw [hclassic] at hstray
    have hzero := and_eq_of_subset (b := 0) (by rw [hstray, UInt64.zero_and]) (j := expandedMask) (by decide)
    rw [Mark.not_isExpanded_of (by rw [hzero, UInt64.zero_and])] at he
    cases he
  have hsize := ho.size
  rw [Heap.size_of_info ho.info, hcompact, he, Bool.and_self, if_pos rfl] at hsize
  obtain rfl := Except.ok.inj hsize
  have hwhole := UInt64.le_iff_toNat_le.1 ho.whole
  have hlt := c.words.toNat_lt
  have hone : (1 : UInt64).toNat = 1 := rfl
  have hadd := UInt64.toNat_add c.words 1
  have hsub : c.words + 1 - 1 = c.words := UInt64.add_sub_cancel ..
  rw [hsub]
  omega

theorem slot_eq_ok {field : Nat} {s : Address} (hs : h.slot t a field = .ok s) :
    ∃ c f, h.infoOf t a = .ok c ∧ f ∈ c.fields ∧ s = a.offset f := by
  unfold Heap.slot at hs
  cases hc : h.infoOf t a with
  | error fault =>
    rw [hc] at hs
    cases hs
  | ok c =>
    rw [hc] at hs
    cases hf : c.fields[field]? with
    | none =>
      simp only [bind, Except.bind, hf] at hs
      cases hs
    | some f =>
      simp only [bind, Except.bind, hf] at hs
      refine ⟨c, f, rfl, List.mem_of_getElem? hf, ?_⟩
      exact (Except.ok.inj hs).symm

/-- A store of a reference is a store into a field. -/
theorem eq_store_of_setReference {field : Nat} {v : Word}
    (hset : h.setReference t a field v = .ok h') :
    ∃ c f, h.infoOf t a = .ok c ∧ f ∈ c.fields ∧
      h' = h.withMemory (h.memory.store (a.offset f) v) := by
  unfold Heap.setReference at hset
  cases hs : h.slot t a field with
  | error fault =>
    rw [hs] at hset
    cases hset
  | ok s =>
    rw [hs] at hset
    obtain ⟨c, f, hc, hf, rfl⟩ := slot_eq_ok hs
    exact ⟨c, f, hc, hf, (Except.ok.inj hset).symm⟩

/-- A store into a live object leaves its other words as they are. -/
theorem load_store_of_ne (hw : WellFormed h t roots) (ha : Reaches h t roots a) {i j : Nat}
    (hi : i < h.wordsAt t a) (hj : j < h.wordsAt t a) (hne : i ≠ j) (v : Word) :
    (h.memory.store (a.nth i) v).load (a.nth j) = h.memory.load (a.nth j) := by
  have hend := hw.end_lt ha
  exact Memory.load_store_of_ne _ (fun heq =>
    hne (Address.nth_injective (by omega) (by omega) heq)) v

/-- A store into the mark or behind the header leaves an object the same, if the mark says the
same of its class and its hash. -/
theorem kept_store (hw : WellFormed h t roots) (ha : Reaches h t roots a) {c : ClassInfo}
    {words : WordCount} (ho : h.ObjectAt t a c words) {i : Nat} (hin : i < c.words.toNat)
    (hi : i = 0 ∨ t.headerWords.toNat ≤ i) {v : Word} {m : Mark}
    (hm : (h.memory.store (a.nth i) v).loadMark a = m)
    (hclass : h.compactHeaders = true → m.classId = (h.memory.loadMark a).classId)
    (hexpanded : m.isExpanded = (h.memory.loadMark a).isExpanded)
    (hproper : (h.memory.loadMark a).Proper h.compactHeaders → m.Proper h.compactHeaders)
    (hhashed : (h.memory.loadMark a).isHashed = true →
      m.isHashed = true ∧ m.hash = (h.memory.loadMark a).hash) :
    h.Kept (h.withMemory (h.memory.store (a.nth i) v)) t a := by
  subst hm
  have hwords := ho.wordsAt_eq
  have hwhole := UInt64.le_iff_toNat_le.1 ho.whole
  refine ⟨?_, hexpanded, hproper, fun hh => (hhashed hh).1, fun hh => (hhashed hh).2, ?_⟩
  · unfold Heap.classOf
    split
    · rename_i hcompact
      exact hclass (hw.headers ▸ hcompact)
    · rename_i hcompact
      have hclassic : t.compactHeaders = false := by simpa using hcompact
      have htwo : t.headerWords.toNat = 2 := by
        unfold ClassTable.headerWords
        rw [hclassic]
        rfl
      have hone := hw.one_lt_words ho hclassic
      rw [Address.offset_eq_nth]
      exact congrArg UInt64.toUInt32 (hw.load_store_of_ne ha (j := 1) (by omega) (by omega)
        (by omega) v)
  · intro words' hs' he
    obtain rfl : words = words' := by
      rw [ho.size] at hs'
      exact Except.ok.inj hs'
    obtain ⟨h1, h2⟩ := hw.words_of_isExpanded ho he
    rw [Address.offset_eq_nth]
    exact hw.load_store_of_ne ha (by omega) (by omega) (by omega) v

/-- A store that leaves an object the same, and puts nothing into a field that could not be
reached, leaves the heap well-formed. -/
theorem store (hw : WellFormed h t roots) (ha : Reaches h t roots a) {i : Nat}
    (hi : i < h.wordsAt t a) {v : Word}
    (hkept : h.Kept (h.withMemory (h.memory.store (a.nth i) v)) t a)
    (hv : ∀ b c f, Reaches h t roots b → h.infoOf t b = .ok c → f ∈ c.fields →
      b.offset f = a.nth i → v ≠ 0 → h.contains v = true → Reaches h t roots v) :
    h.Mutated (h.withMemory (h.memory.store (a.nth i) v)) t (Reaches h t roots) ∧
      WellFormed (h.withMemory (h.memory.store (a.nth i) v)) t roots ∧
      ∀ b, Reaches (h.withMemory (h.memory.store (a.nth i) v)) t roots b →
        Reaches h t roots b := by
  have hmut := hw.mutated_store ha hi hkept
  refine hmut.spec hw fun b hb => hmut.reaches (fun w hmem hin => .root hmem hin) ?_ hb
  intro b c f hb hc hf
  show (h.memory.store (a.nth i) v).load (b.offset f) ≠ 0 →
    h.contains ((h.memory.store (a.nth i) v).load (b.offset f)) = true →
    Reaches h t roots ((h.memory.store (a.nth i) v).load (b.offset f))
  by_cases heq : b.offset f = a.nth i
  · have hload : (h.memory.store (a.nth i) v).load (b.offset f) = v := by
      rw [heq, Memory.load_store_self]
    rw [hload]
    exact hv b c f hb hc hf heq
  · rw [Memory.load_store_of_ne _ (fun hh => heq hh.symm) v]
    exact fun hne hin => hb.refersTo ⟨c, f, hc, hf, rfl, hne, hin⟩

/-- A field of a live object comes to hold nothing or a live object. -/
theorem setReference (hw : WellFormed h t roots) (ha : Reaches h t roots a) {field : Nat}
    {v : Word} (hv : v ≠ 0 → h.contains v = true → Reaches h t roots v)
    (hset : h.setReference t a field v = .ok h') :
    h.Mutated h' t (Reaches h t roots) ∧ WellFormed h' t roots ∧
      ∀ b, Reaches h' t roots b → Reaches h t roots b := by
  obtain ⟨c, f, hc, hf, rfl⟩ := eq_store_of_setReference hset
  obtain ⟨c', words, ho⟩ := hw.object ha
  obtain rfl : c' = c := by
    rw [ho.info] at hc
    exact Except.ok.inj hc
  obtain ⟨h1, h2, h3⟩ := hw.field_bounds ho hf
  have hhead := t.headerWords_pos
  have hwords := ho.wordsAt_eq
  rw [Address.offset_eq_nth]
  have hmark : (h.memory.store (a.nth f.toNat) v).loadMark a = h.memory.loadMark a := by
    have h0 := hw.load_store_of_ne ha (i := f.toNat) (j := 0) (by omega) (by omega) (by omega) v
    rw [Address.nth_zero] at h0
    exact congrArg Mark.mk h0
  exact hw.store ha (by omega) (hw.kept_store ha ho h2 (.inr h1) hmark (fun _ => rfl) rfl id
    fun hh => ⟨hh, rfl⟩) fun _ _ _ _ _ _ _ => hv

/-! ### Locks and identity hashes -/

/-- No field of a live object is the mark of one. -/
theorem field_ne_mark (hw : WellFormed h t roots) {b : Address} (ha : Reaches h t roots a)
    (hb : Reaches h t roots b) {c : ClassInfo} (hc : h.infoOf t b = .ok c) {f : WordCount}
    (hf : f ∈ c.fields) : b.offset f ≠ a.nth 0 := by
  obtain ⟨c', words, ho⟩ := hw.object hb
  obtain rfl : c' = c := by
    rw [ho.info] at hc
    exact Except.ok.inj hc
  obtain ⟨h1, h2, h3⟩ := hw.field_bounds ho hf
  have hhead := t.headerWords_pos
  have hend := hw.end_lt hb
  have hwords := ho.wordsAt_eq
  rw [Address.offset_eq_nth]
  by_cases hab : a = b
  · subst hab
    intro heq
    have := Address.nth_injective (a := a) (by omega) (by omega) heq
    omega
  · exact (hw.nth_ne ha hb hab (hw.wordsAt_pos ha) (by omega)).symm

/-- The mark of a live object is replaced by one that says the same of its class and its hash. -/
theorem storeMark (hw : WellFormed h t roots) (ha : Reaches h t roots a) {m : Mark}
    (hclass : h.compactHeaders = true → m.classId = (h.memory.loadMark a).classId)
    (hexpanded : m.isExpanded = (h.memory.loadMark a).isExpanded)
    (hproper : (h.memory.loadMark a).Proper h.compactHeaders → m.Proper h.compactHeaders)
    (hhashed : (h.memory.loadMark a).isHashed = true →
      m.isHashed = true ∧ m.hash = (h.memory.loadMark a).hash) :
    h.Mutated (h.withMemory (h.memory.storeMark a m)) t (Reaches h t roots) ∧
      WellFormed (h.withMemory (h.memory.storeMark a m)) t roots ∧
      ∀ b, Reaches (h.withMemory (h.memory.storeMark a m)) t roots b → Reaches h t roots b := by
  obtain ⟨c, words, ho⟩ := hw.object ha
  have hhead := UInt64.le_iff_toNat_le.1
    (hw.classes.header c (ClassTable.mem_of_info (Heap.info_of_infoOf ho.info)))
  have hpos := t.headerWords_pos
  have hstore : h.memory.storeMark a m = h.memory.store (a.nth 0) m.raw := by
    rw [Address.nth_zero]
    rfl
  have hself : (h.memory.store (a.nth 0) m.raw).loadMark a = m := by
    unfold Memory.loadMark
    rw [Address.nth_zero, Memory.load_store_self]
  rw [hstore]
  exact hw.store ha (hw.wordsAt_pos ha)
    (hw.kept_store ha ho (by omega) (.inl rfl) hself hclass hexpanded hproper hhashed)
    fun b c f hb hc hf heq => absurd heq (hw.field_ne_mark ha hb hc hf)

/-- A live object is locked or unlocked. -/
theorem setLock (hw : WellFormed h t roots) (ha : Reaches h t roots a) {bits : Word}
    (hbits : bits &&& lockMask ≠ 0b11) :
    h.Mutated (h.setLock a bits) t (Reaches h t roots) ∧ WellFormed (h.setLock a bits) t roots ∧
      ∀ b, Reaches (h.setLock a bits) t roots b → Reaches h t roots b := by
  refine hw.storeMark ha ?_ ?_ ?_ ?_
  · intro _
    exact Mark.classId_congr (Mark.and_withLock _ _ (by decide))
  · exact Mark.isExpanded_congr (Mark.and_withLock _ _ (by decide))
  · intro hm
    exact hm.withLock hbits
  · intro hh
    rw [Mark.isHashed_congr (Mark.and_withLock _ _ (by decide))]
    exact ⟨hh, Mark.hash_congr (Mark.and_withLock _ _ (by decide))⟩

/-- The identity hash of a live object is always answered, it is noted that it was, and from
then on the answer is the same. -/
theorem identityHash (hw : WellFormed h t roots) (ha : Reaches h t roots a) :
    ∃ v h', h.identityHash t a = .ok (v, h') ∧ h.Mutated h' t (Reaches h t roots) ∧
      WellFormed h' t roots ∧ (∀ b, Reaches h' t roots b → Reaches h t roots b) ∧
      (h'.memory.loadMark a).isHashed = true ∧ (h'.identityHash t a).map Prod.fst = .ok v := by
  obtain ⟨c, words, ho⟩ := hw.object ha
  have hself : ∀ m : Mark, (h.memory.storeMark a m).loadMark a = m := by
    intro m
    unfold Memory.loadMark Memory.storeMark
    rw [Memory.load_store_self]
  by_cases hh : (h.memory.loadMark a).isHashed = true
  · -- it has been asked for before
    have hsame : ∃ v, h.identityHash t a = .ok (v, h) := by
      unfold Heap.identityHash
      dsimp only
      rw [hh, if_pos rfl, if_pos rfl]
      split
      · split
        · rw [ho.size]
          exact ⟨_, rfl⟩
        · exact ⟨_, rfl⟩
      · exact ⟨_, rfl⟩
    obtain ⟨v, hv⟩ := hsame
    exact ⟨v, h, hv, .refl hw.settled, hw, fun _ => id, hh, by rw [hv]; rfl⟩
  · have hh' : (h.memory.loadMark a).isHashed = false := by simpa using hh
    cases hcompact : h.compactHeaders with
    | true =>
      have hexp : (h.memory.loadMark a).isExpanded = false := by
        by_contra he
        exact hh (ho.mark.expandedAsked (by simpa using he))
      obtain ⟨hmut, hw', hreach⟩ := hw.storeMark ha (m := (h.memory.loadMark a).withHashed)
        (fun _ => Mark.classId_congr (Mark.and_withHashed _ (by decide)))
        (Mark.isExpanded_congr (Mark.and_withHashed _ (by decide)))
        (by rw [hcompact]; exact fun hm => hm.withHashed) (fun hx => absurd hx hh)
      refine ⟨a.identityHash, _, ?_, hmut, hw', hreach, ?_, ?_⟩
      · unfold Heap.identityHash
        dsimp only
        rw [hcompact, hexp, hh', if_pos rfl, if_neg Bool.false_ne_true, if_neg Bool.false_ne_true]
      · show ((h.memory.storeMark a _).loadMark a).isHashed = true
        rw [hself]
        exact Mark.isHashed_withHashed _
      · unfold Heap.identityHash
        show Except.map Prod.fst (if h.compactHeaders then
          if ((h.memory.storeMark a _).loadMark a).isExpanded then _ else
          if ((h.memory.storeMark a _).loadMark a).isHashed then _ else _ else _) = _
        rw [hself, hcompact, Mark.isExpanded_congr (Mark.and_withHashed _ (by decide)), hexp,
          Mark.isHashed_withHashed, if_pos rfl, if_neg Bool.false_ne_true, if_pos rfl]
        rfl
    | false =>
      obtain ⟨hmut, hw', hreach⟩ := hw.storeMark ha (m := (h.memory.loadMark a).withHash a.identityHash)
        (fun hc => by rw [hcompact] at hc; cases hc)
        (Mark.isExpanded_congr (Mark.and_withHash _ _ (by decide) (by decide)))
        (by rw [hcompact]; exact fun hm => hm.withHash _) (fun hx => absurd hx hh)
      refine ⟨a.identityHash, _, ?_, hmut, hw', hreach, ?_, ?_⟩
      · unfold Heap.identityHash
        dsimp only
        rw [hcompact, hh', if_neg Bool.false_ne_true, if_neg Bool.false_ne_true]
      · show ((h.memory.storeMark a _).loadMark a).isHashed = true
        rw [hself]
        exact Mark.isHashed_withHash _ _
      · rw [Heap.identityHash_classic]
        · show Except.ok ((h.memory.storeMark a _).loadMark a).hash = _
          rw [hself, Mark.hash_withHash _ (Address.identityHash_toNat_lt a)]
        · exact hcompact
        · show ((h.memory.storeMark a _).loadMark a).isHashed = true
          rw [hself]
          exact Mark.isHashed_withHash _ _

end WellFormed

end MarkCompact
