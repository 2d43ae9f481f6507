/-
MarkCompact/Proofs/Instances.lean

New objects, and new heaps.

An allocation hands out words that belong to no object (`Heap.Makes`), and a
header is written into them once they have been cleared (`Heap.Fresh`).  So the
objects there were are still the same, the new one refers to nothing, and the
heap stays well-formed, whether or not there are roots that refer to the new
object.

Main results: `WellFormed.instantiateBy` (making an object) and
`wellFormed_new` (a new heap).
-/
import MarkCompact.Proofs.Loops
import MarkCompact.Proofs.Mutators
import MarkCompact.Proofs.Replies

namespace MarkCompact

variable {h h' : Heap} {t : ClassTable} {roots roots' : Roots} {a : Address}

/-! ### Making objects -/

namespace Mark

@[simp] theorem classId_freshOf (classId : UInt32) : (freshOf classId).classId = classId := by
  have h1 : ((1 : UInt64) >>> 32) = 0 := by decide
  unfold Mark.classId freshOf
  rw [UInt64.shiftRight_or]
  show ((classId.toUInt64 <<< 32) >>> 32 ||| (1 : UInt64) >>> 32).toUInt32 = _
  rw [h1, UInt64.or_zero]
  apply UInt32.toNat_inj.1
  rw [UInt64.toNat_toUInt32, UInt64.toNat_shiftRight, UInt64.toNat_shiftLeft,
    UInt32.toNat_toUInt64]
  show ((classId.toNat <<< 32) % 2 ^ 64) >>> 32 % 2 ^ 32 = _
  rw [Nat.shiftLeft_eq, Nat.shiftRight_eq_div_pow]
  have := classId.toNat_lt
  omega

end Mark

namespace Heap

variable {classId : UInt32} {c : ClassInfo}

/-- The instance of the class `c` that has just been set up at `a`. -/
structure Fresh (h' : Heap) (t : ClassTable) (a : Address) (c : ClassInfo) : Prop where
  info : h'.infoOf t a = .ok c
  size : h'.size t a = .ok c.words
  proper : (h'.memory.loadMark a).Proper t.compactHeaders
  hashed : (h'.memory.loadMark a).isHashed = false
  blank : ∀ i, t.headerWords.toNat ≤ i → i < c.words.toNat → h'.memory.load (a.nth i) = 0

theorem Fresh.of_info (hinfo : h'.infoOf t a = .ok c)
    (hexpanded : (h'.memory.loadMark a).isExpanded = false)
    (hproper : (h'.memory.loadMark a).Proper t.compactHeaders)
    (hhashed : (h'.memory.loadMark a).isHashed = false)
    (hblank : ∀ i, t.headerWords.toNat ≤ i → i < c.words.toNat → h'.memory.load (a.nth i) = 0) :
    Fresh h' t a c := by
  refine ⟨hinfo, ?_, hproper, hhashed, hblank⟩
  rw [size_of_info hinfo, hexpanded, Bool.and_false, if_neg Bool.false_ne_true]

/-- A compact header is one word, which names the class. -/
theorem fresh_compact (hinfo : t.info classId = some c) (hcompact : t.compactHeaders = true)
    {m : Memory} (hfits : a.toNat + 8 * c.words.toNat < 2 ^ 64)
    (hzero : ∀ i < c.words.toNat, m.load (a.nth i) = 0) :
    Fresh (h.withMemory (m.storeMark a (.freshOf classId))) t a c := by
  have hone : t.headerWords.toNat = 1 := by
    unfold ClassTable.headerWords
    rw [hcompact]
    rfl
  have hself : (m.storeMark a (.freshOf classId)).loadMark a = .freshOf classId := by
    unfold Memory.loadMark Memory.storeMark
    rw [Memory.load_store_self]
  refine Fresh.of_info (infoOf_of_info ?_) ((congrArg Mark.isExpanded hself).trans ?_) ?_
    ((congrArg Mark.isHashed hself).trans ?_) fun i hi1 hi2 => ?_
  · unfold classOf
    show t.info (if t.compactHeaders then ((m.storeMark a (.freshOf classId)).loadMark a).classId
      else _) = _
    rw [hcompact, if_pos rfl, hself, Mark.classId_freshOf, hinfo]
  · refine Mark.not_isExpanded_of ?_
    rw [Mark.freshOf_and classId (by decide)]
    decide
  · show ((m.storeMark a (.freshOf classId)).loadMark a).Proper _
    rw [hself, hcompact]
    exact Mark.proper_freshOf classId
  · unfold Mark.isHashed
    rw [Mark.freshOf_and classId (by decide)]
    decide
  · -- the words behind the header are other ones
    have hne : a ≠ a.nth i := fun heq => by
      have := Address.nth_injective (a := a) (i := 0) (j := i) (by omega) (by omega)
        ((Address.nth_zero a).trans heq)
      omega
    exact (Memory.load_store_of_ne _ hne _).trans (hzero i hi2)

/-- A classic header is two words, and the second one names the class. -/
theorem fresh_classic (hinfo : t.info classId = some c) (hclassic : t.compactHeaders = false)
    {m : Memory} (hfits : a.toNat + 8 * c.words.toNat < 2 ^ 64) (htwo : 2 ≤ c.words.toNat)
    (hzero : ∀ i < c.words.toNat, m.load (a.nth i) = 0) :
    Fresh (h.withMemory ((m.storeMark a .fresh).store (a.nth 1) classId.toUInt64)) t a c := by
  have hheader : t.headerWords.toNat = 2 := by
    unfold ClassTable.headerWords
    rw [hclassic]
    rfl
  have hne : ∀ {i j : Nat}, i < c.words.toNat → j < c.words.toNat → i ≠ j → a.nth i ≠ a.nth j :=
    fun hi hj hij heq => hij (Address.nth_injective (by omega) (by omega) heq)
  have hself : ((m.storeMark a .fresh).store (a.nth 1) classId.toUInt64).loadMark a = .fresh := by
    have h10 : a.nth 1 ≠ a.nth 0 := hne (by omega) (by omega) (by decide)
    rw [Address.nth_zero] at h10
    unfold Memory.loadMark Memory.storeMark
    rw [Memory.load_store_of_ne _ h10, Memory.load_store_self]
  refine Fresh.of_info (infoOf_of_info ?_) ((congrArg Mark.isExpanded hself).trans (by decide)) ?_
    ((congrArg Mark.isHashed hself).trans (by decide)) fun i hi1 hi2 => ?_
  · unfold classOf
    show t.info (if t.compactHeaders then _ else
      (((m.storeMark a .fresh).store (a.nth 1) classId.toUInt64).load (a.offset 1)).toUInt32) = _
    rw [hclassic, if_neg Bool.false_ne_true, Address.offset_eq_nth a 1]
    show t.info (((m.storeMark a .fresh).store (a.nth 1) classId.toUInt64).load (a.nth 1)).toUInt32 = _
    rw [Memory.load_store_self, UInt32.toUInt32_toUInt64, hinfo]
  · show (((m.storeMark a .fresh).store (a.nth 1) classId.toUInt64).loadMark a).Proper _
    rw [hself, hclassic]
    exact Mark.proper_fresh
  · have h1 := hne (i := 1) (j := i) (by omega) hi2 (by omega)
    have h0 := hne (i := 0) (j := i) (by omega) hi2 (by omega)
    rw [Address.nth_zero] at h0
    exact ((Memory.load_store_of_ne _ h1 _).trans (Memory.load_store_of_ne _ h0 _)).trans
      (hzero i hi2)

/-- A header is written into words that have been cleared. -/
theorem setUp_spec (ht : t.Sound) (hinfo : t.info classId = some c)
    (hcovers : h.memory.Covers a c.words.toNat) :
    ∃ m, h.setUp t a classId c.words = .ok (h.withMemory m) ∧ h.memory.SameSpan m ∧
      Fresh (h.withMemory m) t a c ∧
      ∀ b : Address, b.toNat < a.toNat ∨ a.toNat + 8 * c.words.toNat ≤ b.toNat →
        m.load b = h.memory.load b := by
  obtain ⟨m, hfill, hspan, hzero, hout⟩ := Memory.fillWords_spec hcovers 0
  have hhead := UInt64.le_iff_toNat_le.1 (ht.header c (ClassTable.mem_of_info hinfo))
  have hpos := t.headerWords_pos
  have htop := hcovers.top
  have hfits : a.toNat + 8 * c.words.toNat < 2 ^ 64 := htop.trans_lt hcovers.fits
  -- the mark word is inside, so a word outside is as before the filling
  have hmark : ∀ {b : Address}, b.toNat < a.toNat ∨ a.toNat + 8 * c.words.toNat ≤ b.toNat →
      ∀ mark, (m.storeMark a mark).load b = h.memory.load b := fun {b} hb mark => by
    have hne := Address.nth_ne_of_outside (i := 0) (by omega) hfits hb
    rw [Address.nth_zero] at hne
    exact (Memory.load_store_of_ne _ hne _).trans (hout b hb)
  unfold setUp
  rw [hfill]
  cases hcompact : t.compactHeaders with
  | true =>
    exact ⟨m.storeMark a (.freshOf classId), rfl, hspan.trans (Memory.sameSpan_store ..),
      fresh_compact hinfo hcompact hfits hzero, fun b hb => hmark hb _⟩
  | false =>
    have htwo : 2 ≤ c.words.toNat := by
      unfold ClassTable.headerWords at hhead
      rw [hcompact] at hhead
      exact hhead
    have hoff : a.offset 1 = a.nth 1 := Address.offset_eq_nth a 1
    refine ⟨(m.storeMark a .fresh).store (a.offset 1) classId.toUInt64, rfl,
      (hspan.trans (Memory.sameSpan_store ..)).trans (Memory.sameSpan_store ..), ?_,
      fun b hb => ?_⟩
    · rw [hoff]
      exact fresh_classic hinfo hcompact hfits htwo hzero
    · rw [hoff]
      exact (Memory.load_store_of_ne _ (Address.nth_ne_of_outside htwo hfits hb) _).trans
        (hmark hb _)

end Heap

namespace WellFormed

variable {classId : UInt32} {c : ClassInfo}

/-- An allocation leaves the live objects alone. -/
theorem mutated_keeps (hk : h.Keeps h') : h.Mutated h' t (Reaches h t roots) := by
  refine ⟨hk.ground.layout, hk.ground.headers, ?_, hk.settled, hk.kept, ?_⟩
  · rw [hk.ground.memory]
    exact Memory.SameSpan.refl _
  · intro b _
    have hmark : h'.memory.loadMark b = h.memory.loadMark b := by rw [hk.ground.memory]
    refine ⟨?_, by rw [hmark], by rw [hmark, hk.ground.headers]; exact id,
      by rw [hmark]; exact id, fun _ => by rw [hmark], fun _ _ _ => by rw [hk.ground.memory]⟩
    unfold Heap.classOf
    rw [hk.ground.memory]

/-- Setting up an object in words that belong to no other one changes no word of another one. -/
theorem load_setUp (hw : WellFormed h t roots) {g : Heap} (hm : Heap.Makes h g c.words a)
    {m : Memory} (hout : ∀ b : Address, b.toNat < a.toNat ∨ a.toNat + 8 * c.words.toNat ≤ b.toNat →
      m.load b = g.memory.load b) {b : Address} (hb : Reaches h t roots b) {i : Nat}
    (hi : i < h.wordsAt t b) : m.load (b.nth i) = h.memory.load (b.nth i) := by
  obtain ⟨d, words, ho⟩ := hw.object hb
  have hpos := words_pos hw.classes ho
  have hend := hw.end_lt hb
  have hwords := ho.wordsAt_eq
  have hapart := hm.apart b words ho.place hpos
  unfold Address.Apart at hapart
  rw [hout _ ?_, hm.ground.memory]
  rw [Address.toNat_nth (by omega)]
  omega

theorem mutated_setUp (hw : WellFormed h t roots) {g : Heap} (hm : Heap.Makes h g c.words a)
    {m : Memory} (hspan : g.memory.SameSpan m)
    (hsame : ∀ b, Reaches h t roots b → ∀ i < h.wordsAt t b,
      m.load (b.nth i) = h.memory.load (b.nth i)) :
    h.Mutated (g.withMemory m) t (Reaches h t roots) := by
  refine ⟨hm.ground.layout, hm.ground.headers, ?_, Heap.settled_of_regions hm.settled rfl rfl,
    fun b w hp => Heap.placedAt_withMemory hm.settled m (hm.kept b w hp), ?_⟩
  · rw [← hm.ground.memory]
    exact hspan
  · intro b hb
    obtain ⟨d, words, ho⟩ := hw.object hb
    refine Heap.Kept.of_words (hw.one_lt_words ho) hm.ground.headers ho.size
      (words_pos hw.classes ho) ?_
    rw [← ho.wordsAt_eq]
    exact hsame b hb

/-- A new object refers to nothing. -/
theorem not_refersTo_fresh (ht : t.Sound) (hf : Heap.Fresh h' t a c) (v : Address) :
    ¬ h'.RefersTo t a v := by
  rintro ⟨d, f, hd, hfield, rfl, hne, -⟩
  obtain rfl : c = d := by
    have := hf.info
    rw [hd] at this
    exact (Except.ok.inj this).symm
  have hin := ht.inside c (ClassTable.mem_of_info (Heap.info_of_infoOf hf.info)) f hfield
  rw [Address.offset_eq_nth] at hne
  exact hne (hf.blank f.toNat (UInt64.le_iff_toNat_le.1 hin.1) (UInt64.lt_iff_toNat_lt.1 hin.2))

/-- The heap with a new object in it, whether or not there are roots that refer to it. -/
theorem wellFormed_fresh (hw : WellFormed h t roots) (hfew : h.layout.heapWords.toNat < 2 ^ 32)
    (hmut : h.Mutated h' t (Reaches h t roots))
    (hsame : ∀ b, Reaches h t roots b → ∀ i < h.wordsAt t b,
      h'.memory.load (b.nth i) = h.memory.load (b.nth i))
    (ha : h'.ObjectAt t a c c.words)
    (hf : Heap.Fresh h' t a c)
    (hapart : ∀ b w, h.PlacedAt b w → 0 < w.toNat → a.Apart c.words.toNat b w.toNat)
    (hroots : ∀ v ∈ roots'.live, v = a ∨ v ∈ roots.live) :
    WellFormed h' t roots' ∧ ∀ b, Reaches h' t roots' b → b = a ∨ Reaches h t roots b := by
  have hreach : ∀ b, Reaches h' t roots' b → b = a ∨ Reaches h t roots b := by
    intro b hb
    refine Reaches.least (p := fun b => b = a ∨ Reaches h t roots b) ?_ ?_ hb
    · intro v hv hin
      rcases hroots v hv with rfl | hold
      · exact .inl rfl
      · exact .inr (.root hold (by rwa [← hmut.contains]))
    · rintro b v - (rfl | hb) hv
      · exact absurd hv (not_refersTo_fresh hw.classes hf v)
      · obtain ⟨d, f, hd, hfield, heq, hne, hin⟩ := hv
        obtain ⟨d', words, ho⟩ := hw.object hb
        obtain rfl : d' = d := by
          rw [hmut.infoOf hb, ho.info] at hd
          exact Except.ok.inj hd
        obtain ⟨h1, h2, h3⟩ := hw.field_bounds ho hfield
        have hload := hsame b hb f.toNat (by rw [ho.wordsAt_eq]; omega)
        rw [← Address.offset_eq_nth, heq] at hload
        rw [hmut.contains] at hin
        exact .inr (hb.refersTo ⟨d', f, ho.info, hfield, hload.symm, hne, hin⟩)
  have hmapped := hw.mapped.of_span hmut.layout hmut.span
  refine ⟨⟨hmut.settled, hmapped, hw.classes, ?_, ⟨?_, ?_⟩, ?_⟩, hreach⟩
  · rw [hmut.headers]
    exact hw.headers
  · intro b hb
    rcases hreach b hb with rfl | hold
    · exact ⟨c, c.words, ha⟩
    · obtain ⟨d, words, ho⟩ := hw.object hold
      exact ⟨d, words, hmut.objectAt hold ho⟩
  · have hnew : ∀ b, Reaches h t roots b → a.Apart c.words.toNat b (h.wordsAt t b) := by
      intro b hb
      obtain ⟨d, words, ho⟩ := hw.object hb
      rw [ho.wordsAt_eq]
      exact hapart b words ho.place (words_pos hw.classes ho)
    have hwords := ha.wordsAt_eq
    intro b d hb hd hlt
    rcases hreach b hb with rfl | hb <;> rcases hreach d hd with rfl | hd
    · omega
    · have := hnew d hd
      unfold Address.Apart at this
      omega
    · have := hnew b hb
      unfold Address.Apart at this
      rw [hmut.wordsAt hb]
      omega
    · rw [hmut.wordsAt hb]
      exact hw.populated.disjoint b d hb hd hlt
  · intro l hn hl
    have hlen := hmut.settled.layout.length_le hn fun b hb =>
      hmapped.isWord hmut.settled.layout (hl b hb).contains
    rw [hmut.layout] at hlen
    omega

/-- The heap with at most fewer roots. -/
theorem wellFormed_of_roots (hw : WellFormed h t roots)
    (hmut : h.Mutated h' t (Reaches h t roots)) (hmem : h'.memory = h.memory)
    (hroots : ∀ v ∈ roots'.live, v ∈ roots.live) :
    WellFormed h' t roots' ∧ ∀ b, Reaches h' t roots' b → Reaches h t roots b := by
  refine (hmut.spec hw fun b hb => hmut.reaches ?_ ?_ hb).2
  · intro v hv hin
    exact .root (hroots v hv) hin
  · intro b d f hb hd hf hne hin
    rw [hmem] at hne hin ⊢
    exact hb.refersTo ⟨d, f, hd, hf, rfl, hne, hin⟩

/-- Making an object leaves the live objects alone, and the heap is well-formed also if roots
refer to the new object. -/
theorem instantiateBy (hw : WellFormed h t roots) (hfew : h.layout.heapWords.toNat < 2 ^ 32)
    {allocate : WordCount → Except CompactError Address × Heap}
    (hallocate : ∀ c, t.info classId = some c → h.Answered c.words (allocate c.words)) :
    ∃ outcome h', h.instantiateBy t classId allocate = .ok (outcome, h') ∧
      (∀ c, t.info classId = some c → outcome = (allocate c.words).1) ∧
      h.Mutated h' t (Reaches h t roots) ∧
      ∀ roots' : Roots, (∀ v ∈ roots'.live, outcome = .ok v ∨ v ∈ roots.live) →
        WellFormed h' t roots' ∧
          ∀ b, Reaches h' t roots' b → outcome = .ok b ∨ Reaches h t roots b := by
  unfold Heap.instantiateBy
  cases hc : t.info classId with
  | none =>
    refine ⟨_, h, rfl, by simp, .refl hw.settled, fun roots' hroots => ?_⟩
    refine (hw.wellFormed_of_roots (.refl hw.settled) rfl fun v hv => ?_).imp_right
      fun hreach b hb => .inr (hreach b hb)
    rcases hroots v hv with hnew | hold
    · cases hnew
    · exact hold
  | some c =>
    have hanswer := hallocate c hc
    dsimp only
    cases hall : allocate c.words with
    | mk outcome g =>
      rw [hall] at hanswer
      cases outcome with
      | error e =>
        have hkeeps : h.Keeps g := hanswer.toKeeps
        refine ⟨_, g, rfl, ?_, mutated_keeps hkeeps, fun roots' hroots => ?_⟩
        · intro d hd
          obtain rfl : c = d := by simpa using hd
          rw [hall]
        refine (hw.wellFormed_of_roots (mutated_keeps hkeeps) hkeeps.ground.memory
          fun v hv => ?_).imp_right fun hreach b hb => .inr (hreach b hb)
        rcases hroots v hv with hnew | hold
        · cases hnew
        · exact hold
      | ok a =>
        have hmakes : h.Makes g c.words a := hanswer
        have hpos : 0 < c.words.toNat := by
          have h1 := UInt64.le_iff_toNat_le.1 (hw.classes.header c (ClassTable.mem_of_info hc))
          have h2 := t.headerWords_pos
          omega
        have hmapped := hmakes.ground.mapped hw.mapped
        have hbounds := hmakes.placed.bounds hmakes.settled.toTabled
        obtain ⟨m, hset, hspan, hfresh, hout⟩ := Heap.setUp_spec (h := g) hw.classes hc
          (hmapped.covers_of_grid hmakes.settled.layout hbounds.1 hbounds.2)
        have hsame := fun b hb i => hw.load_setUp hmakes hout (b := b) hb (i := i)
        have hmut := hw.mutated_setUp hmakes hspan hsame
        refine ⟨.ok a, g.withMemory m, ?_, ?_, hmut, fun roots' hroots => ?_⟩
        · show (g.setUp t a classId c.words).map _ = _
          rw [hset]
          rfl
        · intro d hd
          obtain rfl : c = d := by simpa using hd
          rw [hall]
        · have hplaced := Heap.placedAt_withMemory hmakes.settled m hmakes.placed
          refine (hw.wellFormed_fresh hfew hmut hsame ⟨?_, hfresh.info, hfresh.size,
            UInt64.le_refl _, ?_, hplaced⟩ hfresh hmakes.apart fun v hv => ?_).imp_right
            fun hreach b hb => (hreach b hb).imp_left fun heq => by rw [heq]
          · exact hplaced.contains hmut.settled.toTabled (hw.mapped.of_span hmut.layout hmut.span)
              hpos hmakes.aligned
          · rw [hmut.headers, ← hw.headers]
            exact hfresh.proper
          · rcases hroots v hv with hnew | hold
            · exact .inl (Except.ok.inj hnew).symm
            · exact .inr hold

end WellFormed

/-! ### New heaps -/

namespace Config

variable {config : Config}

theorem Valid.toNat_regionBytes (hv : config.Valid) :
    config.regionBytes.toNat = 8 * 2 ^ config.regionShift.toNat := by
  have h1 := UInt32.le_iff_toNat_le.1 hv.regionShift.2
  have h2 : greatestRegionShift.toNat = 23 := rfl
  have h3 : config.regionShift.toUInt64.toNat % 64 = config.regionShift.toNat := by
    rw [UInt32.toNat_toUInt64]
    omega
  have h4 : 2 ^ config.regionShift.toNat ≤ 2 ^ 23 := Nat.pow_le_pow_right (by decide) (by omega)
  unfold regionBytes regionWords
  rw [UInt64.toNat_mul, UInt64.toNat_shiftLeft, h3, Nat.shiftLeft_eq, UInt64.toNat_one, Nat.one_mul]
  show (2 ^ config.regionShift.toNat % 2 ^ 64 * 8) % 2 ^ 64 = _
  omega

theorem Valid.numRegions_pos (hv : config.Valid) : 0 < config.numRegions.toNat := by
  rcases Nat.eq_zero_or_pos config.numRegions.toNat with h0 | h0
  · exact absurd (UInt64.toNat_inj.1 h0) hv.numRegions
  · exact h0

theorem Valid.toNat_heapBytes (hv : config.Valid) :
    config.heapBytes.toNat = config.numRegions.toNat * (8 * 2 ^ config.regionShift.toNat) := by
  have h1 := hv.heapFits
  have h2 := hv.toNat_regionBytes
  unfold heapBytes
  rw [UInt64.toNat_mul, ← h2]
  exact Nat.mod_eq_of_lt h1

/-- What the operating system promises of the memory of a heap: it begins at a page that is not
the null page, and it ends before the last address. -/
@[mk_iff]
structure Backed (config : Config) (base : Address) : Prop where
  nonzero : 0 < base.toNat
  pageAligned : base.toNat % 4096 = 0
  fits : base.toNat + config.heapBytes.toNat + 4096 ≤ 2 ^ 64

instance (config : Config) (base : Address) : Decidable (config.Backed base) :=
  decidable_of_iff _ (config.backed_iff base).symm

end Config

namespace Heap

variable {config : Config} {base : Address}

/-- What there is of a new heap. -/
theorem new_eq (hv : config.Valid) (hb : config.Backed base) :
    ∃ h, new config base = .ok h ∧ h.layout = ⟨base, config.regionShift, config.numRegions.toNat⟩ ∧
      h.compactHeaders = config.compactHeaders ∧ h.Mapped ∧ h.regions.size = h.layout.numRegions ∧
      ∀ i < h.regions.size, h.region i = .new i (h.layout.bottom i) (h.layout.regionStop i) := by
  have hbytes := hv.toNat_heapBytes
  have hnum := hv.numRegions_pos
  have hpow := Nat.one_le_two_pow (n := config.regionShift.toNat)
  have hne : config.heapBytes ≠ 0 := by
    intro h0
    rw [h0] at hbytes
    have hpos := Nat.mul_pos hnum (by omega : 0 < 8 * 2 ^ config.regionShift.toNat)
    rw [← hbytes] at hpos
    exact absurd hpos (by decide)
  have hfits := hb.fits
  have hnz := hb.nonzero
  have hround := Address.toNat_alignUp_page (a := config.heapBytes) (by omega)
  have hvalid := (Config.validate_eq_ok_iff config).2 hv
  unfold new Memory.reserve
  rw [hvalid, if_neg hne]
  refine ⟨_, rfl, rfl, rfl, ⟨rfl, hb.pageAligned, ?_, ?_, ?_⟩, by simp, ?_⟩
  · show (Address.alignUp config.heapBytes 4096).toNat % 4096 = 0
    rw [hround]
    omega
  · show config.numRegions.toNat * (8 * 2 ^ config.regionShift.toNat)
      ≤ (Address.alignUp config.heapBytes 4096).toNat
    rw [hround]
    omega
  · show base.toNat + (Address.alignUp config.heapBytes 4096).toNat < 2 ^ 64
    rw [hround]
    omega
  · intro i hi
    have hi' : i < config.numRegions.toNat := by simpa using hi
    simp [region, hi']

/-- Nothing is recorded in the start table of a new heap. -/
theorem starts_new {h : Heap} (hnew : new config base = .ok h) : h.starts = .new h.layout := by
  obtain ⟨_, -, hnew⟩ := exists_of_bind_eq_ok hnew
  obtain ⟨_, -, hnew⟩ := exists_of_bind_eq_ok hnew
  rw [← Except.ok.inj hnew]

theorem sound_new (hv : config.Valid) (hb : config.Backed base) :
    Layout.Sound ⟨base, config.regionShift, config.numRegions.toNat⟩ := by
  have h1 := UInt32.le_iff_toNat_le.1 hv.regionShift.1
  have h2 := UInt32.le_iff_toNat_le.1 hv.regionShift.2
  have h3 : leastRegionShift.toNat = 4 := rfl
  have h4 : greatestRegionShift.toNat = 23 := rfl
  have hbytes := hv.toNat_heapBytes
  have hfits := hb.fits
  have hpage := hb.pageAligned
  refine ⟨hb.nonzero, ?_, by show 4 ≤ config.regionShift.toNat; omega,
    by show config.regionShift.toNat ≤ 23; omega, ?_⟩
  · show base.toNat % 8 = 0
    omega
  · show base.toNat + config.numRegions.toNat * (8 * 2 ^ config.regionShift.toNat) < 2 ^ 64
    omega

/-- All regions of a new heap are free. -/
theorem settled_new {h : Heap} (hl : h.layout.Sound) (hsize : h.regions.size = h.layout.numRegions)
    (hnew : ∀ i < h.regions.size, h.region i = .new i (h.layout.bottom i) (h.layout.regionStop i)) :
    h.Settled := by
  refine { layout := hl, count := hsize, index := ?_, bottom := ?_, stop := ?_, top := ?_
           free := ?_, runs := ?_, continued := ?_, idle := ?_ }
  · intro i hi
    rw [hnew i hi]
    rfl
  · intro i hi
    rw [hnew i hi]
    rfl
  · intro i hi
    rw [hnew i hi]
    rfl
  · intro i hi
    have hi' : i < h.layout.numRegions := by rwa [← hsize]
    rw [hnew i hi]
    refine ⟨le_refl _, ?_, hl.bottom_mod hi'.le⟩
    show (h.layout.bottom i).toNat ≤ (h.layout.regionStop i).toNat
    rw [hl.toNat_regionStop hi']
    omega
  · intro i hi _
    rw [hnew i hi]
    rfl
  · intro i hi hk
    rw [hnew i hi] at hk
    cases hk
  · intro i hi hk
    rw [hnew i hi] at hk
    cases hk
  · intro i hi
    rw [hnew i hi]
    exact ⟨rfl, rfl, rfl, rfl⟩

/-- What a new heap is like. -/
theorem table_new {h : Heap} (hv : config.Valid) (hb : config.Backed base)
    (hnew : new config base = .ok h) :
    h.Settled ∧ h.layout = ⟨base, config.regionShift, config.numRegions.toNat⟩ ∧
      h.regions.size = config.numRegions.toNat ∧
      ∀ i < h.regions.size, h.region i = .new i (h.layout.bottom i) (h.layout.regionStop i) := by
  obtain ⟨h', hnew', hlayout, -, -, hsize, hregions⟩ := new_eq hv hb
  obtain rfl : h' = h := Except.ok.inj (hnew'.symm.trans hnew)
  exact ⟨settled_new (hlayout ▸ sound_new hv hb) hsize hregions, hlayout, by rw [hsize, hlayout],
    hregions⟩

/-- The first object of a new heap lies at the bottom of its first region. -/
theorem allocate_new {h : Heap} {words : WordCount} (hl : h.layout.Sound)
    (hsize : h.regions.size = h.layout.numRegions)
    (hnew : ∀ i < h.regions.size, h.region i = .new i (h.layout.bottom i) (h.layout.regionStop i))
    (hregions : 0 < h.layout.numRegions) (hpos : 0 < words.toNat)
    (hle : 8 * words.toNat ≤ h.layout.stride) : (h.allocate words).1 = .ok (h.layout.bottom 0) := by
  have hstride := hl.stride_le
  have hwords := hl.toNat_regionWords
  have hbytes := toNat_shiftLeft_three words
  have hstop := hl.toNat_regionStop hregions
  have hlast := (h.layout.regionStop 0).toNat_lt
  have hne : ¬ words = 0 := by
    intro h0
    rw [h0] at hpos
    exact absurd hpos (by decide)
  have hsmall : ¬ h.isHumongous words = true := by
    unfold isHumongous
    rw [decide_eq_true_eq, UInt64.lt_iff_toNat_lt]
    omega
  have hfree : ∀ i < h.regions.size, (h.region i).kind = .free := by
    intro i hi
    rw [hnew i hi]
    rfl
  have hnone : (h.indices.filter fun i => (h.region i).isRegular) = [] := by
    rw [List.filter_eq_nil_iff]
    intro i hi
    simp [Region.isRegular, hfree i (List.mem_range.1 hi)]
  have hindices : h.indices = 0 :: List.range' 1 (h.regions.size - 1) := by
    obtain ⟨n, hn⟩ : ∃ n, h.regions.size = n + 1 := ⟨h.regions.size - 1, by omega⟩
    unfold indices
    rw [hn, List.range_eq_range', List.range'_succ]
    rfl
  have hfirst : (h.modifyRegion 0 fun r => { r with kind := .regular }).region 0
      = { Region.new 0 (h.layout.bottom 0) (h.layout.regionStop 0) with kind := .regular } := by
    rw [region_modifyRegion, if_pos ⟨rfl, by omega⟩, hnew 0 (by omega)]
  have hroom : ∃ r, ((h.modifyRegion 0 fun r => { r with kind := .regular }).region 0).allocate
      words = some (h.layout.bottom 0, r) := by
    rw [hfirst]
    refine ⟨_, Region.allocate_eq_some_iff.2 ⟨?_, ?_, rfl, rfl⟩⟩
    · show (h.layout.bottom 0).toNat + (words <<< wordShift).toNat < 2 ^ 64
      omega
    · rw [UInt64.le_iff_toNat_le]
      show (h.layout.bottom 0 + (words <<< wordShift)).toNat ≤ (h.layout.regionStop 0).toNat
      rw [UInt64.toNat_add]
      omega
  obtain ⟨r, hroom⟩ := hroom
  unfold allocate
  rw [if_neg hne, if_neg hsmall, hnone, List.findSome?_nil, hindices]
  unfold allocateInFree allocateAt
  rw [if_pos (by simp [Region.isFree, hfree 0 (by omega)])]
  dsimp only
  rw [hroom]

end Heap

/-- Nothing can be reached without a root. -/
theorem not_reaches_empty {h : Heap} (a : Address) : ¬ Reaches h t #[] a := by
  intro ha
  refine Reaches.least (p := fun _ => False) ?_ (fun _ _ _ hf _ => hf) ha
  intro v hv
  simp [Roots.live] at hv

/-- A new heap is well-formed: nothing can be reached in it. -/
theorem wellFormed_new {config : Config} {base : Address} (hv : config.Valid)
    (hb : config.Backed base) (ht : t.Sound) (hheaders : t.compactHeaders = config.compactHeaders) :
    ∃ h, Heap.new config base = .ok h ∧
      h.layout = ⟨base, config.regionShift, config.numRegions.toNat⟩ ∧
      h.compactHeaders = config.compactHeaders ∧
      (∀ i < h.regions.size, h.region i = .new i (h.layout.bottom i) (h.layout.regionStop i)) ∧
      WellFormed h t #[] := by
  obtain ⟨h, hnew, hlayout, hcompact, hmapped, hsize, hregions⟩ := Heap.new_eq hv hb
  have hsound := Heap.sound_new hv hb
  rw [← hlayout] at hsound
  refine ⟨h, hnew, hlayout, hcompact, hregions, Heap.settled_new hsound hsize hregions, hmapped, ht, ?_,
    ⟨fun a ha => absurd ha (not_reaches_empty a), fun a _ ha => absurd ha (not_reaches_empty a)⟩, ?_⟩
  · rw [hheaders, hcompact]
  · intro l _ hl
    cases l with
    | nil => exact (by decide : 0 < 2 ^ 32)
    | cons a l => exact absurd (hl a (by simp)) (not_reaches_empty a)

/-- The first object of a new heap, if it fits in a region. -/
theorem WellFormed.instantiate_new {h : Heap} {classId : UInt32} {c : ClassInfo}
    (hw : WellFormed h t #[]) (hfew : h.layout.heapWords.toNat < 2 ^ 32)
    (hnew : ∀ i < h.regions.size, h.region i = .new i (h.layout.bottom i) (h.layout.regionStop i))
    (hregion : 0 < h.layout.numRegions) (hc : t.info classId = some c)
    (hwords : 8 * c.words.toNat ≤ h.layout.stride) :
    ∃ h', h.instantiate t classId = .ok (.ok (h.layout.bottom 0), h') ∧
      h.Mutated h' t (Reaches h t #[]) ∧ WellFormed h' t #[h.layout.bottom 0] := by
  have hl := hw.settled.layout
  have hpos : 0 < c.words.toNat := by
    have h1 := UInt64.le_iff_toNat_le.1 (hw.classes.header c (ClassTable.mem_of_info hc))
    have h2 := t.headerWords_pos
    omega
  have hheap := hl.toNat_heapWords
  have hone := Nat.mul_le_mul_right h.layout.stride hregion
  have hallocate : ∀ d, t.info classId = some d → h.Answered d.words (h.allocate d.words) := by
    intro d hd
    obtain rfl : c = d := by
      rw [hc] at hd
      exact Option.some.inj hd
    exact Heap.answered_allocate hw.settled (by omega)
  obtain ⟨outcome, h', hrun, hanswer, hmut, hwell⟩ := hw.instantiateBy hfew hallocate
  have hok := hanswer c hc
  rw [Heap.allocate_new hl hw.settled.count hnew hregion hpos hwords] at hok
  subst hok
  refine ⟨h', hrun, hmut, (hwell _ fun v hv => .inl ?_).1⟩
  obtain rfl : v = h.layout.bottom 0 := by simpa [Roots.live] using (List.mem_filter.1 hv).1
  rfl

/-- A region of the grid begins in the heap. -/
theorem Heap.Mapped.contains_bottom {h : Heap} (hm : h.Mapped) (hl : h.layout.Sound) {i : Nat}
    (hi : i < h.layout.numRegions) :
    h.layout.bottom i ≠ 0 ∧ h.contains (h.layout.bottom i) = true := by
  have hbottom := hl.toNat_bottom hi.le
  have hnz := hl.nonzero
  have hstop := hl.toNat_stop
  have hnext := Nat.mul_le_mul_right h.layout.stride (Nat.succ_le_of_lt hi)
  rw [Nat.succ_mul] at hnext
  have hpos := h.layout.stride_pos
  refine ⟨?_, ?_⟩
  · intro h0
    rw [h0] at hbottom
    have hzero : (0 : Address).toNat = 0 := rfl
    omega
  · rw [hm.contains_iff hl, hl.contains_iff]
    exact ⟨⟨by omega, by omega⟩, hl.bottom_mod hi.le⟩

/-- An object in words that have just been handed out, in a heap in which nothing else can be
reached. -/
theorem WellFormed.instantiate_made {h g : Heap} {classId : UInt32} {c : ClassInfo}
    (hw : WellFormed h t #[]) (hfew : h.layout.heapWords.toNat < 2 ^ 32)
    (hc : t.info classId = some c) (hmakes : h.Makes g c.words a) :
    ∃ m, WellFormed (g.withMemory m) t #[a] ∧ ∀ b, Reaches (g.withMemory m) t #[a] b ↔ b = a := by
  let allocate : WordCount → Except CompactError Address × Heap := fun _ => (.ok a, g)
  have hallocate : ∀ d, t.info classId = some d → h.Answered d.words (allocate d.words) := by
    intro d hd
    obtain rfl : c = d := by
      rw [hc] at hd
      exact Option.some.inj hd
    exact hmakes
  obtain ⟨outcome, h', hrun, hanswer, hmut, hwell⟩ := hw.instantiateBy hfew hallocate
  obtain rfl : outcome = .ok a := hanswer c hc
  obtain ⟨hw', honly⟩ := hwell #[a] fun v hv => .inl (by
    obtain rfl : v = a := by simpa [Roots.live] using (List.mem_filter.1 hv).1
    rfl)
  -- the header is written after the words have been handed out
  obtain ⟨m, rfl⟩ : ∃ m, h' = g.withMemory m := by
    unfold Heap.instantiateBy at hrun
    rw [hc] at hrun
    obtain ⟨g', hset, hg⟩ := exists_of_map_eq_ok hrun
    obtain ⟨m, -, hm⟩ := exists_of_bind_eq_ok hset
    obtain rfl : g' = h' := (Prod.mk.inj hg).2
    exact ⟨_, (Except.ok.inj hm).symm⟩
  refine ⟨m, hw', fun b => ⟨fun hb => ?_, ?_⟩⟩
  · rcases honly b hb with hnew | hold
    · exact (Except.ok.inj hnew).symm
    · exact absurd hold (not_reaches_empty b)
  · rintro rfl
    have hpos : 0 < c.words.toNat := by
      have h1 := UInt64.le_iff_toNat_le.1 (hw.classes.header c (ClassTable.mem_of_info hc))
      have h2 := t.headerWords_pos
      omega
    have hbase := (hmakes.placed.bounds hmakes.settled.toTabled).1
    have hnz := hmakes.settled.layout.nonzero
    refine .root (List.mem_filter.2 ⟨by simp, ?_⟩) ?_
    · rw [bne_iff_ne]
      rintro rfl
      have hzero : (0 : Address).toNat = 0 := rfl
      omega
    · rw [hmut.contains, ← hmakes.ground.contains]
      exact hmakes.placed.contains hmakes.settled.toTabled (hmakes.ground.mapped hw.mapped) hpos
        hmakes.aligned

/-- A humongous object in free regions of a heap in which nothing else can be reached. -/
theorem WellFormed.instantiate_run {h : Heap} {classId : UInt32} {c : ClassInfo} {first : Nat}
    (hw : WellFormed h t #[]) (hfew : h.layout.heapWords.toNat < 2 ^ 32)
    (hc : t.info classId = some c) (hr : h.FreeRun first c.words) :
    ∃ h', h'.layout = h.layout ∧ h'.compactHeaders = h.compactHeaders ∧
      (h'.region first).kind = .humongousStart ∧ WellFormed h' t #[h.layout.bottom first] ∧
      ∀ b, Reaches h' t #[h.layout.bottom first] b ↔ b = h.layout.bottom first := by
  have hmakes := hr.makes hw.settled
  obtain ⟨m, hw', hreach⟩ := hw.instantiate_made hfew hc hmakes
  exact ⟨(h.installHumongous first c.words).withMemory m, hmakes.ground.layout,
    hmakes.ground.headers, (hr.installed hw.settled.toTabled).start, hw', hreach⟩

/-- There are well-formed heaps with something in them, for every configuration and every class
whose instances fit in a region. -/
theorem exists_wellFormed {config : Config} {base : Address} {classId : UInt32} {c : ClassInfo}
    (hv : config.Valid) (hb : config.Backed base) (ht : t.Sound)
    (hheaders : t.compactHeaders = config.compactHeaders) (hc : t.info classId = some c)
    (hwords : c.words.toNat ≤ 2 ^ config.regionShift.toNat)
    (hfew : config.heapBytes.toNat < 8 * 2 ^ 32) :
    ∃ h a, h.layout = ⟨base, config.regionShift, config.numRegions.toNat⟩ ∧
      h.compactHeaders = config.compactHeaders ∧ WellFormed h t #[a] ∧ Reaches h t #[a] a := by
  obtain ⟨h, -, hlayout, hcompact, hnew, hw⟩ := wellFormed_new hv hb ht hheaders
  have hl := hw.settled.layout
  have hstride : h.layout.stride = 8 * 2 ^ config.regionShift.toNat := by
    rw [hlayout]
    rfl
  have hnum : h.layout.numRegions = config.numRegions.toNat := by rw [hlayout]
  have hregion : 0 < h.layout.numRegions := hnum ▸ hv.numRegions_pos
  have hheap := hl.toNat_heapWords
  rw [hnum, hstride, ← hv.toNat_heapBytes] at hheap
  obtain ⟨h', -, hmut, hw'⟩ := hw.instantiate_new (by omega) hnew hregion hc (by omega)
  obtain ⟨hne, hin⟩ := hw.mapped.contains_bottom hl hregion
  refine ⟨h', h.layout.bottom 0, hmut.layout.trans hlayout, hmut.headers.trans hcompact, hw',
    .root (List.mem_filter.2 ⟨by simp, by simpa using hne⟩) ?_⟩
  rw [hmut.contains]
  exact hin

end MarkCompact
