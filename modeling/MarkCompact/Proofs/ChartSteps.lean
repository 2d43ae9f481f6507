/-
MarkCompact/Proofs/ChartSteps.lean

What a step of a program does to a chart.

Whatever the program does, the heap changes in one of three ways (`Heap.Steps`): words of an
object that the program can name are written, and its size stays; a request for words is
refused, which may have made free regions regular; or a new object is set up in words that
belonged to none.  Under each of them a chart stays a chart, with the new object added.

Main results: `Charted.steps` and `Session.Mutates.charted`.
-/
import MarkCompact.Proofs.Charts
import MarkCompact.Proofs.Sessions

namespace MarkCompact

namespace Heap

variable {h h' : Heap} {t : ClassTable} {known tile : Address → Prop} {a b : Address}

/-! ### Steps -/

/-- What a step of a program does to the heap, and the object that it makes, if it makes one. -/
inductive Steps (h : Heap) (t : ClassTable) (known : Address → Prop) : Heap → Option Address → Prop
  /-- Words of a known object are written. -/
  | writes {a : Address} {m : Memory} (object : known a)
      (size : (h.withMemory m).size t a = h.size t a)
      (outside : ∀ x : Address, x.toNat < a.toNat ∨ a.toNat + 8 * h.wordsAt t a ≤ x.toNat →
        m.load x = h.memory.load x) : Steps h t known (h.withMemory m) none
  | refuses {h' : Heap} (refuses : h.Refuses h') : Steps h t known h' none
  /-- An instance of a class is set up in words that have been handed out. -/
  | makes {g : Heap} {a : Address} {c : ClassInfo} {m : Memory} (makes : h.Makes g c.words a)
      (fresh : (g.withMemory m).Fresh t a c) (positive : 0 < c.words.toNat)
      (outside : ∀ x : Address, x.toNat < a.toNat ∨ a.toNat + 8 * c.words.toNat ≤ x.toNat →
        m.load x = g.memory.load x) : Steps h t known (g.withMemory m) (some a)

namespace Charted

/-- The words of another object are written. -/
theorem size_of_outside (hc : h.Charted t known tile) (htab : h.Tabled) (ht : t.Sound)
    (hb : tile b) {n : Nat} (hapart : b.toNat + 8 * h.wordsAt t b ≤ a.toNat ∨ a.toNat + 8 * n ≤ b.toNat)
    (hout : ∀ x : Address, x.toNat < a.toNat ∨ a.toNat + 8 * n ≤ x.toNat →
      h'.memory.load x = h.memory.load x) : h'.size t b = h.size t b := by
  obtain ⟨words, hsize, hpos, hplace⟩ := hc.object b hb
  have hwords := wordsAt_of_size hsize
  have hheader := headerWords_le ht hsize hpos
  have hend := (hplace.bounds htab).2
  have hlast := h.layout.stop.toNat_lt
  refine size_congr_header fun j hj => hout _ ?_
  rw [Address.toNat_nth (by omega)]
  omega

/-- Words of an object of the chart are written, and its size stays. -/
theorem writes (hc : h.Charted t known tile) (hs : h.Settled) (ht : t.Sound) {m : Memory}
    (ha : tile a) (hsize : (h.withMemory m).size t a = h.size t a)
    (hout : ∀ x : Address, x.toNat < a.toNat ∨ a.toNat + 8 * h.wordsAt t a ≤ x.toNat →
      m.load x = h.memory.load x) : (h.withMemory m).Charted t known tile := by
  have hsizes : ∀ b, tile b → (h.withMemory m).size t b = h.size t b := by
    intro b hb
    rcases Nat.lt_trichotomy a.toNat b.toNat with hlt | heq | hlt
    · exact hc.size_of_outside hs.toTabled ht hb (.inr (hc.apart a b ha hb hlt)) hout
    · rw [← UInt64.toNat_inj.1 heq]
      exact hsize
    · exact hc.size_of_outside hs.toTabled ht hb (.inl (hc.apart b a hb ha hlt)) hout
  have hwords : ∀ b, tile b → (h.withMemory m).wordsAt t b = h.wordsAt t b := fun b hb => by
    unfold wordsAt
    rw [hsizes b hb]
  refine ⟨?_, hc.aligned, ?_, ?_, hc.start, hc.serves, hc.holds, hc.found⟩
  · intro b hb
    obtain ⟨words, hsize, hpos, hplace⟩ := hc.object b hb
    exact ⟨words, (hsizes b hb).trans hsize, hpos, placedAt_withMemory hs m hplace⟩
  · intro b d hb hd hlt
    rw [hwords b hb]
    exact hc.apart b d hb hd hlt
  · intro i hi hk b hb h1 h2
    rw [hwords b hb] at h2 ⊢
    exact hc.next i hi hk b hb h1 h2

/-- A request is refused. -/
theorem refuses (hc : h.Charted t known tile) (hs : h.Settled) (hr : h.Refuses h') :
    h'.Charted t known tile := by
  have hground := hr.ground
  have hsizes : ∀ b, h'.size t b = h.size t b := fun b => size_congr hground.memory
  have hwords : ∀ b, h'.wordsAt t b = h.wordsAt t b := fun b => wordsAt_congr hground.memory
  have hserves : h'.starts.Serves h'.layout := by
    rw [hr.starts, hground.layout]
    exact hc.serves
  refine { object := ?object, aligned := hc.aligned, apart := ?apart, next := ?next
           start := ?start, serves := hserves, holds := by rw [hr.starts]; exact hc.holds
           found := by rw [hr.starts]; exact hc.found }
  case object =>
    intro b hb
    obtain ⟨words, hsize, hpos, hplace⟩ := hc.object b hb
    exact ⟨words, (hsizes b).trans hsize, hpos, hr.kept b words hplace⟩
  case apart =>
    intro b d hb hd hlt
    rw [hwords]
    exact hc.apart b d hb hd hlt
  case next =>
    intro i hi hk b hb h1 h2
    rw [hground.size] at hi
    rw [hground.layout] at h1
    rw [hwords, hr.top i] at h2
    rw [hwords]
    rcases hr.kind i with hsame | ⟨hfree, -⟩
    · exact hc.next i hi (hsame ▸ hk) b hb h1 h2
    · -- nothing lies in a region that was free
      have hempty := hs.free i hi hfree
      have hbottom := hs.bottom i hi
      rw [hempty, hbottom] at h2
      omega
  case start =>
    intro i hi hk
    rw [hground.size] at hi
    rw [hground.layout]
    rcases hr.kind i with hsame | ⟨-, hregular⟩
    · exact hc.start i hi (hsame ▸ hk)
    · rw [hregular] at hk
      cases hk

/-- Words that are made lie apart from the objects of the chart. -/
theorem apart_of_makes (hc : h.Charted t known tile) {g : Heap} {n : WordCount}
    (hm : h.Makes g n a) (hb : tile b) : a.Apart n.toNat b (h.wordsAt t b) := by
  obtain ⟨words, hsize, hpos, hplace⟩ := hc.object b hb
  rw [wordsAt_of_size hsize]
  exact hm.apart b words hplace hpos

/-- In a regular region nothing follows the words that are made. -/
theorem top_le_of_makes {g : Heap} {n : WordCount} (hm : h.Makes g n a) (hpos : 0 < n.toNat) {i : Nat}
    (hi : i < h.regions.size) (hk : (g.region i).kind = .regular)
    (hbottom : (h.layout.bottom i).toNat ≤ a.toNat) :
    (g.region i).top.toNat ≤ a.toNat + 8 * n.toNat := by
  rcases hm.top i hi hk with ⟨htop, hbelow⟩ | ⟨-, htop⟩
  · have := hbelow hpos hbottom
    rw [htop]
    omega
  · exact htop.le

/-- In a regular region an object of the chart is followed by the next one or, if it has been the
last one, by the words that are made. -/
theorem next_of_makes (hc : h.Charted t known tile) (hs : h.Settled) {g : Heap} {n : WordCount}
    (hm : h.Makes g n a) {i : Nat} (hi : i < h.regions.size) (hk : (g.region i).kind = .regular)
    (hb : tile b) (hbottom : (h.layout.bottom i).toNat ≤ b.toNat)
    (hend : b.toNat + 8 * h.wordsAt t b < (g.region i).top.toNat) :
    a = b.nth (h.wordsAt t b) ∨ tile (b.nth (h.wordsAt t b)) := by
  have hground := hm.ground
  have hin : b.toNat < (h.layout.regionStop i).toNat := by
    have hi' : i < g.regions.size := by rwa [hground.size]
    have htop := (hm.settled.top i hi').2.1
    rw [hm.settled.stop i hi', hground.layout] at htop
    omega
  rcases hc.cases hs.toTabled hb hi hbottom hin with ⟨hold, hle⟩ | ⟨-, words, -, hrun⟩
  · by_cases hlt : b.toNat + 8 * h.wordsAt t b < (h.region i).top.toNat
    · exact .inr (hc.next i hi hold b hb hbottom hlt)
    · rcases hm.top i hi hk with ⟨htop, -⟩ | ⟨htop, -⟩
      · rw [htop] at hend
        exact absurd hend hlt
      · refine .inl (UInt64.toNat_inj.1 ?_)
        rw [Address.toNat_nth (by have := (h.region i).top.toNat_lt; omega), ← htop]
        omega
  · rcases hm.regular i hk with hold | hold <;> rw [hrun.start] at hold <;> cases hold

/-- A new object is set up. -/
theorem makes (hc : h.Charted t known tile) (hs : h.Settled) (ht : t.Sound) {g : Heap}
    {c : ClassInfo} {m : Memory} (hm : h.Makes g c.words a) (hf : (g.withMemory m).Fresh t a c)
    (hpos : 0 < c.words.toNat)
    (hout : ∀ x : Address, x.toNat < a.toNat ∨ a.toNat + 8 * c.words.toNat ≤ x.toNat →
      m.load x = g.memory.load x) :
    (g.withMemory m).Charted t (fun b => some a = some b ∨ known b)
      (fun b => some a = some b ∨ tile b) := by
  have hground := hm.ground
  have hbounds := hm.placed.bounds hm.settled.toTabled
  have happart : ∀ b, tile b → a.Apart c.words.toNat b (h.wordsAt t b) := fun b hb =>
    hc.apart_of_makes hm hb
  have hsizes : ∀ b, tile b → (g.withMemory m).size t b = h.size t b := by
    intro b hb
    refine hc.size_of_outside hs.toTabled ht hb (a := a) (n := c.words.toNat) ?_ fun x hx => ?_
    · have := happart b hb
      unfold Address.Apart at this
      omega
    · rw [← hground.memory]
      exact hout x hx
  have hwords : ∀ b, tile b → (g.withMemory m).wordsAt t b = h.wordsAt t b := fun b hb => by
    unfold wordsAt
    rw [hsizes b hb]
  have hnew : (g.withMemory m).wordsAt t a = c.words.toNat := wordsAt_of_size hf.size
  have hserves : g.starts.Serves g.layout := by
    rw [hm.starts, hground.layout]
    exact hc.serves.record a
  have hholds : g.starts.Holds fun b => some a = some b ∨ tile b := by
    rw [hm.starts]
    exact (hc.holds.mono fun b hb => .inr hb).record (.inl rfl)
  refine { object := ?object, aligned := ?aligned, apart := ?apart, next := ?next, start := ?start
           serves := hserves, holds := hholds, found := ?found }
  case object =>
    rintro b (hab | hb)
    · obtain rfl := Option.some.inj hab
      exact ⟨c.words, hf.size, hpos, placedAt_withMemory hm.settled m hm.placed⟩
    · obtain ⟨words, hsize, hwpos, hplace⟩ := hc.object b hb
      exact ⟨words, (hsizes b hb).trans hsize, hwpos,
        placedAt_withMemory hm.settled m (hm.kept b words hplace)⟩
  case aligned =>
    rintro b (hab | hb)
    · obtain rfl := Option.some.inj hab
      exact hm.aligned
    · exact hc.aligned b hb
  case apart =>
    rintro b d (hab | hb) (had | hd) hlt
    · obtain rfl := Option.some.inj hab
      obtain rfl := Option.some.inj had
      omega
    · obtain rfl := Option.some.inj hab
      have := happart d hd
      unfold Address.Apart at this
      omega
    · obtain rfl := Option.some.inj had
      have := happart b hb
      unfold Address.Apart at this
      rw [hwords b hb]
      omega
    · rw [hwords b hb]
      exact hc.apart b d hb hd hlt
  case next =>
    intro i hi hk b hb h1 h2
    have hi' : i < h.regions.size := by rwa [← hground.size]
    change (g.layout.bottom i).toNat ≤ b.toNat at h1
    rw [hground.layout] at h1
    change _ < (g.region i).top.toNat at h2
    change (g.region i).kind = .regular at hk
    rcases hb with hab | hb
    · obtain rfl := Option.some.inj hab
      rw [hnew] at h2
      have := top_le_of_makes hm hpos hi' hk h1
      omega
    · rw [hwords b hb] at h2 ⊢
      exact (hc.next_of_makes hs hm hi' hk hb h1 h2).imp_left (congrArg some)
  case start =>
    intro i hi hk
    have hi' : i < h.regions.size := by rwa [← hground.size]
    show some a = some (g.layout.bottom i) ∨ tile (g.layout.bottom i)
    rw [hground.layout]
    rcases hm.start i hi' hk with hold | heq
    · exact .inr (hc.start i hi' hold)
    · exact .inl (by rw [heq])
  case found =>
    rw [hground.layout] at hbounds
    show ∀ b, _ → _ ∧ g.starts.Finds b
    rw [hm.starts]
    rintro b (hab | hb)
    · obtain rfl := Option.some.inj hab
      exact ⟨.inl rfl, StartTable.finds_record (hc.serves.blockOf_lt hs.layout hbounds.1 (by omega))
        (StartTable.ne_greatest_of_aligned hm.aligned)⟩
    · obtain ⟨htile, hfinds⟩ := hc.found b hb
      exact ⟨.inr htile, hfinds.record (StartTable.ne_greatest_of_aligned (hc.aligned b htile)) a⟩

/-- A chart stays a chart, whatever the program does. -/
theorem steps (hc : h.Charted t known tile) (hs : h.Settled) (ht : t.Sound) {made : Option Address}
    (hstep : h.Steps t known h' made) :
    h'.Charted t (fun b => made = some b ∨ known b) (fun b => made = some b ∨ tile b) := by
  have hnone : ∀ p : Address → Prop, (fun b => none = some b ∨ p b) = p := by
    intro p
    funext b
    simp
  cases hstep with
  | writes object size outside =>
    rw [hnone, hnone]
    exact hc.writes hs ht (hc.found _ object).1 size outside
  | refuses hr =>
    rw [hnone, hnone]
    exact hc.refuses hs hr
  | makes hm hf hpos outside => exact hc.makes hs ht hm hf hpos outside

end Charted

/-- Making an object is one of the ways in which the heap changes. -/
theorem instantiateBy_steps (ht : t.Sound) (hs : h.Settled) (hm : h.Mapped) {classId : UInt32}
    {allocate : WordCount → Except CompactError Address × Heap}
    (hallocate : ∀ c, t.info classId = some c → h.Answered c.words (allocate c.words))
    {outcome : Except CompactError Address}
    (hrun : h.instantiateBy t classId allocate = .ok (outcome, h')) :
    h.Steps t known h' outcome.toOption := by
  unfold instantiateBy at hrun
  cases hc : t.info classId with
  | none =>
    rw [hc] at hrun
    obtain ⟨rfl, rfl⟩ := Prod.ext_iff.1 (Except.ok.inj hrun)
    exact .refuses (.refl hs)
  | some c =>
    rw [hc] at hrun
    have hanswer := hallocate c hc
    cases hall : allocate c.words with
    | mk answer g =>
      rw [hall] at hanswer
      dsimp only at hrun
      rw [hall] at hrun
      cases answer with
      | error e =>
        obtain ⟨rfl, rfl⟩ := Prod.ext_iff.1 (Except.ok.inj hrun)
        exact .refuses hanswer
      | ok a =>
        have hmakes : h.Makes g c.words a := hanswer
        have hpos : 0 < c.words.toNat := by
          have h1 := UInt64.le_iff_toNat_le.1 (ht.header c (ClassTable.mem_of_info hc))
          have h2 := t.headerWords_pos
          omega
        have hbounds := hmakes.placed.bounds hmakes.settled.toTabled
        obtain ⟨m, hset, -, hfresh, hout⟩ := setUp_spec (h := g) ht hc
          ((hmakes.ground.mapped hm).covers_of_grid hmakes.settled.layout hbounds.1 hbounds.2)
        dsimp only at hrun
        rw [hset] at hrun
        obtain ⟨rfl, rfl⟩ := Prod.ext_iff.1 (Except.ok.inj hrun)
        exact .makes hmakes hfresh hpos hout

/-- A word of a live object is written. -/
theorem steps_store {roots : Roots} (hw : WellFormed h t roots) (ha : Reaches h t roots a)
    {i : Nat} (hi : i < h.wordsAt t a) {v : Word}
    (hmut : h.Mutated (h.withMemory (h.memory.store (a.nth i) v)) t (Reaches h t roots)) :
    h.Steps t (Reaches h t roots) (h.withMemory (h.memory.store (a.nth i) v)) none := by
  exact .writes ha (hmut.size ha) fun x hx =>
    Memory.load_store_of_ne _ (Address.nth_ne_of_outside hi (hw.end_lt ha) hx) v

/-- The mark of a live object is written. -/
theorem steps_storeMark {roots : Roots} (hw : WellFormed h t roots) (ha : Reaches h t roots a)
    {m : Mark} (hmut : h.Mutated (h.withMemory (h.memory.storeMark a m)) t (Reaches h t roots)) :
    h.Steps t (Reaches h t roots) (h.withMemory (h.memory.storeMark a m)) none := by
  have hstore : h.memory.storeMark a m = h.memory.store (a.nth 0) m.raw := by
    rw [Address.nth_zero]
    rfl
  rw [hstore] at hmut ⊢
  exact steps_store hw ha (hw.wordsAt_pos ha) hmut

/-- An identity hash is noted in the mark, if it is noted at all. -/
theorem eq_or_storeMark_of_identityHash {hash : UInt32}
    (hrun : h.identityHash t a = .ok (hash, h')) :
    h' = h ∨ ∃ m, h' = h.withMemory (h.memory.storeMark a m) := by
  unfold identityHash at hrun
  dsimp only at hrun
  split at hrun
  · split at hrun
    · cases hsize : h.size t a with
      | error fault =>
        rw [hsize] at hrun
        cases hrun
      | ok words =>
        rw [hsize] at hrun
        exact .inl (Prod.ext_iff.1 (Except.ok.inj hrun)).2.symm
    · split at hrun
      · exact .inl (Prod.ext_iff.1 (Except.ok.inj hrun)).2.symm
      · exact .inr ⟨_, (Prod.ext_iff.1 (Except.ok.inj hrun)).2.symm⟩
  · split at hrun
    · exact .inl (Prod.ext_iff.1 (Except.ok.inj hrun)).2.symm
    · exact .inr ⟨_, (Prod.ext_iff.1 (Except.ok.inj hrun)).2.symm⟩

end Heap

/-! ### Programs -/

namespace Session

variable {t : ClassTable} {s s' : Session} {tile : Address → Prop}

/-- What a step of a program does to the heap, and what the program can name afterwards. -/
theorem Mutates.steps (hm : s.Mutates t s') (hs : s.Sound t) :
    ∃ made, s.heap.Steps t (s.Knows t) s'.heap made ∧
      ∀ b, s'.Knows t b → made = some b ∨ s.Knows t b := by
  have hw := hs.wellFormed
  have hrefl := Heap.Refuses.refl hw.settled
  have hmade : ∀ {outcome : Except CompactError Address} {b : Address},
      outcome = .ok b ∨ s.Knows t b → outcome.toOption = some b ∨ s.Knows t b := by
    rintro outcome b (rfl | hb)
    · exact .inl rfl
    · exact .inr hb
  cases hm with
  | @instantiate classId _ _ run =>
    have hallocate := fun c (hc : t.info classId = some c) => hs.answered_allocate hc
    exact ⟨_, Heap.instantiateBy_steps hw.classes hw.settled hw.mapped hallocate run,
      fun b hb => hmade ((hs.made hallocate run).2.2 b hb)⟩
  | @instantiateIn index classId _ _ run =>
    have hallocate := fun c (hc : t.info classId = some c) => hs.answered_allocateIn index hc
    exact ⟨_, Heap.instantiateBy_steps hw.classes hw.settled hw.mapped hallocate run,
      fun b hb => hmade ((hs.made hallocate run).2.2 b hb)⟩
  | hold store =>
    exact ⟨none, .refuses hrefl, fun b hb => .inr
      (hb.mono fun _ hmem hin => knows_of_hold store hmem hin)⟩
  | setRoots store =>
    exact ⟨none, .refuses hrefl, fun b hb => .inr
      (hb.mono fun _ hmem hin => knows_of_setRoots store hmem hin)⟩
  | @setReference a field v h known store run =>
    obtain ⟨hmut, -, hreach⟩ := hw.setReference known store run
    refine ⟨none, ?_, fun b hb => .inr (hreach b hb)⟩
    obtain ⟨c, f, hc, hf, rfl⟩ := WellFormed.eq_store_of_setReference run
    obtain ⟨c', words, ho⟩ := hw.object known
    obtain rfl : c' = c := by
      rw [ho.info] at hc
      exact Except.ok.inj hc
    obtain ⟨-, h2, h3⟩ := hw.field_bounds ho hf
    have hwords := ho.wordsAt_eq
    rw [Address.offset_eq_nth] at hmut ⊢
    exact Heap.steps_store hw known (by omega) hmut
  | identityHash known run =>
    obtain ⟨_, h', run', hmut, -, hreach, -⟩ := hw.identityHash known
    rw [run] at run'
    obtain ⟨rfl, rfl⟩ := Prod.ext_iff.1 (Except.ok.inj run')
    refine ⟨none, ?_, fun b hb => .inr (hreach b hb)⟩
    rcases Heap.eq_or_storeMark_of_identityHash run with rfl | ⟨m, rfl⟩
    · exact .refuses hrefl
    · exact Heap.steps_storeMark hw known hmut
  | stackLock known =>
    obtain ⟨hmut, -, hreach⟩ := hw.setLock known (show (0b00 : Word) &&& lockMask ≠ 0b11 by decide)
    exact ⟨none, Heap.steps_storeMark hw known hmut, fun b hb => .inr (hreach b hb)⟩
  | inflate known =>
    obtain ⟨hmut, -, hreach⟩ := hw.setLock known (show (0b10 : Word) &&& lockMask ≠ 0b11 by decide)
    exact ⟨none, Heap.steps_storeMark hw known hmut, fun b hb => .inr (hreach b hb)⟩
  | unlock known =>
    obtain ⟨hmut, -, hreach⟩ := hw.setLock known (show (0b01 : Word) &&& lockMask ≠ 0b11 by decide)
    exact ⟨none, Heap.steps_storeMark hw known hmut, fun b hb => .inr (hreach b hb)⟩

/-- Whatever a program does, a chart of the heap stays one. -/
theorem Mutates.charted (hm : s.Mutates t s') (hs : s.Sound t)
    (hc : s.heap.Charted t (s.Knows t) tile) : ∃ tile', s'.heap.Charted t (s'.Knows t) tile' := by
  obtain ⟨made, hstep, hknows⟩ := hm.steps hs
  exact ⟨_, (hc.steps hs.wellFormed.settled hs.wellFormed.classes hstep).mono hknows⟩

end Session

end MarkCompact
