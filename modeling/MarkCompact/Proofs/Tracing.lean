/-
MarkCompact/Proofs/Tracing.lean

Tracing marks exactly what can be reached.

`Traced h t roots g s met` is the invariant: tracing has come to `s` and has met
the objects of the list `met`, each of them reachable and met once; the bitmap
shows them on the grid `g`, and the grey ones are among them.  Meeting one more
reference keeps it (`Traced.meet`), and so does a step, after which one more
object is finished: all it refers to has been met (`Finished`).  There are no more
objects than words in the heap, so the steps suffice, and when nothing is grey,
everything that has been met is finished and nothing else can be reached.

Tracing asks little of the heap: what is reached is an instance of a registered
class and ends inside the heap (`Heap.Traceable`).  The bitmap may cover more than
the heap (`Layout.Covers`).

Main results: `Heap.Traceable.trace` (tracing ends without a fault, and the bitmap
shows the reachable objects) and `WellFormed.trace`, the same for a well-formed heap
and the bitmap of its grid.
-/
import MarkCompact.Proofs.Bitmaps
import MarkCompact.Proofs.WellFormed

namespace MarkCompact

/-! ### What an object refers to -/

/-- Whether a field of the object at `a` refers to the place `v` of the heap. -/
def Heap.RefersTo (h : Heap) (t : ClassTable) (a v : Address) : Prop :=
  ∃ c f, h.infoOf t a = .ok c ∧ f ∈ c.fields ∧ h.memory.load (a.offset f) = v ∧ v ≠ 0 ∧
    h.contains v = true

theorem Reaches.refersTo {h : Heap} {t : ClassTable} {roots : Roots} {a v : Address}
    (ha : Reaches h t roots a) (hv : h.RefersTo t a v) : Reaches h t roots v := by
  obtain ⟨c, f, hc, hf, rfl, hne, hin⟩ := hv
  exact .field ha (Heap.slots_of_info hc) (List.mem_map.2 ⟨f, hf, rfl⟩) hne hin

/-- Reachability is the least set with the roots that is closed under references. -/
theorem Reaches.least {h : Heap} {t : ClassTable} {roots : Roots} {p : Address → Prop}
    (hroot : ∀ a ∈ roots.live, h.contains a = true → p a)
    (hstep : ∀ a v, Reaches h t roots a → p a → h.RefersTo t a v → p v)
    {a : Address} (ha : Reaches h t roots a) : p a := by
  induction ha with
  | root hmem hin => exact hroot _ hmem hin
  | @field a s slots source fields mem some inside ih =>
    refine hstep a _ source ih ?_
    unfold Heap.slots at fields
    cases hc : h.infoOf t a with
    | error fault => rw [hc] at fields; cases fields
    | ok c =>
      rw [hc] at fields
      obtain rfl : c.fields.map a.offset = slots := by simpa using fields
      obtain ⟨f, hf, rfl⟩ := List.mem_map.1 mem
      exact ⟨c, f, hc, hf, rfl, some, inside⟩

/-! ### Words and lists -/

/-- There are no more distinct words than the grid has. -/
theorem Layout.Sound.length_le {l : Layout} (hl : l.Sound) {as : List Address} (hn : as.Nodup)
    (hword : ∀ a ∈ as, l.IsWord a) : as.length ≤ l.heapWords.toNat := by
  have hwords := hl.toNat_heapWords
  have hstop := hl.toNat_stop
  have hbase := hl.aligned
  -- words are counted by their numbers from the base on
  have hinj : (as.map fun a => (a.toNat - l.base.toNat) / 8).Nodup := by
    refine List.Nodup.map_on ?_ hn
    intro a ha c hc heq
    have h1 := hword a ha
    have h2 := hword c hc
    have h3 := h1.bottom
    have h4 := h2.bottom
    have h5 := h1.aligned
    have h6 := h2.aligned
    exact UInt64.toNat_inj.1 (by omega)
  have hsub : (as.map fun a => (a.toNat - l.base.toNat) / 8) ⊆ List.range l.heapWords.toNat := by
    intro i hi
    obtain ⟨a, ha, rfl⟩ := List.mem_map.1 hi
    have h1 := hword a ha
    have h3 := h1.bottom
    have h4 := h1.stop
    rw [List.mem_range]
    omega
  have hle := (hinj.subperm hsub).length_le
  rwa [List.length_map, List.length_range] at hle

theorem Heap.Mapped.isWord {h : Heap} (hm : h.Mapped) (hl : h.layout.Sound) {a : Address}
    (ha : h.contains a = true) : h.layout.IsWord a := by
  rw [hm.contains_iff hl, hl.contains_iff] at ha
  exact ⟨ha.1.1, ha.1.2, ha.2⟩

theorem WellFormed.isWord {h : Heap} {t : ClassTable} {roots : Roots} (hw : WellFormed h t roots)
    {a : Address} (ha : Reaches h t roots a) : h.layout.IsWord a :=
  hw.mapped.isWord hw.settled.layout ha.contains

/-! ### What tracing asks of a heap -/

/-- A grid with all words of another one. -/
structure Layout.Covers (g l : Layout) : Prop where
  spans : g.Spans
  base : g.base.toNat ≤ l.base.toNat
  stop : l.stop.toNat ≤ g.stop.toNat

theorem Layout.Sound.covers_self {l : Layout} (hl : l.Sound) : l.Covers l :=
  ⟨hl.spans, le_rfl, le_rfl⟩

/-- A range of words that holds those of a grid. -/
theorem Bitmap.covers_grid {l : Layout} {base : Address} {covered : WordCount}
    (haligned : base.toNat % 8 = 0) (hfits : base.toNat + 8 * covered.toNat < 2 ^ 64)
    (hbase : base.toNat ≤ l.base.toNat) (hstop : l.stop.toNat ≤ base.toNat + 8 * covered.toNat) :
    (new base covered).grid.Covers l := by
  have hspans : (new base covered).grid.Spans := spans_grid haligned hfits
  refine ⟨hspans, hbase, ?_⟩
  rw [hspans.toNat_stop, heapWords_grid]
  exact hstop

theorem Layout.IsWord.of_covers {g l : Layout} {a : Address} (ha : l.IsWord a) (hg : g.Covers l) :
    g.IsWord a :=
  ⟨hg.base.trans ha.bottom, ha.stop.trans_le hg.stop, ha.aligned⟩

/-- What can be reached from the roots are instances of registered classes, with all their
words inside the heap. -/
structure Heap.Traceable (h : Heap) (t : ClassTable) (roots : Roots) : Prop where
  layout : h.layout.Sound
  mapped : h.Mapped
  registered : ∀ a, Reaches h t roots a → ∃ c, h.infoOf t a = .ok c
  inside : ∀ a, Reaches h t roots a → a.toNat + 8 * h.wordsAt t a ≤ h.layout.stop.toNat

theorem WellFormed.traceable {h : Heap} {t : ClassTable} {roots : Roots}
    (hw : WellFormed h t roots) : h.Traceable t roots := by
  refine ⟨hw.settled.layout, hw.mapped, fun a ha => ?_, fun a ha => ?_⟩
  · obtain ⟨c, words, hobj⟩ := hw.object ha
    exact ⟨c, hobj.info⟩
  · obtain ⟨c, words, hobj⟩ := hw.object ha
    rw [hobj.wordsAt_eq]
    exact (hobj.place.bounds hw.settled.toTabled).2

namespace Heap.Traceable

variable {h : Heap} {t : ClassTable} {roots : Roots} {g : Layout}

theorem isWord (hw : h.Traceable t roots) (hg : g.Covers h.layout) {a : Address}
    (ha : Reaches h t roots a) : g.IsWord a :=
  (hw.mapped.isWord hw.layout ha.contains).of_covers hg

theorem size (hw : h.Traceable t roots) {a : Address} (ha : Reaches h t roots a) :
    ∃ words, h.size t a = .ok words ∧ h.wordsAt t a = words.toNat := by
  obtain ⟨c, hc⟩ := hw.registered a ha
  exact ⟨_, size_of_info hc, wordsAt_of_size (size_of_info hc)⟩

end Heap.Traceable

/-! ### The invariant -/

variable {h : Heap} {t : ClassTable} {roots : Roots} {g : Layout}

/-- Tracing has come to `s` and has met the objects of the list `met`. -/
structure Traced (h : Heap) (t : ClassTable) (roots : Roots) (g : Layout) (s : Tracing)
    (met : List Address) : Prop where
  sound : s.fault = none
  nodup : met.Nodup
  reached : ∀ a ∈ met, Reaches h t roots a
  shows : s.bitmap.Shows g (· ∈ met) (h.wordsAt t)
  grey : ∀ a ∈ s.grey, a ∈ met
  objects : s.liveObjects = met.length
  words : s.liveWords = ((met.map (h.wordsAt t)).sum).toUInt64

/-- What follows when tracing goes from one state on to another. -/
structure Onward (s s' : Tracing) (met met' : List Address) : Prop where
  more : ∀ a ∈ met, a ∈ met'
  grey : ∀ a ∈ s.grey, a ∈ s'.grey
  /-- What is new is grey. -/
  new : ∀ a ∈ met', a ∈ met ∨ a ∈ s'.grey
  /-- The objects that are not grey are as many as before. -/
  black : s'.grey.length + met.length = s.grey.length + met'.length

theorem Onward.refl (s : Tracing) (met : List Address) : Onward s s met met :=
  ⟨fun _ ha => ha, fun _ ha => ha, fun _ ha => .inl ha, rfl⟩

theorem Onward.trans {s s' s'' : Tracing} {met met' met'' : List Address}
    (h1 : Onward s s' met met') (h2 : Onward s' s'' met' met'') : Onward s s'' met met'' := by
  refine ⟨fun a ha => h2.more a (h1.more a ha), fun a ha => h2.grey a (h1.grey a ha), ?_, ?_⟩
  · intro a ha
    rcases h2.new a ha with h | h
    · rcases h1.new a h with h | h
      · exact .inl h
      · exact .inr (h2.grey a h)
    · exact .inr h
  · have := h1.black
    have := h2.black
    omega

/-! ### One reference -/

theorem toUInt64_add (m n : Nat) : (m + n).toUInt64 = m.toUInt64 + n.toUInt64 := by
  apply UInt64.toNat_inj.1
  rw [UInt64.toNat_add, UInt64.toNat_ofNat', UInt64.toNat_ofNat', UInt64.toNat_ofNat']
  omega

theorem toUInt64_toNat (n : UInt64) : n.toNat.toUInt64 = n := by
  apply UInt64.toNat_inj.1
  have := n.toNat_lt
  rw [UInt64.toNat_ofNat']
  omega

theorem Traced.meet (hw : h.Traceable t roots) (hg : g.Covers h.layout) {s : Tracing}
    {met : List Address} (hs : Traced h t roots g s met) {v : Address}
    (hv : v ≠ 0 → h.contains v = true → Reaches h t roots v) :
    ∃ met', Traced h t roots g (s.meet h t v) met' ∧ Onward s (s.meet h t v) met met' ∧
      (v ≠ 0 → h.contains v = true → v ∈ met') := by
  unfold Tracing.meet
  by_cases hzero : v = 0
  · refine ⟨met, ?_, ?_, fun hne => absurd hzero hne⟩
    · simpa [hzero] using hs
    · simpa [hzero] using Onward.refl s met
  rw [if_neg (by simp [hs.sound, hzero])]
  by_cases hin : h.contains v = true
  swap
  · refine ⟨met, ?_, ?_, fun _ hc => absurd hc hin⟩
    · rw [if_pos (by simpa using hin)]
      exact ⟨hs.sound, hs.nodup, hs.reached, hs.shows, hs.grey, hs.objects, hs.words⟩
    · rw [if_pos (by simpa using hin)]
      exact ⟨fun _ ha => ha, fun _ ha => ha, fun _ ha => .inl ha, rfl⟩
  rw [if_neg (by simpa using hin)]
  have hreach := hv hzero hin
  obtain ⟨words, hsize, hwords⟩ := hw.size hreach
  have hword := hw.isWord hg hreach
  rw [hsize]
  dsimp only
  by_cases hold : v ∈ met
  · -- it has been met before, so marking it changes nothing
    rw [hs.shows.mark_of_live hword hold]
    exact ⟨met, hs, Onward.refl s met, fun _ _ => hold⟩
  · -- it is new: it is marked, counted, and becomes grey
    have hbound := (hw.inside v hreach).trans hg.stop
    rw [hwords] at hbound
    obtain ⟨b', hb', hshow⟩ := hs.shows.mark hg.spans hword hold hbound hwords
    rw [hb']
    refine ⟨v :: met, ⟨hs.sound, ?_, ?_, ?_, ?_, ?_, ?_⟩, ⟨?_, ?_, ?_, ?_⟩, fun _ _ => by simp⟩
    · exact List.nodup_cons.2 ⟨hold, hs.nodup⟩
    · intro a ha
      rcases List.mem_cons.1 ha with rfl | ha
      · exact hreach
      · exact hs.reached a ha
    · exact hshow.congr (fun a => by simp) (fun _ _ => rfl)
    · intro a ha
      rcases List.mem_cons.1 ha with rfl | ha
      · simp
      · exact List.mem_cons_of_mem _ (hs.grey a ha)
    · simp [hs.objects]
    · show s.liveWords + words = _
      rw [List.map_cons, List.sum_cons, hwords, toUInt64_add, toUInt64_toNat, hs.words]
      exact UInt64.add_comm ..
    · intro a ha
      exact List.mem_cons_of_mem _ ha
    · intro a ha
      exact List.mem_cons_of_mem _ ha
    · intro a ha
      rcases List.mem_cons.1 ha with rfl | ha
      · exact .inr (by simp)
      · exact .inl ha
    · simp only [List.length_cons]
      omega

theorem Traced.foldl_meet (hw : h.Traceable t roots) (hg : g.Covers h.layout)
    (vs : List Address) {s : Tracing} {met : List Address} (hs : Traced h t roots g s met)
    (hv : ∀ v ∈ vs, v ≠ 0 → h.contains v = true → Reaches h t roots v) :
    ∃ met', Traced h t roots g (vs.foldl (Tracing.meet h t) s) met' ∧
      Onward s (vs.foldl (Tracing.meet h t) s) met met' ∧
      ∀ v ∈ vs, v ≠ 0 → h.contains v = true → v ∈ met' := by
  induction vs generalizing s met with
  | nil => exact ⟨met, hs, Onward.refl s met, by simp⟩
  | cons v vs ih =>
    obtain ⟨met1, hs1, hon1, hv1⟩ := hs.meet hw hg (hv v (by simp))
    obtain ⟨met2, hs2, hon2, hv2⟩ := ih hs1 fun u hu => hv u (by simp [hu])
    refine ⟨met2, hs2, hon1.trans hon2, ?_⟩
    intro u hu hne hin
    rcases List.mem_cons.1 hu with rfl | hu
    · exact hon2.more _ (hv1 hne hin)
    · exact hv2 u hu hne hin

/-! ### Steps -/

/-- Everything that has been met and is not grey is finished. -/
def Finished (h : Heap) (t : ClassTable) (s : Tracing) (met : List Address) : Prop :=
  ∀ a ∈ met, a ∈ s.grey ∨ ∀ v, h.RefersTo t a v → v ∈ met

theorem Traced.step (hw : h.Traceable t roots) (hg : g.Covers h.layout) {s : Tracing}
    {met : List Address} (hs : Traced h t roots g s met) (hf : Finished h t s met)
    (hgrey : s.grey ≠ []) :
    ∃ s' met', s.step h t = some s' ∧ Traced h t roots g s' met' ∧ Finished h t s' met' ∧
      (∀ a ∈ met, a ∈ met') ∧
      s'.grey.length + met.length + 1 = s.grey.length + met'.length := by
  obtain ⟨object, grey, hlist⟩ := List.exists_cons_of_ne_nil hgrey
  have hobject : object ∈ met := hs.grey object (by simp [hlist])
  obtain ⟨c, hinfo⟩ := hw.registered object (hs.reached object hobject)
  have hslots := Heap.slots_of_info hinfo
  -- the object leaves the grey list before its fields are read; it has been met, so it stays out
  have hpop : Traced h t roots g { s with grey := grey } met :=
    ⟨hs.sound, hs.nodup, hs.reached, hs.shows,
      fun a ha => hs.grey a (by simp [hlist, show a ∈ grey from ha]), hs.objects, hs.words⟩
  have hvals : ∀ v ∈ (c.fields.map object.offset).map h.memory.load, v ≠ 0 →
      h.contains v = true → Reaches h t roots v := by
    intro v hv hne hin
    obtain ⟨p, hp, rfl⟩ := List.mem_map.1 hv
    exact .field (hs.reached object hobject) hslots hp hne hin
  obtain ⟨met', hs', hon, hall⟩ := hpop.foldl_meet hw hg _ hvals
  refine ⟨_, met', ?_, hs', ?_, hon.more, ?_⟩
  · unfold Tracing.step
    rw [hs.sound, hlist]
    simp only [hslots]
  · intro a ha
    rcases hon.new a ha with hold | hnew
    · rcases hf a hold with hag | hdone
      · rw [hlist] at hag
        rcases List.mem_cons.1 hag with rfl | hag
        · right
          rintro v ⟨c', f, hc', hff, hload, hne, hin⟩
          obtain rfl : c' = c := by
            rw [hinfo] at hc'
            simpa using hc'.symm
          refine hall v ?_ hne hin
          rw [List.map_map]
          exact List.mem_map.2 ⟨f, hff, hload⟩
        · exact .inl (hon.grey a hag)
      · exact .inr fun v hv => hon.more v (hdone v hv)
    · exact .inl hnew
  · have := hon.black
    rw [hlist, List.length_cons]
    simp only at this ⊢
    omega

theorem Traced.length_le (hw : h.Traceable t roots) {s : Tracing} {met : List Address}
    (hs : Traced h t roots g s met) : met.length ≤ h.layout.heapWords.toNat :=
  hw.layout.length_le hs.nodup fun a ha => hw.isWord hw.layout.covers_self (hs.reached a ha)

/-- Enough steps leave nothing grey. -/
theorem Traced.run (hw : h.Traceable t roots) (hg : g.Covers h.layout) (fuel : Nat) {s : Tracing}
    {met : List Address} (hs : Traced h t roots g s met) (hf : Finished h t s met)
    (henough : h.layout.heapWords.toNat + s.grey.length < fuel + met.length) :
    ∃ met', Traced h t roots g (s.run h t fuel) met' ∧ Finished h t (s.run h t fuel) met' ∧
      (s.run h t fuel).grey = [] ∧ ∀ a ∈ met, a ∈ met' := by
  induction fuel generalizing s met with
  | zero =>
    have := hs.length_le hw
    omega
  | succ fuel ih =>
    by_cases hgrey : s.grey = []
    · refine ⟨met, ?_, ?_, ?_, fun _ ha => ha⟩ <;>
        simp only [Tracing.run, Tracing.step, hs.sound, hgrey]
      · exact hs
      · exact hf
    · obtain ⟨s', met1, hstep, hs1, hf1, hmore, hcount⟩ := hs.step hw hg hf hgrey
      have hrun : s.run h t (fuel + 1) = s'.run h t fuel := by
        rw [Tracing.run, hstep]
      rw [hrun]
      obtain ⟨met2, hs2, hf2, hempty, hmore2⟩ := ih hs1 hf1 (by omega)
      exact ⟨met2, hs2, hf2, hempty, fun a ha => hmore2 a (hmore a ha)⟩

/-! ### The whole trace -/

/-- What the roots refer to is met first, and all of it is grey. -/
theorem Heap.Traceable.traced_roots (hw : h.Traceable t roots) (hg : g.Covers h.layout)
    {b : Bitmap} (hb : b.Shows g (fun _ => False) (h.wordsAt t)) :
    let s := roots.live.foldl (Tracing.meet h t) ⟨b, [], 0, 0, [], none⟩
    ∃ met, Traced h t roots g s met ∧ Finished h t s met ∧ s.grey.length = met.length ∧
      ∀ v ∈ roots.live, v ≠ 0 → h.contains v = true → v ∈ met := by
  have hstart : Traced h t roots g ⟨b, [], 0, 0, [], none⟩ [] :=
    ⟨rfl, List.nodup_nil, by simp, hb.congr (by simp) (by simp), by simp, rfl, rfl⟩
  obtain ⟨met, hs, hon, hroots⟩ := hstart.foldl_meet hw hg roots.live fun v hv _ hin => .root hv hin
  have hblack := hon.black
  simp only [List.length_nil] at hblack
  refine ⟨met, hs, fun a ha => ?_, by omega, hroots⟩
  rcases hon.new a ha with h0 | hnew
  · simp at h0
  · exact .inl hnew

/-- Tracing into a clear bitmap ends without a fault, with nothing left grey: it has met exactly
the objects that can be reached. -/
theorem Heap.Traceable.trace (hw : h.Traceable t roots) (hg : g.Covers h.layout) {b : Bitmap}
    (hb : b.Shows g (fun _ => False) (h.wordsAt t)) :
    ∃ met, Traced h t roots g (h.trace t roots b) met ∧ (h.trace t roots b).grey = [] ∧
      ∀ a, a ∈ met ↔ Reaches h t roots a := by
  obtain ⟨met1, hs1, hf1, hgrey, hroots⟩ := hw.traced_roots hg hb
  obtain ⟨met, hs, hf, hempty, hmore⟩ := hs1.run hw hg (h.layout.heapWords.toNat + 1) hf1 (by omega)
  refine ⟨met, hs, hempty, fun a => ⟨hs.reached a, fun ha => ?_⟩⟩
  refine ha.least (p := (· ∈ met)) ?_ ?_
  · intro r hr hin
    refine hmore r (hroots r hr ?_ hin)
    simpa [Roots.live] using (List.mem_filter.1 hr).2
  · intro a v _ hmem href
    rcases hf a hmem with hag | hdone
    · rw [hempty] at hag
      simp at hag
    · exact hdone v href

/-- Tracing ends without a fault, and the bitmap shows exactly the objects that can be
reached, each of them counted once. -/
theorem WellFormed.trace (hw : WellFormed h t roots) :
    ∃ met : List Address, met.Nodup ∧ (∀ a, a ∈ met ↔ Reaches h t roots a) ∧
      (h.trace t roots (.ofLayout h.layout)).fault = none ∧
      (h.trace t roots (.ofLayout h.layout)).bitmap.Shows h.layout (Reaches h t roots)
        (h.wordsAt t) ∧
      (h.trace t roots (.ofLayout h.layout)).liveObjects = met.length ∧
      (h.trace t roots (.ofLayout h.layout)).liveWords
        = ((met.map (h.wordsAt t)).sum).toUInt64 := by
  obtain ⟨met, hs, -, hiff⟩ :=
    hw.traceable.trace hw.settled.layout.covers_self (Bitmap.shows_ofLayout _ (h.wordsAt t))
  exact ⟨met, hs.nodup, hiff, hs.sound, hs.shows.congr hiff fun _ _ => rfl, hs.objects, hs.words⟩

end MarkCompact
