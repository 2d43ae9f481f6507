/-
MarkCompact/Proofs/CollectedCharts.lean

What a collection makes of a chart.

Planning frees the regions of dead humongous objects, and what began there is forgotten
(`Charted.planned`).  At the end of a collection objects begin in two kinds of places: live ones
where they have been moved to, and dead ones that have been neither moved nor overwritten
(`Heap.Redrawn`).  In a region that the collection has left alone these are the objects that
were there before, so that they still follow one another (`Redrawn.next_kept`).

Main results: `Charted.planned` and `Redrawn.charted`.
-/
import MarkCompact.Proofs.Charts
import MarkCompact.Proofs.Fields
import MarkCompact.Proofs.Transfers

namespace MarkCompact

variable {h h' : Heap} {t : ClassTable} {known live tile remains : Address → Prop} {b : Bitmap}
  {p : Plan} {place : Address → Address}

/-! ### Planning -/

/-- An object that begins in no dead run stays where it is. -/
theorem Planned.placedAt_of_not_deadRun (hp : Planned h b p h') (ht : h.Tabled) {a : Address}
    {words : WordCount} (ha : h.PlacedAt a words)
    (hout : ¬ h.DeadRun b (h.layout.indexOf a)) : h'.PlacedAt a words := by
  refine hp.placedAt_of_run ht.toGridded ha fun i hi hrun heq => ?_
  obtain ⟨-, hn, -⟩ := hrun.inside ht.toGridded hi
  rwa [heq, ht.layout.indexOf_bottom (by rwa [← ht.count]),
    Planned.deadRun_iff ⟨hrun, le_refl i, by omega⟩, Bool.not_eq_false] at hout

namespace Heap.Charted

/-- Planning forgets the objects of the runs that it frees. -/
theorem planned (hc : h.Charted t known tile) (hp : Planned h b p h') (hs : h.Settled)
    (hmarked : ∀ a, known a → b.isMarked a = true) :
    h'.Charted t known fun a => tile a ∧ ¬ h.DeadRun b (h.layout.indexOf a) := by
  have ht := hs.toTabled
  have hl := ht.layout
  have hground := hp.ground
  have hsizes : ∀ a, h'.size t a = h.size t a := fun a => size_congr hground.memory
  have hwords : ∀ a, h'.wordsAt t a = h.wordsAt t a := fun a => wordsAt_congr hground.memory
  -- a region that is in use has been left alone
  have hkept : ∀ i < h.regions.size, (h'.region i).kind ≠ .free →
      ¬ h.DeadRun b i ∧ h'.region i = h.region i := by
    intro i hi hk
    by_cases hdead : h.DeadRun b i
    · rw [hp.freed i hi hdead] at hk
      exact absurd rfl hk
    · exact ⟨hdead, hp.kept i hdead⟩
  obtain ⟨dead, hmem, hstarts⟩ := hp.starts
  have hinside : ∀ i ∈ dead, i < h.layout.numRegions := fun i hi => by
    rw [← ht.count]
    exact ((hmem i).1 hi).1
  refine ⟨?_, fun a ha => hc.aligned a ha.1, ?_, ?_, ?_, ?_, ?_, ?_⟩
  · rintro a ⟨ha, hout⟩
    obtain ⟨words, hsize, hpos, hplace⟩ := hc.object a ha
    exact ⟨words, (hsizes a).trans hsize, hpos, hp.placedAt_of_not_deadRun ht hplace hout⟩
  · intro a c ha hc' hlt
    rw [hwords]
    exact hc.apart a c ha.1 hc'.1 hlt
  · intro i hi hk a ha h1 h2
    rw [hground.size] at hi
    rw [hground.layout] at h1
    obtain ⟨hout, hsame⟩ := hkept i hi (by rw [hk]; decide)
    rw [hsame] at hk h2
    rw [hwords] at h2 ⊢
    refine ⟨hc.next i hi hk a ha.1 h1 h2, ?_⟩
    have htop := (ht.top i hi).2.1
    have hi' : i < h.layout.numRegions := by rwa [← ht.count]
    have hlast := (h.layout.regionStop i).toNat_lt
    rw [ht.stop i hi] at htop
    have hnext : (a.nth (h.wordsAt t a)).toNat = a.toNat + 8 * h.wordsAt t a :=
      Address.toNat_nth (by omega)
    rw [hl.toNat_regionStop hi'] at htop
    rwa [hl.indexOf_eq hi' (by omega) (by omega)]
  · intro i hi hk
    rw [hground.size] at hi
    obtain ⟨hout, hsame⟩ := hkept i hi (by rw [hk]; decide)
    rw [hsame] at hk
    rw [hground.layout]
    exact ⟨hc.start i hi hk, by rwa [hl.indexOf_bottom (by rwa [← ht.count])]⟩
  · rw [hstarts, hground.layout]
    exact hc.serves.forget dead
  · rw [hstarts]
    refine (hc.holds.forget hc.serves hl hinside fun a ha => (hc.region ht ha).1).mono ?_
    rintro a ⟨ha, hout⟩
    exact ⟨ha, fun hdead => hout ((hmem _).2 ⟨(hc.region ht ha).2.1, hdead⟩)⟩
  · intro a ha
    obtain ⟨htile, hfinds⟩ := hc.found a ha
    obtain ⟨words, -, hpos, hplace⟩ := hc.object a htile
    have hout := hplace.not_deadRun ht hpos (hmarked a ha)
    rw [hstarts]
    exact ⟨⟨htile, hout⟩, hfinds.forget hc.serves hl hinside (hc.region ht htile).1
      fun hin => hout ((hmem _).1 hin).2⟩

end Heap.Charted

/-- After planning every humongous object is a live one. -/
theorem Planned.live_of_start {h₀ : Heap} (hp : Planned h₀ b p h) (ht : h₀.Tabled)
    (hs : Surveyed h t b live) {i : Nat} (hi : i < h.regions.size)
    (hk : (h.region i).kind = .humongousStart) : live (h.layout.bottom i) := by
  have hi₀ : i < h₀.regions.size := by rwa [← hp.ground.size]
  have hout : ¬ h₀.DeadRun b i := fun hdead => by
    rw [hp.freed i hi₀ hdead] at hk
    cases hk
  rw [hp.kept i hout] at hk
  obtain ⟨words, hrun⟩ := ht.runs i hi₀ hk
  obtain ⟨-, hpos, -⟩ := hrun.inside ht.toGridded hi₀
  rw [Planned.deadRun_iff ⟨hrun, le_refl i, by omega⟩, Bool.not_eq_false, ht.bottom i hi₀,
    ← hp.ground.layout] at hout
  have hi' : i < h.layout.numRegions := by rwa [← hs.tabled.count]
  have hl := hs.tabled.layout
  have hstop := hl.toNat_regionStop hi'
  have hend := hl.bottom_le_stop (i := i + 1) hi'
  have hstride := h.layout.stride_pos
  rw [← Layout.regionStop_eq_bottom_succ] at hend
  exact (hs.shows.starts _ ⟨hl.base_le_bottom hi'.le, by omega, hl.bottom_mod hi'.le⟩).1 hout

/-! ### Moving -/

namespace Heap

/-- What lies in the heap `h'` when a collection of `h` has moved the live objects: those, and
what remains of dead ones. -/
structure Redrawn (h h' : Heap) (t : ClassTable) (live tile : Address → Prop)
    (place : Address → Address) (remains : Address → Prop) : Prop where
  object : ∀ a, live a → ∃ words, h'.size t (place a) = .ok words ∧ 0 < words.toNat ∧
    h'.PlacedAt (place a) words
  aligned : ∀ a, live a → (place a).toNat % 8 = 0
  apart : ∀ a c, live a → live c → a ≠ c →
    (place a).Apart (h'.wordsAt t (place a)) (place c) (h'.wordsAt t (place c))
  stays : ∀ a, live a → place a = a → h'.wordsAt t a = h.wordsAt t a
  old : ∀ a, remains a → tile a
  placed : ∀ a words, remains a → h.size t a = .ok words → h'.PlacedAt a words
  clear : ∀ a c, live a → remains c →
    (place a).Apart (h'.wordsAt t (place a)) c (h.wordsAt t c)
  load : ∀ a, remains a → ∀ k < h.wordsAt t a,
    h'.memory.load (a.nth k) = h.memory.load (a.nth k)

namespace Redrawn

variable (hr : h.Redrawn h' t live tile place remains) (hc : h.Charted t live tile)
include hr hc

theorem size_remains (ht : t.Sound) {a : Address} (ha : remains a) :
    h'.size t a = h.size t a := by
  obtain ⟨words, hsize, hpos, -⟩ := hc.object a (hr.old a ha)
  have hheader := headerWords_le ht hsize hpos
  have hwords := wordsAt_of_size hsize
  exact size_congr_header fun k hk => hr.load a ha k (by omega)

theorem wordsAt_remains (ht : t.Sound) {a : Address} (ha : remains a) :
    h'.wordsAt t a = h.wordsAt t a := by
  unfold wordsAt
  rw [hr.size_remains hc ht ha]

/-- In a region that has been left alone objects still follow one another. -/
theorem next_kept (ht : t.Sound) (htab : h.Tabled) {i : Nat} (hi : i < h.regions.size)
    (hk : (h.region i).kind = .regular)
    (hback : ∀ a, live a → (h.layout.bottom i).toNat ≤ (place a).toNat →
      (place a).toNat < (h.layout.regionStop i).toNat → place a = a)
    (hforth : ∀ a, tile a → (h.layout.bottom i).toNat ≤ a.toNat →
      a.toNat < (h.layout.regionStop i).toNat → live a ∧ place a = a ∨ remains a)
    {a : Address} (ha : (∃ c, live c ∧ place c = a) ∨ remains a)
    (h1 : (h.layout.bottom i).toNat ≤ a.toNat)
    (h2 : a.toNat + 8 * h'.wordsAt t a < (h.region i).top.toNat) :
    (∃ c, live c ∧ place c = a.nth (h'.wordsAt t a)) ∨ remains (a.nth (h'.wordsAt t a)) := by
  have htop := (htab.top i hi).2.1
  rw [htab.stop i hi] at htop
  have hlast := (h.layout.regionStop i).toNat_lt
  obtain ⟨htile, hwords⟩ : tile a ∧ h'.wordsAt t a = h.wordsAt t a := by
    rcases ha with ⟨c, hlive, rfl⟩ | hremains
    · have hsame := hback c hlive h1 (by omega)
      rw [hsame]
      exact ⟨(hc.found c hlive).1, hr.stays c hlive hsame⟩
    · exact ⟨hr.old a hremains, hr.wordsAt_remains hc ht hremains⟩
  rw [hwords] at h2 ⊢
  have hnext : (a.nth (h.wordsAt t a)).toNat = a.toNat + 8 * h.wordsAt t a :=
    Address.toNat_nth (by omega)
  exact (hforth _ (hc.next i hi hk a htile h1 h2) (by omega) (by omega)).imp_left
    fun ⟨hlive, hsame⟩ => ⟨_, hlive, hsame⟩

/-- A collection makes a chart of a chart. -/
theorem charted (ht : t.Sound) (known : Address → Prop)
    (hknown : ∀ a, known a → ∃ c, live c ∧ place c = a)
    (hnext : ∀ i < h'.regions.size, (h'.region i).kind = .regular → ∀ a,
      ((∃ c, live c ∧ place c = a) ∨ remains a) → (h'.layout.bottom i).toNat ≤ a.toNat →
      a.toNat + 8 * h'.wordsAt t a < (h'.region i).top.toNat →
      (∃ c, live c ∧ place c = a.nth (h'.wordsAt t a)) ∨ remains (a.nth (h'.wordsAt t a)))
    (hstart : ∀ i < h'.regions.size, (h'.region i).kind = .humongousStart →
      ∃ c, live c ∧ place c = h'.layout.bottom i)
    (hserves : h'.starts.Serves h'.layout)
    (hholds : h'.starts.Holds fun a => (∃ c, live c ∧ place c = a) ∨ remains a)
    (hfinds : ∀ a, live a → h'.starts.Finds (place a)) :
    h'.Charted t known fun a => (∃ c, live c ∧ place c = a) ∨ remains a := by
  refine ⟨?_, ?_, ?_, hnext, fun i hi hk => .inl (hstart i hi hk), hserves, hholds, ?_⟩
  · rintro a (⟨c, hlive, rfl⟩ | hremains)
    · exact hr.object c hlive
    · obtain ⟨words, hsize, hpos, -⟩ := hc.object a (hr.old a hremains)
      exact ⟨words, (hr.size_remains hc ht hremains).trans hsize, hpos,
        hr.placed a words hremains hsize⟩
  · rintro a (⟨c, hlive, rfl⟩ | hremains)
    · exact hr.aligned c hlive
    · exact hc.aligned a (hr.old a hremains)
  · rintro a c (⟨x, hx, rfl⟩ | ha) (⟨y, hy, rfl⟩ | hc') hlt
    · have hne : x ≠ y := fun heq => by
        rw [heq] at hlt
        omega
      have := hr.apart x y hx hy hne
      unfold Address.Apart at this
      omega
    · have := hr.clear x c hx hc'
      unfold Address.Apart at this
      omega
    · have := hr.clear y a hy ha
      unfold Address.Apart at this
      rw [hr.wordsAt_remains hc ht ha]
      omega
    · rw [hr.wordsAt_remains hc ht ha]
      exact hc.apart a c (hr.old a ha) (hr.old c hc') hlt
  · intro a ha
    obtain ⟨c, hlive, rfl⟩ := hknown a ha
    exact ⟨.inl ⟨c, hlive, rfl⟩, hfinds c hlive⟩

end Redrawn

end Heap

end MarkCompact
