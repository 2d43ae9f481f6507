/-
MarkCompact/Proofs/SerialFinish.lean

What a serial collection leaves.

At the end every region of the part gets the top up to which it has been filled, or
is freed if nothing has been placed in it.  The freed regions hold no object, so
their pages may be given back.  All other regions are as they were: the dense
prefix and the humongous objects have not been touched.

Main results: `finish_spec` (the region table), `Completed.retopped` (it is sound) and
`Completed.givenBack` (the pages of free regions are lost, and nothing else).
-/
import MarkCompact.Proofs.SerialMoves
import MarkCompact.Proofs.Relocation

namespace MarkCompact

namespace SerialCycle

variable {h : Heap} {t : ClassTable} {b : Bitmap} {live : Address → Prop} {d : Nat}

/-! ### The region table -/

/-- A region of the part once the space in it has been filled. -/
def filledRegion (r : Region) (s : Space) : Region :=
  if s.usedWords = 0 then r.makeFree else { r with kind := .regular, top := s.top }

/-- The heap `g'` is `g` once the regions of `done` have been settled. -/
structure Finish (release : Bool) (g g' : Heap) (done : List (Nat × Space)) : Prop where
  layout : g'.layout = g.layout
  size : g'.regions.size = g.regions.size
  headers : g'.compactHeaders = g.compactHeaders
  span : g.memory.SameSpan g'.memory
  part : ∀ i s, (i, s) ∈ done → g'.region i = filledRegion (g.region i) s
  other : ∀ i, i ∉ done.map Prod.fst → g'.region i = g.region i
  starts : g'.starts
    = g.starts.forget g.layout ((done.filter fun r => r.2.usedWords = 0).map Prod.fst)
  /-- Only words of freed regions are lost. -/
  load : ∀ x : Address, g'.memory.load x
    = if release = true ∧ ∃ r ∈ done, r.2.usedWords = 0 ∧ g.layout.InPages r.1 x then 0
      else g.memory.load x

theorem Finish.refl (release : Bool) (g : Heap) : Finish release g g [] :=
  ⟨rfl, rfl, rfl, Memory.SameSpan.refl _, by simp, fun _ _ => rfl, rfl, fun _ => by simp⟩

/-- The heap `g'` is `g` once the region `i` has been settled, with the space `s` in it. -/
structure SettledAt (release : Bool) (i : Nat) (s : Space) (g g' : Heap) : Prop where
  layout : g'.layout = g.layout
  size : g'.regions.size = g.regions.size
  headers : g'.compactHeaders = g.compactHeaders
  span : g.memory.SameSpan g'.memory
  region : g'.region i = filledRegion (g.region i) s
  other : ∀ j, j ≠ i → g'.region j = g.region j
  starts : g'.starts = if s.usedWords = 0 then
    g.starts.clearRange (g.layout.bottom i) (g.layout.regionStop i) else g.starts
  load : ∀ x : Address, g'.memory.load x
    = if release = true ∧ s.usedWords = 0 ∧ g.layout.InPages i x then 0 else g.memory.load x

/-- A region in which nothing has been placed is freed, any other one gets its top. -/
theorem settledAt_settle (release : Bool) {g : Heap} {i : Nat} (hi : i < g.regions.size)
    (hbottom : (g.region i).bottom = g.layout.bottom i)
    (hstop : (g.region i).stop = g.layout.regionStop i) (s : Space) (o : SerialOutcome) :
    SettledAt release i s g (SerialCycle.settle release (o, g) (i, s)).2 := by
  unfold SerialCycle.settle
  dsimp only
  by_cases hempty : s.usedWords = 0
  · rw [if_pos hempty]
    have hregion : (g.freeRegion i).region i = filledRegion (g.region i) s := by
      rw [Heap.region_freeRegion, if_pos ⟨rfl, hi⟩, filledRegion, if_pos hempty]
    have hother : ∀ j, j ≠ i → (g.freeRegion i).region j = g.region j := fun j hj => by
      rw [Heap.region_freeRegion, if_neg fun hh => hj hh.1.symm]
    have hsize := (Heap.sameGround_freeRegion g i).size
    have hstarts : (g.freeRegion i).starts = if s.usedWords = 0 then
        g.starts.clearRange (g.layout.bottom i) (g.layout.regionStop i) else g.starts := by
      rw [if_pos hempty, ← hbottom, ← hstop]
      rfl
    cases release with
    | false =>
      exact ⟨rfl, hsize, rfl, Memory.SameSpan.refl _, hregion, hother, hstarts, fun _ => by simp⟩
    | true =>
      refine ⟨rfl, hsize, rfl, Memory.sameSpan_release .., hregion, hother, hstarts, fun x => ?_⟩
      show ((g.memory.release (g.region i).bottom _).2).load x = _
      rw [hbottom, hstop, Layout.load_release]
      simp [hempty]
  · rw [if_neg hempty]
    refine ⟨rfl, Heap.size_modifyRegion .., rfl, Memory.SameSpan.refl _, ?_, fun j hj => ?_,
      (if_neg hempty).symm, fun _ => by simp [hempty]⟩
    · rw [Heap.region_modifyRegion, if_pos ⟨rfl, hi⟩, filledRegion, if_neg hempty]
    · rw [Heap.region_modifyRegion, if_neg fun hh => hj hh.1.symm]

/-- One more region has been settled. -/
theorem Finish.snoc {release : Bool} {g g' g'' : Heap} {done : List (Nat × Space)}
    (hf : Finish release g g' done) {i : Nat} {s : Space} (hs : SettledAt release i s g' g'')
    (hnew : i ∉ done.map Prod.fst) : Finish release g g'' (done ++ [(i, s)]) := by
  refine ⟨hs.layout.trans hf.layout, hs.size.trans hf.size, hs.headers.trans hf.headers,
    hf.span.trans hs.span, ?_, ?_, ?_, ?_⟩
  · intro j s' hmem
    rcases List.mem_append.1 hmem with hmem' | hmem
    · have hne : j ≠ i := by
        rintro rfl
        exact hnew (List.mem_map_of_mem (f := Prod.fst) hmem')
      rw [hs.other j hne]
      exact hf.part j s' hmem'
    · obtain ⟨rfl, rfl⟩ := Prod.mk.injEq .. ▸ List.mem_singleton.1 hmem
      -- until its own turn a region is as it was at first
      rw [hs.region, hf.other j hnew]
  · intro j hj
    rw [List.map_append, List.mem_append, not_or] at hj
    have hne : j ≠ i := by
      rintro rfl
      exact hj.2 (by simp)
    rw [hs.other j hne]
    exact hf.other j hj.1
  · rw [hs.starts, hf.starts, hf.layout, List.filter_append, List.map_append,
      StartTable.forget_append]
    by_cases hempty : s.usedWords = 0
    · rw [if_pos hempty, List.filter_cons_of_pos (by simpa using hempty)]
      rfl
    · rw [if_neg hempty, List.filter_cons_of_neg (by simpa using hempty)]
      rfl
  · intro x
    rw [hs.load x, hf.load x, hf.layout]
    simp only [List.mem_append, List.mem_singleton, or_and_right, exists_or, exists_eq_left]
    by_cases hlast : release = true ∧ s.usedWords = 0 ∧ g.layout.InPages i x
    · rw [if_pos hlast, if_pos ⟨hlast.1, .inr hlast.2⟩]
    · rw [if_neg hlast]
      congr 1
      refine propext (and_congr_right fun hrelease => ⟨.inl, fun hin => hin.resolve_right ?_⟩)
      exact fun hin => hlast ⟨hrelease, hin⟩

/-- At the end every region of the part is settled. -/
theorem finish_spec {c : SerialCycle} {g : Heap} {part : List Nat} (hheap : c.heap = g)
    (hregions : c.regions = part) (hg : g.Gridded) (hnodup : part.Nodup)
    (hin : ∀ i ∈ part, i < g.regions.size) (hcount : c.spaces.size = part.length)
    (release : Bool) :
    Finish release g (c.finish release).2.heap (part.zip c.spaces.toList) := by
  have hfst : (part.zip c.spaces.toList).map Prod.fst = part :=
    List.map_fst_zip (by simp [hcount])
  show Finish release g (((c.regions.zip c.spaces.toList).foldl (SerialCycle.settle release)
    (⟨0, 0, 0, 0⟩, c.heap)).2) _
  rw [hheap, hregions]
  refine foldl_induct (fun done (s : SerialOutcome × Heap) => Finish release g s.2 done) _ _
    (Finish.refl release g) ?_
  rintro done ⟨i, s⟩ rest ⟨o, g'⟩ heq hf
  rw [heq, List.map_append, List.map_cons] at hfst
  rw [← hfst] at hnodup hin
  have hi := hin i (by simp)
  have hnew : i ∉ done.map Prod.fst := fun hmem =>
    (List.nodup_append.1 hnodup).2.2 i hmem i (by simp) rfl
  refine hf.snoc (settledAt_settle release (hf.size.symm ▸ hi) ?_ ?_ s o) hnew
  · rw [hf.other i hnew, hf.layout]
    exact hg.bottom i hi
  · rw [hf.other i hnew, hf.layout]
    exact hg.stop i hi

/-! ### The whole collection -/

/-- A serial collection of `h` at its end: in `h₂` references have followed, in `g` objects have
moved, and `h'` is what is left, with free pages given back if `release` says so. -/
structure Completed (h : Heap) (t : ClassTable) (b : Bitmap) (live : Address → Prop) (d : Nat)
    (table : BlockOffsets) (spaces : Array Space) (bs : List Berth) (release : Bool)
    (h₂ g h' : Heap) : Prop where
  surveyed : Surveyed h t b live
  idle : ∀ i < h.regions.size, (h.region i).Idle
  dense : d ≤ h.regions.size
  assigned : Assigned h t b live (h.partFrom d) table spaces bs
  adjusted : h.Adjusted h₂ ((h.liveList b).flatMap (h.fieldsAt t)) (Berth.placeOf bs)
  moved : Moved h h₂ g t bs (h.starts.forget h.layout (h.partFrom d))
    ((h.partFrom d).flatMap (h.liveIn b))
  finish : Finish release g h' ((h.partFrom d).zip spaces.toList)

namespace Completed

variable {table : BlockOffsets} {spaces : Array Space} {bs : List Berth} {release : Bool}
  {h₂ g h' : Heap}

theorem mem_zip_iff {part : List Nat} {i : Nat} {s : Space} :
    (i, s) ∈ part.zip spaces.toList ↔
      ∃ j : Nat, part[j]? = some i ∧ spaces[j]? = some s := by
  rw [List.mem_iff_getElem?]
  simp only [List.getElem?_zip_eq_some, Array.getElem?_toList]

theorem part (hc : Completed h t b live d table spaces bs release h₂ g h') : h.Part (h.partFrom d) :=
  Heap.part_partFrom hc.dense

/-- A region of the part has one space. -/
theorem space_unique (hc : Completed h t b live d table spaces bs release h₂ g h') {i : Nat}
    {s s' : Space} (h1 : (i, s) ∈ (h.partFrom d).zip spaces.toList)
    (h2 : (i, s') ∈ (h.partFrom d).zip spaces.toList) : s = s' := by
  obtain ⟨j, hj, hs⟩ := mem_zip_iff.1 h1
  obtain ⟨k, hk, hs'⟩ := mem_zip_iff.1 h2
  obtain rfl := position_unique hc.part.ascending hj hk
  rw [hs] at hs'
  exact Option.some.inj hs'

theorem exists_space (hc : Completed h t b live d table spaces bs release h₂ g h') {i : Nat}
    (hi : i ∈ h.partFrom d) : ∃ s, (i, s) ∈ (h.partFrom d).zip spaces.toList := by
  obtain ⟨j, hj⟩ := List.mem_iff_getElem?.1 hi
  obtain ⟨hlt, -⟩ := List.getElem?_eq_some_iff.1 hj
  have hlt' : j < spaces.size := by rwa [hc.assigned.count]
  exact ⟨spaces[j], mem_zip_iff.2 ⟨j, hj, Array.getElem?_eq_getElem hlt'⟩⟩

/-- The extent of a filled space. -/
theorem extent (hc : Completed h t b live d table spaces bs release h₂ g h') {i : Nat} {s : Space}
    (hmem : (i, s) ∈ (h.partFrom d).zip spaces.toList) :
    (h.layout.bottom i).toNat ≤ s.top.toNat ∧ s.top.toNat ≤ (h.layout.regionStop i).toNat ∧
      s.top.toNat % 8 = 0 ∧ (s.usedWords = 0 ↔ s.top = h.layout.bottom i) := by
  obtain ⟨j, hj, hspace⟩ := mem_zip_iff.1 hmem
  obtain ⟨hbottom, h1, h2, h3⟩ := hc.assigned.extent j i s hj hspace
  have hi := hc.part.inside i (List.mem_of_getElem? hj)
  rw [hc.surveyed.tabled.count] at hi
  have hmod := hc.surveyed.tabled.layout.bottom_mod hi.le
  refine ⟨h1, h2, h3, ?_⟩
  unfold Space.usedWords
  rw [hbottom, ← UInt64.toNat_inj, Address.toNat_wordsTo h1, ← UInt64.toNat_inj]
  show _ / 8 = 0 ↔ _
  omega

/-- Words outside the regions that are freed are kept. -/
theorem load_kept (hc : Completed h t b live d table spaces bs release h₂ g h') {x : Address}
    (hx : ∀ i s, (i, s) ∈ (h.partFrom d).zip spaces.toList → s.usedWords = 0 →
      x.toNat < (h.layout.bottom i).toNat ∨ (h.layout.regionStop i).toNat ≤ x.toNat) :
    h'.memory.load x = g.memory.load x := by
  rw [hc.finish.load, if_neg]
  rintro ⟨-, ⟨i, s⟩, hmem, hempty, hpage⟩
  have ht := hc.surveyed.tabled
  have hi := hc.part.inside i (List.of_mem_zip hmem).1
  rw [hc.moved.layout] at hpage
  dsimp only at hpage
  have hwithin := hc.surveyed.mapped.within_pages ht.layout (by rwa [← ht.count]) hpage
  have hout := hx i s hmem hempty
  omega

theorem region_part (hc : Completed h t b live d table spaces bs release h₂ g h') {i : Nat} {s : Space}
    (hmem : (i, s) ∈ (h.partFrom d).zip spaces.toList) :
    h'.region i = filledRegion (h.region i) s := by
  rw [hc.finish.part i s hmem]
  unfold Heap.region
  rw [hc.moved.regions]

theorem region_other (hc : Completed h t b live d table spaces bs release h₂ g h') {i : Nat}
    (hi : i ∉ h.partFrom d) : h'.region i = h.region i := by
  rw [hc.finish.other i]
  · unfold Heap.region
    rw [hc.moved.regions]
  · intro hmem
    obtain ⟨⟨j, s⟩, hzip, rfl⟩ := List.mem_map.1 hmem
    exact hi (List.of_mem_zip hzip).1

theorem retopped (hc : Completed h t b live d table spaces bs release h₂ g h') : h.Retopped h' := by
  have ht := hc.surveyed.tabled
  -- the part has regular regions only
  have hkept : ∀ i, (h.region i).kind.isHumongous = true → h'.region i = h.region i := by
    intro i hk
    apply hc.region_other
    intro hmem
    rw [hc.part.regular i hmem] at hk
    cases hk
  refine ⟨hc.finish.layout.trans hc.moved.layout, ?_, ?_, ?_, ?_⟩
  · rw [hc.finish.size, hc.moved.regions]
  · intro i _
    by_cases hmem : i ∈ h.partFrom d
    · obtain ⟨s, hs⟩ := hc.exists_space hmem
      rw [hc.region_part hs]
      unfold filledRegion
      split <;> exact ⟨rfl, rfl, rfl⟩
    · rw [hc.region_other hmem]
      exact ⟨rfl, rfl, rfl⟩
  · intro i _ hk
    rw [hkept i hk]
    exact ⟨rfl, rfl⟩
  · intro i hi hk
    have htop := ht.top i hi
    by_cases hmem : i ∈ h.partFrom d
    · obtain ⟨s, hs⟩ := hc.exists_space hmem
      obtain ⟨h1, h2, h3, h4⟩ := hc.extent hs
      rw [hc.region_part hs]
      unfold filledRegion
      split
      · have hmod := ht.layout.bottom_mod (i := i) (by rw [← ht.count]; exact hi.le)
        rw [ht.bottom i hi] at htop ⊢
        refine ⟨rfl, ?_⟩
        show _ ≤ (h.region i).bottom.toNat ∧ (h.region i).bottom.toNat ≤ _ ∧
          (h.region i).bottom.toNat % 8 = 0 ∧ (_ → (h.region i).bottom = _)
        rw [ht.bottom i hi]
        exact ⟨le_refl _, by omega, hmod, fun _ => rfl⟩
      · rw [ht.bottom i hi, ht.stop i hi]
        exact ⟨rfl, h1, h2, h3, fun hfree => by cases hfree⟩
    · rw [hc.region_other hmem]
      exact ⟨hk, htop.1, htop.2.1, htop.2.2, ht.free i hi⟩

theorem settled (hc : Completed h t b live d table spaces bs release h₂ g h') : h'.Settled := by
  refine { hc.retopped.tabled hc.surveyed.tabled with idle := ?_ }
  intro i hi
  rw [hc.retopped.size] at hi
  obtain ⟨h1, h2, h3, h4⟩ := hc.idle i hi
  by_cases hmem : i ∈ h.partFrom d
  · obtain ⟨s, hs⟩ := hc.exists_space hmem
    rw [hc.region_part hs]
    unfold filledRegion
    split
    · exact ⟨rfl, h2, h3, h4⟩
    · exact ⟨h1, h2, h3, h4⟩
  · rw [hc.region_other hmem]
    exact ⟨h1, h2, h3, h4⟩

/-- If no region is free but those of the part, free pages are given back and all other words
are kept. -/
theorem givenBack (hc : Completed h t b live d table spaces bs release h₂ g h')
    (hused : ∀ i < d, (h.region i).kind ≠ .free) : h'.GivenBack release g.memory := by
  have hlayout := hc.finish.layout
  have hlayout' : h'.layout = h.layout := hlayout.trans hc.moved.layout
  refine ⟨fun x hx => ?_, fun hrelease i hi hfree x hx => ?_⟩
  · rw [hc.finish.load, if_neg]
    rintro ⟨hrelease, ⟨i, s⟩, hmem, hempty, hpage⟩
    refine hx hrelease i ?_ ?_ (hlayout ▸ hpage)
    · rw [hc.retopped.size]
      exact hc.part.inside i (List.of_mem_zip hmem).1
    · rw [hc.region_part hmem, filledRegion, if_pos hempty]
      rfl
  · rw [hc.retopped.size] at hi
    -- a region that is free at the end cannot lie in the dense prefix, nor be humongous
    have hin : i ∈ h.partFrom d := by
      by_contra hout
      rw [hc.region_other hout] at hfree
      have hge : d ≤ i := by
        by_contra hlt
        exact hused i (by omega) hfree
      exact hout ((Heap.mem_partFrom hc.dense i).2 ⟨hge, hi, by rw [hfree]; rfl⟩)
    obtain ⟨s, hs⟩ := hc.exists_space hin
    have hempty : s.usedWords = 0 := by
      by_contra hne
      rw [hc.region_part hs, filledRegion, if_neg hne] at hfree
      cases hfree
    rw [hc.finish.load, if_pos ⟨hrelease, (i, s), hs, hempty, hlayout ▸ hx⟩]

theorem span (hc : Completed h t b live d table spaces bs release h₂ g h') :
    h.memory.SameSpan h'.memory :=
  hc.adjusted.span.trans (hc.moved.memory.span.trans hc.finish.span)

end Completed

end SerialCycle

end MarkCompact
