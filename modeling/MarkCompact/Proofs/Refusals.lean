/-
MarkCompact/Proofs/Refusals.lean

What a refused request leaves behind.

Of the two ways to refuse a request one leaves the heap as it is, and the other opens a free region
(`Heap.Replies`).  The opened region has no words in use, so all tops, the words in use and the
table of starts are as before; but it is not free any more, and a run of regions that could have
been taken before may not be found afterwards.

Main result: `Heap.Tabled.answer_error`.
-/
import MarkCompact.Proofs.FreeRegions
import MarkCompact.Proofs.Instances

namespace MarkCompact

namespace Heap

variable {h h' : Heap}

/-! ### An opened region -/

theorem usedWords_opening (h : Heap) (i : Nat) : (h.opening i).usedWords = h.usedWords := by
  have hsize : (h.opening i).regions.size = h.regions.size := size_modifyRegion ..
  have hused : ∀ j, ((h.opening i).region j).usedWords = (h.region j).usedWords := fun j => by
    rw [region_opening]
    split <;> rfl
  unfold usedWords
  rw [toList_regions, toList_regions, List.map_map, List.map_map, hsize]
  exact congrArg _ (List.map_congr_left fun j _ => hused j)

theorem freeRegionCount_opening {i : Nat} (hi : i < h.regions.size)
    (hk : (h.region i).kind = .free) :
    (h.opening i).freeRegionCount + 1 = h.freeRegionCount := by
  have hsize : (h.opening i).regions.size = h.regions.size := size_modifyRegion ..
  have herase : (h.opening i).freeIndices = h.freeIndices.erase i := by
    ext j
    rw [Finset.mem_erase, mem_freeIndices, mem_freeIndices, hsize, region_opening]
    by_cases hij : i = j
    · subst hij
      simp [hi]
    · rw [if_neg fun hh => hij hh.1]
      exact ⟨fun hh => ⟨fun hh' => hij hh'.symm, hh⟩, And.right⟩
  rw [freeRegionCount_eq, freeRegionCount_eq, herase,
    Finset.card_erase_add_one (mem_freeIndices.2 ⟨hi, hk⟩)]

/-! ### Refusals -/

/-- A refused request leaves the heap as it was, unless it is for words of a free region: that
region is a regular one afterwards, and there is one free region less. -/
theorem Tabled.answer_error (ht : h.Tabled) {q : Request} {e : CompactError}
    (herror : h.answer q = (.error e, h')) :
    h'.starts = h.starts ∧ h'.memory = h.memory ∧ h'.usedWords = h.usedWords ∧
      (∀ i, (h'.region i).top = (h.region i).top) ∧
      ((∀ i, ¬ q.Opens h i) → h' = h) ∧
      ∀ i, q.Opens h i → h' = h.opening i ∧ h'.freeRegionCount + 1 = h.freeRegionCount := by
  have hans := ht.replies q
  rw [herror] at hans
  cases hans with
  | refused _ _ kept =>
    exact ⟨rfl, rfl, rfl, fun _ => rfl, fun _ => rfl, fun i hopens => absurd hopens (kept i)⟩
  | opened _ inside kind _ =>
    refine ⟨rfl, rfl, usedWords_opening .., top_opening h _, fun hnone => ?_, ?_⟩
    · exact absurd ⟨rfl, inside, kind⟩ (hnone _)
    · rintro _ ⟨rfl, -⟩
      exact ⟨rfl, freeRegionCount_opening inside kind⟩

/-- Four regions, a request for no words, and one for more words than there are in a region. -/
theorem Tabled.answer_error_new : ∃ (h h' : Heap) (e e' : CompactError),
    h.answer (.anywhere 0) = (.error e, h) ∧ h.answer (.within 2 17) = (.error e', h') ∧
      h'.usedWords = h.usedWords ∧ h' = h.opening 2 ∧
      h'.freeRegionCount + 1 = h.freeRegionCount := by
  let config : Config := { regionShift := 4, numRegions := 4, blockShift := 2 }
  have hv : config.Valid := by decide
  have hb : config.Backed 0x10000 := by decide
  obtain ⟨h, hnew, -⟩ := new_eq hv hb
  obtain ⟨hs, hlayout, hcount, hregions⟩ := table_new hv hb hnew
  have hcount : h.regions.size = 4 := hcount
  have hopens : Request.Opens h 2 (.within 2 17) :=
    ⟨rfl, by omega, by rw [hregions 2 (by omega)]; rfl⟩
  have hfull : ¬ h.Roomful 2 17 := by
    unfold Roomful
    rw [hregions 2 (by omega), hlayout]
    decide
  obtain ⟨e, hzero⟩ : ∃ e, h.answer (.anywhere 0) = (.error e, h) := ⟨_, rfl⟩
  obtain ⟨e', hwithin⟩ : ∃ e', h.answer (.within 2 17) = (.error e', h.opening 2) :=
    ⟨_, (allocateIn_eq hopens.2.1 (by rw [hopens.2.2]; rfl) 17).trans (if_neg hfull)⟩
  obtain ⟨-, -, hused, -, -, hopened⟩ := hs.toTabled.answer_error hwithin
  exact ⟨h, h.opening 2, e, e', hzero, hwithin, hused, (hopened 2 hopens).1, (hopened 2 hopens).2⟩

/-- In eight regions there is room for an object that needs all of them, until a request for
seventeen words in the first one has been refused. -/
theorem Tabled.refused_opens : ∃ (config : Config) (h h' : Heap) (e e' : CompactError),
    config.Valid ∧ new config 0x10000 = .ok h ∧ h.answer (.within 0 17) = (.error e, h') ∧
      h.freeRegionCount = 8 ∧ h'.freeRegionCount = 7 ∧ (h'.region 0).kind ≠ (h.region 0).kind ∧
      (h.answer (.humongous 128)).1 = .ok 0x10000 ∧ (h'.answer (.humongous 128)).1 = .error e' := by
  let config : Config := { regionShift := 4, numRegions := 8, blockShift := 2 }
  have hv : config.Valid := by decide
  have hb : config.Backed 0x10000 := by decide
  obtain ⟨h, hnew, -⟩ := new_eq hv hb
  obtain ⟨hs, hlayout, hcount, hregions⟩ := table_new hv hb hnew
  have hcount : h.regions.size = 8 := hcount
  have hfree : ∀ i < 8, (h.region i).kind = .free := fun i hi => by
    rw [hregions i (by omega)]
    rfl
  have hneeded : (h.layout.regionsFor 128).toNat = 8 := by
    rw [hlayout]
    decide
  have hfull : ¬ h.Roomful 0 17 := by
    unfold Roomful
    rw [hregions 0 (by omega), hlayout]
    decide
  obtain ⟨e, hwithin⟩ : ∃ e, h.answer (.within 0 17) = (.error e, h.opening 0) :=
    ⟨_, (allocateIn_eq (by omega) (by rw [hfree 0 (by omega)]; rfl) 17).trans (if_neg hfull)⟩
  have hkind : ((h.opening 0).region 0).kind = .regular := by
    rw [region_opening, if_pos ⟨rfl, by omega⟩]
  have hcounted := freeRegionCount_opening (i := 0) (by omega) (hfree 0 (by omega))
  have hall : h.freeRegionCount = 8 := by
    rw [freeRegionCount_eq, freeIndices, Finset.filter_true_of_mem, Finset.card_range, hcount]
    intro i hi
    exact hfree i (by rwa [Finset.mem_range, hcount] at hi)
  have hfind : h.findFreeRun (h.layout.regionsFor 128).toNat = some 0 := by
    have hlist : h.regions.toList = (List.range 8).map fun i =>
        Region.new i (h.layout.bottom i) (h.layout.regionStop i) := by
      rw [toList_regions, hcount]
      exact List.map_congr_left fun i hi => hregions i (by rwa [List.mem_range, ← hcount] at hi)
    unfold findFreeRun
    rw [hneeded, hlist]
    rfl
  have hgranted : (h.answer (.humongous 128)).1 = .ok 0x10000 := by
    show (h.allocateHumongous 128).1 = _
    rw [hs.allocateHumongous_eq hfind, hlayout]
    rfl
  have hground : h.SameGround (h.opening 0) := sameGround_modifyRegion ..
  have hrefused : ∃ e', (h.opening 0).answer (.humongous 128) = (.error e', h.opening 0) := by
    have ht := (retopped_opening hs.toTabled (i := 0) (by omega)
      (by rw [hfree 0 (by omega)]; rfl)).tabled hs.toTabled
    have hans := ht.replies (.humongous 128)
    generalize (h.opening 0).answer (.humongous 128) = o at hans ⊢
    cases hans with
    | refused _ e' _ => exact ⟨e', rfl⟩
    | taken asked => exact asked.elim
    | filled _ free =>
      -- all eight regions would have to be free
      have hneeded' : ((h.opening 0).layout.regionsFor (Request.humongous 128).words).toNat = 8 :=
        hneeded
      have hin := free.inside
      have hsize : (h.opening 0).regions.size = 8 := by rw [hground.size, hcount]
      have hfirst := free.free 0 (by omega) (by omega)
      rw [hkind] at hfirst
      cases hfirst
  obtain ⟨e', hrefused⟩ := hrefused
  exact ⟨config, h, h.opening 0, e, e', hv, hnew, hwithin, hall, by omega,
    by rw [hkind, hfree 0 (by omega)]; decide, hgranted, by rw [hrefused]⟩

end Heap

end MarkCompact
