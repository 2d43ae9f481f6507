/-
MarkCompact/Proofs/Regions.lean

Changes of the region table, and the runs in it.

Freeing, flagging and installing regions changes the table and nothing else:
`Heap.SameGround` collects what all of them leave alone.  A table in which
humongous runs are complete is cut into pieces: no region belongs to two runs
(`HumongousRun.unique`), and the regions of a run are found again from their
kinds alone (`HumongousRun.span_eq`).

`Heap.Carries` says that one table is another one in which some whole runs have
been freed; it keeps everything a live object relies on.
-/
import MarkCompact.Proofs.WellFormed
import MarkCompact.Proofs.StartTables
import MarkCompact.Placement.Plan

namespace MarkCompact

namespace Heap

/-! ### What operations on regions leave alone -/

/-- The same grid, of the same number of regions, over the same memory. -/
structure SameGround (h h' : Heap) : Prop where
  layout : h'.layout = h.layout
  size : h'.regions.size = h.regions.size
  headers : h'.compactHeaders = h.compactHeaders
  memory : h'.memory = h.memory

theorem SameGround.refl (h : Heap) : SameGround h h := ⟨rfl, rfl, rfl, rfl⟩

theorem SameGround.trans {h h' h'' : Heap} (a : SameGround h h') (b : SameGround h' h'') :
    SameGround h h'' :=
  ⟨b.layout.trans a.layout, b.size.trans a.size, b.headers.trans a.headers,
    b.memory.trans a.memory⟩

theorem sameGround_modifyRegion (h : Heap) (i : Nat) (change : Region → Region) :
    SameGround h (h.modifyRegion i change) :=
  ⟨rfl, size_modifyRegion .., rfl, rfl⟩

theorem sameGround_recordStart (h : Heap) (a : Address) : SameGround h (h.recordStart a) :=
  ⟨rfl, rfl, rfl, rfl⟩

theorem sameGround_freeRegion (h : Heap) (i : Nat) : SameGround h (h.freeRegion i) :=
  ⟨rfl, size_modifyRegion .., rfl, rfl⟩

theorem region_freeRegion (h : Heap) (i j : Nat) :
    (h.freeRegion i).region j
      = if i = j ∧ j < h.regions.size then (h.region j).makeFree else h.region j :=
  region_modifyRegion h i j Region.makeFree

theorem sameGround_foldl {α : Type} (step : Heap → α → Heap)
    (hstep : ∀ h a, SameGround h (step h a)) (as : List α) (h : Heap) :
    SameGround h (as.foldl step h) := by
  induction as generalizing h with
  | nil => exact SameGround.refl h
  | cons a as ih => exact (hstep h a).trans (ih (step h a))

/-- A fold of changes, each of one region, when changing a region twice is changing it once. -/
theorem region_foldl_modify (step : Heap → Nat → Heap) (change : Nat → Region → Region)
    (hstep : ∀ h i j, (step h i).region j
      = if i = j ∧ j < h.regions.size then change i (h.region j) else h.region j)
    (hsize : ∀ h i, (step h i).regions.size = h.regions.size)
    (htwice : ∀ i r, change i (change i r) = change i r) (is : List Nat) (h : Heap) (j : Nat) :
    (is.foldl step h).region j
      = if j ∈ is ∧ j < h.regions.size then change j (h.region j) else h.region j := by
  induction is generalizing h with
  | nil => simp
  | cons i is ih =>
    rw [List.foldl_cons, ih, hstep, hsize]
    by_cases hj : j < h.regions.size
    · by_cases hi : i = j
      · subst hi
        simp [hj, htwice]
      · have hi' : ¬ j = i := fun hh => hi hh.symm
        simp [hj, hi, hi']
    · simp [hj]

theorem region_foldl_freeRegion (is : List Nat) (h : Heap) (j : Nat) :
    (is.foldl freeRegion h).region j
      = if j ∈ is ∧ j < h.regions.size then (h.region j).makeFree else h.region j :=
  region_foldl_modify freeRegion (fun _ => Region.makeFree) region_freeRegion
    (fun h i => (sameGround_freeRegion h i).size) (fun _ _ => rfl) is h j

/-- Freeing regions forgets what begins in them. -/
theorem starts_foldl_freeRegion {l : Layout} {is : List Nat} {g : Heap}
    (hgrid : ∀ i ∈ is, (g.region i).bottom = l.bottom i ∧ (g.region i).stop = l.regionStop i) :
    (is.foldl freeRegion g).starts = g.starts.forget l is := by
  induction is generalizing g with
  | nil => rfl
  | cons i is ih =>
    obtain ⟨hbottom, hstop⟩ := hgrid i List.mem_cons_self
    have hone : (g.freeRegion i).starts = g.starts.clearRange (l.bottom i) (l.regionStop i) := by
      rw [← hbottom, ← hstop]
      rfl
    rw [List.foldl_cons, ih, hone]
    · rfl
    · intro j hj
      rw [region_freeRegion]
      split
      · exact hgrid j (List.mem_cons_of_mem _ hj)
      · exact hgrid j (List.mem_cons_of_mem _ hj)

theorem SameGround.mapped {h h' : Heap} (g : SameGround h h') (hm : h.Mapped) : h'.Mapped :=
  hm.of_span g.layout (by rw [g.memory]; exact Memory.SameSpan.refl _)

/-- All regions, by their indices. -/
theorem toList_regions (h : Heap) :
    h.regions.toList = (List.range h.regions.size).map h.region := by
  apply List.ext_getElem
  · simp
  · intro i h1 h2
    rw [Array.length_toList] at h1
    simp [h.region_eq_getElem h1]

/-! ### Runs -/

/-- A region belongs to a run. -/
def InRun (h : Heap) (first : Nat) (words : WordCount) (i : Nat) : Prop :=
  h.HumongousRun first words ∧ first ≤ i ∧ i < first + (h.layout.regionsFor words).toNat

theorem HumongousRun.kind_of_inRun {h : Heap} {first i : Nat} {words : WordCount}
    (hr : h.InRun first words i) : (h.region i).kind.isHumongous = true := by
  obtain ⟨hrun, h1, h2⟩ := hr
  rcases Nat.eq_or_lt_of_le h1 with rfl | hlt
  · rw [hrun.start]; rfl
  · rw [hrun.later i hlt h2]; rfl

/-- No region belongs to two runs. -/
theorem HumongousRun.unique {h : Heap} {f1 f2 i : Nat} {w1 w2 : WordCount}
    (h1 : h.InRun f1 w1 i) (h2 : h.InRun f2 w2 i) :
    f1 = f2 ∧ (h.layout.regionsFor w1).toNat = (h.layout.regionsFor w2).toNat := by
  obtain ⟨r1, a1, b1⟩ := h1
  obtain ⟨r2, a2, b2⟩ := h2
  -- the first region of the later run would be a later one of the other
  have hstart : ∀ {f f' : Nat} {w w' : WordCount}, h.HumongousRun f w → h.HumongousRun f' w' →
      f ≤ i → i < f + (h.layout.regionsFor w).toNat → f' ≤ i → ¬ f < f' := by
    intro f f' w w' r r' _ hb ha hlt
    have hk := r.later f' hlt (by omega)
    rw [r'.start] at hk
    cases hk
  have hend : ∀ {f : Nat} {w w' : WordCount}, h.HumongousRun f w → h.HumongousRun f w' →
      0 < (h.layout.regionsFor w).toNat →
      ¬ (h.layout.regionsFor w).toNat < (h.layout.regionsFor w').toNat := by
    intro f w w' r r' hpos hlt
    exact r.last (r'.later _ (by omega) (by omega))
  have hf : f1 = f2 := by
    have := hstart r1 r2 a1 b1 a2
    have := hstart r2 r1 a2 b2 a1
    omega
  subst hf
  have := hend r1 r2 (by omega)
  have := hend r2 r1 (by omega)
  exact ⟨rfl, by omega⟩

theorem HumongousRun.inside {h : Heap} (hg : h.Gridded) {first : Nat} {words : WordCount}
    (hr : h.HumongousRun first words) (hf : first < h.regions.size) :
    words.toNat < 2 ^ 62 ∧ 0 < (h.layout.regionsFor words).toNat ∧
      first + (h.layout.regionsFor words).toNat ≤ h.regions.size := by
  have hl := hg.layout
  have hstop := hl.toNat_stop
  have hfits := hl.fits
  have hrun := hr.fits
  have hpos := hr.nonempty
  have hf' : first ≤ h.layout.numRegions := by rw [← hg.count]; exact hf.le
  rw [hl.toNat_bottom hf'] at hrun
  have hw : words.toNat < 2 ^ 62 := by omega
  obtain ⟨-, h2, h3⟩ := hl.regionsFor_bounds hw hpos
  refine ⟨hw, h3, ?_⟩
  rw [hg.count]
  have h4 : (first + ((h.layout.regionsFor words).toNat - 1)) * h.layout.stride
      < h.layout.numRegions * h.layout.stride := by
    rw [Nat.add_mul]
    omega
  have h5 := Nat.lt_of_mul_lt_mul_right h4
  omega

/-- Where a run is cut into regions, in bytes. -/
theorem HumongousRun.end_le {h : Heap} (hg : h.Gridded) {first : Nat} {words : WordCount}
    (hr : h.HumongousRun first words) (hf : first < h.regions.size) :
    (h.layout.bottom first).toNat + 8 * words.toNat
        ≤ (h.layout.bottom (first + (h.layout.regionsFor words).toNat)).toNat ∧
      (h.layout.bottom (first + ((h.layout.regionsFor words).toNat - 1))).toNat
        < (h.layout.bottom first).toNat + 8 * words.toNat := by
  obtain ⟨hw, hpos, hin⟩ := hr.inside hg hf
  obtain ⟨h1, h2, -⟩ := hg.layout.regionsFor_bounds hw hr.nonempty
  rw [hg.count] at hin
  rw [hg.layout.toNat_bottom hin, hg.layout.toNat_bottom (i := first) (by omega),
    hg.layout.toNat_bottom (i := first + ((h.layout.regionsFor words).toNat - 1)) (by omega),
    Nat.add_mul, Nat.add_mul]
  omega

theorem length_takeWhile_eq {α : Type} {p : α → Bool} {m : Nat} {l : List α}
    (hbefore : ∀ i < m, ∃ x, l[i]? = some x ∧ p x = true)
    (hat : ∀ x, l[m]? = some x → p x = false) : (l.takeWhile p).length = m := by
  induction m generalizing l with
  | zero =>
    cases l with
    | nil => rfl
    | cons x l => rw [List.takeWhile_cons_of_neg (by simpa using hat x rfl)]; rfl
  | succ m ih =>
    cases l with
    | nil => obtain ⟨x, hx, -⟩ := hbefore 0 (by omega); simp at hx
    | cons x l =>
      have hx : p x = true := by
        obtain ⟨y, hy, hp⟩ := hbefore 0 (by omega)
        simp only [List.getElem?_cons_zero, Option.some.injEq] at hy
        rw [hy]
        exact hp
      rw [List.takeWhile_cons_of_pos hx, List.length_cons, ih]
      · intro i hi
        obtain ⟨y, hy, hp⟩ := hbefore (i + 1) (by omega)
        exact ⟨y, by simpa using hy, hp⟩
      · intro y hy
        exact hat y (by simpa using hy)

/-- The regions of a run are found again from their kinds. -/
theorem HumongousRun.span_eq {h : Heap} (hg : h.Gridded) {first : Nat} {words : WordCount}
    (hr : h.HumongousRun first words) (hf : first < h.regions.size) :
    Plan.span h first = (h.layout.regionsFor words).toNat := by
  obtain ⟨-, hpos, hin⟩ := hr.inside hg hf
  unfold Plan.span
  have hget : ∀ i, (h.regions.toList.drop (first + 1))[i]?
      = if first + 1 + i < h.regions.size then some (h.region (first + 1 + i)) else none := by
    intro i
    rw [List.getElem?_drop]
    split
    · rename_i hlt
      rw [h.region_eq_getElem hlt]
      simp [hlt]
    · rename_i hge
      simpa using hge
  have hlen : ((h.regions.toList.drop (first + 1)).takeWhile
      (·.kind == .humongousContinues)).length = (h.layout.regionsFor words).toNat - 1 := by
    apply length_takeWhile_eq
    · intro i hi
      refine ⟨h.region (first + 1 + i), ?_, ?_⟩
      · rw [hget, if_pos (by omega)]
      · rw [hr.later _ (by omega) (by omega)]
        rfl
    · intro r hr'
      rw [hget] at hr'
      split at hr'
      · have hlast := hr.last
        rw [show first + (h.layout.regionsFor words).toNat
          = first + 1 + ((h.layout.regionsFor words).toNat - 1) from by omega] at hlast
        obtain rfl : h.region (first + 1 + ((h.layout.regionsFor words).toNat - 1)) = r := by
          simpa using hr'
        simpa using hlast
      · cases hr'
  rw [hlen]
  omega

end Heap

end MarkCompact
