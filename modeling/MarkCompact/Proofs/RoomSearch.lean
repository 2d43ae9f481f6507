/-
MarkCompact/Proofs/RoomSearch.lean

What the search for room answers, in every case.

The regions that can take part of a humongous object are gone through once, with a count of the
adjacent ones just met.  Three answers are possible, and which of them is given depends on the list
alone:

* the first position from which on there are as many adjacent regions as the object takes
  (`AdjacentAt`);
* where there is none, the first position from which on the list has adjacent regions up to its end
  (`EndsAdjacent`), if the object begins in the region after the last one;
* nothing.

In the first two cases the run of that many regions from the answer on is a stretch of the list with
the object's own regions appended (`findRun_stretch`).  Nothing else of it is taken away when the
object's own regions have joined the list and the run has left it (`Exchanged`).

Main result: `CompactionPoint.findRun_answers`.
-/
import MarkCompact.Proofs.Vacancies

namespace MarkCompact

variable {l : List Nat} {n k : Nat}

/-! ### Adjacent regions of a list -/

/-- From the position `k` on the list has `n` adjacent regions. -/
def AdjacentAt (l : List Nat) (n k : Nat) : Prop := ∃ first, ∀ i < n, l[k + i]? = some (first + i)

/-- From the position `k` on the list has adjacent regions only. -/
def EndsAdjacent (l : List Nat) (k : Nat) : Prop := k < l.length ∧ AdjacentAt l (l.length - k) k

/-- What is left of a list when the object in the `wanted` regions from `source` on has been given
those from `target` on: they are gone, and those that the object leaves have come. -/
structure Exchanged (l : List Nat) (source target wanted : Nat) (left : List Nat) : Prop where
  /-- The object goes to regions of the list, and perhaps to some of its own. -/
  room : ∀ i, target ≤ i → i < target + wanted → i ∈ l ∨ source ≤ i ∧ i < source + wanted
  ascending : left.Pairwise (· < ·)
  mem_iff : ∀ i, i ∈ left ↔
    (i ∈ l ∨ source ≤ i ∧ i < source + wanted) ∧ ¬ (target ≤ i ∧ i < target + wanted)

/-- Adjacent regions end no later than the list. -/
theorem AdjacentAt.le_length (h : AdjacentAt l n k) (hn : 0 < n) : k + n ≤ l.length := by
  obtain ⟨first, hat⟩ := h
  have hlast := (List.getElem?_eq_some_iff.1 (hat (n - 1) (by omega))).1
  omega

/-- They are all the regions between the first and the last of them. -/
theorem AdjacentAt.exists_first (h : AdjacentAt l n k) (hn : 0 < n) :
    ∃ first, l[k]? = some first ∧ ∀ i, first ≤ i → i < first + n → i ∈ l := by
  obtain ⟨first, hat⟩ := h
  refine ⟨first, by simpa using hat 0 hn, fun i hfirst hlast => ?_⟩
  have hi := hat (i - first) (by omega)
  rw [Nat.add_sub_cancel' hfirst] at hi
  exact List.mem_of_getElem? hi

/-- Those at the end of the list go up to its last region. -/
theorem EndsAdjacent.exists_first (h : EndsAdjacent l k) {last : Nat}
    (hlast : l.getLast? = some last) :
    ∃ first, l[k]? = some first ∧ ∀ i, first ≤ i → i ≤ last → i ∈ l := by
  obtain ⟨hk, hadjacent⟩ := h
  obtain ⟨first, hfirst, hall⟩ := hadjacent.exists_first (by omega)
  refine ⟨first, hfirst, fun i h1 h2 => hall i h1 ?_⟩
  obtain ⟨first', hat⟩ := hadjacent
  have hsame := hat 0 (by omega)
  have hend := hat (l.length - k - 1) (by omega)
  rw [Nat.add_zero, hfirst, Option.some.injEq] at hsame
  rw [List.getLast?_eq_getElem?, ← show k + (l.length - k - 1) = l.length - 1 by omega, hend,
    Option.some.injEq] at hlast
  omega

/-- A search that finds something wherever a set of positions is not empty, and nothing later than
any of them, finds the least one if what it finds is one of them. -/
theorem isLeast_of_search {find : Option Nat} {S : Set Nat} (hsome : S.Nonempty)
    (hle : ∀ k ∈ S, ∃ start, find = some start ∧ start ≤ k)
    (hmem : ∀ start, find = some start → start ∈ lowerBounds S → start ∈ S) :
    ∃ start, find = some start ∧ IsLeast S start := by
  obtain ⟨k, hk⟩ := hsome
  obtain ⟨start, hfind, -⟩ := hle k hk
  have hlower : start ∈ lowerBounds S := by
    intro j hj
    obtain ⟨start', hfind', hle'⟩ := hle j hj
    obtain rfl : start = start' := Option.some.inj (hfind.symm.trans hfind')
    exact hle'
  exact ⟨start, hfind, hmem start hfind hlower, hlower⟩

namespace CompactionPoint

variable {p : CompactionPoint} {source wanted start : Nat}

section Search

variable (hwanted : 0 < wanted) (hasc : p.regions.toList.Pairwise (· < ·))
  (hbelow : ∀ i ∈ p.regions.toList, i < source)

include hwanted hasc hbelow

/-! ### The answer as a position -/

/-- The run from the answer on is a stretch of the list with the object's own regions appended. -/
theorem findRun_stretch (hfind : p.findRun source wanted = some start) :
    p.regions.toList[start]? = some (p.regionAt start) ∧
      ∀ i < wanted, (p.regions.toList ++ List.range' source wanted)[start + i]?
        = some (p.regionAt start + i) := by
  obtain ⟨met, rest, rfl, hmem, hsplit⟩ := findRun_split hwanted hasc hbelow hfind
  have hrun : ∀ i < wanted, (p.regions.toList ++ List.range' source wanted)[met.length + i]?
      = some (p.regionAt met.length + i) := by
    intro i hi
    rw [hsplit]
    exact getElem?_stretch hi
  refine ⟨?_, hrun⟩
  have hfirst := hrun 0 hwanted
  rw [Nat.add_zero, Nat.add_zero] at hfirst
  rcases Nat.lt_or_ge met.length p.regions.toList.length with hlt | hge
  · rwa [List.getElem?_append_left hlt] at hfirst
  · -- the object's own regions lie above all of the list
    rw [List.getElem?_append_right hge] at hfirst
    have hown := (List.mem_range'_1.1 (List.mem_of_getElem? hfirst)).1
    have := hbelow _ hmem
    omega

/-- An answer is given, and not a later position, if there is room from some position on.  The last
regions of the room may be the object's own. -/
theorem exists_findRun_le {k first : Nat} (hfirst : p.regions.toList[k]? = some first)
    (hroom : ∀ i, first ≤ i → i < first + wanted → i < source → i ∈ p.regions.toList) :
    ∃ start, p.findRun source wanted = some start ∧ start ≤ k := by
  obtain ⟨start, hfind, hle⟩ := exists_findRun hwanted hasc hbelow
    (hbelow first (List.mem_of_getElem? hfirst)) hroom
  refine ⟨start, hfind, ?_⟩
  by_contra hlater
  have hstart := (findRun_stretch hwanted hasc hbelow hfind).1
  have := pairwise_lt_getElem? hasc hfirst hstart (by omega)
  omega

/-- The run lies in the list, or it is the end of the list and goes on with the object's own
regions. -/
theorem adjacentAt_of_findRun (hfind : p.findRun source wanted = some start) :
    AdjacentAt p.regions.toList wanted start ∨
      p.regions.toList.getLast? = some (source - 1) ∧ EndsAdjacent p.regions.toList start := by
  obtain ⟨hstart, hrun⟩ := findRun_stretch hwanted hasc hbelow hfind
  have hlt := (List.getElem?_eq_some_iff.1 hstart).1
  have hat : ∀ i < wanted, start + i < p.regions.toList.length →
      p.regions.toList[start + i]? = some (p.regionAt start + i) := by
    intro i hi hin
    rw [← hrun i hi, List.getElem?_append_left hin]
  rcases Nat.lt_or_ge p.regions.toList.length (start + wanted) with hshort | hfull
  · right
    -- the first of the object's own regions follows the last one of the list
    have hown := hrun (p.regions.toList.length - start) (by omega)
    rw [Nat.add_sub_cancel' hlt.le, List.getElem?_append_right (Nat.le_refl _), Nat.sub_self,
      List.getElem?_range' hwanted, Nat.mul_zero, Nat.add_zero, Option.some.injEq] at hown
    refine ⟨?_, hlt, p.regionAt start, fun i hi => hat i (by omega) (by omega)⟩
    have hlast := hat (p.regions.toList.length - start - 1) (by omega) (by omega)
    rw [show start + (p.regions.toList.length - start - 1) = p.regions.toList.length - 1 by omega,
      ← List.getLast?_eq_getElem?] at hlast
    rw [hlast, hown]
    congr 1
    omega
  · exact .inl ⟨p.regionAt start, fun i hi => hat i hi (by omega)⟩

/-! ### The three answers -/

/-- The first run that is long enough is found. -/
theorem findRun_of_adjacentAt (hsome : ∃ k, AdjacentAt p.regions.toList wanted k) :
    ∃ start, p.findRun source wanted = some start ∧
      IsLeast {k | AdjacentAt p.regions.toList wanted k} start := by
  refine isLeast_of_search hsome (fun k hk => ?_) fun start hfind hlower => ?_
  · obtain ⟨first, hfirst, hall⟩ := AdjacentAt.exists_first hk hwanted
    exact exists_findRun_le hwanted hasc hbelow hfirst fun i h1 h2 _ => hall i h1 h2
  · rcases adjacentAt_of_findRun hwanted hasc hbelow hfind with hfull | ⟨-, -, first, hat⟩
    · exact hfull
    · -- a run up to the end of the list that begins no later is at least as long
      obtain ⟨k, hk⟩ := hsome
      have hle := hlower hk
      have hin := hk.le_length hwanted
      exact ⟨first, fun i hi => hat i (by omega)⟩

/-- Where no run is long enough, the one at the end of the list is found if the object continues
it. -/
theorem findRun_of_continued (hnone : ∀ k, ¬ AdjacentAt p.regions.toList wanted k)
    (hlast : p.regions.toList.getLast? = some (source - 1)) :
    ∃ start, p.findRun source wanted = some start ∧
      IsLeast {k | EndsAdjacent p.regions.toList k} start := by
  refine isLeast_of_search ⟨p.regions.toList.length - 1, ?_⟩ (fun k hk => ?_) fun start hfind _ => ?_
  · -- the last region alone is such a run
    have hpos : 0 < p.regions.toList.length :=
      List.length_pos_of_mem (List.mem_of_getLast? hlast)
    refine ⟨by omega, source - 1, fun i hi => ?_⟩
    obtain rfl : i = 0 := by omega
    rw [Nat.add_zero, Nat.add_zero, ← List.getLast?_eq_getElem?, hlast]
  · obtain ⟨first, hfirst, hall⟩ := EndsAdjacent.exists_first hk hlast
    exact exists_findRun_le hwanted hasc hbelow hfirst fun i h1 _ h3 => hall i h1 (by omega)
  · exact ((adjacentAt_of_findRun hwanted hasc hbelow hfind).resolve_left (hnone start)).2

end Search

/-- What the search for room answers: the first run that is long enough; or else the run at the end
of the list, if the object in the regions from `source` on continues it; or else nothing.  A move to
the run that is found exchanges regions of the list for regions of the object. -/
theorem findRun_answers (hwanted : 0 < wanted) (hasc : p.regions.toList.Pairwise (· < ·))
    (hbelow : ∀ i ∈ p.regions.toList, i < source) (h : Heap) :
    ((∃ k, AdjacentAt p.regions.toList wanted k) →
      ∃ start, p.findRun source wanted = some start ∧
        IsLeast {k | AdjacentAt p.regions.toList wanted k} start) ∧
    ((∀ k, ¬ AdjacentAt p.regions.toList wanted k) →
      p.regions.toList.getLast? = some (source - 1) →
      ∃ start, p.findRun source wanted = some start ∧
        IsLeast {k | EndsAdjacent p.regions.toList k} start) ∧
    ((∀ k, ¬ AdjacentAt p.regions.toList wanted k) →
      p.regions.toList.getLast? ≠ some (source - 1) → p.findRun source wanted = none) ∧
    ∀ start, p.findRun source wanted = some start →
      p.regions.toList[start]? = some (p.regionAt start) ∧
        Exchanged p.regions.toList source (p.regionAt start) wanted
          ((p.addRun h source wanted).removeRange start wanted).regions.toList := by
  refine ⟨findRun_of_adjacentAt hwanted hasc hbelow, findRun_of_continued hwanted hasc hbelow, ?_, ?_⟩
  · intro hnone hlast
    refine Option.eq_none_iff_forall_ne_some.2 fun start hfind => ?_
    rcases adjacentAt_of_findRun hwanted hasc hbelow hfind with hfull | ⟨hend, -⟩
    · exact hnone start hfull
    · exact hlast hend
  · intro start hfind
    obtain ⟨-, -, hascending, hmem, hroom⟩ := room_after hwanted hasc hbelow hfind h
    exact ⟨(findRun_stretch hwanted hasc hbelow hfind).1, hroom, hascending, hmem⟩

/-- Three regions are wanted, and no three of the list are adjacent.  The two at its end will do for
an object in the regions 10, 11 and 12, which then leaves the last two of these. -/
theorem findRun_answers_continued :
    let p : CompactionPoint := { empty with regions := #[1, 4, 5, 8, 9] }
    0 < 3 ∧ p.regions.toList.Pairwise (· < ·) ∧ (∀ i ∈ p.regions.toList, i < 10) ∧
      p.findRun 10 3 = some 3 ∧ IsLeast {k | EndsAdjacent [1, 4, 5, 8, 9] k} 3 ∧
      Exchanged [1, 4, 5, 8, 9] 10 8 3 [1, 4, 5, 11, 12] := by
  intro p
  have hnone : ∀ k, ¬ AdjacentAt p.regions.toList 3 k := by
    rintro k ⟨first, hat⟩
    have h0 := hat 0 (by decide)
    have h1 := hat 1 (by decide)
    have h2 := hat 2 (by decide)
    have hk : k < 5 := (List.getElem?_eq_some_iff.1 h0).1
    interval_cases k <;> simp [p] at h0 h1 h2 <;> omega
  have hasc : p.regions.toList.Pairwise (· < ·) := by decide
  have hbelow : ∀ i ∈ p.regions.toList, i < 10 := by decide
  have hfind : p.findRun 10 3 = some 3 := by decide
  let h : Heap := ⟨⟨0, 0, ∅⟩, ⟨0, 4, 0⟩, #[], .new ⟨0, 4, 0⟩, true⟩
  obtain ⟨-, hcontinued, -, hexchanged⟩ := findRun_answers (show 0 < 3 by decide) hasc hbelow h
  obtain ⟨start, hfind', hleast⟩ := hcontinued hnone rfl
  obtain rfl : 3 = start := Option.some.inj (hfind.symm.trans hfind')
  have hleft : ((p.addRun h 10 3).removeRange 3 3).regions.toList = [1, 4, 5, 11, 12] :=
    @regions_removeRange _ [1, 4, 5] [8, 9, 10] [11, 12] (regions_addRun p h 10 3)
  have hafter := (hexchanged 3 hfind).2
  rw [hleft] at hafter
  exact ⟨by decide, hasc, hbelow, hfind, hleast, hafter⟩

end CompactionPoint

end MarkCompact
