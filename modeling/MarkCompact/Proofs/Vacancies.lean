/-
MarkCompact/Proofs/Vacancies.lean

Runs of adjacent regions.

The regions that can take a humongous object are kept in an ascending list.  The search for
room finds the first run of adjacent ones that is long enough; a run at the end of the list may
be continued by the regions of the object itself, which come after all others.  Either way the
run is a stretch of the list with those regions appended (`findRun_split`), no other one begins
before it (`exists_findRun`), and what is left of the list is everything else (`room_after`).
-/
import MarkCompact.Proofs.Loops
import MarkCompact.Placement.Cursor

namespace MarkCompact

namespace CompactionPoint

/-! ### Adjacent regions in a list -/

/-- What stands at the positions of a stretch of adjacent regions. -/
theorem getElem?_stretch {met rest : List Nat} {first n i : Nat} (hi : i < n) :
    (met ++ List.range' first n ++ rest)[met.length + i]? = some (first + i) := by
  rw [List.append_assoc, List.getElem?_append_right (Nat.le_add_right ..), Nat.add_sub_cancel_left,
    List.getElem?_append_left (by rwa [List.length_range']), List.getElem?_range' hi, Nat.one_mul]

theorem regionAt_of_stretch {p : CompactionPoint} {met rest : List Nat} {first n : Nat} (hn : 0 < n)
    (h : p.regions.toList = met ++ List.range' first n ++ rest) : p.regionAt met.length = first := by
  have hfirst : (met ++ List.range' first n ++ rest)[met.length + 0]? = some (first + 0) :=
    getElem?_stretch hn
  rw [Nat.add_zero, Nat.add_zero] at hfirst
  unfold regionAt
  rw [← Array.getElem?_toList, h, hfirst]
  rfl

/-! ### Finding a run -/

/-- The run that is followed ends the part of the list that has been gone through, and it is
shorter than wanted only at the end of the list. -/
theorem followRun_split {wanted : Nat} (hwanted : 0 < wanted) (rest : List Nat) {all met : List Nat}
    {first run : Nat} (hall : all = met ++ List.range' first run ++ rest)
    (hasc : all.Pairwise (· < ·)) (hrun : 0 < run) (hle : run ≤ wanted) :
    ∃ met' first' run' rest',
      followRun wanted run (first + run - 1) (met.length + run) rest
        = (run', first' + run' - 1, met'.length + run') ∧
      all = met' ++ List.range' first' run' ++ rest' ∧ 0 < run' ∧ run' ≤ wanted ∧
      (run' < wanted → rest' = []) := by
  induction rest generalizing met first run with
  | nil => exact ⟨met, first, run, [], rfl, hall, hrun, hle, fun _ => rfl⟩
  | cons next rest ih =>
    unfold followRun
    by_cases hfull : run = wanted
    · rw [if_pos hfull]
      exact ⟨met, first, run, next :: rest, rfl, hall, hrun, hle, fun hlt => by omega⟩
    · rw [if_neg hfull]
      -- the next region of the list lies behind the run
      have hlater : first + run - 1 < next := by
        rw [hall] at hasc
        refine (List.pairwise_append.1 hasc).2.2 _ ?_ _ (List.mem_cons_self ..)
        exact List.mem_append_right _ (List.mem_range'_1.2 ⟨by omega, by omega⟩)
      by_cases hnext : next - (first + run - 1) = 1
      · rw [if_pos hnext]
        have hsame : next = first + (run + 1) - 1 := by omega
        have hgrow : all = met ++ List.range' first (run + 1) ++ rest := by
          rw [hall, List.range'_concat, hsame]
          simp
        obtain ⟨met', first', run', rest', hfollow, hrest⟩ := ih hgrow (by omega) (by omega)
        exact ⟨met', first', run', rest', by rw [hsame]; exact hfollow, hrest⟩
      · rw [if_neg hnext]
        have hnew : all = (met ++ List.range' first run) ++ List.range' next 1 ++ rest := by
          rw [hall]
          simp
        obtain ⟨met', first', run', rest', hfollow, hrest⟩ := ih hnew Nat.one_pos hwanted
        refine ⟨met', first', run', rest', ?_, hrest⟩
        rw [List.length_append, List.length_range'] at hfollow
        exact hfollow

/-- The run that is found is a stretch of the list with the object's own regions appended, and
it begins in the list. -/
theorem findRun_split {p : CompactionPoint} {source wanted start : Nat} (hwanted : 0 < wanted)
    (hasc : p.regions.toList.Pairwise (· < ·)) (hbelow : ∀ i ∈ p.regions.toList, i < source)
    (hfind : p.findRun source wanted = some start) :
    ∃ met rest, start = met.length ∧ p.regionAt start ∈ p.regions.toList ∧
      p.regions.toList ++ List.range' source wanted
        = met ++ List.range' (p.regionAt start) wanted ++ rest := by
  unfold findRun at hfind
  split at hfind
  · cases hfind
  · rename_i first rest hlist
    by_cases hone : wanted = 1
    · subst hone
      rw [if_pos rfl, Option.some.injEq] at hfind
      subst hfind
      have hat : p.regionAt 0 = first := by
        unfold regionAt
        rw [← Array.getElem?_toList, hlist]
        rfl
      refine ⟨[], rest ++ List.range' source 1, rfl, ?_, ?_⟩
      · rw [hat, hlist]
        exact List.mem_cons_self ..
      · rw [hat, hlist]
        rfl
    · rw [if_neg hone] at hfind
      have hstart : p.regions.toList = [] ++ List.range' first 1 ++ rest := by
        rw [hlist]
        rfl
      obtain ⟨met', first', run', rest', hfollow, hall, hpos, hle, hshort⟩ :=
        followRun_split hwanted rest hstart hasc Nat.one_pos hwanted
      change followRun wanted 1 first 1 rest = _ at hfollow
      rw [hfollow] at hfind
      dsimp only at hfind
      have hat : p.regionAt met'.length = first' := regionAt_of_stretch hpos hall
      have hmem : first' ∈ p.regions.toList := by
        rw [hall]
        exact List.mem_append_left _ (List.mem_append_right _
          (List.mem_range'_1.2 ⟨Nat.le_refl _, by omega⟩))
      have hstart : start = met'.length ∧ (run' < wanted → source = first' + run') := by
        split at hfind
        · cases hfind
        · rename_i hfits
          rw [Option.some.injEq] at hfind
          refine ⟨by omega, fun hlt => ?_⟩
          have hlast : first' + run' - 1 < source := by
            refine hbelow _ ?_
            rw [hall]
            exact List.mem_append_left _ (List.mem_append_right _
              (List.mem_range'_1.2 ⟨by omega, by omega⟩))
          simp only [hlt, decide_true, Bool.true_and, bne_iff_ne, ne_eq, not_not] at hfits
          omega
      obtain ⟨rfl, hnext⟩ := hstart
      rw [hat]
      rcases Nat.lt_or_eq_of_le hle with hlt | rfl
      · -- the run is continued by the object's own regions
        refine ⟨met', List.range' (first' + wanted) run', rfl, hmem, ?_⟩
        rw [hall, hshort hlt, hnext hlt, List.append_nil, List.append_assoc, List.append_assoc,
          List.range'_append_1, List.range'_append_1, Nat.add_comm]
      · exact ⟨met', rest' ++ List.range' source run', rfl, hmem, by rw [hall]; simp⟩

/-! ### The first run -/

/-- The run that is followed does not begin after another one that is long enough, and it is
shorter than wanted only if it ends just before `source`. -/
theorem followRun_le {wanted source j : Nat} (rest : List Nat) {run last stop : Nat}
    (hle : run ≤ wanted) (hwanted : 0 < wanted)
    (hasc : (last :: rest).Pairwise (· < ·)) (hbelow : ∀ i ∈ last :: rest, i < source)
    (hstart : last + 1 ≤ j + run) (hmem : j ≤ last ∨ j ∈ rest)
    (hroom : ∀ i, j ≤ i → i < j + wanted → i < source → i ≤ last ∨ i ∈ rest)
    {run' last' stop' : Nat} (heq : followRun wanted run last stop rest = (run', last', stop')) :
    last' + 1 ≤ j + run' ∧ (run' < wanted → last' + 1 = source) := by
  induction rest generalizing run last stop with
  | nil =>
    obtain ⟨rfl, hrest⟩ := Prod.mk.inj heq
    obtain ⟨rfl, -⟩ := Prod.mk.inj hrest
    refine ⟨hstart, fun hlt => ?_⟩
    have hlast := hbelow last List.mem_cons_self
    rcases hmem with hj | hj
    · by_contra hne
      rcases hroom (last + 1) (by omega) (by omega) (by omega) with hmem | hmem
      · omega
      · cases hmem
    · cases hj
  | cons next rest ih =>
    unfold followRun at heq
    by_cases hfull : run = wanted
    · rw [if_pos hfull] at heq
      obtain ⟨rfl, hrest⟩ := Prod.mk.inj heq
      obtain ⟨rfl, -⟩ := Prod.mk.inj hrest
      exact ⟨hstart, fun hlt => absurd hfull (Nat.ne_of_lt hlt)⟩
    rw [if_neg hfull] at heq
    obtain ⟨hfirst, hasc'⟩ := List.pairwise_cons.1 hasc
    have hnext := hfirst next List.mem_cons_self
    have hbelow' : ∀ i ∈ next :: rest, i < source := fun i hi => hbelow i (List.mem_cons_of_mem _ hi)
    have hsource := hbelow' next List.mem_cons_self
    have hroom' : ∀ i, j ≤ i → i < j + wanted → i < source → i ≤ next ∨ i ∈ rest := by
      intro i h1 h2 h3
      rcases hroom i h1 h2 h3 with hi | hi
      · exact .inl (by omega)
      · rcases List.mem_cons.1 hi with rfl | hi
        · exact .inl (Nat.le_refl _)
        · exact .inr hi
    have hmem' : j ≤ next ∨ j ∈ rest := by
      rcases hmem with hj | hj
      · exact .inl (by omega)
      · rcases List.mem_cons.1 hj with rfl | hj
        · exact .inl (Nat.le_refl _)
        · exact .inr hj
    by_cases hadjacent : next - last = 1
    · rw [if_pos hadjacent] at heq
      exact ih (by omega) hasc' hbelow' (by omega) hmem' hroom' heq
    · -- the other run does not begin before the gap
      rw [if_neg hadjacent] at heq
      refine ih hwanted hasc' hbelow' ?_ hmem' hroom' heq
      by_contra hlt
      rcases hroom (last + 1) (by
        rcases hmem with hj | hj
        · omega
        · rcases List.mem_cons.1 hj with rfl | hj
          · omega
          · have := (List.pairwise_cons.1 hasc').1 j hj
            omega) (by omega) (by omega) with hi | hi
      · omega
      · rcases List.mem_cons.1 hi with hi | hi
        · omega
        · have := (List.pairwise_cons.1 hasc').1 _ hi
          omega

/-- A run is found if there is one, and none begins before it. Its last regions may be those from
`source` on. -/
theorem exists_findRun {p : CompactionPoint} {source wanted j : Nat} (hwanted : 0 < wanted)
    (hasc : p.regions.toList.Pairwise (· < ·)) (hbelow : ∀ i ∈ p.regions.toList, i < source)
    (hj : j < source)
    (hroom : ∀ i, j ≤ i → i < j + wanted → i < source → i ∈ p.regions.toList) :
    ∃ start, p.findRun source wanted = some start ∧ p.regionAt start ≤ j := by
  have hmem := hroom j (Nat.le_refl j) (by omega) hj
  unfold findRun
  cases hlist : p.regions.toList with
  | nil =>
    rw [hlist] at hmem
    cases hmem
  | cons first rest =>
    rw [hlist] at hasc hbelow hroom hmem
    dsimp only
    have hle : first ≤ j := by
      rcases List.mem_cons.1 hmem with rfl | hmem
      · exact Nat.le_refl _
      · exact ((List.pairwise_cons.1 hasc).1 j hmem).le
    have hstart : first :: rest = [] ++ List.range' first 1 ++ rest := rfl
    by_cases hone : wanted = 1
    · rw [if_pos hone]
      exact ⟨0, rfl, (regionAt_of_stretch Nat.one_pos (hlist.trans hstart)).trans_le hle⟩
    rw [if_neg hone]
    obtain ⟨met, first', run, rest', hfollow, hsplit, hpos, -, -⟩ :=
      followRun_split hwanted rest hstart hasc Nat.one_pos hwanted
    change followRun wanted 1 first 1 rest = _ at hfollow
    obtain ⟨hfirst, hshort⟩ := followRun_le rest hwanted hwanted hasc hbelow (by omega)
      ((List.mem_cons.1 hmem).imp Nat.le_of_eq id)
      (fun i h1 h2 h3 => (List.mem_cons.1 (hroom i h1 h2 h3)).imp Nat.le_of_eq id) hfollow
    rw [hfollow]
    dsimp only
    refine ⟨met.length, ?_, ?_⟩
    · rw [if_neg, Nat.add_sub_cancel]
      rw [Bool.and_eq_true, decide_eq_true_eq, bne_iff_ne]
      rintro ⟨hlt, hne⟩
      have := hshort hlt
      omega
    · rw [regionAt_of_stretch hpos (hlist.trans hsplit)]
      omega

/-! ### The room that is left -/

theorem regions_addRun (p : CompactionPoint) (h : Heap) (first n : Nat) :
    (p.addRun h first n).regions.toList = p.regions.toList ++ List.range' first n := by
  unfold addRun
  induction n generalizing p first with
  | zero => simp
  | succ n ih =>
    rw [List.range'_succ, List.foldl_cons, ih]
    have hadd : (p.add h first).regions = p.regions.push first := by
      unfold add
      split
      · rfl
      · rfl
    rw [hadd, Array.toList_push, List.append_assoc]
    rfl

/-- A stretch of the sequence is removed. -/
theorem regions_removeRange {p : CompactionPoint} {met run rest : List Nat}
    (h : p.regions.toList = met ++ run ++ rest) :
    (p.removeRange met.length run.length).regions.toList = met ++ rest := by
  have hsize : p.regions.size = met.length + run.length + rest.length := by
    rw [← Array.length_toList, h, List.length_append, List.length_append]
  unfold removeRange
  dsimp only
  rw [Nat.min_eq_left (by omega), Array.toList_append, Array.toList_extract, Array.toList_extract,
    List.extract_eq_take_drop, List.extract_eq_take_drop, List.drop_zero, Nat.sub_zero, hsize, h,
    List.append_assoc, List.take_left, ← List.append_assoc, ← List.length_append, List.drop_left,
    List.length_append, Nat.add_sub_cancel_left, List.take_length]

/-- The search depends on the sequence only. -/
theorem findRun_congr {p p' : CompactionPoint} (h : p'.regions = p.regions) (source wanted : Nat) :
    p'.findRun source wanted = p.findRun source wanted := by
  unfold findRun
  rw [h]

/-- What is left is everything that was there, and the object's own regions, but the run. -/
theorem room_after {p : CompactionPoint} {source wanted start : Nat} (hwanted : 0 < wanted)
    (hasc : p.regions.toList.Pairwise (· < ·)) (hbelow : ∀ i ∈ p.regions.toList, i < source)
    (hfind : p.findRun source wanted = some start) (h : Heap) :
    let target := p.regionAt start
    let room := ((p.addRun h source wanted).removeRange start wanted).regions.toList
    target < source ∧ room = (p.regions.toList ++ List.range' source wanted).take start ++
        (p.regions.toList ++ List.range' source wanted).drop (start + wanted) ∧
      room.Pairwise (· < ·) ∧ (∀ i, i ∈ room ↔ (i ∈ p.regions.toList ∨ source ≤ i ∧ i < source + wanted) ∧
        ¬ (target ≤ i ∧ i < target + wanted)) ∧
      ∀ i, target ≤ i → i < target + wanted →
        i ∈ p.regions.toList ∨ source ≤ i ∧ i < source + wanted := by
  intro target room
  obtain ⟨met, rest, rfl, hmem, hsplit⟩ := findRun_split hwanted hasc hbelow hfind
  have hroom : room = met ++ rest := by
    have hall : (p.addRun h source wanted).regions.toList
        = met ++ List.range' target wanted ++ rest := by
      rw [regions_addRun, hsplit]
    have hr := regions_removeRange hall
    rw [List.length_range'] at hr
    exact hr
  have hasc' : (p.regions.toList ++ List.range' source wanted).Pairwise (· < ·) := by
    refine List.pairwise_append.2 ⟨hasc, List.pairwise_lt_range', fun i hi j hj => ?_⟩
    have h1 := hbelow i hi
    have h2 := (List.mem_range'_1.1 hj).1
    omega
  have hall : ∀ i, i ∈ p.regions.toList ∨ source ≤ i ∧ i < source + wanted ↔
      i ∈ met ++ List.range' target wanted ++ rest := by
    intro i
    rw [← hsplit, List.mem_append, List.mem_range'_1]
  rw [hsplit] at hasc'
  refine ⟨hbelow _ hmem, ?_, ?_, ?_, ?_⟩
  · rw [hroom, hsplit, List.append_assoc, List.take_left, ← List.append_assoc,
      show met.length + wanted = (met ++ List.range' target wanted).length by simp, List.drop_left]
  · rw [hroom]
    refine hasc'.sublist ?_
    rw [List.append_assoc]
    exact List.Sublist.append_left (List.sublist_append_right ..) met
  · intro i
    rw [hall, hroom, ← List.mem_range'_1]
    obtain ⟨hleft, -, hright⟩ := List.pairwise_append.1 hasc'
    obtain ⟨-, -, hleft⟩ := List.pairwise_append.1 hleft
    simp only [List.mem_append]
    constructor
    · rintro (hi | hi)
      · exact ⟨.inl (.inl hi), fun hr => Nat.lt_irrefl i (hleft i hi i hr)⟩
      · exact ⟨.inr hi, fun hr => Nat.lt_irrefl i (hright i (List.mem_append_right _ hr) i hi)⟩
    · rintro ⟨(hi | hi) | hi, hr⟩
      · exact .inl hi
      · exact absurd hi hr
      · exact .inr hi
  · intro i h1 h2
    rw [hall]
    exact List.mem_append_left _ (List.mem_append_right _ (List.mem_range'_1.2 ⟨h1, h2⟩))

end CompactionPoint

end MarkCompact
