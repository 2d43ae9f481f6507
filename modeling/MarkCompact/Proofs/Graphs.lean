/-
MarkCompact/Proofs/Graphs.lean

A relocation leaves the object graph as it is.

Objects are numbered in the order in which they are found, and that order does
not depend on addresses.  So the search in the relocated heap runs in step with
the one in the old heap (`Relocated.explore_map`): what it has found is what the
other one has found, moved.  Since no two objects go to the same place, each
object has the same number in both, and what is said about it is the same.

Main result: `Relocated.graph_eq`.
-/
import MarkCompact.Proofs.Relocation
import MarkCompact.Proofs.Loops
import MarkCompact.Object.Graph

namespace MarkCompact

/-- The state of a header that is not forwarded depends on its lock bits only. -/
theorem Mark.state_congr {m m' : Mark} (hlock : m'.lock = m.lock) (h : m.isForwarded = false)
    (h' : m'.isForwarded = false) : m'.state = m.state := by
  simp [state, isSelfForwarded, hlock, h, h']

/-- The hash of an object can always be asked for. -/
theorem Heap.identityHash_ok {h : Heap} {t : ClassTable} {a : Address} {words : WordCount}
    (hs : h.size t a = .ok words) : ∃ v h', h.identityHash t a = .ok (v, h') := by
  unfold identityHash
  dsimp only
  split
  · split
    · rw [hs]
      exact ⟨_, _, rfl⟩
    · split <;> exact ⟨_, _, rfl⟩
  · split <;> exact ⟨_, _, rfl⟩

namespace Relocated

variable {h h' : Heap} {t : ClassTable} {roots roots' : Roots} {move : Address → Address}

/-! ### Finding the objects -/

theorem mem_map_move (hr : Relocated h t roots h' roots' move) (hw : WellFormed h t roots)
    {found : List Address} (hfound : ∀ a ∈ found, Reaches h t roots a) {v : Address}
    (hv : Reaches h t roots v) : move v ∈ found.map move ↔ v ∈ found := by
  rw [List.mem_map]
  constructor
  · rintro ⟨a, ha, heq⟩
    rwa [← hr.injective hw (hfound a ha) hv heq]
  · intro hmem
    exact ⟨v, hmem, rfl⟩

theorem note_map (hr : Relocated h t roots h' roots' move) (hw : WellFormed h t roots)
    {found : Array Address} (hfound : ∀ a ∈ found.toList, Reaches h t roots a) {v : Address}
    (hv : v ≠ 0 → h.contains v = true → Reaches h t roots v) :
    h'.note (found.map move) (move v) = (h.note found v).map move ∧
      ∀ a ∈ (h.note found v).toList, Reaches h t roots a := by
  have hrefers := hr.refers_iff hw hv
  constructor
  · unfold Heap.note
    by_cases hin : v ≠ 0 ∧ h.contains v = true
    · have hin' := hrefers.2 hin
      have hmem := hr.mem_map_move hw hfound (hv hin.1 hin.2)
      rw [← Array.toList_map, Array.mem_toList_iff, Array.mem_toList_iff] at hmem
      by_cases hknown : v ∈ found
      · rw [if_neg (fun hh => hh.2.2 (hmem.2 hknown)), if_neg (fun hh => hh.2.2 hknown)]
      · rw [if_pos ⟨hin'.1, hin'.2, fun hh => hknown (hmem.1 hh)⟩, if_pos ⟨hin.1, hin.2, hknown⟩,
          Array.map_push]
    · rw [if_neg (fun hh => hin (hrefers.1 ⟨hh.1, hh.2.1⟩)),
        if_neg (fun hh => hin ⟨hh.1, hh.2.1⟩)]
  · intro a ha
    rcases (h.mem_note found v a).1 (Array.mem_toList_iff.1 ha) with hold | ⟨rfl, h1, h2⟩
    · exact hfound a (Array.mem_toList_iff.2 hold)
    · exact hv h1 h2

theorem foldl_note_map (hr : Relocated h t roots h' roots' move) (hw : WellFormed h t roots)
    (vs : List Address) (hvs : ∀ v ∈ vs, v ≠ 0 → h.contains v = true → Reaches h t roots v)
    {found : Array Address} (hfound : ∀ a ∈ found.toList, Reaches h t roots a) :
    (vs.map move).foldl h'.note (found.map move) = (vs.foldl h.note found).map move ∧
      ∀ a ∈ (vs.foldl h.note found).toList, Reaches h t roots a := by
  induction vs generalizing found with
  | nil => exact ⟨rfl, hfound⟩
  | cons v vs ih =>
    obtain ⟨h1, h2⟩ := hr.note_map hw hfound (hvs v (by simp))
    rw [List.map_cons, List.foldl_cons, List.foldl_cons, h1]
    exact ih (fun w hw => hvs w (by simp [hw])) h2

/-- What the fields of an object hold afterwards. -/
theorem slots_map (hr : Relocated h t roots h' roots' move) (hw : WellFormed h t roots)
    {a : Address} (ha : Reaches h t roots a) :
    ∃ slots slots', h.slots t a = .ok slots ∧ h'.slots t (move a) = .ok slots' ∧
      slots'.map h'.memory.load = (slots.map h.memory.load).map move ∧
      ∀ v ∈ slots.map h.memory.load, v ≠ 0 → h.contains v = true → Reaches h t roots v := by
  obtain ⟨c, words, hc, ho⟩ := hr.objectAt hw ha
  have hfields := (hr.object a c ha hc).fields
  refine ⟨_, _, Heap.slots_of_info hc, Heap.slots_of_info ho.info, ?_, ?_⟩
  · rw [List.map_map, List.map_map, List.map_map]
    exact List.map_congr_left hfields
  · intro v hv hne hin
    rw [List.map_map] at hv
    obtain ⟨f, hf, rfl⟩ := List.mem_map.1 hv
    exact ha.refersTo ⟨c, f, hc, hf, rfl, hne, hin⟩

/-- The two searches run in step. -/
theorem explore_map (hr : Relocated h t roots h' roots' move) (hw : WellFormed h t roots)
    (fuel next : Nat) {found : Array Address} (hfound : ∀ a ∈ found.toList, Reaches h t roots a) :
    ∃ found', h.explore t fuel next found = .ok found' ∧
      h'.explore t fuel next (found.map move) = .ok (found'.map move) ∧
      ∀ a ∈ found'.toList, Reaches h t roots a := by
  induction fuel generalizing next found with
  | zero => exact ⟨found, rfl, rfl, hfound⟩
  | succ fuel ih =>
    unfold Heap.explore
    rw [Array.getElem?_map]
    cases hnext : found[next]? with
    | none => exact ⟨found, rfl, rfl, hfound⟩
    | some a =>
      have ha := hfound a (Array.mem_toList_iff.2 (Array.mem_of_getElem? hnext))
      obtain ⟨slots, slots', hs, hs', hmap, hvs⟩ := hr.slots_map hw ha
      obtain ⟨h1, h2⟩ := hr.foldl_note_map hw (slots.map h.memory.load) hvs hfound
      obtain ⟨found', hrun, hrun', hreach⟩ := ih (next + 1) h2
      refine ⟨found', ?_, ?_, hreach⟩
      · show (h.slots t a >>= _) = _
        rw [hs]
        exact hrun
      · show (h'.slots t (move a) >>= _) = _
        rw [hs']
        show h'.explore t fuel (next + 1)
          ((slots'.map h'.memory.load).foldl h'.note (found.map move)) = _
        rw [hmap, h1]
        exact hrun'

theorem live_map (hr : Relocated h t roots h' roots' move) (hw : WellFormed h t roots) :
    Roots.live roots' = (Roots.live roots).map move := by
  unfold Roots.live
  rw [hr.follow, Array.toList_map, List.filter_map]
  congr 1
  apply List.filter_congr
  intro v hv
  by_cases hzero : v = 0
  · subst hzero
    rw [Function.comp_apply, hr.move_zero hw]
  · -- a root that is not null stays so
    have hne : move v ≠ 0 := by
      by_cases hlive : Reaches h t roots v
      · exact ((hr.refers_iff hw fun _ _ => hlive).2 ⟨hzero, hlive.contains⟩).1
      · rwa [hr.fixed v hlive]
    show (move v != 0) = (v != 0)
    rw [bne_iff_ne.2 hne, bne_iff_ne.2 hzero]

theorem root_reaches {v : Address} (hv : v ∈ Roots.live roots) (_ : v ≠ 0)
    (hin : h.contains v = true) : Reaches h t roots v :=
  .root hv hin

theorem reachable_map (hr : Relocated h t roots h' roots' move) (hw : WellFormed h t roots) :
    ∃ found, h.reachable t roots = .ok found ∧ h'.reachable t roots' = .ok (found.map move) ∧
      ∀ a ∈ found.toList, Reaches h t roots a := by
  obtain ⟨h1, h2⟩ := hr.foldl_note_map hw (Roots.live roots) (fun v hv => root_reaches hv)
    (show ∀ a ∈ (#[] : Array Address).toList, Reaches h t roots a by simp)
  obtain ⟨found, hrun, hrun', hreach⟩ := hr.explore_map hw
    (h.layout.heapWords * wordBytes).toNat 0 h2
  refine ⟨found, hrun, ?_, hreach⟩
  unfold Heap.reachable
  rw [hr.layout, hr.live_map hw]
  rw [Array.map_empty] at h1
  rw [h1]
  exact hrun'

/-! ### Describing them -/

theorem idxOf?_eq (found : Array Address) (v : Address) :
    found.idxOf? v = found.toList.idxOf? v := by
  obtain ⟨l⟩ := found
  simp

theorem idxOf?_map_move (hr : Relocated h t roots h' roots' move) (hw : WellFormed h t roots)
    {found : List Address} (hfound : ∀ a ∈ found, Reaches h t roots a) {v : Address}
    (hv : Reaches h t roots v) : (found.map move).idxOf? (move v) = found.idxOf? v := by
  induction found with
  | nil => rfl
  | cons a found ih =>
    have ha := hfound a (by simp)
    rw [List.map_cons, List.idxOf?_cons, List.idxOf?_cons, ih fun x hx => hfound x (by simp [hx])]
    by_cases heq : a = v
    · subst heq
      simp
    · have hne : move a ≠ move v := fun hh => heq (hr.injective hw ha hv hh)
      simp [heq, hne]

theorem describe_map (hr : Relocated h t roots h' roots' move) (hw : WellFormed h t roots)
    {found : Array Address} (hfound : ∀ a ∈ found.toList, Reaches h t roots a) {v : Address}
    (hv : v ≠ 0 → h.contains v = true → Reaches h t roots v) :
    Heap.describe (found.map move) (move v) = Heap.describe found v := by
  unfold Heap.describe
  by_cases hlive : Reaches h t roots v
  · obtain ⟨h1, -⟩ := (hr.refers_iff hw hv).2 ⟨fun hz => hw.zero_not_contained (hz ▸ hlive),
      hlive.contains⟩
    have hz : v ≠ 0 := fun hz => hw.zero_not_contained (hz ▸ hlive)
    rw [if_neg h1, if_neg hz, idxOf?_eq, idxOf?_eq, Array.toList_map,
      hr.idxOf?_map_move hw hfound hlive]
  · rw [hr.fixed v hlive]
    by_cases hz : v = 0
    · rw [if_pos hz, if_pos hz]
    · -- an address outside the heap is that of no object, in either heap
      have hout : h.contains v ≠ true := fun hin => hlive (hv hz hin)
      have h1 : found.idxOf? v = none := by
        rw [idxOf?_eq, List.idxOf?_eq_none_iff]
        intro hmem
        exact hlive (hfound v hmem)
      have h2 : (found.map move).idxOf? v = none := by
        rw [idxOf?_eq, List.idxOf?_eq_none_iff, Array.toList_map]
        intro hmem
        obtain ⟨a, ha, rfl⟩ := List.mem_map.1 hmem
        obtain ⟨c, words, -, ho⟩ := hr.objectAt hw (hfound a ha)
        exact hout (by rw [← hr.contains hw]; exact ho.inside)
      rw [if_neg hz, if_neg hz, h1, h2]

theorem graphObject_map (hr : Relocated h t roots h' roots' move) (hw : WellFormed h t roots)
    {found : Array Address} (hfound : ∀ a ∈ found.toList, Reaches h t roots a) {a : Address}
    (ha : Reaches h t roots a) :
    h'.graphObject t (found.map move) (move a) = h.graphObject t found a := by
  obtain ⟨c, words, ho⟩ := hw.object ha
  have hre := hr.object a c ha ho.info
  obtain ⟨words', ho'⟩ := hre.object
  obtain ⟨v, g, hv⟩ := Heap.identityHash_ok ho.size
  obtain ⟨v', g', hv'⟩ := Heap.identityHash_ok ho'.size
  have hstate := Mark.state_congr hre.lock ho.mark.notForwarded ho'.mark.notForwarded
  have hid : (if (h'.memory.loadMark (move a)).isHashed = true then some v' else none)
      = if (h.memory.loadMark a).isHashed = true then some v else none := by
    rw [hre.hashed]
    by_cases hh : (h.memory.loadMark a).isHashed = true
    · have heq := hre.identity hh
      rw [hv, hv'] at heq
      rw [if_pos hh, if_pos hh]
      simpa [Except.map] using heq
    · rw [if_neg hh, if_neg hh]
  have hrefs : c.fields.map (fun f => Heap.describe (found.map move)
        (h'.memory.load ((move a).offset f)))
      = c.fields.map fun f => Heap.describe found (h.memory.load (a.offset f)) := by
    apply List.map_congr_left
    intro f hf
    rw [hre.fields f hf]
    exact hr.describe_map hw hfound fun hne hin =>
      ha.refersTo ⟨c, f, ho.info, hf, rfl, hne, hin⟩
  have hplain : (Heap.plainPlaces t c).map (fun f => h'.memory.load ((move a).offset f))
      = (Heap.plainPlaces t c).map fun f => h.memory.load (a.offset f) := by
    apply List.map_congr_left
    intro f hf
    obtain ⟨i, hi, hsome⟩ := List.mem_filterMap.1 hf
    by_cases hfield : i.toUInt64 ∈ c.fields
    · rw [if_pos hfield] at hsome
      cases hsome
    · rw [if_neg hfield] at hsome
      obtain rfl : i.toUInt64 = f := by simpa using hsome
      have hhead := t.headerWords_pos
      rw [List.mem_range'_1] at hi
      have hle := UInt64.le_iff_toNat_le.1
        (hw.classes.header c (ClassTable.mem_of_info (Heap.info_of_infoOf ho.info)))
      rw [UInt64.toNat_sub_of_le _ _ (hw.classes.header c
        (ClassTable.mem_of_info (Heap.info_of_infoOf ho.info)))] at hi
      exact hre.plain i (by omega) (by omega) hfield
  unfold Heap.graphObject
  rw [ho.info, ho'.info, hv, hv']
  show Except.ok _ = Except.ok _
  rw [hstate, hid, hrefs, hplain]

/-- A relocation leaves the object graph as it is. -/
theorem graph_eq (hr : Relocated h t roots h' roots' move) (hw : WellFormed h t roots) :
    h'.graph t roots' = h.graph t roots := by
  obtain ⟨found, hf, hf', hfound⟩ := hr.reachable_map hw
  have hobjects : (found.map move).toList.mapM (h'.graphObject t (found.map move))
      = found.toList.mapM (h.graphObject t found) := by
    rw [Array.toList_map, List.mapM_map]
    apply mapM_congr_mem
    intro a ha
    exact hr.graphObject_map hw hfound (hfound a ha)
  have hroots : (Roots.live roots').map (Heap.describe (found.map move))
      = (Roots.live roots).map (Heap.describe found) := by
    rw [hr.live_map hw, List.map_map]
    apply List.map_congr_left
    intro v hv
    exact hr.describe_map hw hfound (root_reaches hv)
  unfold Heap.graph
  rw [hf, hf']
  show ((found.map move).toList.mapM (h'.graphObject t (found.map move)) >>= _) = _
  rw [hobjects, hroots]
  rfl

end Relocated

end MarkCompact
