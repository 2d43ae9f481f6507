/-
MarkCompact/Proofs/Following.lean

References follow the objects they refer to.

Adjusting goes over every field of every live object once and replaces what it
finds.  `Heap.Adjusted h h' slots move` says how far it has come: the fields at
`slots` have been replaced by where `move` sends them, and no other word has
changed.  Since the places of all fields are distinct, no reference follows
twice.

The look-up of new addresses is a parameter here (`Follows`): it has to answer
for live objects, however many fields have been replaced already.

Main results: `Heap.adjustAll_spec` (all fields), `Heap.adjustOwners_spec` (the
roots and the marks that have been kept aside).
-/
import MarkCompact.Proofs.LiveObjects
import MarkCompact.Proofs.Loops
import MarkCompact.Move.References

namespace MarkCompact

namespace Heap

/-- The heap `h'` is `h` with the words at `slots` replaced by where `move` sends them. -/
structure Adjusted (h h' : Heap) (slots : List Address) (move : Address → Address) : Prop where
  heap : h' = h.withMemory h'.memory
  span : h.memory.SameSpan h'.memory
  load : ∀ x, h'.memory.load x = if x ∈ slots then move (h.memory.load x) else h.memory.load x

theorem adjusted_nil (h : Heap) (move : Address → Address) : Adjusted h h [] move :=
  ⟨rfl, Memory.SameSpan.refl _, by simp⟩

/-- What adjusting relies on while it works on `h`: the places `slotsOf` of the fields of live
objects, and a look-up that answers for live objects. -/
structure Follows (h : Heap) (t : ClassTable) (live : Address → Prop)
    (slotsOf : Address → List Address) (forwardee : Forwardee) (move : Address → Address) :
    Prop where
  slots : ∀ h' done, h.Adjusted h' done move → (∀ x ∈ done, ∃ a, live a ∧ x ∈ slotsOf a) →
    ∀ a, live a → h'.slots t a = .ok (slotsOf a)
  forwardee : ∀ h' done, h.Adjusted h' done move → (∀ x ∈ done, ∃ a, live a ∧ x ∈ slotsOf a) →
    ∀ a, live a → ∃ o, forwardee h' a = .ok o ∧ o.getD a = move a
  /-- What refers to nothing or outside stays. -/
  stays : ∀ a, h.refersInside a = false → move a = a
  /-- A field of a live object refers to a live object, or not into the heap. -/
  closed : ∀ a x, live a → x ∈ slotsOf a →
    live (h.memory.load x) ∨ h.refersInside (h.memory.load x) = false

variable {h : Heap} {t : ClassTable} {live : Address → Prop} {slotsOf : Address → List Address}
  {forwardee : Forwardee} {move : Address → Address}

theorem Adjusted.refersInside {h' : Heap} {slots : List Address} (ha : h.Adjusted h' slots move)
    (a : Address) : h'.refersInside a = h.refersInside a := by
  unfold Heap.refersInside
  rw [contains_congr (h := h) (by rw [ha.heap]; rfl) ha.span]

/-! ### One field -/

theorem Adjusted.adjustSlot (hf : h.Follows t live slotsOf forwardee move) {h' : Heap}
    {done : List Address} (ha : h.Adjusted h' done move)
    (hdone : ∀ x ∈ done, ∃ a, live a ∧ x ∈ slotsOf a) {x : Address} (hnew : x ∉ done)
    (hx : ∃ a, live a ∧ x ∈ slotsOf a) (k : Nat) :
    ∃ k' h'', Heap.adjustSlot forwardee (k, h') x = .ok (k', h'') ∧
      h.Adjusted h'' (done ++ [x]) move := by
  obtain ⟨a, hlive, hmem⟩ := hx
  have hload : h'.memory.load x = h.memory.load x := by rw [ha.load, if_neg hnew]
  -- the word stays as it is
  have hkeep : move (h.memory.load x) = h.memory.load x → h.Adjusted h' (done ++ [x]) move := by
    intro hmove
    refine ⟨ha.heap, ha.span, fun y => ?_⟩
    rw [ha.load]
    by_cases hy : y = x
    · subst hy
      simp [hnew, hmove]
    · simp [hy]
  unfold Heap.adjustSlot
  dsimp only
  rw [hload, ha.refersInside]
  by_cases hin : h.refersInside (h.memory.load x) = true
  · rw [hin]
    have hl : live (h.memory.load x) := by
      rcases hf.closed a x hlive hmem with hl | hl
      · exact hl
      · rw [hin] at hl
        cases hl
    obtain ⟨o, ho, hmove⟩ := hf.forwardee h' done ha hdone _ hl
    rw [if_neg (by simp), ho]
    cases o with
    | none => exact ⟨k, h', rfl, hkeep hmove.symm⟩
    | some new =>
      by_cases hsame : new = h.memory.load x
      · refine ⟨k, h', ?_, hkeep (by rw [← hmove]; exact hsame)⟩
        show (if new = h.memory.load x then _ else _) = _
        rw [if_pos hsame]
        rfl
      · refine ⟨k + 1, h'.withMemory (h'.memory.store x new), ?_, ?_, ?_, ?_⟩
        · show (if new = h.memory.load x then _ else _) = _
          rw [if_neg hsame]
          rfl
        · rw [ha.heap]
          rfl
        · exact ha.span.trans (Memory.sameSpan_store ..)
        · intro y
          show (h'.memory.store x new).load y = _
          rw [Memory.load_store]
          by_cases hy : x = y
          · subst hy
            simp only [Option.getD_some] at hmove
            simp [hmove]
          · rw [if_neg hy, ha.load]
            have hy' : ¬ y = x := fun hh => hy hh.symm
            simp [hy']
  · rw [Bool.not_eq_true] at hin
    rw [hin]
    exact ⟨k, h', rfl, hkeep (hf.stays _ hin)⟩

/-! ### All fields -/

theorem Adjusted.adjustObject (hf : h.Follows t live slotsOf forwardee move) {h' : Heap}
    {done : List Address} (ha : h.Adjusted h' done move)
    (hdone : ∀ x ∈ done, ∃ a, live a ∧ x ∈ slotsOf a) {a : Address} (hlive : live a)
    (hnodup : (done ++ slotsOf a).Nodup) (k : Nat) :
    ∃ k' h'', Heap.adjustObject t forwardee (k, h') a = .ok (k', h'') ∧
      h.Adjusted h'' (done ++ slotsOf a) move := by
  have hslots := hf.slots h' done ha hdone a hlive
  obtain ⟨⟨k', h''⟩, hrun, hadj⟩ := foldlM_induct (f := Heap.adjustSlot forwardee)
    (fun xs s => h.Adjusted s.2 (done ++ xs) move) (slotsOf a) (k, h') (by simpa using ha) (by
      rintro xs x rest ⟨k1, h1⟩ heq h1adj
      rw [heq] at hnodup
      have hxs : ∀ y ∈ done ++ xs, ∃ a, live a ∧ y ∈ slotsOf a := by
        intro y hy
        rcases List.mem_append.1 hy with hy | hy
        · exact hdone y hy
        · exact ⟨a, hlive, by simp [heq, hy]⟩
      have hnew : x ∉ done ++ xs := by
        rw [← List.append_assoc] at hnodup
        have hdisj := (List.nodup_append.1 hnodup).2.2
        intro hin
        exact hdisj x hin x (by simp) rfl
      obtain ⟨k2, h2, hstep, h2adj⟩ := h1adj.adjustSlot hf hxs hnew ⟨a, hlive, by simp [heq]⟩ k1
      exact ⟨(k2, h2), hstep, by simpa using h2adj⟩)
  refine ⟨k', h'', ?_, hadj⟩
  unfold Heap.adjustObject
  rw [hslots]
  exact hrun

/-- Adjusting replaces every field of every live object once. -/
theorem adjustAll_spec {b : Bitmap} (hf : h.Follows t live slotsOf forwardee move)
    (hlive : ∀ a ∈ h.liveList b, live a) (hnodup : ((h.liveList b).flatMap slotsOf).Nodup)
    (hempty : ∀ i < h.regions.size, (h.region i).isFree = true ∨ (h.region i).isEmpty = true →
      h.liveIn b i = []) :
    ∃ k h', h.adjustAll t b forwardee = .ok (k, h') ∧
      h.Adjusted h' ((h.liveList b).flatMap slotsOf) move := by
  unfold Heap.adjustAll TaskQueue.run TaskQueue.ofList
  dsimp only
  -- only the regions that can hold objects are looked at
  have hsame : ((h.regions.toList.filter fun r => !r.isFree && !r.isEmpty).flatMap
      fun r => b.markedIn r.bottom r.top) = h.liveList b := by
    have hmap : h.regions.toList = h.indices.map h.region := by
      apply List.ext_getElem
      · simp [indices]
      · intro i hi1 hi2
        simp only [Array.length_toList] at hi1
        simp [indices, h.region_eq_getElem hi1]
    have hmem : ∀ i ∈ h.indices, i < h.regions.size := fun i hi => List.mem_range.1 hi
    rw [hmap]
    unfold liveList
    generalize h.indices = is at hmem
    induction is with
    | nil => rfl
    | cons i is ih =>
      rw [List.map_cons, List.filter_cons, List.flatMap_cons,
        ← ih fun j hj => hmem j (List.mem_cons_of_mem _ hj)]
      by_cases hu : (!(h.region i).isFree && !(h.region i).isEmpty) = true
      · rw [if_pos hu, List.flatMap_cons]
        rfl
      · rw [if_neg hu, hempty i (hmem i (by simp)) ?_, List.nil_append]
        cases h1 : (h.region i).isFree <;> cases h2 : (h.region i).isEmpty <;> simp_all
  rw [← hsame] at hlive hnodup ⊢
  generalize (h.regions.toList.filter fun r => !r.isFree && !r.isEmpty) = rs at hlive hnodup ⊢
  obtain ⟨⟨k, h'⟩, hrun, hadj⟩ := foldlM_flatMap_induct (f := Heap.adjustObject t forwardee)
    (fun r => b.markedIn r.bottom r.top) (fun _ r => b.markedIn r.bottom r.top)
    (fun as s => h.Adjusted s.2 (as.flatMap slotsOf) move) rs ((0, h) : Nat × Heap)
    (adjusted_nil h move) (fun _ _ _ _ => rfl) (by
      rintro as a rest ⟨k₁, h₁⟩ heq hadj₁
      rw [heq] at hlive hnodup
      have hdone : ∀ x ∈ as.flatMap slotsOf, ∃ a, live a ∧ x ∈ slotsOf a := by
        intro x hx
        obtain ⟨c, hc, hx⟩ := List.mem_flatMap.1 hx
        exact ⟨c, hlive c (List.mem_append_left _ hc), hx⟩
      have hn : (as.flatMap slotsOf ++ slotsOf a).Nodup := by
        rw [List.flatMap_append, List.flatMap_cons, ← List.append_assoc] at hnodup
        exact (List.nodup_append.1 hnodup).1
      obtain ⟨k₂, h₂, hrun, hadj₂⟩ := hadj₁.adjustObject hf hdone (hlive a (by simp)) hn k₁
      refine ⟨(k₂, h₂), hrun, ?_⟩
      rw [List.flatMap_append, List.flatMap_singleton]
      exact hadj₂)
  refine ⟨k, h', ?_, hadj⟩
  rw [hrun]
  rfl

/-! ### What refers from outside -/

/-- The roots and the saved marks follow. -/
theorem adjustOwners_spec (hf : h.Follows t live slotsOf forwardee move) {h' : Heap}
    {done : List Address} (ha : h.Adjusted h' done move)
    (hdone : ∀ x ∈ done, ∃ a, live a ∧ x ∈ slotsOf a) {roots : Roots} {saved : SavedMarks}
    (hroots : ∀ r ∈ roots.toList, live r ∨ h.refersInside r = false)
    (hsaved : ∀ e ∈ saved.toList, live e.object) :
    h'.adjustOwners roots saved forwardee
      = .ok (roots.map move, saved.map fun e => { e with object := move e.object }) := by
  have h1 : Roots.update roots (h'.adjustRoot forwardee) = .ok (roots.map move) := by
    apply array_mapM_ok
    intro r hr
    by_cases hzero : r = 0
    · subst hzero
      have : h.refersInside 0 = false := by simp [refersInside]
      rw [if_pos rfl, hf.stays 0 this]
      rfl
    · rw [if_neg hzero]
      unfold adjustRoot
      rw [ha.refersInside]
      by_cases hin : h.refersInside r = true
      · have hl : live r := by
          rcases hroots r hr with hl | hl
          · exact hl
          · rw [hin] at hl
            cases hl
        obtain ⟨o, ho, hmove⟩ := hf.forwardee h' done ha hdone r hl
        rw [if_pos hin, ho, ← hmove]
        rfl
      · rw [if_neg hin, hf.stays r (by simpa using hin)]
        rfl
  have h2 : SavedMarks.follow saved (forwardee h')
      = .ok (saved.map fun e => { e with object := move e.object }) := by
    apply array_mapM_ok
    intro e he
    obtain ⟨o, ho, hmove⟩ := hf.forwardee h' done ha hdone _ (hsaved e he)
    rw [ho, ← hmove]
    rfl
  unfold adjustOwners
  rw [h1]
  show (do
    let saved ← SavedMarks.follow saved (forwardee h')
    return (roots.map move, saved)) = _
  rw [h2]
  rfl

end Heap

end MarkCompact
