/-
MarkCompact/Proofs/Handouts.lean

What many workers get from one list of regions.

It is the order of the calls that decides what each of them gets, not who makes it.  The call
number `k` finds the place in the list at `k * chunk` and moves it on by a chunk, so the chunks
are the stretches of the list one after the other (`Claimer.stretch`), up to the end and beyond.
That place is a number of 64 bits.  Where it wraps, a call may find itself in the list again,
and get what has been handed out before (`handed_out_twice`).  As long as no call that finds the
place in the list comes after it has wrapped (`Claimer.Straight`), the list is handed out once.

Main result: `Claimer.serve_handsOut`.
-/
import MarkCompact.Proofs.Claimers

namespace MarkCompact.Claimer

variable {Worker : Type} {regions : List Nat} {size : Nat} {chunk : UInt64} {c : Claimer}

/-- Serves workers in the order in which they ask: what each of them gets. -/
def serve (c : Claimer) : List Worker → List (Worker × List Nat)
  | [] => []
  | w :: ws => (w, c.claim.1) :: c.claim.2.serve ws

/-- What has been handed out is the beginning of the list, each region of it once. -/
structure HandsOut (regions : List Nat) (served : List (Worker × List Nat)) : Prop where
  inOrder : (served.map Prod.snd).flatten <+: regions
  /-- No chunk is empty before that. -/
  nonempty : ∀ before w got after, served = before ++ (w, got) :: after →
    (before.map Prod.snd).flatten ≠ regions → got ≠ []
  /-- After an empty chunk there are only empty ones. -/
  exhausted : ∀ before w after, served = before ++ (w, []) :: after → ∀ r ∈ after, r.2 = []
  /-- An empty chunk says that all has been handed out. -/
  complete : ∀ w, (w, []) ∈ served → (served.map Prod.snd).flatten = regions

/-- Of so many calls, those that find the place in the list come before it wraps. -/
def Straight (length size calls : Nat) : Prop :=
  ∀ k < calls, k * size % 2 ^ 64 < length → (k + 1) * size < 2 ^ 64

instance (length size calls : Nat) : Decidable (Straight length size calls) :=
  inferInstanceAs (Decidable (∀ _ < _, _))

/-! ### Stretches of a list -/

/-- The stretch number `k` of a list that is cut into stretches of `size`. -/
def stretch (regions : List Nat) (size k : Nat) : List Nat := (regions.drop (k * size)).take size

theorem stretch_eq_nil_iff (hsize : 0 < size) {k : Nat} :
    stretch regions size k = [] ↔ regions.length ≤ k * size := by
  unfold stretch
  rw [← List.length_eq_zero_iff, List.length_take, List.length_drop]
  omega

/-- The first stretches are the beginning of the list. -/
theorem flatten_stretches (regions : List Nat) (size k : Nat) :
    ((List.range k).map (stretch regions size)).flatten = regions.take (k * size) := by
  induction k with
  | zero => simp
  | succ k ih =>
    rw [List.range_succ, List.map_append, List.flatten_append, ih, Nat.succ_mul, List.take_add]
    simp [stretch]

/-! ### Calls -/

/-- The place in the list when `k` calls have been made. -/
structure At (c : Claimer) (regions : List Nat) (size k : Nat) : Prop where
  regions : c.regions.toList = regions
  chunk : c.chunk.toNat = size
  cursor : c.cursor.toNat = k * size % 2 ^ 64

theorem at_new (regions : List Nat) (hchunk : chunk ≠ 0) :
    (new regions chunk).At regions chunk.toNat 0 := by
  refine ⟨rfl, ?_, by simp [new]⟩
  have hpos : 1 ≤ chunk.toNat := Nat.one_le_iff_ne_zero.2 fun h => hchunk (UInt64.toNat_inj.1 h)
  show (max chunk 1).toNat = _
  rcases Nat.eq_or_lt_of_le hpos with hone | hmore
  · rw [show chunk = 1 from UInt64.toNat_inj.1 hone.symm]
    rfl
  · have hlarger : ¬ chunk ≤ 1 := fun hle => Nat.not_le.2 hmore (UInt64.le_iff_toNat_le.1 hle)
    rw [show max chunk 1 = chunk from if_neg hlarger]

/-- A call gets the stretch whose turn it is. -/
theorem At.claim {k : Nat} (h : c.At regions size k)
    (hstraight : k * size % 2 ^ 64 < regions.length → (k + 1) * size < 2 ^ 64) :
    c.claim.1 = stretch regions size k ∧ c.claim.2.At regions size (k + 1) := by
  have hlength : c.regions.size = regions.length := by rw [← h.regions, Array.length_toList]
  refine ⟨?_, h.regions, h.chunk, ?_⟩
  · by_cases hin : c.regions.size ≤ c.cursor.toNat
    · rw [claim_of_exhausted hin, stretch, List.drop_eq_nil_of_le, List.take_nil]
      rw [hlength, h.cursor] at hin
      exact hin.trans (Nat.mod_le ..)
    · have hlt : k * size % 2 ^ 64 < regions.length := by
        rw [← h.cursor, ← hlength]
        exact Nat.not_le.1 hin
      have hwrap := hstraight hlt
      rw [Nat.succ_mul] at hwrap
      have hcursor : c.cursor.toNat = k * size := by
        rw [h.cursor]
        exact Nat.mod_eq_of_lt (by omega)
      rw [claim_eq (Nat.not_le.1 hin) (by rwa [hcursor, h.chunk]), h.regions, hcursor, h.chunk]
      rfl
  · show (c.cursor + c.chunk).toNat = _
    rw [UInt64.toNat_add, h.cursor, h.chunk, Nat.succ_mul]
    exact Nat.mod_add_mod ..

/-- The calls get the stretches one after the other. -/
theorem At.serve {k : Nat} (h : c.At regions size k) (workers : List Worker)
    (hstraight : ∀ j, k ≤ j → j < k + workers.length → j * size % 2 ^ 64 < regions.length →
      (j + 1) * size < 2 ^ 64) :
    (c.serve workers).map Prod.snd = (List.range' k workers.length).map (stretch regions size) := by
  induction workers generalizing c k with
  | nil => rfl
  | cons w ws ih =>
    rw [List.length_cons] at hstraight
    obtain ⟨hgot, hnext⟩ := h.claim (hstraight k (Nat.le_refl k) (by omega))
    have hrest := ih hnext fun j hj hlt => hstraight j (by omega) (by omega)
    rw [Claimer.serve, List.map_cons, hrest, hgot, List.length_cons, List.range'_succ, List.map_cons]

/-- Stretches one after the other hand a list out. -/
theorem handsOut_of_stretches (hsize : 0 < size) {served : List (Worker × List Nat)} {calls : Nat}
    (hserved : served.map Prod.snd = (List.range calls).map (stretch regions size)) :
    HandsOut regions served := by
  -- what a call gets, and what the calls before it have got
  have hsplit : ∀ before w got after, served = before ++ (w, got) :: after →
      got = stretch regions size before.length ∧
        (before.map Prod.snd).flatten = regions.take (before.length * size) ∧
        ∀ r ∈ after, ∃ j, before.length < j ∧ r.2 = stretch regions size j := by
    intro before w got after heq
    rw [heq, List.map_append, List.map_cons] at hserved
    have hcalls : calls = before.length + (1 + after.length) := by
      have := congrArg List.length hserved
      simp only [List.length_append, List.length_map, List.length_cons, List.length_range] at this
      omega
    rw [hcalls, List.range_add, List.map_append] at hserved
    obtain ⟨hbefore, hrest⟩ := List.append_inj hserved (by simp)
    rw [Nat.add_comm 1, List.range_succ_eq_map, List.map_cons, List.map_cons] at hrest
    obtain ⟨hgot, hafter⟩ := List.cons.inj hrest
    refine ⟨hgot, by rw [hbefore, flatten_stretches], fun r hr => ?_⟩
    have hmem := List.mem_map_of_mem (f := Prod.snd) hr
    rw [hafter, List.map_map, List.map_map] at hmem
    obtain ⟨j, -, hj⟩ := List.mem_map.1 hmem
    exact ⟨before.length + (j + 1), by omega, hj.symm⟩
  have hexhausted : ∀ before w after, served = before ++ (w, []) :: after →
      (before.map Prod.snd).flatten = regions ∧ ∀ r ∈ after, r.2 = [] := by
    intro before w after heq
    obtain ⟨hgot, hbefore, hafter⟩ := hsplit before w [] after heq
    have hend := (stretch_eq_nil_iff hsize).1 hgot.symm
    refine ⟨by rw [hbefore, List.take_of_length_le hend], fun r hr => ?_⟩
    obtain ⟨j, hj, hr⟩ := hafter r hr
    rw [hr, stretch_eq_nil_iff hsize]
    exact hend.trans (Nat.mul_le_mul_right size hj.le)
  refine ⟨?_, fun before w got after heq hleft hnil => ?_,
    fun before w after heq => (hexhausted before w after heq).2, fun w hmem => ?_⟩
  · rw [hserved, flatten_stretches]
    exact List.take_prefix ..
  · rw [hnil] at heq
    exact hleft (hexhausted before w after heq).1
  · obtain ⟨before, after, heq⟩ := List.append_of_mem hmem
    obtain ⟨hall, hempty⟩ := hexhausted before w after heq
    have hnone : (after.map Prod.snd).flatten = [] := by
      rw [List.flatten_eq_nil_iff]
      intro got hgot
      obtain ⟨r, hr, rfl⟩ := List.mem_map.1 hgot
      exact hempty r hr
    rw [heq, List.map_append, List.map_cons, List.flatten_append, List.flatten_cons, hall, hnone]
    simp

/-- Any workers that ask in any order, with chunks of any size, are handed out the list once, as
long as no call comes back to the list after the place in it has wrapped. -/
theorem serve_handsOut (regions : List Nat) (hchunk : chunk ≠ 0) (workers : List Worker)
    (hstraight : Straight regions.length chunk.toNat workers.length) :
    HandsOut regions ((new regions chunk).serve workers) := by
  have hserved := (at_new regions hchunk).serve workers fun j _ hj => hstraight j (by omega)
  rw [← List.range_eq_range'] at hserved
  exact handsOut_of_stretches (Nat.pos_of_ne_zero fun h => hchunk (UInt64.toNat_inj.1 h)) hserved

/-- The place wraps with every other call, and does not come back to the list. -/
theorem serve_handsOut_wrapped : (9223372036854775809 : UInt64) ≠ 0 ∧
    Straight [3, 5].length (9223372036854775809 : UInt64).toNat ["a", "b", "a", "b"].length ∧
    HandsOut [3, 5] ((new [3, 5] 9223372036854775809).serve ["a", "b", "a", "b"]) ∧
    (new [3, 5] 9223372036854775809).serve ["a", "b", "a", "b"]
      = [("a", [3, 5]), ("b", []), ("a", []), ("b", [])] :=
  ⟨by decide, by decide, serve_handsOut [3, 5] (by decide) _ (by decide), by decide⟩

/-- With half of all numbers for a chunk the third call gets what the first one got. -/
theorem handed_out_twice :
    (new [3] 9223372036854775808).serve ["a", "b", "a"] = [("a", [3]), ("b", []), ("a", [3])] ∧
      ¬ HandsOut [3] ((new [3] 9223372036854775808).serve ["a", "b", "a"]) := by
  have hserved : (new [3] 9223372036854775808).serve ["a", "b", "a"]
      = [("a", [3]), ("b", []), ("a", [3])] := by decide
  refine ⟨hserved, fun h => ?_⟩
  rw [hserved] at h
  exact absurd (h.exhausted [("a", [3])] "b" [("a", [3])] rfl ("a", [3]) (by simp)) (by decide)

end MarkCompact.Claimer
