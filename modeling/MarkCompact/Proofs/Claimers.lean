/-
MarkCompact/Proofs/Claimers.lean

What one worker gets from a list of regions.

A worker takes chunks until it is handed an empty one.  The place in the list from which the
next chunk is taken wraps at 64 bits, but not before the whole list has been handed out.

Main result: `Claimer.all_new` (one worker gets all regions in their order).
-/
import Mathlib.Tactic
import MarkCompact.Work.Claim

namespace MarkCompact.Claimer

/-- A chunk is the next stretch of the list. -/
theorem claim_eq {c : Claimer} (hlt : c.cursor.toNat < c.regions.size)
    (hwrap : c.cursor.toNat + c.chunk.toNat < 2 ^ 64) :
    c.claim = ((c.regions.toList.drop c.cursor.toNat).take c.chunk.toNat,
      { c with cursor := c.cursor + c.chunk }) := by
  have hnext : (c.cursor + c.chunk).toNat = c.cursor.toNat + c.chunk.toNat := by
    rw [UInt64.toNat_add]
    exact Nat.mod_eq_of_lt hwrap
  unfold claim
  dsimp only
  rw [if_neg (Nat.not_le.2 hlt), hnext, Array.toList_extract, List.extract_eq_take_drop]
  rcases Nat.le_total (c.cursor.toNat + c.chunk.toNat) c.regions.size with hle | hle
  · rw [Nat.min_eq_left hle, Nat.add_sub_cancel_left]
  · rw [Nat.min_eq_right hle, List.take_of_length_le, List.take_of_length_le]
    · rw [List.length_drop, Array.length_toList]
      omega
    · rw [List.length_drop, Array.length_toList]

/-- What is left of the list is handed out in order. -/
theorem flatten_chunks (fuel : Nat) (c : Claimer) (hchunk : 0 < c.chunk.toNat)
    (hwrap : c.cursor.toNat < c.regions.size → c.cursor.toNat + c.chunk.toNat < 2 ^ 64)
    (hsmall : c.regions.size < 2 ^ 63) (hfuel : c.regions.size < c.cursor.toNat + fuel) :
    (chunks fuel c).flatten = c.regions.toList.drop c.cursor.toNat := by
  induction fuel generalizing c with
  | zero =>
    rw [List.drop_eq_nil_of_le (by rw [Array.length_toList]; omega)]
    rfl
  | succ fuel ih =>
    unfold chunks
    by_cases hend : c.regions.size ≤ c.cursor.toNat
    · have hnil := claim_of_exhausted hend
      rw [List.drop_eq_nil_of_le (by rwa [Array.length_toList])]
      split
      · rfl
      · rename_i hclaim
        rw [hclaim] at hnil
        cases hnil
    · have hlt : c.cursor.toNat < c.regions.size := by omega
      have hclaim := claim_eq hlt (hwrap hlt)
      have hnext : (c.cursor + c.chunk).toNat = c.cursor.toNat + c.chunk.toNat := by
        rw [UInt64.toNat_add]
        exact Nat.mod_eq_of_lt (hwrap hlt)
      have hrest := ih { c with cursor := c.cursor + c.chunk } hchunk (by
        intro hin
        change (c.cursor + c.chunk).toNat < c.regions.size at hin
        show (c.cursor + c.chunk).toNat + c.chunk.toNat < _
        rw [hnext] at hin ⊢
        omega) hsmall (by
        show c.regions.size < (c.cursor + c.chunk).toNat + fuel
        rw [hnext]
        omega)
      split
      · rename_i hnil
        rw [hclaim] at hnil
        have hlen := congrArg List.length (congrArg Prod.fst hnil)
        rw [List.length_take, List.length_drop, Array.length_toList, List.length_nil] at hlen
        omega
      · rename_i first rest c' hsome
        rw [hclaim] at hsome
        injection hsome with hfirst hc'
        subst hc'
        rw [List.flatten_cons, ← hfirst, hrest]
        show _ ++ c.regions.toList.drop (c.cursor + c.chunk).toNat = _
        rw [hnext, ← List.drop_drop]
        exact List.take_append_drop ..

/-- One worker gets all regions in their order. -/
theorem all_new {regions : List Nat} (hsmall : regions.length < 2 ^ 63) (chunk : UInt64) :
    (new regions chunk).all = regions := by
  have hpos : 0 < (max chunk 1).toNat := by
    by_cases h : chunk ≤ 1
    · rw [show max chunk 1 = 1 from if_pos h]
      decide
    · rw [show max chunk 1 = chunk from if_neg h]
      rw [UInt64.le_iff_toNat_le] at h
      omega
  have hbound := (max chunk 1).toNat_lt
  have hall := flatten_chunks (regions.length + 1) (new regions chunk) hpos
    (fun _ => show 0 + (max chunk 1).toNat < 2 ^ 64 by omega) (by simpa [new] using hsmall)
    (by simp [new])
  unfold all
  rw [show (new regions chunk).regions.size = regions.length by simp [new], hall]
  exact List.drop_zero

end MarkCompact.Claimer
