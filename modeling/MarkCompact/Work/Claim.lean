/-
MarkCompact/Work/Claim.lean

Regions handed out in chunks.

A claimer holds an ascending list of regions and a cursor, and hands out the next chunk
of the list each time it is asked. The cursor is a 64-bit number that goes on by the size
of a chunk, also when the list is exhausted.

Main results: `claim_of_exhausted` (there is nothing left once the cursor is past the
end), `claim_mem` (what is handed out is on the list).
-/

namespace MarkCompact

/-- A list of regions and how much of it has been handed out. -/
structure Claimer where
  regions : Array Nat
  chunk : UInt64
  cursor : UInt64
  deriving Repr, Inhabited

namespace Claimer

/-- Hands out regions in chunks of a size, at least one at a time. -/
def new (regions : List Nat) (chunk : UInt64) : Claimer := ⟨regions.toArray, max chunk 1, 0⟩

/-- The next chunk, empty once everything has been handed out. -/
def claim (c : Claimer) : List Nat × Claimer :=
  let start := c.cursor.toNat
  let stop := min (c.cursor + c.chunk).toNat c.regions.size
  (if c.regions.size ≤ start then [] else (c.regions.extract start stop).toList,
    { c with cursor := c.cursor + c.chunk })

/-- The chunks that one worker gets until it is handed an empty one, at most `fuel`. -/
def chunks : Nat → Claimer → List (List Nat)
  | 0, _ => []
  | fuel + 1, c =>
    match c.claim with
    | ([], _) => []
    | (region :: rest, c) => (region :: rest) :: chunks fuel c

/-- The regions that one worker gets, in the order in which it gets them. -/
def all (c : Claimer) : List Nat := (chunks (c.regions.size + 1) c).flatten

theorem claim_of_exhausted {c : Claimer} (h : c.regions.size ≤ c.cursor.toNat) :
    c.claim.1 = [] := by
  simp [claim, h]

theorem claim_mem {c : Claimer} {region : Nat} (h : region ∈ c.claim.1) :
    region ∈ c.regions.toList := by
  unfold claim at h
  dsimp only at h
  split at h
  · simp at h
  · simp only [Array.toList_extract, List.extract_eq_take_drop] at h
    exact List.mem_of_mem_drop (List.mem_of_mem_take h)

end Claimer

end MarkCompact
