/-
MarkCompact/Forwarding/Capacity.lean

Table sizes: the least power of two from a number on.

Tables have a power of two of slots, so that a mask cuts a number off to a slot.

Main results: `le_powerOfTwoFrom`, `powerOfTwoFrom_le` (it is the least one) and
`isPowerOfTwo_powerOfTwoFrom` (it is a power of two).
-/

namespace MarkCompact

/-- The least power of two that is no less than `n`. -/
def powerOfTwoFrom (n : Nat) : Nat :=
  if n ≤ 1 then 1 else 1 <<< ((n - 1).log2 + 1)

theorem isPowerOfTwo_powerOfTwoFrom (n : Nat) : (powerOfTwoFrom n).isPowerOfTwo := by
  unfold powerOfTwoFrom
  split
  · exact ⟨0, rfl⟩
  · exact ⟨_, Nat.one_shiftLeft _⟩

theorem le_powerOfTwoFrom (n : Nat) : n ≤ powerOfTwoFrom n := by
  unfold powerOfTwoFrom
  split
  · assumption
  · rw [Nat.one_shiftLeft]
    have := Nat.lt_log2_self (n := n - 1)
    omega

theorem powerOfTwoFrom_le {n m : Nat} (power : m.isPowerOfTwo) (h : n ≤ m) :
    powerOfTwoFrom n ≤ m := by
  obtain ⟨k, rfl⟩ := power
  unfold powerOfTwoFrom
  split
  · exact Nat.one_le_two_pow
  · rw [Nat.one_shiftLeft]
    have : (n - 1).log2 < k := (Nat.log2_lt (by omega)).2 (by omega)
    exact Nat.pow_le_pow_right (by decide) this

end MarkCompact
