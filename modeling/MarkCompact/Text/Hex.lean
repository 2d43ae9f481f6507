/-
MarkCompact/Text/Hex.lean

Hexadecimal text of words: lower case, marked by a leading "0x".

* `hex` uses as few digits as the value needs;
* `paddedHex` always uses the sixteen digits of a word;
* `ofHexDigits` reads digits back.

Main results: `ofHexDigits_hexDigits` (digits read back as their number) and
`length_paddedHexDigits` (a padded word has sixteen digits).
-/
import MarkCompact.Address

namespace MarkCompact

/-- The digits of `n` in base sixteen, most significant first. -/
def hexDigits (n : Nat) : List Char :=
  Nat.toDigits 16 n

/-- The digits of a word, filled up with leading zeros to sixteen. -/
def paddedHexDigits (w : Word) : List Char :=
  let digits := hexDigits w.toNat
  List.replicate (16 - digits.length) '0' ++ digits

/-- A word in as few hexadecimal digits as it needs. -/
def hex (w : Word) : String :=
  "0x" ++ String.ofList (hexDigits w.toNat)

/-- A word in sixteen hexadecimal digits. -/
def paddedHex (w : Word) : String :=
  "0x" ++ String.ofList (paddedHexDigits w)

theorem length_paddedHexDigits (w : Word) : (paddedHexDigits w).length = 16 := by
  have bound : (hexDigits w.toNat).length ≤ 16 := by
    refine (Nat.length_toDigits_le_iff (by decide) (by decide)).2 ?_
    exact w.toNat_lt
  simp only [paddedHexDigits, List.length_append, List.length_replicate]
  omega

/-! ### Reading digits -/

/-- The value of a digit of base sixteen, in lower case. -/
def hexDigitValue (c : Char) : Nat :=
  if c.isDigit then c.toNat - '0'.toNat else c.toNat - 'a'.toNat + 10

/-- The number whose digits in base sixteen are given, most significant first. -/
def ofHexDigits (digits : List Char) : Nat :=
  digits.foldl (fun n c => n * 16 + hexDigitValue c) 0

theorem hexDigitValue_digitChar {d : Nat} (h : d < 16) : hexDigitValue d.digitChar = d := by
  have all : ∀ d : Fin 16, hexDigitValue d.val.digitChar = d.val := by decide
  exact all ⟨d, h⟩

/-- Digits read back as the number that they were made from. -/
theorem ofHexDigits_hexDigits (n : Nat) : ofHexDigits (hexDigits n) = n := by
  induction n using Nat.strongRecOn with
  | ind n ih =>
    unfold hexDigits
    rw [Nat.toDigits_eq_if (by decide)]
    split
    · rename_i small
      simp [ofHexDigits, hexDigitValue_digitChar small]
    · have less : n / 16 < n := by omega
      have last : n % 16 < 16 := by omega
      have lead := ih _ less
      simp only [ofHexDigits, hexDigits] at lead
      simp only [ofHexDigits, List.foldl_append, lead, List.foldl_cons, List.foldl_nil,
        hexDigitValue_digitChar last]
      omega

end MarkCompact
