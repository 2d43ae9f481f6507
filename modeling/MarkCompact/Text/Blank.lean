/-
MarkCompact/Text/Blank.lean

White space and letter case of the texts that name a setting.

* `isBlank` is the white space of the Unicode character database, twenty-five
  characters;
* `trimBlank` drops it from both ends;
* `lowerLatin` makes the letters A to Z small and leaves every other character.

Main result: `isBlank_of_isWhitespace` (every character that core counts as white
space is blank here too).
-/

namespace MarkCompact

/-- The white space of the Unicode character database. -/
def isBlank (c : Char) : Bool :=
  let n := c.toNat
  (9 ≤ n && n ≤ 13) || n == 0x20 || n == 0x85 || n == 0xa0 || n == 0x1680 ||
    (0x2000 ≤ n && n ≤ 0x200a) || n == 0x2028 || n == 0x2029 || n == 0x202f ||
    n == 0x205f || n == 0x3000

theorem isBlank_of_isWhitespace {c : Char} (h : c.isWhitespace) : isBlank c := by
  simp only [Char.isWhitespace, Bool.or_eq_true, decide_eq_true_eq] at h
  rcases h with ((rfl | rfl) | rfl) | rfl <;> decide

/-- The text without the white space at its ends. -/
def trimBlank (s : String) : String :=
  String.ofList ((s.toList.dropWhile isBlank).reverse.dropWhile isBlank).reverse

/-- The text with the letters A to Z made small. -/
def lowerLatin (s : String) : String :=
  String.ofList (s.toList.map Char.toLower)

end MarkCompact
