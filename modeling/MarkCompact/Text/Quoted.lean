/-
MarkCompact/Text/Quoted.lean

Two ways of putting a text between double quotes.

* `quoteVisible` is for messages: what a reader cannot see, or could take for part of
  another character, is written by its number;
* `quoteJson` is the string of the JSON format with the fewest escapes: the quote, the
  backslash and the characters below U+0020.

Both are character by character, so a quoted text is a concatenation:
`visibleChars_append` and `jsonChars_append`. `jsonChar_of_visible` says which characters
stand for themselves in a JSON string.
-/
import MarkCompact.Text.Hex
import MarkCompact.Text.Invisible

namespace MarkCompact

/-! ### Messages -/

/-- One character of a quoted message. -/
def visibleChar (c : Char) : List Char :=
  if c = '\x00' then ['\\', '0']
  else if c = '\t' then ['\\', 't']
  else if c = '\r' then ['\\', 'r']
  else if c = '\n' then ['\\', 'n']
  else if c = '"' then ['\\', '"']
  else if c = '\\' then ['\\', '\\']
  else if isInvisible c then ['\\', 'u', '\x7b'] ++ hexDigits c.toNat ++ ['\x7d']
  else [c]

/-- What stands between the quotes of a quoted message. -/
def visibleChars (cs : List Char) : List Char :=
  cs.flatMap visibleChar

/-- A text in quotes, fit for a message. -/
def quoteVisible (s : String) : String :=
  "\"" ++ String.ofList (visibleChars s.toList) ++ "\""

theorem visibleChars_append (cs ds : List Char) :
    visibleChars (cs ++ ds) = visibleChars cs ++ visibleChars ds := by
  simp [visibleChars]

/-! ### JSON strings -/

/-- One character of a JSON string. -/
def jsonChar (c : Char) : List Char :=
  if c = '"' then ['\\', '"']
  else if c = '\\' then ['\\', '\\']
  else if c = '\x08' then ['\\', 'b']
  else if c = '\x0c' then ['\\', 'f']
  else if c = '\n' then ['\\', 'n']
  else if c = '\r' then ['\\', 'r']
  else if c = '\t' then ['\\', 't']
  else if c.toNat < 0x20 then
    let digits := hexDigits c.toNat
    ['\\', 'u'] ++ List.replicate (4 - digits.length) '0' ++ digits
  else [c]

/-- What stands between the quotes of a JSON string. -/
def jsonChars (cs : List Char) : List Char :=
  cs.flatMap jsonChar

/-- A text as a JSON string. -/
def quoteJson (s : String) : String :=
  "\"" ++ String.ofList (jsonChars s.toList) ++ "\""

theorem jsonChars_append (cs ds : List Char) :
    jsonChars (cs ++ ds) = jsonChars cs ++ jsonChars ds := by
  simp [jsonChars]

theorem jsonChar_of_visible {c : Char} (hq : c ≠ '"') (hb : c ≠ '\\') (h : 0x20 ≤ c.toNat) :
    jsonChar c = [c] := by
  have low : ∀ d : Char, d.toNat < 0x20 → c ≠ d := by
    rintro d hd rfl
    omega
  have h8 := low '\x08' (by decide)
  have hc := low '\x0c' (by decide)
  have hn := low '\n' (by decide)
  have hr := low '\r' (by decide)
  have ht := low '\t' (by decide)
  have hlt : ¬ c.toNat < 0x20 := by omega
  simp only [jsonChar, hq, hb, h8, hc, hn, hr, ht, hlt, if_false]

end MarkCompact
