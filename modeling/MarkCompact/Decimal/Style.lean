/-
MarkCompact/Decimal/Style.lean

How a floating-point number is laid out as text.

Which digits are shown is settled by `Binary.shortest` and `Binary.rounded`; here it is
decided where the point stands, and which of two equally near decimals is taken.

* `DecimalStyle` is one way of writing shortest digits, `floatText` writes with it;
* `plainStyle` never uses an exponent, `jsonStyle` is for JSON documents;
* `fixedText` writes a fixed number of places.
-/
import MarkCompact.Decimal.Shortest

namespace MarkCompact

/-- The decisions of a way of writing numbers in their shortest digits. -/
structure DecimalStyle where
  /-- The least leading exponent that is written without an exponent mark, if any. -/
  leastPositional : Option Int
  /-- The greatest one, if any. -/
  greatestPositional : Option Int
  /-- What follows the digits of a whole number. -/
  afterWhole : String
  /-- The text of a value that is no number. -/
  notANumber : String
  /-- The text of infinity. -/
  infinity : String
  /-- Whether infinity carries a sign. -/
  signedInfinity : Bool
  /-- Which of two equally short and equally near decimals is written. -/
  halfWay : HalfWay

/-- Digits only, however many: for messages. Halves go up. -/
def plainStyle : DecimalStyle := ⟨none, none, "", "NaN", "inf", true, .up⟩

/-- Numbers of a JSON document: an exponent below `1e-5` and from `1e16` on; what is not
finite has no number there. Halves go to the even digit. -/
def jsonStyle : DecimalStyle := ⟨some (-5), some 15, ".0", "null", "null", false, .toEven⟩

/-- The digits of a natural number in base ten. -/
def decimalDigits (n : Nat) : List Char :=
  Nat.toDigits 10 n

namespace Decimal

/-- The exponent of the leading digit. -/
def leading (d : Decimal) : Int :=
  (decimalDigits d.digits).length - 1 + d.exponent

/-- Digits around a point. -/
def positional (d : Decimal) (afterWhole : String) : String :=
  let digits := decimalDigits d.digits
  if 0 ≤ d.exponent then
    String.ofList (digits ++ List.replicate d.exponent.toNat '0') ++ afterWhole
  else
    let places := (-d.exponent).toNat
    let padded := List.replicate (places + 1 - digits.length) '0' ++ digits
    let whole := padded.length - places
    String.ofList (padded.take whole ++ '.' :: padded.drop whole)

/-- One digit before the point, and an exponent with its sign. -/
def scientific (d : Decimal) : String :=
  let digits := decimalDigits d.digits
  let tail := digits.drop 1
  let sign := if d.leading < 0 then "-" else "+"
  String.ofList (digits.take 1 ++ if tail.isEmpty then [] else '.' :: tail) ++ "e" ++ sign ++
    String.ofList (decimalDigits d.leading.natAbs)

/-- A decimal in a given style. -/
def text (d : Decimal) (style : DecimalStyle) : String :=
  if style.leastPositional.all (· ≤ d.leading) && style.greatestPositional.all (d.leading ≤ ·) then
    d.positional style.afterWhole
  else d.scientific

end Decimal

/-- A number in its shortest digits. -/
def floatText (style : DecimalStyle) (x : Float) : String :=
  let sign := if signBit x.toBits then "-" else ""
  match Magnitude.decode x.toBits with
  | .finite b => sign ++ (b.shortest style.halfWay).text style
  | .infinite => (if style.signedInfinity then sign else "") ++ style.infinity
  | .notANumber => style.notANumber

/-- A number with a fixed count of digits after the point. -/
def fixedText (places : Nat) (x : Float) : String :=
  let sign := if signBit x.toBits then "-" else ""
  match Magnitude.decode x.toBits with
  | .finite b => sign ++ (Decimal.positional ⟨b.rounded places, -(places : Int)⟩ "")
  | .infinite => sign ++ plainStyle.infinity
  | .notANumber => plainStyle.notANumber

end MarkCompact
