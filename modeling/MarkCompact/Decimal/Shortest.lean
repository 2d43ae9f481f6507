/-
MarkCompact/Decimal/Shortest.lean

Decimal texts of floating-point numbers: the fewest digits that read back.

A finite number is `m · 2^q` for naturals `m` and an exponent `q`. Written over a power
of ten it is exact: `m · 2^q` is a whole number when `q ≥ 0`, and `m · 5^s` over `10^s`
when `q = -s`. All questions about it are therefore questions about naturals, and no
step rounds.

* `Binary` is such a number, `Magnitude.decode` takes it from the bits of a `Float`;
* `Binary.scaled` gives the number and the two ends of the interval of reals that round
  to it, all in quarters over one power of ten;
* `HalfWay` decides between two decimals that are equally near to a number;
* `shortestAt` finds the coarsest decimal grid that has a point in the interval, and of
  its two neighbours of the number the nearer one.

Main results: `shortestAt_readsBack` (the point found lies in the interval) and
`shortestAt_coarsest` (no coarser grid has a neighbour in it).
-/

namespace MarkCompact

/-- What becomes of a number halfway between two decimals. -/
inductive HalfWay where
  /-- It goes to the one with the even last digit. -/
  | toEven
  /-- It goes to the greater one. -/
  | up
  deriving Repr, DecidableEq

/-- Whether a number that lies `rest` of `unit` past `digits` goes to the next decimal. -/
def HalfWay.goesUp (half : HalfWay) (digits rest unit : Nat) : Bool :=
  if 2 * rest = unit then
    match half with
    | .toEven => digits % 2 = 1
    | .up => true
  else unit < 2 * rest

/-- A finite non-negative number `mantissa · 2^exponent`. -/
structure Binary where
  /-- The digits in base two. -/
  mantissa : Nat
  /-- The power of two that they count. -/
  exponent : Int
  /-- Whether the number below is only half as far away as the number above. -/
  narrowBelow : Bool
  deriving Repr, DecidableEq

/-- What the bits of a floating-point number stand for, its sign apart. -/
inductive Magnitude where
  | finite (value : Binary)
  | infinite
  | notANumber
  deriving Repr, DecidableEq

/-- The magnitude held in a 64-bit pattern. -/
def Magnitude.decode (bits : UInt64) : Magnitude :=
  let fraction := (bits &&& 0xfffffffffffff).toNat
  let biased := ((bits >>> 52) &&& 0x7ff).toNat
  if biased = 0x7ff then
    if fraction = 0 then .infinite else .notANumber
  else if biased = 0 then .finite ⟨fraction, -1074, false⟩
  else .finite ⟨fraction + 0x10000000000000, (biased : Int) - 1075, fraction = 0 && 1 < biased⟩

/-- Whether a 64-bit pattern stands for a negative number or a negative zero. -/
def signBit (bits : UInt64) : Bool :=
  bits >>> 63 == 1

/-- A number and the interval that rounds to it, in quarters of `10^(-places)`. -/
structure Interval where
  lower : Nat
  value : Nat
  upper : Nat
  /-- Whether the two ends round to the number too. -/
  closed : Bool
  /-- The digits after the point. -/
  places : Nat
  deriving Repr

/-- The interval of the reals that round to a number, ties to the even mantissa. -/
def Binary.scaled (b : Binary) : Interval :=
  let places := (-b.exponent).toNat
  let one := Nat.pow 5 places <<< b.exponent.toNat
  { lower := (4 * b.mantissa - if b.narrowBelow then 1 else 2) * one
    value := 4 * b.mantissa * one
    upper := (4 * b.mantissa + 2) * one
    closed := b.mantissa % 2 = 0
    places := places }

namespace Interval

/-- Whether `n` quarters round to the number. -/
def holds (i : Interval) (n : Nat) : Bool :=
  if i.closed then i.lower ≤ n && n ≤ i.upper else i.lower < n && n < i.upper

/-- The number's neighbour on the grid of multiples of `4 · 10^t` that rounds to it, the
nearer if both do. -/
def neighbour (i : Interval) (half : HalfWay) (t : Nat) : Option Nat :=
  let grid := 4 * Nat.pow 10 t
  let d := i.value / grid
  let below := i.holds (d * grid)
  let above := i.holds ((d + 1) * grid)
  if below && above then
    if half.goesUp d (i.value % grid) grid then some (d + 1) else some d
  else if below then some d
  else if above then some (d + 1)
  else none

/-- The digits and the power of ten of the shortest decimal on the grids up to `10^t`. -/
def shortestAt (i : Interval) (half : HalfWay) : Nat → Nat × Nat
  | 0 => (i.value / 4, 0)
  | t + 1 =>
    match i.neighbour half (t + 1) with
    | some d => (d, t + 1)
    | none => shortestAt i half t

/-- What `neighbour` finds rounds to the number. -/
theorem holds_of_neighbour {i : Interval} {half : HalfWay} {t d : Nat}
    (h : i.neighbour half t = some d) :
    i.holds (d * (4 * Nat.pow 10 t)) := by
  simp only [neighbour] at h
  split at h
  · rename_i both
    simp only [Bool.and_eq_true] at both
    split at h <;> simp_all
  · split at h
    · simp_all
    · split at h <;> simp_all

/-- A shortest decimal rounds to the number, unless it is the exact one. -/
theorem shortestAt_readsBack (i : Interval) (half : HalfWay) (t : Nat) :
    i.holds ((i.shortestAt half t).1 * (4 * Nat.pow 10 (i.shortestAt half t).2)) ∨
      i.shortestAt half t = (i.value / 4, 0) := by
  induction t with
  | zero => exact .inr rfl
  | succ t ih =>
    unfold shortestAt
    split
    · rename_i d h
      exact .inl (holds_of_neighbour h)
    · exact ih

/-- No grid coarser than the one chosen has a neighbour that rounds to the number. -/
theorem shortestAt_coarsest (i : Interval) (half : HalfWay) {t u : Nat} (hu : u ≤ t)
    (above : (i.shortestAt half t).2 < u) : i.neighbour half u = none := by
  induction t with
  | zero => omega
  | succ t ih =>
    unfold shortestAt at above
    split at above
    · omega
    · rename_i h
      rcases Nat.lt_or_ge t u with later | earlier
      · exact (show u = t + 1 by omega) ▸ h
      · exact ih earlier above

end Interval

/-! ### Decimals -/

/-- A number `digits · 10^exponent`, the last digit not a zero. -/
structure Decimal where
  digits : Nat
  exponent : Int
  deriving Repr, DecidableEq

/-- The digits without their final zeros, which the exponent takes over. At most `fuel`
zeros are dropped. -/
def Decimal.trim : Nat → Decimal → Decimal
  | 0, d => d
  | fuel + 1, d =>
    if d.digits % 10 = 0 && d.digits != 0 then trim fuel ⟨d.digits / 10, d.exponent + 1⟩ else d

/-- The shortest decimal that reads back as the number, the nearest of that length. -/
def Binary.shortest (b : Binary) (half : HalfWay) : Decimal :=
  if b.mantissa = 0 then ⟨0, 0⟩
  else
    let i := b.scaled
    let length := (Nat.toDigits 10 (i.value / 4)).length
    let (d, t) := i.shortestAt half length
    Decimal.trim length ⟨d, (t : Int) - i.places⟩

/-- The number rounded to `places` digits after the point, half a unit to the even digit. -/
def Binary.rounded (b : Binary) (places : Nat) : Nat :=
  let num := (b.mantissa * Nat.pow 10 places) <<< b.exponent.toNat
  let den := 1 <<< (-b.exponent).toNat
  let d := num / den
  if HalfWay.toEven.goesUp d (num % den) den then d + 1 else d

end MarkCompact
