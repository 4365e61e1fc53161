import JsxEdit.Number.Double

/-
The decimal with the fewest digits that reads back as a given floating point number.

The reals that round to `m · 2 ^ e` form an interval around it, whose ends belong to it when `m` is even.
On the grid of decimals with 1, 2, … 17 digits the two neighbours of the number are tried; the first grid
that has one inside the interval gives the digits, and of two the nearer is taken.
-/
set_option autoImplicit false

namespace JsxEdit.Double

/-- A positive decimal, `digits · 10 ^ power`. -/
structure Decimal where
  digits : Nat
  power : Int
  deriving DecidableEq, Repr

/-- An interval of fractions with the common denominator `den`, around `mid / den`. -/
structure Interval where
  low : Nat
  mid : Nat
  high : Nat
  den : Nat
  closed : Bool

/-- The reals that round to `m · 2 ^ e`. Below a power of two the next number is only half as far away. -/
def Interval.around (m : Nat) (e : Int) : Interval :=
  let unit := if e < 2 then 1 else Nat.pow 2 (e - 2).toNat
  let den := if e < 2 then Nat.pow 2 (2 - e).toNat else 1
  let below := if m == Nat.pow 2 52 && e > minExponent then 1 else 2
  ⟨(4 * m - below) * unit, 4 * m * unit, (4 * m + 2) * unit, den, m % 2 == 0⟩

/-- `n · 10 ^ power` as a fraction. -/
def tenfold (n : Nat) (power : Int) : Nat × Nat :=
  if power < 0 then (n, Nat.pow 10 (-power).toNat) else (n * Nat.pow 10 power.toNat, 1)

/-- Whether the decimal lies in the interval. -/
def Interval.has (i : Interval) (d : Decimal) : Bool :=
  let (a, b) := tenfold d.digits d.power
  let x := a * i.den
  if i.closed then i.low * b ≤ x && x ≤ i.high * b else i.low * b < x && x < i.high * b

/-- How far the decimal is from the middle, in units common to all decimals of one power. -/
def Interval.distance (i : Interval) (d : Decimal) : Nat :=
  let (a, b) := tenfold d.digits d.power
  let x := a * i.den
  let y := i.mid * b
  (x - y) + (y - x)

/-- The least power of ten above the middle. -/
def Interval.magnitude (i : Interval) : Int :=
  let guess := ((i.mid.log2 : Int) - i.den.log2) * 30103 / 100000 - 1
  let above (k : Int) : Bool :=
    let (a, b) := tenfold 1 k
    i.mid * b < a * i.den
  if above guess then guess
  else if above (guess + 1) then guess + 1
  else if above (guess + 2) then guess + 2
  else guess + 3

/-- The decimal of the interval nearest to its middle on the grid of multiples of `10 ^ power`. -/
def Interval.onGrid (i : Interval) (power : Int) : Option Decimal :=
  let (a, b) := tenfold 1 power
  let below : Decimal := ⟨i.mid * b / (i.den * a), power⟩
  let above : Decimal := ⟨below.digits + 1, power⟩
  match i.has below && below.digits != 0, i.has above with
  | true, true =>
    let x := i.distance below
    let y := i.distance above
    if x < y || (x == y && below.digits % 2 == 0) then some below else some above
  | true, false => some below
  | false, true => some above
  | false, false => none

/-- The decimal with its trailing zeros moved into the power; `fuel` bounds their number. -/
def Decimal.normal : Nat → Decimal → Decimal
  | 0, d => d
  | fuel + 1, d => if d.digits % 10 == 0 then normal fuel ⟨d.digits / 10, d.power + 1⟩ else d

/-- The shortest decimal that reads back as `m · 2 ^ e`, for a mantissa that is not zero. -/
def shortest (m : Nat) (e : Int) : Decimal :=
  let i := Interval.around m e
  let k := i.magnitude
  let hit := (List.range 17).findSome? fun n => i.onGrid (k - (n + 1 : Nat))
  (hit.getD ⟨m, 0⟩).normal 20

end JsxEdit.Double
