/-
Binary floating point numbers of 64 bits as exact data: a finite one is a sign, a mantissa and a power of
two, so that rounding, comparison and printing are integer arithmetic.
-/
set_option autoImplicit false

namespace JsxEdit

/-- A floating point number; the finite ones stand for `± mantissa · 2 ^ exponent`. -/
inductive Double where
  | finite (negative : Bool) (mantissa : Nat) (exponent : Int)
  | infinite (negative : Bool)
  | nan
  deriving DecidableEq, Repr

namespace Double

/-- The least exponent a finite number has. -/
def minExponent : Int := -1074

/-- The greatest exponent a finite number has. -/
def maxExponent : Int := 971

/-- The integer nearest to `num / den`, a half going to the even neighbour. -/
def roundDiv (num den : Nat) : Nat :=
  let q := num / den
  let r := num % den
  if 2 * r > den || (2 * r == den && q % 2 == 1) then q + 1 else q

/-- The fraction `num / den` divided by `2 ^ e`, as a fraction. -/
def scaleDown (num den : Nat) (e : Int) : Nat × Nat :=
  if e < 0 then (num * Nat.pow 2 (-e).toNat, den) else (num, den * Nat.pow 2 e.toNat)

/-- The exponent at which the mantissa of `num / den` has 53 bits, or the least one. -/
def exponentFor (num den : Nat) : Int :=
  let guess := (num.log2 : Int) - den.log2 - 53
  let (n, d) := scaleDown num den guess
  let e := if n / d < Nat.pow 2 53 then guess else guess + 1
  max e minExponent

/-- The number nearest to `± num / den`, a half going to the even mantissa. -/
def ofRatio (negative : Bool) (num den : Nat) : Double :=
  if num == 0 then .finite negative 0 minExponent
  else
    let e := exponentFor num den
    let (n, d) := scaleDown num den e
    let m := roundDiv n d
    let (m, e) := if m == Nat.pow 2 53 then (Nat.pow 2 52, e + 1) else (m, e)
    if e > maxExponent then .infinite negative else .finite negative m e

/-- The number nearest to `± digits · 10 ^ power`. Powers so large or so small that only infinity or zero is
near are not worked out. -/
def ofDecimal (negative : Bool) (digits : Nat) (power : Int) : Double :=
  let magnitude := power + (digits.log2 * 3 / 10 : Nat)
  if digits == 0 || power + digits.log2 < -400 then .finite negative 0 minExponent
  else if magnitude > 400 then .infinite negative
  else if power < 0 then ofRatio negative digits (Nat.pow 10 (-power).toNat)
  else ofRatio negative (digits * Nat.pow 10 power.toNat) 1

/-- Whether the number is plus or minus zero. -/
def isZero : Double → Bool
  | .finite _ m _ => m == 0
  | _ => false

/-- The integer a finite number equals, if it is one. -/
def toInt? : Double → Option Int
  | .finite negative m e =>
    let magnitude : Option Nat :=
      if 0 ≤ e then some (m * Nat.pow 2 e.toNat)
      else if m % Nat.pow 2 (-e).toNat == 0 then some (m / Nat.pow 2 (-e).toNat) else none
    magnitude.map fun n => if negative then -(n : Int) else n
  | _ => none

/-- Equality of numbers: no number equals `nan`, and the two zeros are equal. -/
def same : Double → Double → Bool
  | .finite n m e, .finite n' m' e' => (m == 0 && m' == 0) || (n == n' && m == m' && e == e')
  | .infinite n, .infinite n' => n == n'
  | _, _ => false

end Double
end JsxEdit
