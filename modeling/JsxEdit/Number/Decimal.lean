import JsxEdit.Number.Shortest

/-
How numbers are written: integers in decimal, floating point numbers with the fewest digits that read back.
A number below `10 ^ 16` and not below `10 ^ -4` is written out and keeps a decimal place, others have an
exponent with a sign and at least two digits.
-/
set_option autoImplicit false

namespace JsxEdit

/-- An integer in decimal. -/
def intText (n : Int) : String :=
  let digits := String.ofList (Nat.toDigits 10 n.natAbs)
  if n < 0 then "-" ++ digits else digits

namespace Double

/-- `n` zeros. -/
def zeros (n : Nat) : List Char := List.replicate n '0'

/-- Digits with the point after the first `point` of them. -/
def positional (ds : List Char) (point : Int) : List Char :=
  if point ≤ 0 then ['0', '.'] ++ zeros (-point).toNat ++ ds
  else if ds.length ≤ point.toNat then ds ++ zeros (point.toNat - ds.length) ++ ['.', '0']
  else ds.take point.toNat ++ ['.'] ++ ds.drop point.toNat

/-- Digits with a point after the first and an exponent. -/
def scientific (ds : List Char) (exponent : Int) : List Char :=
  let mark := if exponent < 0 then '-' else '+'
  let es := Nat.toDigits 10 exponent.natAbs
  let tail := if ds.length ≤ 1 then ds else ds.take 1 ++ ['.'] ++ ds.drop 1
  tail ++ ['e', mark] ++ zeros (2 - es.length) ++ es

/-- The magnitude of a decimal, as text. -/
def Decimal.chars (d : Decimal) : List Char :=
  let ds := Nat.toDigits 10 d.digits
  let point : Int := ds.length + d.power
  if -4 < point && point ≤ 16 then positional ds point else scientific ds (point - 1)

/-- A floating point number as text. -/
def text : Double → String
  | .nan => "nan"
  | .infinite negative => if negative then "-inf" else "inf"
  | .finite negative m e =>
    let body := if m == 0 then ['0', '.', '0'] else (shortest m e).chars
    .ofList (if negative then '-' :: body else body)

end Double
end JsxEdit
