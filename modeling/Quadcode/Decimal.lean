/-!
# Decimals

A decimal is a whole number scaled by a power of ten. This file holds the two texts of a decimal:
the numerals from which one is read (`Decimal.ofNumeral?`), with an optional point and an
optional exponent, and the positional notation in which one is written (`Decimal.positional`),
which never uses an exponent.
-/

namespace Quadcode

/-- The number `digits · 10 ^ exponent`. -/
structure Decimal where
  digits : Nat
  exponent : Int
deriving DecidableEq, Repr

namespace Decimal

/-- The place of the point, counted from the first digit: `d` lies below `10 ^ d.point`. -/
def point (d : Decimal) : Int :=
  (Nat.toDigits 10 d.digits).length + d.exponent

/-! ## Numerals -/

/-- Splits off a leading sign; the flag is set by a minus. -/
def splitSign : List Char → Bool × List Char
  | '-' :: cs => (true, cs)
  | '+' :: cs => (false, cs)
  | cs => (false, cs)

/-- Splits off the digits behind a leading point, if there is a point. -/
def splitFraction : List Char → List Char × List Char
  | '.' :: cs => (cs.takeWhile Char.isDigit, cs.dropWhile Char.isDigit)
  | cs => ([], cs)

/-- The exponent that ends a numeral: nothing, or a mark followed by a sign at most
and digits at least one. -/
def exponent? : List Char → Option Int
  | [] => some 0
  | mark :: cs =>
    let (negative, ds) := splitSign cs
    if (mark = 'e' ∨ mark = 'E') ∧ ds ≠ [] ∧ ds.all Char.isDigit = true then
      let size : Int := Nat.ofDigitChars 10 ds 0
      some (if negative then -size else size)
    else none

/-- Reads an unsigned numeral: digits with at most one point among or around
them, then the exponent. -/
def ofNumeral? (cs : List Char) : Option Decimal :=
  let whole := cs.takeWhile Char.isDigit
  let (fraction, rest) := splitFraction (cs.dropWhile Char.isDigit)
  if whole = [] ∧ fraction = [] then none
  else (exponent? rest).map fun e =>
    { digits := Nat.ofDigitChars 10 (whole ++ fraction) 0, exponent := e - fraction.length }

/-! ## Positional notation -/

/-- The digits without the zeros at their end. -/
def trimZeros (ds : List Char) : List Char :=
  (ds.reverse.dropWhile (· = '0')).reverse

/-- Writes `ds` with the point `point` places behind its start; zeros fill the places
that `ds` leaves empty. -/
def layOut (ds : List Char) (point : Int) : List Char :=
  if point ≤ 0 then
    ['0', '.'] ++ List.replicate (-point).toNat '0' ++ ds
  else if ds.length ≤ point.toNat then
    ds ++ List.replicate (point.toNat - ds.length) '0'
  else
    ds.take point.toNat ++ ['.'] ++ ds.drop point.toNat

/-- The decimal in positional notation, without needless zeros and without an exponent. -/
def positional (d : Decimal) : List Char :=
  if d.digits = 0 then ['0'] else layOut (trimZeros (Nat.toDigits 10 d.digits)) d.point

end Decimal

end Quadcode
