import Quadcode.Decimal

/-!
# Doubles

The 64-bit floating point values, in exact arithmetic. The finite magnitudes are ranked by
size, so that the rank of a magnitude is its bit pattern, and infinity comes right after the
largest of them. Every finite magnitude is a whole number of units, the unit being the least
positive double, `2 ^ -1074`.

A decimal is rounded to the nearest double, a tie going to the even rank (`Binary64.ofDecimal`). In
the other direction `Binary64.shortest` cuts the exact decimal expansion of a double as short as it
can be and still be rounded to that double.
-/

namespace Quadcode

namespace Binary64

/-- How many magnitudes share one exponent. -/
def binade : Nat := 0x10000000000000

/-- The rank that follows the largest finite magnitude. -/
def infinityRank : Nat := 0x7FF0000000000000

end Binary64

/-- A double. All values that are no number are one. -/
inductive Binary64 where
  | finite (negative : Bool) (rank : Fin Binary64.infinityRank)
  | infinite (negative : Bool)
  | nan
deriving DecidableEq, Repr

namespace Binary64

/-- The double of a given sign and rank; ranks from `infinityRank` on are infinite. -/
def ofRank (negative : Bool) (rank : Nat) : Binary64 :=
  if h : rank < infinityRank then .finite negative ⟨rank, h⟩ else .infinite negative

/-! ## Rounding -/

/-- The size of the magnitude of a given rank, in units. -/
def units (rank : Nat) : Nat :=
  if rank < binade then rank else (binade + rank % binade) <<< (rank / binade - 1)

/-- The largest rank whose magnitude is at most `size` units. -/
def rankBelow (size : Nat) : Nat :=
  let shift := size.log2 - 52
  shift * binade + (size >>> shift)

/-- The rank nearest to `num / den` units, the even one of two that are equally near. -/
def nearestRank (num den : Nat) : Nat :=
  let rank := rankBelow (num / den)
  let halfway := (units rank + units (rank + 1)) * den
  if 2 * num < halfway ∨ 2 * num = halfway ∧ rank % 2 = 0 then rank else rank + 1

/-- The rank nearest to a decimal. A decimal from `10 ^ 310` on is past every finite magnitude and
one below `10 ^ -330` is nearest to zero, so neither power of ten is worked out. -/
def rankOfDecimal (d : Decimal) : Nat :=
  if d.digits = 0 ∨ d.point < -330 then 0
  else if 310 < d.point then infinityRank
  else nearestRank ((d.digits * Nat.pow 10 d.exponent.toNat) <<< 1074)
    (Nat.pow 10 (-d.exponent).toNat)

/-- The double nearest to a decimal with the given sign. -/
def ofDecimal (negative : Bool) (d : Decimal) : Binary64 :=
  ofRank negative (rankOfDecimal d)

/-! ## Shortest digits -/

/-- The exact decimal expansion of the magnitude of a given rank: a unit is
`5 ^ 1074 · 10 ^ -1074`. -/
def expansion (rank : Nat) : Decimal :=
  { digits := units rank * Nat.pow 5 1074, exponent := -1074 }

/-- The neighbour of `d` among the decimals without its last `count` digits that is rounded to
`rank`. Of two such neighbours it is the nearer one, and the upper one if they are equally near. -/
def cut? (rank : Nat) (d : Decimal) (count : Nat) : Option Decimal :=
  let scale := Nat.pow 10 count
  let lower : Decimal := { digits := d.digits / scale, exponent := d.exponent + count }
  let upper : Decimal := { lower with digits := lower.digits + 1 }
  match decide (rankOfDecimal lower = rank), decide (rankOfDecimal upper = rank) with
  | true, true => some (if 2 * (d.digits % scale) < scale then lower else upper)
  | true, false => some lower
  | false, true => some upper
  | false, false => none

/-- The decimal of fewest digits that is rounded to `rank`, and the nearest to it of those. -/
def shortest (rank : Nat) : Decimal :=
  let exact := expansion rank
  let length := (Nat.toDigits 10 exact.digits).length
  ((List.range length).reverse.findSome? (cut? rank exact)).getD exact

/-! ## Text -/

/-- The sign of a written double. -/
def sign (negative : Bool) : List Char :=
  if negative then ['-'] else []

/-- The text of a double: shortest digits in positional notation, with a minus
also in front of zero. -/
def text : Binary64 → String
  | .finite negative rank => String.ofList (sign negative ++ (shortest rank).positional)
  | .infinite negative => String.ofList (sign negative ++ ['i', 'n', 'f'])
  | .nan => "NaN"

/-- Reads a signed numeral, or in either case of letters one of the words for the
values that have no numeral. -/
def ofText? (text : String) : Option Binary64 :=
  let (negative, cs) := Decimal.splitSign text.toList
  let word := String.ofList (cs.map Char.toLower)
  if word = "inf" ∨ word = "infinity" then some (.infinite negative)
  else if word = "nan" then some .nan
  else (Decimal.ofNumeral? cs).map (ofDecimal negative)

end Binary64

end Quadcode
