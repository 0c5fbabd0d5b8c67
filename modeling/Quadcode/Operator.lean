/-!
# Operators and comparisons

The binary operators of expressions, and the comparisons on which a jump can depend. Three operators
compare (`Operator.comparison?`), and every comparison has a negation.
-/

namespace Quadcode

/-- A binary operator. -/
inductive Operator where
  | add
  | sub
  | mul
  | div
  | eq
  | gt
  | lt
  | and
deriving DecidableEq, Repr

/-- A comparison of two values. -/
inductive Comparison where
  | gt
  | lt
  | eq
  | ge
  | le
  | ne
deriving DecidableEq, Repr

namespace Operator

/-- All operators. -/
def all : List Operator :=
  [.add, .sub, .mul, .div, .eq, .gt, .lt, .and]

/-- How an operator is written. -/
def symbol : Operator → String
  | .add => "+"
  | .sub => "-"
  | .mul => "*"
  | .div => "/"
  | .eq => "=="
  | .gt => ">"
  | .lt => "<"
  | .and => "&&"

/-- The operator that is written `s`. -/
def ofSymbol? (s : String) : Option Operator :=
  all.find? fun op => op.symbol = s

/-- The comparison that an operator makes, if it makes one. -/
def comparison? : Operator → Option Comparison
  | .gt => some .gt
  | .lt => some .lt
  | .eq => some .eq
  | _ => none

end Operator

namespace Comparison

/-- All comparisons. -/
def all : List Comparison :=
  [.gt, .lt, .eq, .ge, .le, .ne]

/-- How a comparison is written. -/
def symbol : Comparison → String
  | .gt => ">"
  | .lt => "<"
  | .eq => "=="
  | .ge => ">="
  | .le => "<="
  | .ne => "!="

/-- The comparison that is written `s`. -/
def ofSymbol? (s : String) : Option Comparison :=
  all.find? fun c => c.symbol = s

/-- The comparison that holds of two ordered values exactly when `c` does not. -/
def negate : Comparison → Comparison
  | .gt => .le
  | .lt => .ge
  | .eq => .ne
  | .ge => .lt
  | .le => .gt
  | .ne => .eq

end Comparison

end Quadcode
