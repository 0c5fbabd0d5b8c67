import Quadcode.Binary64
import Quadcode.Operator
import Quadcode.Span

/-!
# Expressions

Expressions are numbers, names and binary operations. In text every operation stands in round
brackets, so that no operator binds tighter than another.
-/

namespace Quadcode

/-- An expression; each node keeps the stretch of source that it was read from. -/
inductive Expr where
  | number (value : Binary64) (span : Span)
  | name (name : String) (span : Span)
  | binary (op : Operator) (left right : Expr) (span : Span)
deriving DecidableEq, Repr

namespace Expr

/-- The stretch of source of an expression. -/
def span : Expr → Span
  | .number _ s => s
  | .name _ s => s
  | .binary _ _ _ s => s

/-- The same expression, read from another stretch of source. -/
def withSpan : Expr → Span → Expr
  | .number v _, s => .number v s
  | .name n _, s => .name n s
  | .binary op l r _, s => .binary op l r s

/-- The text of an expression. -/
def render : Expr → String
  | .number v _ => v.text
  | .name n _ => n
  | .binary op l r _ => "(" ++ l.render ++ " " ++ op.symbol ++ " " ++ r.render ++ ")"

end Expr

end Quadcode
