import Quadcode.Expr
import Quadcode.SyntaxError

/-!
# Reading expressions

An expression is read token by token. What has been read of it is an `Expr.Partial`: the operations
that are still open, innermost first, and the stage that the innermost place has reached. Each token
either completes the expression, or leads to a further partial expression, or meets no expectation
of the stage (`Expr.Partial.step`); nothing depends on the tokens behind it.
-/

namespace Quadcode.Expr

/-- A round bracket that is open around the operand now being read. -/
inductive Context where
  /-- The operand follows the bracket. -/
  | first (opened : Span)
  /-- The operand follows the operator. -/
  | second (opened : Span) (left : Expr) (op : Operator)
deriving DecidableEq, Repr

/-- How far the innermost place has been read. -/
inductive Stage where
  /-- An operand begins here. -/
  | operand
  /-- The bracket and one operand have been read. -/
  | operator (opened : Span) (left : Expr)
  /-- The bracket and the whole operation have been read. -/
  | close (opened : Span) (left : Expr) (op : Operator) (right : Expr)
deriving DecidableEq, Repr

/-- An expression of which some tokens have been read. -/
structure Partial where
  stage : Stage := .operand
  around : List Context := []
deriving DecidableEq, Repr

/-- What has been read after one more token. -/
inductive Progress where
  | more (read : Partial)
  | complete (e : Expr)
deriving DecidableEq, Repr

namespace Partial

/-- Puts a finished operand into the innermost of the open brackets. -/
def fill (e : Expr) : List Context → Progress
  | [] => .complete e
  | .first opened :: around => .more { stage := .operator opened e, around }
  | .second opened left op :: around => .more { stage := .close opened left op e, around }

/-- Reads one more token. -/
def step (p : Partial) (t : Token) : Except Expectation Progress :=
  match p.stage with
  | .operand =>
    match t.kind with
    | .number =>
      match Binary64.ofText? t.text with
      | some value => .ok (fill (.number value t.span) p.around)
      | none => .error .numeral
    | .identifier => .ok (fill (.name t.text t.span) p.around)
    | _ =>
      if t.is .bracket "(" then
        .ok (.more { stage := .operand, around := .first t.span :: p.around })
      else .error .expression
  | .operator opened left =>
    if t.is .bracket ")" then .ok (fill (left.withSpan (opened.upTo t.span)) p.around)
    else
      match t.operator? with
      | some op => .ok (.more { stage := .operand, around := .second opened left op :: p.around })
      | none => .error .operatorOrClose
  | .close opened left op right =>
    if Expectation.closeOperation.isMetBy t then
      .ok (fill (.binary op left right (opened.upTo t.span)) p.around)
    else .error .closeOperation

/-- What the input lacks if it ends here. -/
def missing (p : Partial) : Expectation :=
  match p.stage with
  | .operand => .expression
  | .operator _ _ => .operatorOrClose
  | .close _ _ _ _ => .closeOperation

/-- Reads tokens until the expression is complete, and gives it with the tokens that are left.
`atEnd` is the error for an input that ends too early. -/
def run (atEnd : Expectation → SyntaxError) (p : Partial) :
    List Token → Except SyntaxError (Expr × List Token)
  | [] => .error (atEnd p.missing)
  | t :: rest =>
    match p.step t with
    | .error x => .error (.atToken t x)
    | .ok (.more q) => q.run atEnd rest
    | .ok (.complete e) => .ok (e, rest)

end Partial

/-- The expression at the head of a list of tokens, and the tokens behind it. -/
def parse (tokens : List Token) : Except SyntaxError (Expr × List Token) :=
  Partial.run (.atEnd tokens) {} tokens

end Quadcode.Expr
