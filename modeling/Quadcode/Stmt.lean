import Quadcode.Expr

/-!
# Statements

Statements print, declare, assign, branch and loop. `Stmt.render` writes a statement in its
one layout: a statement a line, and the body of a compound statement indented by four blanks
more than the statement.
-/

namespace Quadcode

/-- A name where it is declared or assigned. -/
structure Ident where
  text : String
  span : Span := {}
deriving DecidableEq, Repr

/-- A statement; each keeps the stretch of source that it was read from. -/
inductive Stmt where
  | print (value : Expr) (span : Span)
  | declare (name : Ident) (value : Expr) (span : Span)
  | assign (name : Ident) (value : Expr) (span : Span)
  | ifThen (test : Expr) (body : List Stmt) (span : Span)
  | whileDo (test : Expr) (body : List Stmt) (span : Span)
  | forDo (initial : Stmt) (test : Expr) (step : Stmt) (body : List Stmt) (span : Span)
deriving Repr

namespace Stmt

/-- The blanks in front of a statement that stands `depth` bodies deep. -/
def indent (depth : Nat) : String :=
  String.ofList (List.replicate (4 * depth) ' ')

/-- A body in braces, given its lines; it belongs to a statement that stands `depth` bodies deep. -/
def inBraces (depth : Nat) (lines : String) : String :=
  "\x7b\n" ++ lines ++ indent depth ++ "\x7d"

mutual

/-- The text of a statement that stands `depth` bodies deep. The statements in the header of
a loop are written as if they stood in no body, and the step, if it is an assignment,
without its semicolon. -/
def renderAt (depth : Nat) : Stmt → String
  | .print value _ => indent depth ++ "print " ++ value.render ++ ";"
  | .declare name value _ => indent depth ++ "var " ++ name.text ++ " = " ++ value.render ++ ";"
  | .assign name value _ => indent depth ++ name.text ++ " = " ++ value.render ++ ";"
  | .ifThen test body _ =>
    indent depth ++ "if " ++ test.render ++ " " ++ inBraces depth (renderLines (depth + 1) body)
  | .whileDo test body _ =>
    indent depth ++ "while " ++ test.render ++ " " ++ inBraces depth (renderLines (depth + 1) body)
  | .forDo initial test step body _ =>
    let stepText := match step with
      | .assign name value _ => name.text ++ " = " ++ value.render
      | _ => renderAt 0 step
    indent depth ++ "for (" ++ renderAt 0 initial ++ " " ++ test.render ++ "; " ++
      stepText ++ ") " ++ inBraces depth (renderLines (depth + 1) body)
termination_by structural s => s

/-- The lines of statements that stand `depth` bodies deep. -/
def renderLines (depth : Nat) : List Stmt → String
  | [] => ""
  | s :: rest => renderAt depth s ++ "\n" ++ renderLines depth rest
termination_by structural body => body

end

/-- The text of a statement. -/
def render (s : Stmt) : String :=
  renderAt 0 s

end Stmt

end Quadcode
