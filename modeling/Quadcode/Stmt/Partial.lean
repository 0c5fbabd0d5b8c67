import Quadcode.Expr.Partial
import Quadcode.Stmt

/-!
# Reading programs

A program is read token by token, like an expression. What has been read of it is a `Stmt.Partial`:
the statements that are complete, the bodies and loop headers that are still open, innermost first,
and the phase that the innermost statement has reached. Every token decides alone, without a look
at the next one, whether it belongs (`Stmt.Partial.step`). So the tokens up to an error are all
that the error depends on.
-/

namespace Quadcode

namespace Stmt

/-- The name that a value is for, with all that was read before it of the same statement. -/
inductive Receiver where
  | declared (start : Span) (name : Ident)
  | assigned (name : Ident)
  | stepped (start : Span) (initial : Stmt) (test : Expr) (name : Ident)
deriving Repr

/-- What an expression is for, with all that was read before it of the same statement. -/
inductive Purpose where
  | print (start : Span)
  | give (receiver : Receiver)
  | ifTest (start : Span)
  | whileTest (start : Span)
  | forTest (start : Span) (initial : Stmt)
deriving Repr

/-- All of a compound statement but its body. -/
inductive Header where
  | ifThen (start : Span) (test : Expr)
  | whileDo (start : Span) (test : Expr)
  | forDo (start : Span) (initial : Stmt) (test : Expr) (step : Stmt)
deriving Repr

namespace Header

/-- The kind of compound statement that a header begins. -/
def compound : Header → Compound
  | .ifThen _ _ => .ifThen
  | .whileDo _ _ => .whileDo
  | .forDo _ _ _ _ => .forDo

/-- The compound statement of a header and a body that ends at `stop`. -/
def withBody (body : List Stmt) (stop : Span) : Header → Stmt
  | .ifThen start test => .ifThen test body (start.upTo stop)
  | .whileDo start test => .whileDo test body (start.upTo stop)
  | .forDo start initial test step => .forDo initial test step body (start.upTo stop)

end Header

/-- How far the innermost statement has been read. -/
inductive Phase where
  /-- A statement begins here. -/
  | statement
  /-- The name of a declaration comes next. -/
  | declaredName (start : Span)
  /-- The equals sign behind a name comes next. -/
  | equals (receiver : Receiver)
  /-- An expression is being read. -/
  | value (purpose : Purpose) (read : Expr.Partial)
  /-- An expression has been read, and what follows it comes next. -/
  | ended (purpose : Purpose) (value : Expr)
  /-- The bracket that opens the header of a loop comes next. -/
  | header (start : Span)
  /-- The name that the step of a loop assigns comes next. -/
  | step (start : Span) (initial : Stmt) (test : Expr)
  /-- The brace that opens the body of a loop comes next. -/
  | body (start : Span) (initial : Stmt) (test : Expr) (step : Stmt)
deriving Repr

/-- A place that takes the statement now being read when it is complete. -/
inductive Frame where
  /-- A body, with its complete statements, the last one first. -/
  | body (header : Header) (done : List Stmt)
  /-- The first part of the header of a loop. -/
  | initial (start : Span)
deriving Repr

/-- A program of which some tokens have been read; `done` holds its complete
statements, the last one first. -/
structure Partial where
  phase : Phase := .statement
  frames : List Frame := []
  done : List Stmt := []
deriving Repr

namespace Partial

/-- What has been read once the innermost statement is complete. -/
def fill (s : Stmt) (frames : List Frame) (done : List Stmt) : Partial :=
  match frames with
  | [] => { phase := .statement, frames := [], done := s :: done }
  | .body header inner :: outer =>
    { phase := .statement, frames := .body header (s :: inner) :: outer, done }
  | .initial start :: outer => { phase := .value (.forTest start s) {}, frames := outer, done }

/-- What is expected behind a name that a value is for. -/
def equalsAfter : Receiver → Expectation
  | .declared _ _ => .equalsAfterDeclared
  | .assigned name => .equalsAfterName name.text
  | .stepped _ _ _ _ => .equals

/-- What is expected behind an expression. -/
def endOf : Purpose → Expectation
  | .print _ => .endOfPrint
  | .give (.declared _ _) => .endOfDeclaration
  | .give (.assigned _) => .endOfAssignment
  | .give (.stepped _ _ _ _) => .closeHeader
  | .ifTest _ => .openBody .ifThen
  | .whileTest _ => .openBody .whileDo
  | .forTest _ _ => .endOfTest

/-- Opens a body. -/
def enter (p : Partial) (header : Header) : Partial :=
  { p with phase := .statement, frames := .body header [] :: p.frames }

/-- Reads the first token of a statement, or the brace that closes the innermost body. -/
def begin (p : Partial) (t : Token) : Except Expectation Partial :=
  match t.kind with
  | .keyword =>
    match t.text with
    | "print" => .ok { p with phase := .value (.print t.span) {} }
    | "var" => .ok { p with phase := .declaredName t.span }
    | "if" => .ok { p with phase := .value (.ifTest t.span) {} }
    | "while" => .ok { p with phase := .value (.whileTest t.span) {} }
    | "for" => .ok { p with phase := .header t.span }
    | _ => .error .statement
  | .identifier => .ok { p with phase := .equals (.assigned { text := t.text, span := t.span }) }
  | _ =>
    match p.frames with
    | .body header inner :: outer =>
      if (Expectation.closeBody header.compound).isMetBy t then
        .ok (fill (header.withBody inner.reverse t.span) outer p.done)
      else .error .statement
    | _ => .error .statement

/-- What has been read once the token that ends the part of `value` in its statement is
read; it stands at `stop`. -/
def conclude (p : Partial) (value : Expr) (stop : Span) : Purpose → Partial
  | .print start => fill (.print value (start.upTo stop)) p.frames p.done
  | .give (.declared start name) => fill (.declare name value (start.upTo stop)) p.frames p.done
  | .give (.assigned name) => fill (.assign name value (name.span.upTo stop)) p.frames p.done
  | .give (.stepped start initial test name) =>
    { p with phase := .body start initial test (.assign name value (name.span.upTo value.span)) }
  | .ifTest start => p.enter (.ifThen start value)
  | .whileTest start => p.enter (.whileDo start value)
  | .forTest start initial => { p with phase := .step start initial value }

/-- Reads one more token. -/
def step (p : Partial) (t : Token) : Except Expectation Partial :=
  match p.phase with
  | .statement => p.begin t
  | .declaredName start =>
    if t.kind = .identifier then
      .ok { p with phase := .equals (.declared start { text := t.text, span := t.span }) }
    else .error .declaredName
  | .equals receiver =>
    if (equalsAfter receiver).isMetBy t then .ok { p with phase := .value (.give receiver) {} }
    else
      match receiver, t.kind with
      | .assigned _, .assignment => .error .equals
      | _, _ => .error (equalsAfter receiver)
  | .value purpose read =>
    match read.step t with
    | .error x => .error x
    | .ok (.more read) => .ok { p with phase := .value purpose read }
    | .ok (.complete value) => .ok { p with phase := .ended purpose value }
  | .ended purpose value =>
    if (endOf purpose).isMetBy t then .ok (p.conclude value t.span purpose)
    else .error (endOf purpose)
  | .header start =>
    if Expectation.openHeader.isMetBy t then
      .ok { p with phase := .statement, frames := .initial start :: p.frames }
    else .error .openHeader
  | .step start initial test =>
    if t.kind = .identifier then
      .ok { p with
        phase := .equals (.stepped start initial test { text := t.text, span := t.span }) }
    else .error .step
  | .body start initial test step =>
    if (Expectation.openBody .forDo).isMetBy t then .ok (p.enter (.forDo start initial test step))
    else .error (.openBody .forDo)

/-- The program, if the input may end here; otherwise what it lacks. -/
def finish (p : Partial) : Except Expectation (List Stmt) :=
  match p.phase with
  | .statement =>
    match p.frames with
    | [] => .ok p.done.reverse
    | .body header _ :: _ => .error (.closeBody header.compound)
    | .initial _ :: _ => .error .statement
  | .declaredName _ => .error .declaredName
  | .equals receiver => .error (equalsAfter receiver)
  | .value _ read => .error read.missing
  | .ended purpose _ => .error (endOf purpose)
  | .header _ => .error .openHeader
  | .step _ _ _ => .error .step
  | .body _ _ _ _ => .error (.openBody .forDo)

/-- Reads one more token, or names it as the one at which reading fails. -/
def read (p : Partial) (t : Token) : Except SyntaxError Partial :=
  (p.step t).mapError (.atToken t)

end Partial

end Stmt

/-- The program that a list of tokens spells. -/
def parse (tokens : List Token) : Except SyntaxError (List Stmt) := do
  let p ← tokens.foldlM Stmt.Partial.read {}
  p.finish.mapError (.atEnd tokens)

end Quadcode
