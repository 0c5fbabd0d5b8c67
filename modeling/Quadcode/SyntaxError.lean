import Quadcode.Token.Basic

/-!
# What the grammar asks for

An `Expectation` is what the grammar asks for at one place of a program. Those that ask for one
fixed token name it in `Expectation.mark?`. A `SyntaxError` is an expectation that the next token,
or the end of the input, does not meet.
-/

namespace Quadcode

/-- The statements that have a body. -/
inductive Compound where
  | ifThen
  | whileDo
  | forDo
deriving DecidableEq, Repr

/-- The keyword of a compound statement. -/
def Compound.keyword : Compound → String
  | .ifThen => "if"
  | .whileDo => "while"
  | .forDo => "for"

/-- What may come next. -/
inductive Expectation where
  | statement
  | expression
  | numeral
  | operatorOrClose
  | closeOperation
  | declaredName
  | equalsAfterDeclared
  | equalsAfterName (name : String)
  | equals
  | endOfPrint
  | endOfDeclaration
  | endOfAssignment
  | openHeader
  | endOfTest
  | step
  | closeHeader
  | openBody (owner : Compound)
  | closeBody (owner : Compound)
deriving DecidableEq, Repr

namespace Expectation

/-- The one token that meets an expectation, if it asks for one fixed token. -/
def mark? : Expectation → Option (Token.Kind × String)
  | .closeOperation | .closeHeader => some (.bracket, ")")
  | .openHeader => some (.bracket, "(")
  | .equalsAfterDeclared | .equalsAfterName _ | .equals => some (.assignment, "=")
  | .endOfPrint | .endOfDeclaration | .endOfAssignment | .endOfTest => some (.separator, ";")
  | .openBody _ => some (.bracket, "\x7b")
  | .closeBody _ => some (.bracket, "\x7d")
  | .statement | .expression | .numeral | .operatorOrClose | .declaredName | .step => none

/-- The part that the awaited thing has in the program; for a fixed token,
the words that follow it. -/
def role : Expectation → String
  | .statement => "a statement"
  | .expression => "an expression"
  | .numeral => "a valid number literal"
  | .operatorOrClose => "an operator or ')'"
  | .closeOperation => "to close the expression"
  | .declaredName => "a variable name after 'var'"
  | .equalsAfterDeclared => "after the declared name"
  | .equalsAfterName name => "after '" ++ name ++ "' in an assignment"
  | .equals => "in assignment"
  | .endOfPrint => "after print statement"
  | .endOfDeclaration => "after declaration"
  | .endOfAssignment => "after assignment"
  | .openHeader => "after 'for'"
  | .endOfTest => "after the loop condition"
  | .step => "an assignment as the loop increment"
  | .closeHeader => "to close the loop header"
  | .openBody owner => "to open the '" ++ owner.keyword ++ "' body"
  | .closeBody owner => "to close the '" ++ owner.keyword ++ "' body"

/-- An expectation in words. -/
def text (x : Expectation) : String :=
  match x.mark? with
  | some (_, mark) => "'" ++ mark ++ "' " ++ x.role
  | none => x.role

/-- The token is the fixed one that the expectation asks for. -/
def isMetBy (x : Expectation) (t : Token) : Bool :=
  x.mark?.any fun m => t.is m.1 m.2

end Expectation

/-- An expectation that was not met: by the token `found`, or by the end of the input. -/
structure SyntaxError where
  expected : Expectation
  found : Option Token
  span : Span
deriving DecidableEq, Repr

namespace SyntaxError

/-- The token `t` does not meet `x`. -/
def atToken (t : Token) (x : Expectation) : SyntaxError :=
  { expected := x, found := some t, span := t.span }

/-- The end of the input, right behind its last token. Its column has no upper limit: it is worked
out only for an error that needs it, and it is exact also where the sum would not fit a machine
word. Behind the tokens of a source that cannot happen, since the column is at most the size of the
source. -/
def endSpan (tokens : List Token) : Span :=
  match tokens.getLast? with
  | none => {}
  | some t =>
    { start := t.span.stop, stop := t.span.stop, line := t.span.line,
      column := t.span.column + t.text.utf8ByteSize }

/-- The end of `tokens` does not meet `x`. -/
def atEnd (tokens : List Token) (x : Expectation) : SyntaxError :=
  { expected := x, found := none, span := endSpan tokens }

/-- What is wrong, in words. -/
def message (e : SyntaxError) : String :=
  match e.found with
  | some t => "expected " ++ e.expected.text ++ ", found " ++ t.quoted ++ " at " ++ e.span.place
  | none => "expected " ++ e.expected.text ++ ", but reached end of input"

end SyntaxError

end Quadcode
