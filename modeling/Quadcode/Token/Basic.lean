import Quadcode.Operator
import Quadcode.Span

/-!
# Tokens

A token is a classified piece of source text with its place. Comments and blanks are classified too,
but they are trivia: no token list that is read from a source holds any.
-/

namespace Quadcode

namespace Token

/-- The class of a token. -/
inductive Kind where
  | comment
  | whitespace
  | number
  | keyword
  | operator
  | identifier
  | assignment
  | bracket
  | separator
deriving DecidableEq, Repr

namespace Kind

/-- All classes, in the order in which a source is tried against them. -/
def all : List Kind :=
  [.comment, .whitespace, .number, .keyword, .operator, .identifier, .assignment,
    .bracket, .separator]

/-- The name of a class in messages. -/
def name : Kind → String
  | .comment => "comment"
  | .whitespace => "whitespace"
  | .number => "number"
  | .keyword => "keyword"
  | .operator => "operator"
  | .identifier => "identifier"
  | .assignment => "assignment"
  | .bracket => "bracket"
  | .separator => "separator"

/-- The class of a given name. -/
def ofName? (s : String) : Option Kind :=
  all.find? fun k => k.name = s

/-- Trivia separate tokens and are dropped. -/
def isTrivia : Kind → Bool
  | .comment | .whitespace => true
  | _ => false

end Kind

end Token

/-- A classified piece of source text. -/
structure Token where
  kind : Token.Kind
  text : String
  span : Span := {}
deriving DecidableEq, Repr

namespace Token

/-- The token has this class and this text. -/
def is (t : Token) (kind : Kind) (text : String) : Bool :=
  t.kind = kind ∧ t.text = text

/-- The operator that a token stands for. -/
def operator? (t : Token) : Option Operator :=
  if t.kind = .operator then Operator.ofSymbol? t.text else none

/-- An operand of an operator can end in this token, so that a minus behind it subtracts. -/
def endsOperand (t : Token) : Bool :=
  t.kind = .number ∨ t.kind = .identifier ∨ t.is .bracket ")"

/-- The token as messages quote it. -/
def quoted (t : Token) : String :=
  t.kind.name ++ " '" ++ t.text ++ "'"

/-- The token with its place. -/
def describe (t : Token) : String :=
  t.quoted ++ " at " ++ t.span.place

end Token

end Quadcode
