import Quadcode.Token.Lexeme

/-!
# From source text to tokens

`lex` cuts a source text into lexemes from left to right, keeps the tokens with their places and
drops the trivia. It fails at the first place where no lexeme begins.
-/

namespace Quadcode

/-- A character with which no lexeme begins, and where it stands. -/
structure LexicalError where
  character : Char
  position : Position
deriving DecidableEq, Repr

namespace LexicalError

/-- The stretch of the offending character. -/
def span (e : LexicalError) : Span :=
  e.position.spanOf [e.character]

/-- What is wrong, in words. -/
def message (e : LexicalError) : String :=
  "unexpected character '" ++ String.singleton e.character ++ "' at " ++ e.span.place

end LexicalError

namespace Token

/-- The tokens of `cs`, which stands at `p` behind an operand or not. -/
def lexFrom (afterOperand : Bool) (p : Position) (cs : List Char) :
    Except LexicalError (List Token) :=
  match cs with
  | [] => .ok []
  | c :: rest =>
    match h : lexeme? afterOperand (c :: rest) with
    | none => .error { character := c, position := p }
    | some (kind, length) =>
      have : 0 < length := lexeme?_pos h
      let text := (c :: rest).take length
      let after := (c :: rest).drop length
      if kind.isTrivia then lexFrom afterOperand (p.advance text) after
      else
        let token : Token := { kind, text := String.ofList text, span := p.spanOf text }
        (lexFrom token.endsOperand (p.advance text) after).map (token :: ·)
termination_by cs.length
decreasing_by all_goals simp only [List.length_drop, List.length_cons]; omega

end Token

/-- The tokens of a source text. -/
def lex (source : String) : Except LexicalError (List Token) :=
  Token.lexFrom false {} source.toList

end Quadcode
