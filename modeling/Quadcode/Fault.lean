import Quadcode.Phrase
import Quadcode.Scope
import Quadcode.SyntaxError
import Quadcode.Token.Lexer

/-!
# Faults

A script is refused for one fault: a character, a token or a name that does not belong. Every fault
has a code, a message, a place, a label for that place, and sometimes a note on what to do.
-/

namespace Quadcode

/-- Why a script is refused. -/
inductive Fault where
  | lexical (e : LexicalError)
  | syntactic (e : SyntaxError)
  | naming (e : NameError)
deriving DecidableEq, Repr

namespace Fault

/-- The kind of fault. -/
def code : Fault → String
  | .lexical _ => "LexError"
  | .syntactic e => if e.found.isNone then "EOF" else "Syntax Error"
  | .naming (.redeclared _) => "DuplicateDeclaration"
  | .naming (.undeclared _) => "UndeclaredIdentifier"

/-- What is wrong, in words. -/
def message : Fault → String
  | .lexical e => e.message
  | .syntactic e => e.message
  | .naming e => e.message

/-- The stretch of source at fault. -/
def span : Fault → Span
  | .lexical e => e.span
  | .syntactic e => e.span
  | .naming e => e.name.span

/-- What to write at the place of the fault. -/
def label : Fault → Phrase
  | .lexical e => [.plain ("no token starts with '" ++ String.singleton e.character ++ "'")]
  | .syntactic e =>
    match e.found with
    | some t => [.plain ("unexpected " ++ t.kind.name)]
    | none => [.plain "input ends here"]
  | .naming (.redeclared n) => [.name n.text, .plain " is already declared in this scope"]
  | .naming (.undeclared n) => [.name n.text, .plain " is not declared in any enclosing scope"]

/-- What to do about the fault. -/
def note? : Fault → Option Phrase
  | .naming (.undeclared n) =>
    some [.plain "declare it first with '", .name "var", .plain (" " ++ n.text ++ " = ...;'")]
  | .naming (.redeclared _) =>
    some [.plain "a name can be declared again only inside a nested block"]
  | _ => none

end Fault

end Quadcode
