import Quadcode.Builder.Lowering
import Quadcode.Fault
import Quadcode.Stmt.Partial

/-!
# From script to listing

The stages in a row: tokens, statements, names, quads. Each stage stops at its first fault, and so
the fault of a script is that of the first stage that refuses it.
-/

namespace Quadcode

/-- The tokens of a script. -/
def tokensOf (source : String) : Except Fault (List Token) :=
  (lex source).mapError .lexical

/-- The statements that tokens spell. -/
def programOf (tokens : List Token) : Except Fault (List Stmt) :=
  (parse tokens).mapError .syntactic

/-- The statements that tokens spell, with their names in order. -/
def checkedProgramOf (tokens : List Token) : Except Fault (List Stmt) := do
  let program ← programOf tokens
  (checkNames program).mapError .naming
  pure program

/-- The listing of a script. -/
def compile (source : String) : Except Fault Listing := do
  let tokens ← tokensOf source
  let program ← checkedProgramOf tokens
  pure (lower program)

end Quadcode
