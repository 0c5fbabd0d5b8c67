import Quadcode.Builder
import Quadcode.Stmt

/-!
# Lowering

Statements become quads. An operation leaves its value in a temporary. The test of a branch or a
loop becomes a jump past the body, taken when the test fails: if the test is a comparison, the jump
makes the negated comparison itself, and otherwise it asks whether the value is zero. That jump is
emitted open and patched when the end of the body is known.
-/

namespace Quadcode

/-- The comparison that an expression makes at its root, with its operands. -/
def Expr.comparison? : Expr → Option (Comparison × Expr × Expr)
  | .binary op left right _ => op.comparison?.map fun c => (c, left, right)
  | _ => none

namespace Builder

/-- Emits the code of an expression and gives the operand that holds its value. -/
def lowerExpr : Expr → Build Operand
  | .number value _ => pure (.number value)
  | .name name _ => pure (.name name)
  | .binary op left right _ => do
    let l ← lowerExpr left
    let r ← lowerExpr right
    let result ← freshTemp
    let _ ← emit (.operate (.apply op) l (some r) result)
    pure result

/-- Emits the code of a test and an open jump that is taken when the test fails. -/
def lowerTest (test : Expr) : Build OpenJump :=
  match test.comparison? with
  | some (c, left, right) => do
    let l ← lowerExpr left
    let r ← lowerExpr right
    reserve (.jump (.compare c.negate l r) .unresolved)
  | none => do
    let value ← lowerExpr test
    reserve (.jump (.isZero value) .unresolved)

/-- Emits the code that gives a name a value. -/
def lowerAssign (name : Ident) (value : Expr) : Build Unit := do
  let v ← lowerExpr value
  let _ ← emit (.operate .copy v none (.name name.text))

/-- Emits a branch around the code that `body` emits. -/
def lowerBranch (test : Expr) (body : Build Unit) : Build Unit := do
  let skip ← lowerTest test
  body
  patch skip (.to (← here))

/-- Emits a loop around the code that `body` emits. -/
def lowerLoop (test : Expr) (body : Build Unit) : Build Unit := do
  let start ← here
  let exit ← lowerTest test
  body
  let _ ← emit (.jump .always (.to start))
  patch exit (.to (← here))

mutual

/-- Emits the code of a statement. -/
def lowerStmt : Stmt → Build Unit
  | .print value _ => do
    let _ ← lowerExpr value
  | .declare name value _ => lowerAssign name value
  | .assign name value _ => lowerAssign name value
  | .ifThen test body _ => lowerBranch test (lowerAll body)
  | .whileDo test body _ => lowerLoop test (lowerAll body)
  | .forDo initial test step body _ => do
    lowerStmt initial
    lowerLoop test do
      lowerAll body
      lowerStmt step
termination_by structural s => s

/-- Emits the code of statements one after the other. -/
def lowerAll : List Stmt → Build Unit
  | [] => pure ()
  | s :: rest => do
    lowerStmt s
    lowerAll rest
termination_by structural body => body

end

/-- The builder that holds the code of a program and nothing else. Lowering patches each jump that
it reserves once, so that no action of it fails. -/
def ofProgram (program : List Stmt) : Builder :=
  match lowerAll program {} with
  | .ok () b => b
  | .error _ b => b

end Builder

/-- The listing of a program. -/
def lower (program : List Stmt) : Listing :=
  { quads := (Builder.ofProgram program).quads }

end Quadcode
