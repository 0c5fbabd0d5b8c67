import Quadcode.Binary64
import Quadcode.Operator

/-!
# Quads

A quad is one instruction of the lowered program. It has four fields: what it does, up to two
operands, and where the result or the control goes. A quad either works on values or jumps,
and a jump is taken always or when its test holds. While code is being built, the target of a
jump may be unresolved.
-/

namespace Quadcode

/-- The number of a quad in its listing. -/
abbrev Address := Nat

/-- Where a jump leads. -/
inductive Target where
  | unresolved
  | to (address : Address)
deriving DecidableEq, Repr

/-- The target that a 64-bit word stands for: the word of all ones is kept for
targets that are unresolved. -/
def Target.ofWord (word : UInt64) : Target :=
  if word = 0xFFFFFFFFFFFFFFFF then .unresolved else .to word.toNat

/-- How a target is written. -/
def Target.text : Target → String
  | .unresolved => "?"
  | .to address => address.repr

/-- A value that a quad reads or the place of one that it writes. -/
inductive Operand where
  | number (value : Binary64)
  | name (name : String)
  | temp (index : Nat)
deriving DecidableEq, Repr

/-- How an operand is written. -/
def Operand.text : Operand → String
  | .number value => value.text
  | .name n => n
  | .temp index => "temp" ++ index.repr

/-- What a quad does with values: it copies one, or applies an operator. -/
inductive Operation where
  | copy
  | apply (op : Operator)
deriving DecidableEq, Repr

/-- How an operation is written. -/
def Operation.symbol : Operation → String
  | .copy => "="
  | .apply op => op.symbol

/-- When a jump is taken. -/
inductive Test where
  | always
  | isZero (operand : Operand)
  | isNonzero (operand : Operand)
  | compare (comparison : Comparison) (left right : Operand)
deriving DecidableEq, Repr

/-- How the jump on a test is called. -/
def Test.mnemonic : Test → String
  | .always => "j"
  | .isZero _ => "jez"
  | .isNonzero _ => "jnz"
  | .compare comparison _ _ => "j" ++ comparison.symbol

/-- The operands of a test. -/
def Test.operands : Test → Option Operand × Option Operand
  | .always => (none, none)
  | .isZero operand => (some operand, none)
  | .isNonzero operand => (some operand, none)
  | .compare _ left right => (some left, some right)

/-- An instruction. -/
inductive Quad where
  | operate (operation : Operation) (left : Operand) (right : Option Operand) (result : Operand)
  | jump (test : Test) (target : Target)
deriving DecidableEq, Repr

namespace Quad

/-- The target of a jump. -/
def target? : Quad → Option Target
  | .operate _ _ _ _ => none
  | .jump _ target => some target

/-- How a field for an operand is written. -/
def operandText : Option Operand → String
  | some operand => operand.text
  | none => "_"

/-- The texts of the four fields. -/
def fields : Quad → List String
  | .operate operation left right result =>
    [operation.symbol, left.text, operandText right, result.text]
  | .jump test target =>
    [test.mnemonic, operandText test.operands.1, operandText test.operands.2, target.text]

/-- How a quad is written: its fields in round brackets. -/
def text (q : Quad) : String :=
  "(" ++ ", ".intercalate q.fields ++ ")"

end Quad

end Quadcode
