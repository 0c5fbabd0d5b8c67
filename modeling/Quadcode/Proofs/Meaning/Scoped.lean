import Quadcode.Proofs.Meaning

/-!
# Programs with scopes

In the meaning with scopes a declaration makes a variable of its own, which lives until the end of
the body that it stands in. A name stands for the variable of the nearest scope that declares it, so
that an inner declaration hides an outer variable of the same name and does not change it.
-/

namespace Quadcode

universe u

/-- The variables of the open scopes with their values, the innermost scope first. -/
abbrev Env (V : Type u) := List (String → Option V)

namespace Env

variable {V : Type u}

/-- The value of the nearest variable of a name. -/
def lookup? (x : String) : Env V → Option V
  | [] => none
  | scope :: outer => (scope x).or (lookup? x outer)

/-- Makes a variable in the innermost scope. -/
def declare? (x : String) (value : V) : Env V → Option (Env V)
  | [] => none
  | scope :: outer => some (Function.update scope x (some value) :: outer)

/-- Gives the nearest variable of a name a value. -/
def assign? (x : String) (value : V) : Env V → Option (Env V)
  | [] => none
  | scope :: outer =>
    if (scope x).isSome then some (Function.update scope x (some value) :: outer)
    else (assign? x value outer).map (scope :: ·)

end Env

section

variable {V : Type u} (A : Arithmetic V)

/-- The value of an expression, if all its names have one. -/
def Expr.eval? (env : Env V) : Expr → Option V
  | .number x _ => some (A.number x)
  | .name x _ => env.lookup? x
  | .binary op left right _ =>
    (left.eval? env).bind fun l => (right.eval? env).map fun r => A.apply op l r

/-- An expression as a test, if all its names have a value. -/
def Expr.isTrue? (env : Env V) (test : Expr) : Option Bool :=
  match test.comparison? with
  | some (c, left, right) =>
    (left.eval? A env).bind fun l => (right.eval? A env).map fun r => A.holds c l r
  | none => (test.eval? A env).map fun value => !A.isZero value

/-- Every body has a scope of its own, and so has every counting loop. -/
def Actions.scoped : Actions (Env V) where
  print e env := (e.eval? A env).map fun _ => env
  declare x e env := (e.eval? A env).bind fun value => env.declare? x value
  assign x e env := (e.eval? A env).bind fun value => env.assign? x value
  test e env := e.isTrue? A env
  enter env := (fun _ => none) :: env
  leave := List.tail

end

end Quadcode
