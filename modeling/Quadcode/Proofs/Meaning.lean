import Mathlib.Logic.Relation
import Quadcode.Builder.Lowering
import Quadcode.Proofs.Machine

/-!
# What programs mean

The meaning of a program is a relation between the states before and after it: a state from which
the program runs on forever, or gets stuck, is related to none. `Actions` says what the smallest
parts of a program do to a state, and `Stmt.Runs` puts these together along the statements.

The plain meaning (`Actions.flat`) has one store for all names. A declaration writes there just like
an assignment, and a test holds if its value is not zero. `Actions.comparing` differs in the tests
only: one that compares is settled by the comparison, as the jumps of a listing do. For lawful
values that is the same (`Actions.flat_eq_comparing`).
-/

namespace Quadcode

universe u

/-! ## Loops and branches -/

section

variable {σ : Type u}

/-- One way through a branch: the body if the test holds, and nothing if it fails. -/
def Branch (test : σ → Option Bool) (body : σ → σ → Prop) (s s' : σ) : Prop :=
  test s = some true ∧ body s s' ∨ test s = some false ∧ s' = s

/-- All turns of a loop: the test holds before each of them and fails after the last. -/
inductive Loop (test : σ → Option Bool) (turn : σ → σ → Prop) : σ → σ → Prop
  | done {s : σ} (h : test s = some false) : Loop test turn s s
  | next {s s₁ s' : σ} (h : test s = some true) (first : turn s s₁) (rest : Loop test turn s₁ s') :
      Loop test turn s s'

end

/-! ## Statements -/

/-- What the parts of a program do to a state, `none` where one gets stuck. A body is run between
`enter` and `leave`, and so is a whole counting loop. -/
structure Actions (σ : Type u) where
  print : Expr → σ → Option σ
  declare : String → Expr → σ → Option σ
  assign : String → Expr → σ → Option σ
  test : Expr → σ → Option Bool
  enter : σ → σ
  leave : σ → σ

/-- What is run between `enter` and `leave`. -/
def Actions.Within {σ : Type u} (M : Actions σ) (body : σ → σ → Prop) (s s' : σ) : Prop :=
  ∃ t, body (M.enter s) t ∧ s' = M.leave t

namespace Stmt

variable {σ : Type u} (M : Actions σ)

mutual

/-- A run of the statement leads from the one state to the other. -/
def Runs : Stmt → σ → σ → Prop
  | .print value _ => fun s s' => M.print value s = some s'
  | .declare name value _ => fun s s' => M.declare name.text value s = some s'
  | .assign name value _ => fun s s' => M.assign name.text value s = some s'
  | .ifThen test body _ => Branch (M.test test) (M.Within (RunsAll body))
  | .whileDo test body _ => Loop (M.test test) (M.Within (RunsAll body))
  | .forDo initial test step body _ =>
    M.Within (Relation.Comp (Runs initial)
      (Loop (M.test test) (Relation.Comp (M.Within (RunsAll body)) (Runs step))))
termination_by structural s => s

/-- A run of the statements, one after the other, leads from the one state to the other. -/
def RunsAll : List Stmt → σ → σ → Prop
  | [] => fun s s' => s' = s
  | s :: rest => Relation.Comp (Runs s) (RunsAll rest)
termination_by structural body => body

end

end Stmt

/-! ## One store for all names -/

section

variable {V : Type u} (A : Arithmetic V)

/-- The value of an expression. Both operands of an operator are always computed. -/
def Expr.eval (s : Store V) : Expr → V
  | .number x _ => A.number x
  | .name x _ => s x
  | .binary op left right _ => A.apply op (left.eval s) (right.eval s)

/-- An expression as a test. -/
def Expr.isTrue (s : Store V) (test : Expr) : Bool :=
  match test.comparison? with
  | some (c, left, right) => A.holds c (left.eval A s) (right.eval A s)
  | none => !A.isZero (test.eval A s)

/-- A single store, and tests that ask whether a value is zero. -/
def Actions.flat : Actions (Store V) where
  print _ s := some s
  declare x e s := some (Function.update s x (e.eval A s))
  assign x e s := some (Function.update s x (e.eval A s))
  test e s := some (!A.isZero (e.eval A s))
  enter := id
  leave := id

/-- A single store, and tests that compare by themselves where they can. -/
def Actions.comparing : Actions (Store V) :=
  { Actions.flat A with test := fun e s => some (e.isTrue A s) }

end

section

variable {V : Type u} {A : Arithmetic V}

theorem Arithmetic.Lawful.isTrue_eq (hA : A.Lawful) (s : Store V) (test : Expr) :
    test.isTrue A s = !A.isZero (test.eval A s) := by
  cases test with
  | number x span => rfl
  | name x span => rfl
  | binary op left right span =>
    cases h : op.comparison? with
    | none => simp [Expr.isTrue, Expr.comparison?, h]
    | some c => simp [Expr.isTrue, Expr.comparison?, Expr.eval, h, hA.isZero_apply h]

theorem Actions.flat_eq_comparing (hA : A.Lawful) : Actions.flat A = Actions.comparing A := by
  simp only [Actions.comparing, Actions.flat, hA.isTrue_eq]

theorem Actions.within_comparing (body : Store V → Store V → Prop) :
    (Actions.comparing A).Within body = body := by
  funext s s'
  simp [Actions.Within, Actions.comparing, Actions.flat]

namespace Stmt

theorem runs_comparing_ifThen (test : Expr) (body : List Stmt) (span : Span) :
    (Stmt.ifThen test body span).Runs (.comparing A) =
      Branch ((Actions.comparing A).test test) (RunsAll (.comparing A) body) := by
  rw [Runs, Actions.within_comparing]

theorem runs_comparing_whileDo (test : Expr) (body : List Stmt) (span : Span) :
    (Stmt.whileDo test body span).Runs (.comparing A) =
      Loop ((Actions.comparing A).test test) (RunsAll (.comparing A) body) := by
  rw [Runs, Actions.within_comparing]

theorem runs_comparing_forDo (initial : Stmt) (test : Expr) (step : Stmt) (body : List Stmt)
    (span : Span) :
    (Stmt.forDo initial test step body span).Runs (.comparing A) =
      Relation.Comp (initial.Runs (.comparing A)) (Loop ((Actions.comparing A).test test)
        (Relation.Comp (RunsAll (.comparing A) body) (step.Runs (.comparing A)))) := by
  rw [Runs, Actions.within_comparing, Actions.within_comparing]

end Stmt

end

end Quadcode
