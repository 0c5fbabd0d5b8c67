import Quadcode.Stmt

/-!
# Name scopes

Every name must be declared before it is used, and only once in a scope. A body is a scope of
its own inside the scope of its statement, and so is a whole counting loop, header and body.
`Scopes` holds the names that are declared at one place of a program, and `Scopes.checkStmt`
walks a statement in the order of its text, failing at the first name that breaks a rule. A
check hands the scopes on also when it fails, and every scope that it opens it closes again in
either case (`Scopes.nested`).
-/

namespace Quadcode

/-- A name that breaks a rule of scopes. -/
inductive NameError where
  | redeclared (name : Ident)
  | undeclared (name : Ident)
deriving DecidableEq, Repr

namespace NameError

/-- The offending name. -/
def name : NameError → Ident
  | .redeclared n => n
  | .undeclared n => n

/-- What is wrong, in words. -/
def message : NameError → String
  | .redeclared n =>
    "'" ++ n.text ++ "' is already declared in this scope (at " ++ n.span.place ++ ")"
  | .undeclared n => "use of undeclared identifier '" ++ n.text ++ "' at " ++ n.span.place

end NameError

/-- The names declared in the innermost scope, and in the scopes around it from the inside out. The
outermost scope is always open. -/
structure Scopes where
  innermost : List String := []
  enclosing : List (List String) := []
deriving DecidableEq, Repr, Inhabited

namespace Scopes

/-- How many scopes are open. -/
def depth (s : Scopes) : Nat :=
  s.enclosing.length + 1

/-- Opens a scope. -/
def push (s : Scopes) : Scopes :=
  { innermost := [], enclosing := s.innermost :: s.enclosing }

/-- Closes the innermost scope, unless it is the outermost one too. -/
def pop (s : Scopes) : Scopes :=
  match s.enclosing with
  | [] => s
  | names :: rest => { innermost := names, enclosing := rest }

/-- The name is declared in some open scope. -/
def isDeclared (s : Scopes) (name : String) : Bool :=
  (s.innermost :: s.enclosing).any fun names => names.contains name

/-- Fails unless the name is declared. -/
def resolve (s : Scopes) (name : Ident) : Except NameError Unit :=
  if s.isDeclared name.text then .ok () else .error (.undeclared name)

/-- Fails at the first name of the expression that is not declared. -/
def resolveExpr (s : Scopes) : Expr → Except NameError Unit
  | .number _ _ => .ok ()
  | .name name span => s.resolve { text := name, span }
  | .binary _ left right _ => do
    s.resolveExpr left
    s.resolveExpr right

/-! ## Checks -/

/-- An action on the scopes that may find an offending name. -/
abbrev Check := EStateM NameError Scopes

/-- Declares a name in the innermost scope; fails if it is declared there already. -/
def declare (name : Ident) : Check Unit := fun s =>
  if s.innermost.contains name.text then .error (.redeclared name) s
  else .ok () { s with innermost := name.text :: s.innermost }

/-- A test that leaves the scopes alone. -/
def inspect (test : Scopes → Except NameError Unit) : Check Unit := fun s =>
  match test s with
  | .ok () => .ok () s
  | .error e => .error e s

/-- Runs a check in a scope of its own. -/
def nested (check : Check Unit) : Check Unit := fun s =>
  match check s.push with
  | .ok () s' => .ok () s'.pop
  | .error e s' => .error e s'.pop

mutual

/-- Checks a statement. The value of a declaration does not see the name that is being declared. -/
def checkStmt : Stmt → Check Unit
  | .print value _ => inspect (·.resolveExpr value)
  | .declare name value _ => do
    inspect (·.resolveExpr value)
    declare name
  | .assign name value _ => do
    inspect (·.resolve name)
    inspect (·.resolveExpr value)
  | .ifThen test body _ => do
    inspect (·.resolveExpr test)
    nested (checkAll body)
  | .whileDo test body _ => do
    inspect (·.resolveExpr test)
    nested (checkAll body)
  | .forDo initial test step body _ => nested do
    checkStmt initial
    inspect (·.resolveExpr test)
    checkStmt step
    nested (checkAll body)
termination_by structural s => s

/-- Checks statements one after the other. -/
def checkAll : List Stmt → Check Unit
  | [] => pure ()
  | s :: rest => do
    checkStmt s
    checkAll rest
termination_by structural body => body

end

/-- Checks statements in a scope of their own. -/
def checkBody (body : List Stmt) : Check Unit :=
  nested (checkAll body)

end Scopes

/-- Checks the names of a whole program. -/
def checkNames (program : List Stmt) : Except NameError Unit :=
  match Scopes.checkAll program {} with
  | .ok () _ => .ok ()
  | .error e _ => .error e

end Quadcode
