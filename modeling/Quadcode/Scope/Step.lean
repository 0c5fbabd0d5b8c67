import Quadcode.Scope

/-!
# Working with scopes step by step

A sequence of steps on one stack of scopes, each with its reply. A step that fails does not end the
sequence: the next step goes on with the scopes as the failed one left them.
-/

namespace Quadcode.Scopes

/-- One thing that can be done with the scopes. -/
inductive Step where
  | push
  | pop
  | declare (name : Ident)
  | resolve (name : Ident)
  | ask (name : String)
  | checkAll (program : List Stmt)
  | checkBody (body : List Stmt)
  | resolveExpr (e : Expr)
deriving Repr

/-- What a step tells. -/
inductive Reply where
  | done
  | answer (declared : Bool)
  | failed (e : NameError)
deriving DecidableEq, Repr

/-- The reply of a check, and the scopes behind it. -/
def Reply.ofCheck (check : Check Unit) (s : Scopes) : Reply × Scopes :=
  match check s with
  | .ok () s' => (.done, s')
  | .error e s' => (.failed e, s')

/-- Does one step. -/
def perform (s : Scopes) : Step → Reply × Scopes
  | .push => (.done, s.push)
  | .pop => (.done, s.pop)
  | .declare name => Reply.ofCheck (Scopes.declare name) s
  | .resolve name => Reply.ofCheck (inspect (·.resolve name)) s
  | .ask name => (.answer (s.isDeclared name), s)
  | .checkAll program => Reply.ofCheck (Scopes.checkAll program) s
  | .checkBody body => Reply.ofCheck (Scopes.checkBody body) s
  | .resolveExpr e => Reply.ofCheck (inspect (·.resolveExpr e)) s

end Quadcode.Scopes
