import Quadcode.Scope

/-!
# What a check leaves behind

A check that succeeds leaves the scopes as they were, except that a declaration adds its name to the
innermost one (`Scopes.after`). Whatever a body declares is gone when its scope is closed.
-/

namespace Quadcode

namespace Scopes

variable {check check' : Check Unit} {s s' : Scopes}

/-! ## Checks that succeed -/

theorem bind_eq_ok_iff :
    (do check; check' : Check Unit) s = .ok () s' ↔
      ∃ s₁, check s = .ok () s₁ ∧ check' s₁ = .ok () s' := by
  cases h : check s <;> simp [Bind.bind, EStateM.bind, h]

theorem inspect_eq_ok_iff {test : Scopes → Except NameError Unit} :
    inspect test s = .ok () s' ↔ test s = .ok () ∧ s' = s := by
  cases h : test s <;> simp [inspect, h, eq_comm]

theorem nested_eq_ok_iff :
    nested check s = .ok () s' ↔ ∃ s₁, check s.push = .ok () s₁ ∧ s' = s₁.pop := by
  cases h : check s.push <;> simp [nested, h, eq_comm]

theorem declare_eq_ok_iff {name : Ident} :
    declare name s = .ok () s' ↔
      name.text ∉ s.innermost ∧ s' = { s with innermost := name.text :: s.innermost } := by
  by_cases h : name.text ∈ s.innermost <;> simp [declare, h, eq_comm]

theorem resolve_eq_ok_iff {name : Ident} :
    s.resolve name = .ok () ↔ s.isDeclared name.text = true := by
  by_cases h : s.isDeclared name.text = true <;> simp [resolve, h]

theorem resolveExpr_binary_eq_ok_iff {op : Operator} {left right : Expr} {span : Span} :
    s.resolveExpr (.binary op left right span) = .ok () ↔
      s.resolveExpr left = .ok () ∧ s.resolveExpr right = .ok () := by
  cases h : s.resolveExpr left <;> simp [resolveExpr, h, bind, Except.bind]

/-! ## The scopes after a statement -/

/-- The scopes behind a statement. -/
def after (s : Scopes) : Stmt → Scopes
  | .declare name _ _ => { s with innermost := name.text :: s.innermost }
  | _ => s

/-- The scopes behind statements. -/
def afterAll (s : Scopes) (body : List Stmt) : Scopes :=
  body.foldl after s

theorem enclosing_after (s : Scopes) (stmt : Stmt) : (s.after stmt).enclosing = s.enclosing := by
  cases stmt <;> rfl

theorem enclosing_afterAll (s : Scopes) (body : List Stmt) :
    (s.afterAll body).enclosing = s.enclosing := by
  induction body generalizing s with
  | nil => rfl
  | cons stmt rest ih => exact (ih _).trans (enclosing_after s stmt)

theorem innermost_subset_after (s : Scopes) (stmt : Stmt) :
    s.innermost ⊆ (s.after stmt).innermost := by
  cases stmt with
  | declare name value span => exact List.subset_cons_self _ _
  | _ => exact List.Subset.refl _

theorem innermost_subset_afterAll (s : Scopes) (body : List Stmt) :
    s.innermost ⊆ (s.afterAll body).innermost := by
  induction body generalizing s with
  | nil => exact List.Subset.refl _
  | cons stmt rest ih => exact List.Subset.trans (s.innermost_subset_after stmt) (ih _)

theorem mem_innermost_afterAll {name : Ident} {value : Expr} {span : Span} {body : List Stmt}
    (h : Stmt.declare name value span ∈ body) (s : Scopes) :
    name.text ∈ (s.afterAll body).innermost := by
  induction body generalizing s with
  | nil => cases h
  | cons stmt rest ih =>
    rcases List.mem_cons.1 h with rfl | h
    · exact innermost_subset_afterAll _ rest List.mem_cons_self
    · exact ih h _

@[simp] theorem isDeclared_push (s : Scopes) (x : String) :
    s.push.isDeclared x = s.isDeclared x := by
  simp [isDeclared, push]

theorem isDeclared_after_declare (s : Scopes) (name : Ident) (value : Expr) (span : Span)
    (x : String) :
    (s.after (.declare name value span)).isDeclared x = true ↔
      s.isDeclared x = true ∨ x = name.text := by
  simp only [after, isDeclared, List.any_cons, List.contains_cons, Bool.or_eq_true, beq_iff_eq]
  rw [or_assoc]
  exact or_comm

theorem isDeclared_after_of_isDeclared {x : String} (h : s.isDeclared x = true) (stmt : Stmt) :
    (s.after stmt).isDeclared x = true := by
  cases stmt with
  | declare name value span => exact (isDeclared_after_declare s name value span x).2 (.inl h)
  | _ => exact h

theorem isDeclared_afterAll_of_isDeclared {x : String} (h : s.isDeclared x = true)
    (body : List Stmt) : (s.afterAll body).isDeclared x = true := by
  induction body generalizing s with
  | nil => exact h
  | cons stmt rest ih => exact ih (isDeclared_after_of_isDeclared h stmt)

theorem pop_eq_of_enclosing (h : s'.enclosing = s.push.enclosing) : s'.pop = s := by
  simp only [pop, h, push]

mutual

theorem eq_after_of_checkStmt {stmt : Stmt} {s s' : Scopes} (h : checkStmt stmt s = .ok () s') :
    s' = s.after stmt := by
  match stmt with
  | .print value _ => exact (inspect_eq_ok_iff.1 h).2
  | .declare name value _ =>
    obtain ⟨s₁, h₁, h₂⟩ := bind_eq_ok_iff.1 h
    obtain ⟨-, rfl⟩ := inspect_eq_ok_iff.1 h₁
    exact (declare_eq_ok_iff.1 h₂).2
  | .assign name value _ =>
    obtain ⟨s₁, h₁, h₂⟩ := bind_eq_ok_iff.1 h
    obtain ⟨-, rfl⟩ := inspect_eq_ok_iff.1 h₁
    exact (inspect_eq_ok_iff.1 h₂).2
  | .ifThen test body _ | .whileDo test body _ =>
    obtain ⟨s₁, h₁, h₂⟩ := bind_eq_ok_iff.1 h
    obtain ⟨-, rfl⟩ := inspect_eq_ok_iff.1 h₁
    obtain ⟨s₂, hbody, rfl⟩ := nested_eq_ok_iff.1 h₂
    rw [eq_afterAll_of_checkAll hbody]
    exact pop_eq_of_enclosing (enclosing_afterAll _ _)
  | .forDo initial test step body _ =>
    obtain ⟨s₁, hheader, rfl⟩ := nested_eq_ok_iff.1 h
    obtain ⟨s₂, h₂, hrest⟩ := bind_eq_ok_iff.1 hheader
    obtain ⟨s₃, h₃, hrest⟩ := bind_eq_ok_iff.1 hrest
    obtain ⟨s₄, h₄, hrest⟩ := bind_eq_ok_iff.1 hrest
    obtain ⟨s₅, hbody, rfl⟩ := nested_eq_ok_iff.1 hrest
    obtain ⟨-, rfl⟩ := inspect_eq_ok_iff.1 h₃
    rw [eq_afterAll_of_checkAll hbody, pop_eq_of_enclosing (enclosing_afterAll _ _)]
    refine pop_eq_of_enclosing (s := s) ?_
    rw [eq_after_of_checkStmt h₄, enclosing_after, eq_after_of_checkStmt h₂, enclosing_after]

theorem eq_afterAll_of_checkAll {body : List Stmt} {s s' : Scopes}
    (h : checkAll body s = .ok () s') : s' = s.afterAll body := by
  match body with
  | [] => exact (EStateM.Result.ok.inj h).2.symm
  | stmt :: rest =>
    obtain ⟨s₁, h₁, h₂⟩ := bind_eq_ok_iff.1 h
    rw [eq_afterAll_of_checkAll h₂, eq_after_of_checkStmt h₁]
    rfl

end

end Scopes

theorem checkNames_eq_ok_iff {program : List Stmt} :
    checkNames program = .ok () ↔ ∃ scopes, Scopes.checkAll program {} = .ok () scopes := by
  cases h : Scopes.checkAll program {} <;> simp [checkNames, h]

end Quadcode
