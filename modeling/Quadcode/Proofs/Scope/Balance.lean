import Mathlib.Data.List.Infix
import Quadcode.Proofs.Scope.Effect
import Quadcode.Scope.Step

/-!
# Scopes that are opened and closed again

A check can fail at a name anywhere in nested bodies and loop headers, with scopes open that only
the check has opened. Whether it fails or not, it hands on the scopes around the innermost one as
they were (`Scopes.Keeps`), and so closing the scope of a body or a loop brings back the very scopes
in which it was opened (`Scopes.behind_nested`). Hence a statement that fails its check leaves no
trace, and over a sequence of steps only pushes and pops change how many scopes are open.
-/

namespace Quadcode

namespace Scopes

variable {check check' : Check Unit} {s s' : Scopes} {e : NameError}

/-! ## What a check hands on -/

/-- The scopes behind a check, whether it succeeds or fails. -/
def behind (check : Check Unit) (s : Scopes) : Scopes :=
  (Reply.ofCheck check s).2

/-- The check leaves the scopes around the innermost one alone. -/
def Keeps (check : Check Unit) : Prop :=
  ∀ s, (behind check s).enclosing = s.enclosing

/-- The check leaves the scopes alone if it fails. -/
def Restores (check : Check Unit) : Prop :=
  ∀ s e s', check s = .error e s' → s' = s

theorem behind_eq_of_ok (h : check s = .ok () s') : behind check s = s' := by
  simp only [behind, Reply.ofCheck, h]

theorem behind_eq_of_error (h : check s = .error e s') : behind check s = s' := by
  simp only [behind, Reply.ofCheck, h]

theorem behind_inspect (test : Scopes → Except NameError Unit) (s : Scopes) :
    behind (inspect test) s = s := by
  simp only [behind, Reply.ofCheck, inspect]
  cases test s <;> rfl

theorem behind_nested_eq (check : Check Unit) (s : Scopes) :
    behind (nested check) s = (behind check s.push).pop := by
  simp only [behind, Reply.ofCheck, nested]
  cases check s.push <;> rfl

/-- A check in a scope of its own leaves all as it was. -/
theorem behind_nested (h : Keeps check) (s : Scopes) : behind (nested check) s = s := by
  rw [behind_nested_eq, pop_eq_of_enclosing (h s.push)]

theorem Keeps.bind (h : Keeps check) (h' : Keeps check') : Keeps (do check; check') := by
  intro s
  have hs := h s
  cases hc : check s with
  | ok _ s₁ =>
    have hbind : behind (do check; check') s = behind check' s₁ := by
      simp only [behind, Reply.ofCheck, Bind.bind, EStateM.bind, hc]
    rw [behind_eq_of_ok hc] at hs
    rw [hbind, h' s₁, hs]
  | error e s₁ =>
    have hbind : (do check; check' : Check Unit) s = .error e s₁ := by
      simp only [Bind.bind, EStateM.bind, hc]
    rw [behind_eq_of_error hc] at hs
    rw [behind_eq_of_error hbind, hs]

theorem keeps_inspect (test : Scopes → Except NameError Unit) : Keeps (inspect test) :=
  fun s => by rw [behind_inspect]

theorem Keeps.nested (h : Keeps check) : Keeps (nested check) :=
  fun s => by rw [behind_nested h]

theorem keeps_declare (name : Ident) : Keeps (declare name) := by
  intro s
  by_cases h : name.text ∈ s.innermost <;> simp [behind, Reply.ofCheck, declare, h]

/-- All that is checked in the scope of a counting loop. -/
theorem Keeps.header {initial step : Stmt} {body : List Stmt} (hinitial : Keeps (checkStmt initial))
    (hstep : Keeps (checkStmt step)) (hbody : Keeps (checkAll body)) (test : Expr) :
    Keeps (do
      checkStmt initial
      inspect (·.resolveExpr test)
      checkStmt step
      Scopes.nested (checkAll body)) :=
  hinitial.bind ((keeps_inspect _).bind (hstep.bind hbody.nested))

mutual

theorem keeps_checkStmt (stmt : Stmt) : Keeps (checkStmt stmt) := by
  match stmt with
  | .print value _ => exact keeps_inspect _
  | .declare name value _ => exact (keeps_inspect _).bind (keeps_declare name)
  | .assign name value _ => exact (keeps_inspect _).bind (keeps_inspect _)
  | .ifThen test body _ | .whileDo test body _ =>
    exact (keeps_inspect _).bind (keeps_checkAll body).nested
  | .forDo initial test step body _ =>
    exact ((keeps_checkStmt initial).header (keeps_checkStmt step) (keeps_checkAll body)
      test).nested

theorem keeps_checkAll (body : List Stmt) : Keeps (checkAll body) := by
  match body with
  | [] => exact fun _ => rfl
  | stmt :: rest => exact (keeps_checkStmt stmt).bind (keeps_checkAll rest)

end

/-! ## Checks that fail -/

theorem restores_of_behind_eq (h : ∀ s, behind check s = s) : Restores check := by
  intro s e s' hc
  rw [← behind_eq_of_error hc, h s]

theorem restores_declare (name : Ident) : Restores (declare name) := by
  intro s e s' h
  by_cases hmem : name.text ∈ s.innermost
  · simp only [declare, List.contains_iff_mem, hmem, if_true] at h
    exact (EStateM.Result.error.inj h).2.symm
  · simp [declare, hmem] at h

theorem Restores.inspect_bind (h : Restores check) (test : Scopes → Except NameError Unit) :
    Restores (do inspect test; check) := by
  intro s e s' hc
  cases ht : test s with
  | ok =>
    have hcheck : (do inspect test; check : Check Unit) s = check s := by
      simp only [Bind.bind, EStateM.bind, inspect, ht]
    exact h s e s' (hcheck ▸ hc)
  | error e' =>
    simp only [Bind.bind, EStateM.bind, inspect, ht] at hc
    exact (EStateM.Result.error.inj hc).2.symm

/-- A statement that fails its check leaves the scopes as they were, however deep in it the
offending name stands. -/
theorem restores_checkStmt (stmt : Stmt) : Restores (checkStmt stmt) := by
  match stmt with
  | .print value _ => exact restores_of_behind_eq (behind_inspect _)
  | .declare name value _ => exact (restores_declare name).inspect_bind _
  | .assign name value _ => exact (restores_of_behind_eq (behind_inspect _)).inspect_bind _
  | .ifThen test body _ | .whileDo test body _ =>
    exact (restores_of_behind_eq (behind_nested (keeps_checkAll body))).inspect_bind _
  | .forDo initial test step body _ =>
    have hheader :=
      (keeps_checkStmt initial).header (keeps_checkStmt step) (keeps_checkAll body) test
    exact restores_of_behind_eq (behind_nested hheader)

/-! ## Pushes and pops -/

namespace Step

/-- The step opens a scope. -/
def opens : Step → Bool
  | .push => true
  | _ => false

/-- The step closes a scope, if there is one that can be closed. -/
def closes : Step → Bool
  | .pop => true
  | _ => false

/-- The steps undo a push right in front of them: they begin with some steps among which are
more pops than pushes. -/
def Undo (later : List Step) : Prop :=
  ∃ first ∈ later.inits, first.countP opens < first.countP closes

instance (later : List Step) : Decidable (Undo later) :=
  inferInstanceAs (Decidable (∃ first ∈ later.inits, first.countP opens < first.countP closes))

/-- How many of the pushes are not undone by the steps behind them. -/
def standing : List Step → Nat
  | [] => 0
  | step :: later => standing later + if step.opens ∧ ¬ Undo later then 1 else 0

/-- By how many the pops of some steps outnumber the pushes, at the point where
this number is greatest. -/
def excess : List Step → Nat
  | [] => 0
  | step :: later => excess later + step.closes.toNat - step.opens.toNat

theorem opens_or_closes (step : Step) :
    (step.opens = true ∧ step.closes = false) ∨ (step.opens = false ∧ step.closes = true) ∨
      (step.opens = false ∧ step.closes = false) := by
  cases step <;> simp [opens, closes]

theorem countP_cons_toNat (p : Step → Bool) (step : Step) (later : List Step) :
    (step :: later).countP p = later.countP p + (p step).toNat := by
  rw [List.countP_cons]
  cases p step <;> rfl

theorem lt_excess_iff {steps : List Step} {n : Nat} :
    n < excess steps ↔ ∃ first ∈ steps.inits, first.countP opens + n < first.countP closes := by
  induction steps generalizing n with
  | nil => simp [excess]
  | cons step later ih =>
    have hcons : (∃ first ∈ (step :: later).inits, first.countP opens + n < first.countP closes) ↔
        ∃ first ∈ later.inits,
          first.countP opens + step.opens.toNat + n < first.countP closes + step.closes.toNat := by
      simp [countP_cons_toNat]
    rw [hcons, excess]
    rcases step.opens_or_closes with ⟨ho, hc⟩ | ⟨ho, hc⟩ | ⟨ho, hc⟩
    · have hlt : n < excess later + false.toNat - true.toNat ↔ n + 1 < excess later := by
        rw [Bool.toNat_false, Bool.toNat_true]
        omega
      rw [ho, hc, hlt, ih]
      simp [Nat.add_assoc, Nat.add_comm 1]
    · rw [ho, hc]
      cases n with
      | zero =>
        -- The pop alone is one more than no push at all.
        refine iff_of_true (Nat.succ_pos _)
          ⟨[], (List.mem_inits _ _).2 List.nil_prefix, Nat.zero_lt_one⟩
      | succ n =>
        have hlt : n + 1 < excess later + true.toNat - false.toNat ↔ n < excess later := by
          rw [Bool.toNat_false, Bool.toNat_true]
          omega
        rw [hlt, ih]
        simp [← Nat.add_assoc]
    · rw [ho, hc]
      exact ih

theorem undo_iff {later : List Step} : Undo later ↔ 0 < excess later :=
  (lt_excess_iff (n := 0)).symm

end Step

/-! ## Runs -/

/-- The scopes after the steps. A step that fails does not end them. -/
def afterSteps (s : Scopes) (steps : List Step) : Scopes :=
  steps.foldl (fun s step => (s.perform step).2) s

/-- How many of the steps are pops that have an effect. -/
def closings (s : Scopes) : List Step → Nat
  | [] => 0
  | step :: later =>
    closings (s.perform step).2 later + if step.closes ∧ (s.perform step).2 ≠ s then 1 else 0

theorem enclosing_perform {step : Step} (ho : step.opens = false) (hc : step.closes = false)
    (s : Scopes) : (s.perform step).2.enclosing = s.enclosing := by
  cases step with
  | push => cases ho
  | pop => cases hc
  | declare name => exact keeps_declare name s
  | resolve name => exact keeps_inspect _ s
  | ask name => rfl
  | checkAll program => exact keeps_checkAll program s
  | checkBody body => exact (keeps_checkAll body).nested s
  | resolveExpr e => exact keeps_inspect _ s

theorem length_enclosing_pop (s : Scopes) : s.pop.enclosing.length = s.enclosing.length - 1 := by
  rw [pop]
  split
  · next h => rw [h]; rfl
  · next h => rw [h]; rfl

theorem length_enclosing_perform (s : Scopes) (step : Step) :
    (s.perform step).2.enclosing.length =
      s.enclosing.length + step.opens.toNat - step.closes.toNat := by
  cases step with
  | push => rfl
  | pop => exact length_enclosing_pop s
  | declare | resolve | ask | checkAll | checkBody | resolveExpr =>
    exact congrArg List.length (enclosing_perform rfl rfl s)

theorem length_enclosing_afterSteps (s : Scopes) (steps : List Step) :
    (s.afterSteps steps).enclosing.length =
      Step.standing steps + (s.enclosing.length - Step.excess steps) := by
  induction steps generalizing s with
  | nil => simp [afterSteps, Step.standing, Step.excess]
  | cons step later ih =>
    have hrest := ih (s.perform step).2
    rw [length_enclosing_perform] at hrest
    rw [afterSteps, List.foldl_cons, ← afterSteps, hrest, Step.standing, Step.excess]
    rcases step.opens_or_closes with ⟨ho, hc⟩ | ⟨ho, hc⟩ | ⟨ho, hc⟩
    · -- A push adds a scope, which the later steps close if they undo the push.
      by_cases hundo : Step.Undo later
      · have hexcess := Step.undo_iff.1 hundo
        simp only [ho, hc, hundo, Bool.toNat_true, Bool.toNat_false, not_true_eq_false,
          and_false, if_false]
        omega
      · have hexcess := mt Step.undo_iff.2 hundo
        simp only [ho, hc, hundo, Bool.toNat_true, Bool.toNat_false, not_false_eq_true,
          and_self, if_true]
        omega
    · simp only [ho, hc, Bool.toNat_true, Bool.toNat_false, Bool.false_eq_true, false_and, if_false]
      omega
    · simp [ho, hc]

theorem pop_eq_self_iff : s.pop = s ↔ s.enclosing.length = 0 := by
  constructor
  · intro h
    have hlength := length_enclosing_pop s
    rw [h] at hlength
    omega
  · intro h
    rw [pop, List.length_eq_zero_iff.1 h]

theorem length_enclosing_perform_add (s : Scopes) (step : Step) :
    (s.perform step).2.enclosing.length + (if step.closes ∧ (s.perform step).2 ≠ s then 1 else 0) =
      s.enclosing.length + step.opens.toNat := by
  have hlength := length_enclosing_perform s step
  cases step with
  | pop =>
    have heffect : (s.perform .pop).2 ≠ s ↔ s.enclosing.length ≠ 0 := not_congr pop_eq_self_iff
    simp only [Step.opens, Step.closes, Bool.toNat_false, Bool.toNat_true, heffect, true_and]
      at hlength ⊢
    split_ifs <;> omega
  | push | declare | resolve | ask | checkAll | checkBody | resolveExpr =>
    simpa [Step.closes] using hlength

theorem length_enclosing_add_closings (s : Scopes) (steps : List Step) :
    (s.afterSteps steps).enclosing.length + s.closings steps =
      s.enclosing.length + steps.countP Step.opens := by
  induction steps generalizing s with
  | nil => rfl
  | cons step later ih =>
    have hstep := length_enclosing_perform_add s step
    have hrest := ih (s.perform step).2
    rw [afterSteps, List.foldl_cons, ← afterSteps, closings, Step.countP_cons_toNat]
    omega

/-- Checks leave the scopes as they should. A statement that fails its check leaves them as they
were, and one that passes adds at most the name that it declares, to the innermost scope. A body
leaves them as they were in either case. So after any steps on fresh scopes, failed ones among them,
there is one scope more than there are pushes that no later pop has undone, and each pop that had an
effect has undone one push. -/
theorem checks_leave_balance :
    (∀ (stmt : Stmt) (s : Scopes),
      checkStmt stmt s = .ok () (s.after stmt) ∨ ∃ e, checkStmt stmt s = .error e s) ∧
    (∀ (body : List Stmt) (s : Scopes),
      checkBody body s = .ok () s ∨ ∃ e, checkBody body s = .error e s) ∧
    ∀ steps : List Step,
      1 ≤ (({} : Scopes).afterSteps steps).depth ∧
      (({} : Scopes).afterSteps steps).depth = 1 + Step.standing steps ∧
      Step.standing steps + ({} : Scopes).closings steps = steps.countP Step.opens := by
  refine ⟨fun stmt s => ?_, fun body s => ?_, fun steps => ?_⟩
  · cases h : checkStmt stmt s with
    | ok _ s' => exact .inl (by rw [eq_after_of_checkStmt h])
    | error e s' => exact .inr ⟨e, by rw [restores_checkStmt stmt s e s' h]⟩
  · have hbehind := behind_nested (keeps_checkAll body) s
    cases h : checkBody body s with
    | ok _ s' => exact .inl (by rw [← behind_eq_of_ok h, checkBody, hbehind])
    | error e s' => exact .inr ⟨e, by rw [← behind_eq_of_error h, checkBody, hbehind]⟩
  · have hdepth := length_enclosing_afterSteps {} steps
    have hcount := length_enclosing_add_closings {} steps
    simp only [List.length_nil, Nat.zero_sub, Nat.add_zero, Nat.zero_add] at hdepth hcount
    exact ⟨Nat.succ_pos _, by rw [depth, hdepth, Nat.add_comm], by rw [← hdepth, hcount]⟩

example : Step.standing [.pop, .push, .push, .pop, .pop, .pop, .push] = 1 := by decide

end Scopes

end Quadcode
