import Quadcode.Compile
import Quadcode.Proofs.Grammar.Recognition
import Quadcode.Proofs.Lowering.Correctness
import Quadcode.Proofs.Meaning.Scoped
import Quadcode.Proofs.Scope.Effect

/-!
# Listings and scopes

A listing has one variable for every name, and so it keeps apart two variables of one name only as
long as they are not needed at the same time. If no declaration hides a variable of an enclosing
scope (`Stmt.ShadowFree`), the variables of the open scopes are a view of the one store
(`Scopes.view`), the meaning with scopes and the plain one run side by side (`Views`), and the
listing of an accepted script leaves every variable of the outermost scope with its value. Where a
declaration does hide a variable, the listing overwrites it.
-/

namespace Quadcode

universe u

/-! ## Declarations that hide nothing -/

namespace Stmt

mutual

/-- No declaration of the statement, checked in the given scopes, has a name that
an enclosing scope has. -/
def ShadowFree (scopes : Scopes) : Stmt → Prop
  | .print _ _ => True
  | .declare name _ _ => ∀ names ∈ scopes.enclosing, name.text ∉ names
  | .assign _ _ _ => True
  | .ifThen _ body _ => ShadowFreeAll scopes.push body
  | .whileDo _ body _ => ShadowFreeAll scopes.push body
  | .forDo initial _ step body _ =>
    ShadowFree scopes.push initial ∧ ShadowFree (scopes.push.after initial) step ∧
      ShadowFreeAll ((scopes.push.after initial).after step).push body
termination_by structural s => s

/-- No declaration of the statements, checked in the given scopes, has a name that
an enclosing scope has. -/
def ShadowFreeAll (scopes : Scopes) : List Stmt → Prop
  | [] => True
  | s :: rest => ShadowFree scopes s ∧ ShadowFreeAll (scopes.after s) rest
termination_by structural body => body

end

end Stmt

/-! ## The store seen through scopes -/

namespace Scopes

variable {V : Type u}

/-- The variables of the names of a scope, with their values in the store. -/
def viewLevel (s : Store V) (names : List String) (x : String) : Option V :=
  if x ∈ names then some (s x) else none

/-- The variables of the open scopes, with their values in the store. -/
def view (scopes : Scopes) (s : Store V) : Env V :=
  (scopes.innermost :: scopes.enclosing).map (viewLevel s)

/-- No name is declared in two of the open scopes. -/
def Apart (scopes : Scopes) : Prop :=
  (scopes.innermost :: scopes.enclosing).Pairwise fun inner outer => ∀ x ∈ inner, x ∉ outer

variable {A : Arithmetic V} {scopes : Scopes} {s : Store V}

@[simp] theorem viewLevel_nil (s : Store V) : viewLevel s [] = fun _ => none :=
  funext fun _ => if_neg List.not_mem_nil

theorem lookup?_map_viewLevel {levels : List (List String)} {x : String}
    (h : (levels.any fun names => names.contains x) = true) :
    Env.lookup? x (levels.map (viewLevel s)) = some (s x) := by
  induction levels with
  | nil => simp at h
  | cons names rest ih =>
    rw [List.map_cons, Env.lookup?, viewLevel]
    by_cases hx : x ∈ names
    · rw [if_pos hx, Option.some_or]
    · rw [if_neg hx, Option.none_or]
      exact ih (by simpa [hx] using h)

theorem eval?_view {e : Expr} (h : scopes.resolveExpr e = .ok ()) :
    e.eval? A (scopes.view s) = some (e.eval A s) := by
  induction e with
  | number x span => rfl
  | name x span => exact lookup?_map_viewLevel (resolve_eq_ok_iff.1 h)
  | binary op left right span ihl ihr =>
    obtain ⟨hl, hr⟩ := resolveExpr_binary_eq_ok_iff.1 h
    rw [Expr.eval?, ihl hl, ihr hr]
    rfl

theorem isTrue?_view {test : Expr} (h : scopes.resolveExpr test = .ok ()) :
    test.isTrue? A (scopes.view s) = some (test.isTrue A s) := by
  cases hc : test.comparison? with
  | none => simp [Expr.isTrue?, Expr.isTrue, hc, eval?_view h]
  | some comparison =>
    obtain ⟨c, left, right⟩ := comparison
    obtain ⟨op, span, rfl, -⟩ := Expr.comparison?_eq_some_iff.1 hc
    obtain ⟨hl, hr⟩ := resolveExpr_binary_eq_ok_iff.1 h
    simp [Expr.isTrue?, Expr.isTrue, hc, eval?_view hl, eval?_view hr]

theorem viewLevel_update_of_not_mem {names : List String} {x : String} (h : x ∉ names) (value : V) :
    viewLevel (Function.update s x value) names = viewLevel s names := by
  funext y
  by_cases hy : y ∈ names
  · have hne : y ≠ x := fun heq => h (heq ▸ hy)
    simp [viewLevel, hy, hne]
  · simp [viewLevel, hy]

theorem update_viewLevel {names : List String} {x : String} (h : x ∈ names) (value : V) :
    Function.update (viewLevel s names) x (some value) =
      viewLevel (Function.update s x value) names := by
  funext y
  by_cases hy : y = x
  · subst hy
    simp [viewLevel, h]
  · simp [viewLevel, hy]

theorem map_viewLevel_update_of_not_mem {levels : List (List String)} {x : String}
    (h : ∀ names ∈ levels, x ∉ names) (value : V) :
    levels.map (viewLevel (Function.update s x value)) = levels.map (viewLevel s) :=
  List.map_congr_left fun names hn => viewLevel_update_of_not_mem (h names hn) value

/-- A new variable is a write to the store, if no open scope but the innermost has its name. -/
theorem declare?_view {x : String} (h : ∀ names ∈ scopes.enclosing, x ∉ names) (value : V) :
    (scopes.view s).declare? x value =
      some ({ scopes with innermost := x :: scopes.innermost : Scopes }.view
        (Function.update s x value)) := by
  have hhead : Function.update (viewLevel s scopes.innermost) x (some value) =
      viewLevel (Function.update s x value) (x :: scopes.innermost) := by
    funext y
    by_cases hy : y = x
    · subst hy
      simp [viewLevel]
    · simp [viewLevel, hy]
  rw [view, List.map_cons, Env.declare?, hhead, ← map_viewLevel_update_of_not_mem h value]
  rfl

/-- An assignment to a variable is a write to the store, if the name is
declared in one open scope. -/
theorem assign?_map_viewLevel {levels : List (List String)} {x : String}
    (hx : (levels.any fun names => names.contains x) = true)
    (hapart : levels.Pairwise fun inner outer => ∀ x ∈ inner, x ∉ outer) (value : V) :
    Env.assign? x value (levels.map (viewLevel s)) =
      some (levels.map (viewLevel (Function.update s x value))) := by
  induction levels with
  | nil => simp at hx
  | cons names rest ih =>
    rw [List.map_cons, Env.assign?, List.map_cons]
    obtain ⟨hhead, hrest⟩ := List.pairwise_cons.1 hapart
    by_cases hmem : x ∈ names
    · have houter : ∀ outer ∈ rest, x ∉ outer := fun outer ho => hhead outer ho x hmem
      simp [viewLevel, hmem, map_viewLevel_update_of_not_mem houter, ← update_viewLevel hmem]
    · have hsome : (rest.any fun names => names.contains x) = true := by simpa [hmem] using hx
      rw [ih hsome hrest, viewLevel_update_of_not_mem hmem]
      simp [viewLevel, hmem]

theorem Apart.push (h : scopes.Apart) : scopes.push.Apart :=
  List.pairwise_cons.2 ⟨fun _ _ _ hx => absurd hx List.not_mem_nil, h⟩

theorem Apart.after (h : scopes.Apart) {stmt : Stmt} (hfree : stmt.ShadowFree scopes) :
    (scopes.after stmt).Apart := by
  cases stmt with
  | declare name value span =>
    obtain ⟨hhead, hrest⟩ := List.pairwise_cons.1 h
    refine List.pairwise_cons.2 ⟨fun outer ho x hx => ?_, hrest⟩
    rcases List.mem_cons.1 hx with rfl | hx
    · exact hfree outer ho
    · exact hhead outer ho x hx
  | _ => exact h

end Scopes

/-! ## Two meanings side by side -/

/-- Seen through the scopes before and after, the steps of environments are those of stores. -/
def Views {V : Type u} (scopes scopes' : Scopes) (R : Env V → Env V → Prop)
    (Q : Store V → Store V → Prop) : Prop :=
  ∀ s env', R (scopes.view s) env' ↔ ∃ s', Q s s' ∧ env' = scopes'.view s'

namespace Views

variable {V : Type u} {A : Arithmetic V} {scopes scopes₁ scopes₂ : Scopes}
  {R R₁ : Env V → Env V → Prop} {Q Q₁ : Store V → Store V → Prop}

theorem comp (h : Views scopes scopes₁ R Q) (h₁ : Views scopes₁ scopes₂ R₁ Q₁) :
    Views scopes scopes₂ (Relation.Comp R R₁) (Relation.Comp Q Q₁) := by
  intro s env'
  constructor
  · rintro ⟨env₁, hR, hR₁⟩
    obtain ⟨s₁, hQ, rfl⟩ := (h s env₁).1 hR
    obtain ⟨s', hQ₁, rfl⟩ := (h₁ s₁ env').1 hR₁
    exact ⟨s', ⟨s₁, hQ, hQ₁⟩, rfl⟩
  · rintro ⟨s', ⟨s₁, hQ, hQ₁⟩, rfl⟩
    exact ⟨_, (h s _).2 ⟨s₁, hQ, rfl⟩, (h₁ s₁ _).2 ⟨s', hQ₁, rfl⟩⟩

/-- Leaving a scope takes its variables out of view. -/
theorem within (h : Views scopes.push scopes₁ R Q)
    (hscopes : scopes₁.enclosing = scopes.push.enclosing) :
    Views scopes scopes ((Actions.scoped A).Within R) Q := by
  have hleave (s : Store V) : (Actions.scoped A).leave (scopes₁.view s) = scopes.view s := by
    rw [Scopes.view, hscopes]
    rfl
  have henter (s : Store V) : (Actions.scoped A).enter (scopes.view s) = scopes.push.view s :=
    congrArg (· :: scopes.view s) (Scopes.viewLevel_nil s).symm
  intro s env'
  constructor
  · rintro ⟨env, hR, rfl⟩
    rw [henter] at hR
    obtain ⟨s', hQ, rfl⟩ := (h s env).1 hR
    exact ⟨s', hQ, hleave s'⟩
  · rintro ⟨s', hQ, rfl⟩
    exact ⟨_, henter s ▸ (h s _).2 ⟨s', hQ, rfl⟩, (hleave s').symm⟩

theorem within_of_nested {body : List Stmt}
    (hcheck : Scopes.nested (Scopes.checkAll body) scopes = .ok () scopes₁)
    (h : ∀ scopes₂, Scopes.checkAll body scopes.push = .ok () scopes₂ →
      Views scopes.push scopes₂ R Q) :
    Views scopes scopes ((Actions.scoped A).Within R) Q ∧ scopes₁ = scopes := by
  obtain ⟨scopes₂, h₂, rfl⟩ := Scopes.nested_eq_ok_iff.1 hcheck
  have henclosing : scopes₂.enclosing = scopes.push.enclosing := by
    rw [Scopes.eq_afterAll_of_checkAll h₂, Scopes.enclosing_afterAll]
  exact ⟨(h scopes₂ h₂).within henclosing, Scopes.pop_eq_of_enclosing henclosing⟩

theorem of_eq {f : Env V → Option (Env V)} {g : Store V → Store V}
    (h : ∀ s, f (scopes.view s) = some (scopes₁.view (g s))) :
    Views scopes scopes₁ (fun env env' => f env = some env')
      (fun s s' => some (g s) = some s') := by
  intro s env'
  simp [h s, eq_comm]

theorem branch {test : Expr} (htest : scopes.resolveExpr test = .ok ())
    (h : Views scopes scopes R Q) :
    Views scopes scopes (Branch ((Actions.scoped A).test test) R)
      (Branch ((Actions.comparing A).test test) Q) := by
  intro s env'
  have hview : (Actions.scoped A).test test (scopes.view s) = (Actions.comparing A).test test s :=
    Scopes.isTrue?_view htest
  constructor
  · rintro (⟨htrue, hR⟩ | ⟨hfalse, rfl⟩)
    · obtain ⟨s', hQ, rfl⟩ := (h s env').1 hR
      exact ⟨s', .inl ⟨hview ▸ htrue, hQ⟩, rfl⟩
    · exact ⟨s, .inr ⟨hview ▸ hfalse, rfl⟩, rfl⟩
  · rintro ⟨s', ⟨htrue, hQ⟩ | ⟨hfalse, rfl⟩, rfl⟩
    · exact .inl ⟨hview.trans htrue, (h s _).2 ⟨s', hQ, rfl⟩⟩
    · exact .inr ⟨hview.trans hfalse, rfl⟩

theorem loop {test : Expr} (htest : scopes.resolveExpr test = .ok ())
    (h : Views scopes scopes R Q) :
    Views scopes scopes (Loop ((Actions.scoped A).test test) R)
      (Loop ((Actions.comparing A).test test) Q) := by
  have hview (s : Store V) :
      (Actions.scoped A).test test (scopes.view s) = (Actions.comparing A).test test s :=
    Scopes.isTrue?_view htest
  intro s env'
  constructor
  · intro hloop
    -- The induction is on the turns of the environment, which is a view of some store before each
    -- of them.
    generalize henv : scopes.view s = env at hloop
    induction hloop generalizing s with
    | done hfalse =>
      subst henv
      exact ⟨s, .done ((hview s).symm.trans hfalse), rfl⟩
    | next htrue first rest ih =>
      subst henv
      obtain ⟨s₁, hQ, rfl⟩ := (h s _).1 first
      obtain ⟨s', hrest, rfl⟩ := ih s₁ rfl
      exact ⟨s', .next ((hview s).symm.trans htrue) hQ hrest, rfl⟩
  · rintro ⟨s', hloop, rfl⟩
    induction hloop with
    | done hfalse => exact .done ((hview _).trans hfalse)
    | next htrue first rest ih => exact .next ((hview _).trans htrue) ((h _ _).2 ⟨_, first, rfl⟩) ih

end Views

namespace Stmt

open Scopes

variable {V : Type u} {A : Arithmetic V}

theorem views_assign {name : Ident} {value : Expr} {span : Span} {scopes scopes' : Scopes}
    (hcheck : checkStmt (.assign name value span) scopes = .ok () scopes') (hapart : scopes.Apart) :
    Views scopes scopes' ((Stmt.assign name value span).Runs (.scoped A))
      ((Stmt.assign name value span).Runs (.comparing A)) := by
  obtain ⟨_, h₁, h₂⟩ := bind_eq_ok_iff.1 hcheck
  obtain ⟨hname, rfl⟩ := inspect_eq_ok_iff.1 h₁
  obtain ⟨hvalue, rfl⟩ := inspect_eq_ok_iff.1 h₂
  refine .of_eq fun s => ?_
  simp only [Actions.scoped, eval?_view hvalue, Option.bind_some]
  exact assign?_map_viewLevel (resolve_eq_ok_iff.1 hname) hapart _

mutual

theorem views_runs {stmt : Stmt} {scopes scopes' : Scopes}
    (hcheck : checkStmt stmt scopes = .ok () scopes') (hapart : scopes.Apart)
    (hfree : stmt.ShadowFree scopes) (hsteps : stmt.StepsAssign) :
    Views scopes scopes' (stmt.Runs (.scoped A)) (stmt.Runs (.comparing A)) := by
  match stmt with
  | .print value _ =>
    obtain ⟨hvalue, rfl⟩ := inspect_eq_ok_iff.1 hcheck
    refine .of_eq fun s => ?_
    simp [Actions.scoped, eval?_view hvalue]
  | .declare name value span =>
    obtain ⟨_, h₁, h₂⟩ := bind_eq_ok_iff.1 hcheck
    obtain ⟨hvalue, rfl⟩ := inspect_eq_ok_iff.1 h₁
    obtain ⟨-, rfl⟩ := declare_eq_ok_iff.1 h₂
    refine .of_eq fun s => ?_
    simp only [Actions.scoped, eval?_view hvalue, Option.bind_some]
    exact declare?_view hfree _
  | .assign name value _ => exact views_assign hcheck hapart
  | .ifThen test body _ =>
    obtain ⟨_, h₁, h₂⟩ := bind_eq_ok_iff.1 hcheck
    obtain ⟨htest, rfl⟩ := inspect_eq_ok_iff.1 h₁
    obtain ⟨hbody, rfl⟩ :=
      Views.within_of_nested h₂ fun _ h => views_runsAll h hapart.push hfree hsteps
    rw [runs_comparing_ifThen]
    exact hbody.branch htest
  | .whileDo test body _ =>
    obtain ⟨_, h₁, h₂⟩ := bind_eq_ok_iff.1 hcheck
    obtain ⟨htest, rfl⟩ := inspect_eq_ok_iff.1 h₁
    obtain ⟨hbody, rfl⟩ :=
      Views.within_of_nested h₂ fun _ h => views_runsAll h hapart.push hfree hsteps
    rw [runs_comparing_whileDo]
    exact hbody.loop htest
  | .forDo initial test step body _ =>
    obtain ⟨hinitial, hstep, hbody⟩ := hfree
    obtain ⟨hinitial', ⟨name, value, span, rfl⟩, hbody'⟩ := hsteps
    obtain ⟨scopes₁, hheader, rfl⟩ := nested_eq_ok_iff.1 hcheck
    obtain ⟨scopes₂, h₁, hrest₁⟩ := bind_eq_ok_iff.1 hheader
    obtain ⟨scopes₃, h₂, hrest₂⟩ := bind_eq_ok_iff.1 hrest₁
    obtain ⟨scopes₄, h₃, h₄⟩ := bind_eq_ok_iff.1 hrest₂
    obtain ⟨htest, rfl⟩ := inspect_eq_ok_iff.1 h₂
    -- The step is an assignment, and so every turn of the loop begins in the same scopes.
    obtain rfl : scopes₄ = scopes₃ := eq_after_of_checkStmt h₃
    have hafter := eq_after_of_checkStmt h₁
    have hapart₄ : scopes₄.Apart := hafter ▸ hapart.push.after hinitial
    obtain ⟨hinner, rfl⟩ := Views.within_of_nested (A := A) h₄ fun _ h =>
      views_runsAll h hapart₄.push (hafter ▸ hbody) hbody'
    have hturn := hinner.comp (views_assign (A := A) h₃ hapart₄)
    have hloop := (views_runs h₁ hapart.push hinitial hinitial').comp (hturn.loop (A := A) htest)
    have henclosing : scopes₁.enclosing = scopes.push.enclosing := by rw [hafter, enclosing_after]
    rw [runs_comparing_forDo, pop_eq_of_enclosing henclosing]
    exact hloop.within henclosing

theorem views_runsAll {body : List Stmt} {scopes scopes' : Scopes}
    (hcheck : checkAll body scopes = .ok () scopes') (hapart : scopes.Apart)
    (hfree : ShadowFreeAll scopes body) (hsteps : StepsAssignAll body) :
    Views scopes scopes' (RunsAll (.scoped A) body) (RunsAll (.comparing A) body) := by
  match body with
  | [] =>
    obtain rfl := (EStateM.Result.ok.inj hcheck).2
    intro s env'
    simp [RunsAll]
  | stmt :: rest =>
    obtain ⟨scopes₁, h₁, h₂⟩ := bind_eq_ok_iff.1 hcheck
    obtain rfl := eq_after_of_checkStmt h₁
    exact (views_runs h₁ hapart hfree.1 hsteps.1).comp
      (views_runsAll h₂ (hapart.after hfree.1) hfree.2 hsteps.2)

end

end Stmt

/-! ## Scripts -/

/-- A script is accepted if its tokens spell a program whose names are in order; its
listing is the program's. -/
theorem compile_eq_ok_iff {source : String} {l : Listing} :
    compile source = .ok l ↔
      ∃ program, (tokensOf source >>= checkedProgramOf) = .ok program ∧ lower program = l := by
  simp only [compile, except_bind_eq_ok_iff, pure, Except.pure, Except.ok.injEq]
  constructor
  · rintro ⟨tokens, htokens, program, hprogram, hl⟩
    exact ⟨program, ⟨tokens, htokens, hprogram⟩, hl⟩
  · rintro ⟨program, ⟨tokens, htokens, hprogram⟩, hl⟩
    exact ⟨tokens, htokens, program, hprogram, hl⟩

theorem checkedProgramOf_eq_ok_iff {tokens : List Token} {program : List Stmt} :
    checkedProgramOf tokens = .ok program ↔
      parse tokens = .ok program ∧ checkNames program = .ok () := by
  simp only [checkedProgramOf, programOf, except_bind_eq_ok_iff, except_mapError_eq_ok_iff, pure,
    Except.pure, Except.ok.injEq]
  constructor
  · rintro ⟨program, hparse, _, hnames, rfl⟩
    exact ⟨hparse, hnames⟩
  · rintro ⟨hparse, hnames⟩
    exact ⟨program, hparse, (), hnames, rfl⟩

/-- The listing of an accepted script in which no declaration hides a variable of an enclosing
scope halts exactly if the script does with its scopes, and it leaves every variable of the
outermost scope with its value. -/
theorem compile_respects_scopes {V : Type u} {A : Arithmetic V} (hA : A.Complements)
    {source : String} {l : Listing} (h : compile source = .ok l) :
    ∃ program, (tokensOf source >>= checkedProgramOf) = .ok program ∧
      (Stmt.ShadowFreeAll {} program → ∀ s t,
      ((∃ env, Stmt.RunsAll (.scoped A) program [fun _ => none] env) ↔
        ∃ s' t', l.Reaches A ⟨0, s, t⟩ ⟨l.size, s', t'⟩) ∧
      ∀ env s' t', Stmt.RunsAll (.scoped A) program [fun _ => none] env →
        l.Reaches A ⟨0, s, t⟩ ⟨l.size, s', t'⟩ →
        ∀ name value span, .declare name value span ∈ program →
          env.lookup? name.text = some (s' name.text)) := by
  obtain ⟨program, hprogram, rfl⟩ := compile_eq_ok_iff.1 h
  refine ⟨program, hprogram, fun hfree s t => ?_⟩
  obtain ⟨tokens, -, hchecked⟩ := except_bind_eq_ok_iff.1 hprogram
  obtain ⟨hparse, hnames⟩ := checkedProgramOf_eq_ok_iff.1 hchecked
  obtain ⟨scopes, hcheck⟩ := checkNames_eq_ok_iff.1 hnames
  have hviews := Stmt.views_runsAll (A := A) hcheck (List.pairwise_singleton _ _) hfree
    (stepsAssignAll_of_parse hparse) s
  have hstart : ({} : Scopes).view s = [fun _ => none] :=
    congrArg (fun scope => [scope]) (Scopes.viewLevel_nil s)
  rw [hstart] at hviews
  refine ⟨⟨?_, ?_⟩, fun env s' t' hrun hreach name value span hname => ?_⟩
  · rintro ⟨env, hrun⟩
    obtain ⟨s', hflat, -⟩ := (hviews env).1 hrun
    exact ⟨s', (runsAll_comparing_iff hA program s s' t).1 hflat⟩
  · rintro ⟨s', hreach⟩
    exact ⟨_, (hviews _).2 ⟨s', (runsAll_comparing_iff hA program s s' t).2 hreach, rfl⟩⟩
  · obtain ⟨s₁, hflat, rfl⟩ := (hviews env).1 hrun
    obtain ⟨t₁, hreach₁⟩ := (runsAll_comparing_iff hA program s s₁ t).1 hflat
    obtain rfl : s₁ = s' := (Machine.mk.inj (hreach₁.unique hreach rfl rfl)).2.1
    have hmem : name.text ∈ scopes.innermost := by
      rw [Scopes.eq_afterAll_of_checkAll hcheck]
      exact Scopes.mem_innermost_afterAll hname {}
    exact Scopes.lookup?_map_viewLevel (by simp [hmem])

/-- A script that declares a name again when the scope of its first declaration is closed. -/
def reuseScript : String := "if 1 \x7b var a = 2; \x7d var a = 1;"

/-- The program of `reuseScript`. -/
def reuseProgram : List Stmt :=
  [.ifThen (.number (.finite false ⟨0x3FF0000000000000, by decide⟩) ⟨3, 4, 0, 3⟩)
    [.declare ⟨"a", 11, 12, 0, 11⟩
      (.number (.finite false ⟨0x4000000000000000, by decide⟩) ⟨15, 16, 0, 15⟩)
      ⟨7, 17, 0, 7⟩] ⟨0, 19, 0, 0⟩,
    .declare ⟨"a", 24, 25, 0, 24⟩
      (.number (.finite false ⟨0x3FF0000000000000, by decide⟩) ⟨28, 29, 0, 28⟩)
      ⟨20, 30, 0, 20⟩]

theorem reuseScript_program : (tokensOf reuseScript >>= checkedProgramOf) = .ok reuseProgram :=
  eq_ok_of_toOption (by decide +kernel)

theorem compile_respects_scopes_reuse :
    Arithmetic.whole.Complements ∧ compile reuseScript = .ok (lower reuseProgram) ∧
      Stmt.ShadowFreeAll {} reuseProgram ∧ ∃ env store temps,
        Stmt.RunsAll (.scoped .whole) reuseProgram [fun _ => none] env ∧
        (lower reuseProgram).Reaches Arithmetic.whole ⟨0, fun _ => 0, fun _ => 0⟩
          ⟨(lower reuseProgram).size, store, temps⟩ ∧
        env.lookup? "a" = some (store "a") := by
  have hcompile := compile_eq_ok_iff.2 ⟨_, reuseScript_program, rfl⟩
  have hfree : Stmt.ShadowFreeAll {} reuseProgram := by
    simp [reuseProgram, Stmt.ShadowFreeAll, Stmt.ShadowFree, Scopes.push, Scopes.after]
  refine ⟨Arithmetic.whole_lawful.complements, hcompile, hfree, ?_⟩
  obtain ⟨program, hprogram, hscopes⟩ :=
    compile_respects_scopes Arithmetic.whole_lawful.complements hcompile
  obtain rfl := Except.ok.inj (hprogram.symm.trans reuseScript_program)
  obtain ⟨hhalts, hvalues⟩ := hscopes hfree (fun _ => 0) (fun _ => 0)
  have hrun : ∃ env, Stmt.RunsAll (.scoped .whole) reuseProgram [fun _ => none] env :=
    ⟨_, _, .inl ⟨rfl, _, ⟨_, rfl, rfl⟩, rfl⟩, _, rfl, rfl⟩
  obtain ⟨env, hrun⟩ := hrun
  obtain ⟨s', t', hreach⟩ := hhalts.1 ⟨env, hrun⟩
  exact ⟨env, s', t', hrun, hreach,
    hvalues env s' t' hrun hreach ⟨"a", 24, 25, 0, 24⟩ _ _ (.tail _ (.head _))⟩

/-- A script with an inner declaration that hides an outer variable. -/
def hideScript : String := "var a = 1; if a \x7b var a = 2; \x7d"

/-- The program of `hideScript`. -/
def hideProgram : List Stmt :=
  [.declare ⟨"a", 4, 5, 0, 4⟩
      (.number (.finite false ⟨0x3FF0000000000000, by decide⟩) ⟨8, 9, 0, 8⟩)
      ⟨0, 10, 0, 0⟩,
    .ifThen (.name "a" ⟨14, 15, 0, 14⟩)
      [.declare ⟨"a", 22, 23, 0, 22⟩
        (.number (.finite false ⟨0x4000000000000000, by decide⟩) ⟨26, 27, 0, 26⟩)
        ⟨18, 28, 0, 18⟩] ⟨11, 30, 0, 11⟩]

theorem hideScript_program : (tokensOf hideScript >>= checkedProgramOf) = .ok hideProgram :=
  eq_ok_of_toOption (by decide +kernel)

/-- The scopes leave the outer variable with its value, the rank of the number 1, but the listing
leaves it with the value of the variable that hides it. -/
theorem compile_overwrites_hidden :
    Arithmetic.whole.Complements ∧ (tokensOf hideScript >>= checkedProgramOf) = .ok hideProgram ∧
      compile hideScript = .ok (lower hideProgram) ∧ ∃ env store temps,
        Stmt.RunsAll (.scoped .whole) hideProgram [fun _ => none] env ∧
        (lower hideProgram).Reaches Arithmetic.whole ⟨0, fun _ => 0, fun _ => 0⟩
          ⟨(lower hideProgram).size, store, temps⟩ ∧
        env.lookup? "a" = some 0x3FF0000000000000 ∧ store "a" = 0x4000000000000000 := by
  have hrun : Stmt.RunsAll (.scoped .whole) hideProgram [fun _ => none]
      [Function.update (fun _ => none) "a" (some 0x3FF0000000000000)] :=
    ⟨_, rfl, _, .inl ⟨rfl, _, ⟨_, rfl, rfl⟩, rfl⟩, rfl⟩
  have hreach : (lower hideProgram).Reaches Arithmetic.whole ⟨0, fun _ => 0, fun _ => 0⟩
      ⟨(lower hideProgram).size,
        Function.update (Function.update (fun _ => 0) "a" 0x3FF0000000000000) "a"
        0x4000000000000000, fun _ => 0⟩ := ⟨3, rfl⟩
  exact ⟨Arithmetic.whole_lawful.complements, hideScript_program,
    compile_eq_ok_iff.2 ⟨_, hideScript_program, rfl⟩, _, _, _, hrun, hreach, rfl, rfl⟩

end Quadcode
