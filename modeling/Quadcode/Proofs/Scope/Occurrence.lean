import Mathlib.Data.List.Infix
import Quadcode.Scope

/-!
# Names and the scopes that they stand in

A scope of a program is named by its place in the tree: the whole program is the scope `[]`, and the
scope that the statement number `n` of the scope `path` opens is `n :: path`. In the scope of a
counting loop the first part of the header has the number 0, the step the number 1 and the body the
number 2. So a scope lies inside another exactly if its path ends in the other's.

`Stmt.occurrencesAll` lists the names of a program in the order of the check, each with its scope
and whether it is declared there, and `Occurrence.Violates` says, from the list alone, which of them
break a rule. The check of names fails with the first one that does (`checkNames_eq`): as long as it
has not failed, its open scopes hold what the names so far declare (`Scopes.Tracks`).
-/

namespace Quadcode

/-- A scope of a program, by the numbers of the statements that lead to it, the innermost first. -/
abbrev ScopePath := List Nat

/-- A name in a program, with the scope in which it stands. -/
structure Occurrence where
  scope : ScopePath
  isDeclaration : Bool
  name : Ident
deriving DecidableEq, Repr

/-! ## The names of a program in the order of the check -/

/-- The names of an expression that stands in the scope `path`. -/
def Expr.occurrences (path : ScopePath) : Expr → List Occurrence
  | .number _ _ => []
  | .name x span => [{ scope := path, isDeclaration := false, name := { text := x, span } }]
  | .binary _ left right _ => left.occurrences path ++ right.occurrences path

namespace Stmt

mutual

/-- The names of the statement number `n` of the scope `path`. -/
def occurrences (path : ScopePath) (n : Nat) : Stmt → List Occurrence
  | .print value _ => value.occurrences path
  | .declare name value _ =>
    value.occurrences path ++ [{ scope := path, isDeclaration := true, name }]
  | .assign name value _ =>
    { scope := path, isDeclaration := false, name } :: value.occurrences path
  | .ifThen test body _ => test.occurrences path ++ occurrencesAll (n :: path) 0 body
  | .whileDo test body _ => test.occurrences path ++ occurrencesAll (n :: path) 0 body
  | .forDo initial test step body _ =>
    occurrences (n :: path) 0 initial ++ test.occurrences (n :: path) ++
      occurrences (n :: path) 1 step ++
      occurrencesAll (2 :: n :: path) 0 body
termination_by structural s => s

/-- The names of statements of the scope `path` that are numbered from `n` on. -/
def occurrencesAll (path : ScopePath) (n : Nat) : List Stmt → List Occurrence
  | [] => []
  | s :: rest => occurrences path n s ++ occurrencesAll path (n + 1) rest
termination_by structural body => body

end

end Stmt

theorem Expr.scope_of_mem_occurrences {path : ScopePath} {e : Expr} {o : Occurrence}
    (h : o ∈ e.occurrences path) : o.scope = path ∧ o.isDeclaration = false := by
  induction e with
  | number value span => simp [Expr.occurrences] at h
  | name x span =>
    obtain rfl := List.mem_singleton.1 h
    exact ⟨rfl, rfl⟩
  | binary op left right span ihl ihr => exact (List.mem_append.1 h).elim ihl ihr

mutual

/-- No name of a statement stands outside of the statement's scope. -/
theorem Stmt.scope_of_mem_occurrences {path : ScopePath} {n : Nat} {s : Stmt} {o : Occurrence}
    (h : o ∈ s.occurrences path n) : path <:+ o.scope := by
  have hself {e : Expr} (he : o ∈ e.occurrences path) : path <:+ o.scope := by
    rw [(Expr.scope_of_mem_occurrences he).1]
  have hinner {m : Nat} (hi : m :: path <:+ o.scope) : path <:+ o.scope :=
    (List.suffix_cons m path).trans hi
  match s with
  | .print value _ => exact hself h
  | .declare name value _ =>
    rcases List.mem_append.1 h with h | h
    · exact hself h
    · obtain rfl := List.mem_singleton.1 h
      exact List.suffix_rfl
  | .assign name value _ =>
    rcases List.mem_cons.1 h with rfl | h
    · exact List.suffix_rfl
    · exact hself h
  | .ifThen test body _ | .whileDo test body _ =>
    rcases List.mem_append.1 h with h | h
    · exact hself h
    · exact hinner (Stmt.scope_of_mem_occurrencesAll h)
  | .forDo initial test step body _ =>
    simp only [Stmt.occurrences, List.mem_append] at h
    rcases h with ((h | h) | h) | h
    · exact hinner (Stmt.scope_of_mem_occurrences h)
    · refine hinner (m := n) ?_
      rw [(Expr.scope_of_mem_occurrences h).1]
    · exact hinner (Stmt.scope_of_mem_occurrences h)
    · exact hinner ((List.suffix_cons 2 _).trans (Stmt.scope_of_mem_occurrencesAll h))

theorem Stmt.scope_of_mem_occurrencesAll {path : ScopePath} {n : Nat} {body : List Stmt}
    {o : Occurrence} (h : o ∈ Stmt.occurrencesAll path n body) : path <:+ o.scope := by
  match body with
  | [] => simp [Stmt.occurrencesAll] at h
  | s :: rest =>
    rcases List.mem_append.1 h with h | h
    · exact Stmt.scope_of_mem_occurrences h
    · exact Stmt.scope_of_mem_occurrencesAll h

end

/-! ## Violations -/

namespace Occurrence

/-- Among the names is a declaration of `x` in a scope of the given kind. -/
def Declared (before : List Occurrence) (x : String) (inScope : ScopePath → Prop) : Prop :=
  ∃ d ∈ before, d.isDeclaration = true ∧ d.name.text = x ∧ inScope d.scope

/-- The name breaks a rule, given the names before it: it is declared though it is declared in the
very same scope already, or it is used and neither its scope nor one around it declares it. -/
def Violates (before : List Occurrence) (o : Occurrence) : Prop :=
  if o.isDeclaration then Declared before o.name.text (· = o.scope)
  else ¬ Declared before o.name.text (· <:+ o.scope)

instance (before : List Occurrence) (x : String) (inScope : ScopePath → Prop)
    [DecidablePred inScope] : Decidable (Declared before x inScope) :=
  inferInstanceAs
    (Decidable (∃ d ∈ before, d.isDeclaration = true ∧ d.name.text = x ∧ inScope d.scope))

instance (before : List Occurrence) (o : Occurrence) : Decidable (o.Violates before) :=
  inferInstanceAs
    (Decidable (if o.isDeclaration = true then Declared before o.name.text (· = o.scope)
    else ¬ Declared before o.name.text (· <:+ o.scope)))

theorem declared_append {before os : List Occurrence} {x : String} {inScope : ScopePath → Prop} :
    Declared (before ++ os) x inScope ↔ Declared before x inScope ∨ Declared os x inScope := by
  simp [Declared, or_and_right, exists_or]

theorem declared_or {before : List Occurrence} {x : String} {p q : ScopePath → Prop} :
    Declared before x (fun scope => p scope ∨ q scope) ↔
      Declared before x p ∨ Declared before x q := by
  simp [Declared, and_or_left, exists_or]

/-- The error that names an occurrence. -/
def error (o : Occurrence) : NameError :=
  if o.isDeclaration then .redeclared o.name else .undeclared o.name

/-- The first of the names that breaks a rule, where `before` are the names before them. -/
def first? (before : List Occurrence) : List Occurrence → Option Occurrence
  | [] => none
  | o :: rest => if o.Violates before then some o else first? (before ++ [o]) rest

theorem first?_append (before os os' : List Occurrence) :
    first? before (os ++ os') = (first? before os).or (first? (before ++ os) os') := by
  induction os generalizing before with
  | nil => simp [first?]
  | cons o rest ih =>
    rw [List.cons_append, first?, first?]
    split_ifs
    · rfl
    · rw [ih, List.append_assoc, List.singleton_append]

theorem first?_eq_none_iff (before os : List Occurrence) :
    first? before os = none ↔
      ∀ (i : Nat) (o : Occurrence), os[i]? = some o → ¬ o.Violates (before ++ os.take i) := by
  induction os generalizing before with
  | nil => simp [first?]
  | cons o rest ih =>
    rw [first?]
    split_ifs with ho
    · simp only [false_iff, not_forall]
      exact ⟨0, o, rfl, by simpa using ho⟩
    · rw [ih]
      constructor
      · intro h i o' hi
        cases i with
        | zero =>
          obtain rfl := Option.some.inj hi
          simpa using ho
        | succ i => simpa using h i o' hi
      · intro h i o' hi
        simpa using h (i + 1) o' hi

theorem first?_eq_some_iff (before os : List Occurrence) (o : Occurrence) :
    first? before os = some o ↔ ∃ i : Nat, os[i]? = some o ∧ o.Violates (before ++ os.take i) ∧
      ∀ (j : Nat) (o' : Occurrence), j < i → os[j]? = some o' →
        ¬ o'.Violates (before ++ os.take j) := by
  induction os generalizing before with
  | nil => simp [first?]
  | cons o₁ rest ih =>
    rw [first?]
    split_ifs with ho
    · constructor
      · rintro h
        obtain rfl := Option.some.inj h
        exact ⟨0, rfl, by simpa using ho, by simp⟩
      · rintro ⟨i, hi, hv, hfirst⟩
        cases i with
        | zero => exact hi
        | succ i => exact absurd (by simpa using ho) (hfirst 0 o₁ (by omega) rfl)
    · rw [ih]
      constructor
      · rintro ⟨i, hi, hv, hfirst⟩
        refine ⟨i + 1, hi, by simpa using hv, fun j o' hj hj' => ?_⟩
        cases j with
        | zero =>
          obtain rfl := Option.some.inj hj'
          simpa using ho
        | succ j => simpa using hfirst j o' (by omega) hj'
      · rintro ⟨i, hi, hv, hfirst⟩
        cases i with
        | zero =>
          obtain rfl := Option.some.inj hi
          exact absurd (by simpa using hv) ho
        | succ i =>
          refine ⟨i, hi, by simpa using hv, fun j o' hj hj' => ?_⟩
          simpa using hfirst (j + 1) o' (by omega) hj'

end Occurrence

/-! ## The walk keeps track of the declarations -/

namespace Scopes

open Occurrence

/-- The names that `before` declares in the scope `path` and in the scopes around
it, from the inside out. -/
inductive Levels (before : List Occurrence) : ScopePath → List (List String) → Prop
  | outermost {names : List String} (h : ∀ x, x ∈ names ↔ Declared before x (· = [])) :
      Levels before [] [names]
  | inner {n : Nat} {path : ScopePath} {names : List String} {levels : List (List String)}
      (h : ∀ x, x ∈ names ↔ Declared before x (· = n :: path)) (outer : Levels before path levels) :
      Levels before (n :: path) (names :: levels)

variable {before os : List Occurrence} {path : ScopePath} {n : Nat} {s : Scopes}

theorem Levels.mem_head_iff {names : List String} {levels : List (List String)}
    (h : Levels before path (names :: levels)) (x : String) :
    x ∈ names ↔ Declared before x (· = path) := by
  cases h with
  | outermost h => exact h x
  | inner h outer => exact h x

theorem Levels.any_contains_iff {levels : List (List String)} (h : Levels before path levels)
    (x : String) :
    (levels.any fun names => names.contains x) = true ↔ Declared before x (· <:+ path) := by
  induction h with
  | outermost h => simp [h x]
  | @inner n path names levels h outer ih =>
    simp only [List.any_cons, Bool.or_eq_true, List.contains_iff_mem, h x, ih, List.suffix_cons_iff,
      declared_or]

/-- Names that declare nothing in the scope `path` and around it leave what is declared there. -/
theorem Levels.append {levels : List (List String)} (h : Levels before path levels)
    (hos : ∀ o ∈ os, o.isDeclaration = true → ¬ o.scope <:+ path) :
    Levels (before ++ os) path levels := by
  have hnone {scope : ScopePath} (hs : scope <:+ path) (x : String) :
      ¬ Declared os x (· = scope) := by
    rintro ⟨d, hd, hdecl, -, rfl⟩
    exact hos d hd hdecl hs
  induction h with
  | outermost h =>
    refine .outermost fun x => ?_
    rw [declared_append, h x]
    exact (or_iff_left (hnone List.suffix_rfl x)).symm
  | @inner n path names levels h outer ih =>
    refine .inner (fun x => ?_) (ih ?_ ?_)
    · rw [declared_append, h x]
      exact (or_iff_left (hnone List.suffix_rfl x)).symm
    · exact fun o ho hdecl hs => hos o ho hdecl (hs.trans (List.suffix_cons n path))
    · exact fun hs => hnone (hs.trans (List.suffix_cons n path))

theorem not_cons_suffix_self (m : Nat) (path : ScopePath) : ¬ (m :: path) <:+ path := by
  intro h
  have := h.length_le
  simp only [List.length_cons] at this
  omega

theorem Levels.declare {names : List String} {levels : List (List String)}
    (h : Levels before path (names :: levels)) (name : Ident) :
    Levels (before ++ [{ scope := path, isDeclaration := true, name }]) path
      ((name.text :: names) :: levels) := by
  have hhead (x : String) : x ∈ name.text :: names ↔
      Declared (before ++ [{ scope := path, isDeclaration := true, name }]) x (· = path) := by
    have hnew : Declared [{ scope := path, isDeclaration := true, name }] x (· = path) ↔
        name.text = x := by
      simp [Declared]
    rw [declared_append, List.mem_cons, h.mem_head_iff x, hnew, or_comm, eq_comm]
  cases h with
  | outermost => exact .outermost hhead
  | inner _ outer =>
    refine .inner hhead (outer.append fun o ho _ => ?_)
    obtain rfl := List.mem_singleton.1 ho
    exact not_cons_suffix_self _ _

/-- The open scopes hold what the names before declare in the scope `path` and around it, and none
of these names stands in a scope that a statement of `path` numbered `n` or later opens. -/
structure Tracks (before : List Occurrence) (path : ScopePath) (n : Nat) (s : Scopes) : Prop where
  levels : Levels before path (s.innermost :: s.enclosing)
  fresh : ∀ o ∈ before, ∀ m, n ≤ m → ¬ (m :: path) <:+ o.scope

theorem Tracks.mono {m : Nat} (h : Tracks before path n s) (hm : n ≤ m) : Tracks before path m s :=
  ⟨h.levels, fun o ho k hk => h.fresh o ho k (hm.trans hk)⟩

/-- Names that are used in the scope `path` declare nothing. -/
theorem Tracks.uses (h : Tracks before path n s)
    (hos : ∀ o ∈ os, o.scope = path ∧ o.isDeclaration = false) :
    Tracks (before ++ os) path n s := by
  refine ⟨h.levels.append fun o ho hdecl => ?_, fun o ho m hm => ?_⟩
  · simp [(hos o ho).2] at hdecl
  · rcases List.mem_append.1 ho with ho | ho
    · exact h.fresh o ho m hm
    · rw [(hos o ho).1]
      exact not_cons_suffix_self m path

theorem Tracks.declare (h : Tracks before path n s) (name : Ident) :
    Tracks (before ++ [{ scope := path, isDeclaration := true, name }]) path n
      { s with innermost := name.text :: s.innermost } := by
  refine ⟨h.levels.declare name, fun o ho m hm => ?_⟩
  rcases List.mem_append.1 ho with ho | ho
  · exact h.fresh o ho m hm
  · obtain rfl := List.mem_singleton.1 ho
    exact not_cons_suffix_self m path

theorem Tracks.push (h : Tracks before path n s) : Tracks before (n :: path) 0 s.push := by
  refine ⟨.inner (fun x => ?_) h.levels, fun o ho m _ hs => ?_⟩
  · refine ⟨fun hx => absurd hx List.not_mem_nil, ?_⟩
    rintro ⟨d, hd, -, -, hs⟩
    exact absurd (hs ▸ List.suffix_rfl) (h.fresh d hd n le_rfl)
  · exact h.fresh o ho n le_rfl ((List.suffix_cons m _).trans hs)

theorem Tracks.pop {m : Nat} {s' : Scopes} (h : Tracks before path n s)
    (h' : Tracks (before ++ os) (n :: path) m s') (hos : ∀ o ∈ os, (n :: path) <:+ o.scope) :
    Tracks (before ++ os) path (n + 1) s'.pop := by
  refine ⟨?_, fun o ho k hk hs => ?_⟩
  · obtain ⟨innermost, enclosing⟩ := s'
    have hlevels := h'.levels
    cases hlevels with
    | inner _ outer =>
      cases enclosing with
      | nil => cases outer
      | cons names rest => exact outer
  · rcases List.mem_append.1 ho with ho | ho
    · exact h.fresh o ho k (by omega) hs
    · -- Two scopes that statements of one scope open have the same length, and so only one of them
      -- can be a suffix.
      have heq := (List.suffix_of_suffix_length_le hs (hos o ho) (by simp)).eq_of_length (by simp)
      have := (List.cons.inj heq).1
      omega

/-! ## The walk stops at the first violation -/

/-- In the scope `path`, at the statement number `n`, the check walks over the names `os`:
it fails at the first of them that breaks a rule, and otherwise it keeps track of them up to
the statement number `m`. -/
def Walks (check : Check Unit) (os : List Occurrence) (path : ScopePath) (n m : Nat) : Prop :=
  ∀ before s, Tracks before path n s →
    match first? before os with
    | none => ∃ s', check s = .ok () s' ∧ Tracks (before ++ os) path m s'
    | some o => ∃ s', check s = .error o.error s'

variable {check check' : Check Unit} {os' : List Occurrence} {m k : Nat}

theorem Walks.bind (h : Walks check os path n m) (h' : Walks check' os' path m k) :
    Walks (do check; check') (os ++ os') path n k := by
  intro before s ht
  have hs := h before s ht
  rw [first?_append]
  cases hf : first? before os with
  | some o =>
    rw [hf] at hs
    obtain ⟨s', hs'⟩ := hs
    refine ⟨s', ?_⟩
    simp [Bind.bind, EStateM.bind, hs']
  | none =>
    rw [hf] at hs
    obtain ⟨s', hs', ht'⟩ := hs
    have hrest := h' _ s' ht'
    have hcheck : (do check; check' : Check Unit) s = check' s' := by
      simp [Bind.bind, EStateM.bind, hs']
    rw [Option.none_or, hcheck, ← List.append_assoc]
    exact hrest

theorem Walks.mono (h : Walks check os path n m) (hm : m ≤ k) : Walks check os path n k := by
  intro before s ht
  have hs := h before s ht
  cases hf : first? before os with
  | some o =>
    rw [hf] at hs
    exact hs
  | none =>
    rw [hf] at hs
    obtain ⟨s', hs', ht'⟩ := hs
    exact ⟨s', hs', ht'.mono hm⟩

theorem Walks.nested (h : Walks check os (n :: path) 0 m)
    (hos : ∀ o ∈ os, (n :: path) <:+ o.scope) : Walks (nested check) os path n (n + 1) := by
  intro before s ht
  have hs := h before s.push ht.push
  cases hf : first? before os with
  | some o =>
    rw [hf] at hs
    obtain ⟨s', hs'⟩ := hs
    refine ⟨s'.pop, ?_⟩
    simp [Scopes.nested, hs']
  | none =>
    rw [hf] at hs
    obtain ⟨s', hs', ht'⟩ := hs
    refine ⟨s'.pop, ?_, ht.pop ht' hos⟩
    simp [Scopes.nested, hs']

theorem walks_pure : Walks (pure ()) [] path n n := by
  intro before s ht
  exact ⟨s, rfl, by simpa using ht⟩

/-- Walking over one name: the check fails with the name's error if the name breaks a rule. -/
theorem walks_singleton {o : Occurrence}
    (hbad : ∀ before s, Tracks before path n s → o.Violates before →
      ∃ s', check s = .error o.error s')
    (hgood : ∀ before s, Tracks before path n s → ¬ o.Violates before →
      ∃ s', check s = .ok () s' ∧ Tracks (before ++ [o]) path n s') :
    Walks check [o] path n n := by
  intro before s ht
  by_cases hv : o.Violates before
  · simpa only [first?, if_pos hv] using hbad before s ht hv
  · simpa only [first?, if_neg hv] using hgood before s ht hv

theorem walks_declare (name : Ident) :
    Walks (declare name) [{ scope := path, isDeclaration := true, name }] path n n := by
  refine walks_singleton (fun before s ht hv => ?_) (fun before s ht hv => ?_)
  · have hmem : name.text ∈ s.innermost := (ht.levels.mem_head_iff _).2 hv
    exact ⟨s, by simp [declare, hmem, Occurrence.error]⟩
  · have hmem : name.text ∉ s.innermost := fun h => hv ((ht.levels.mem_head_iff _).1 h)
    exact ⟨_, by simp [declare, hmem], ht.declare name⟩

theorem walks_resolve (name : Ident) :
    Walks (inspect (·.resolve name)) [{ scope := path, isDeclaration := false, name }]
      path n n := by
  refine walks_singleton (fun before s ht hv => ?_) (fun before s ht hv => ?_)
  · have hdecl : ¬ s.isDeclared name.text = true := fun h => hv ((ht.levels.any_contains_iff _).1 h)
    exact ⟨s, by simp [inspect, resolve, hdecl, Occurrence.error]⟩
  · have hdecl : s.isDeclared name.text = true := (ht.levels.any_contains_iff _).2 (not_not.1 hv)
    exact ⟨s, by simp [inspect, resolve, hdecl], ht.uses (by simp)⟩

theorem inspect_bind (test test' : Scopes → Except NameError Unit) :
    inspect (fun s => do test s; test' s) = (do inspect test; inspect test') := by
  funext s
  cases h : test s <;> simp [inspect, h, Bind.bind, EStateM.bind, Except.bind]

theorem walks_resolveExpr (e : Expr) :
    Walks (inspect (·.resolveExpr e)) (e.occurrences path) path n n := by
  induction e with
  | number value span => exact walks_pure
  | name x span => exact walks_resolve { text := x, span }
  | binary op left right span ihl ihr =>
    have := ihl.bind ihr
    rwa [← inspect_bind] at this

mutual

theorem walks_checkStmt (path : ScopePath) (n : Nat) (s : Stmt) :
    Walks (checkStmt s) (s.occurrences path n) path n (n + 1) := by
  match s with
  | .print value _ => exact (walks_resolveExpr value).mono (by omega)
  | .declare name value _ =>
    exact ((walks_resolveExpr value).bind (walks_declare name)).mono (by omega)
  | .assign name value _ =>
    exact ((walks_resolve name).bind (walks_resolveExpr value)).mono (by omega)
  | .ifThen test body _ | .whileDo test body _ =>
    obtain ⟨m, hbody⟩ := walks_checkAll (n :: path) 0 body
    exact (walks_resolveExpr test).bind (hbody.nested fun _ => Stmt.scope_of_mem_occurrencesAll)
  | .forDo initial test step body _ =>
    obtain ⟨m, hbody⟩ := walks_checkAll (2 :: n :: path) 0 body
    have hheader := (walks_checkStmt (n :: path) 0 initial).bind
      ((walks_resolveExpr test).bind ((walks_checkStmt (n :: path) 1 step).bind
        (hbody.nested fun _ => Stmt.scope_of_mem_occurrencesAll)))
    rw [checkStmt, Stmt.occurrences, List.append_assoc, List.append_assoc]
    -- The whole header and the body lie in the scope that the loop opens.
    refine hheader.nested fun o ho => ?_
    simp only [List.mem_append] at ho
    rcases ho with ho | ho | ho | ho
    · exact Stmt.scope_of_mem_occurrences ho
    · rw [(Expr.scope_of_mem_occurrences ho).1]
    · exact Stmt.scope_of_mem_occurrences ho
    · exact (List.suffix_cons 2 _).trans (Stmt.scope_of_mem_occurrencesAll ho)

theorem walks_checkAll (path : ScopePath) (n : Nat) (body : List Stmt) :
    ∃ m, Walks (checkAll body) (Stmt.occurrencesAll path n body) path n m := by
  match body with
  | [] => exact ⟨n, walks_pure⟩
  | s :: rest =>
    obtain ⟨m, hrest⟩ := walks_checkAll path (n + 1) rest
    exact ⟨m, (walks_checkStmt path n s).bind hrest⟩

end

theorem tracks_nil : Tracks [] [] 0 {} := by
  refine ⟨.outermost fun x => ?_, by simp⟩
  simp [Declared]

end Scopes

theorem checkNames_eq (program : List Stmt) :
    checkNames program = match Occurrence.first? [] (Stmt.occurrencesAll [] 0 program) with
      | none => .ok ()
      | some o => .error o.error := by
  obtain ⟨m, hwalk⟩ := Scopes.walks_checkAll [] 0 program
  have hs := hwalk [] {} Scopes.tracks_nil
  cases hf : Occurrence.first? [] (Stmt.occurrencesAll [] 0 program) with
  | none =>
    rw [hf] at hs
    obtain ⟨s', hs', -⟩ := hs
    simp only [checkNames, hs']
  | some o =>
    rw [hf] at hs
    obtain ⟨s', hs'⟩ := hs
    simp only [checkNames, hs']

/-- A program passes the check of names exactly if none of its names breaks a rule, and otherwise
the check fails with the error of the first name that does. -/
theorem checkNames_first_violation (program : List Stmt) :
    (checkNames program = .ok () ↔ ∀ (i : Nat) (o : Occurrence),
      (Stmt.occurrencesAll [] 0 program)[i]? = some o →
        ¬ o.Violates ((Stmt.occurrencesAll [] 0 program).take i)) ∧
    ∀ e, checkNames program = .error e ↔ ∃ (i : Nat) (o : Occurrence),
      (Stmt.occurrencesAll [] 0 program)[i]? = some o ∧
      o.Violates ((Stmt.occurrencesAll [] 0 program).take i) ∧
      (∀ (j : Nat) (o' : Occurrence), j < i → (Stmt.occurrencesAll [] 0 program)[j]? = some o' →
        ¬ o'.Violates ((Stmt.occurrencesAll [] 0 program).take j)) ∧
      e = if o.isDeclaration then .redeclared o.name else .undeclared o.name := by
  have hnone := Occurrence.first?_eq_none_iff [] (Stmt.occurrencesAll [] 0 program)
  have hsome := Occurrence.first?_eq_some_iff [] (Stmt.occurrencesAll [] 0 program)
  simp only [List.nil_append] at hnone hsome
  rw [checkNames_eq, ← hnone]
  refine ⟨?_, fun e => ?_⟩
  · cases Occurrence.first? [] (Stmt.occurrencesAll [] 0 program) <;> simp
  · constructor
    · intro h
      cases hf : Occurrence.first? [] (Stmt.occurrencesAll [] 0 program) with
      | none => simp [hf] at h
      | some o =>
        rw [hf] at h
        obtain ⟨i, hi, hv, hfirst⟩ := (hsome o).1 hf
        exact ⟨i, o, hi, hv, hfirst, (Except.error.inj h).symm⟩
    · rintro ⟨i, o, hi, hv, hfirst, rfl⟩
      rw [(hsome o).2 ⟨i, hi, hv, hfirst⟩]
      rfl

end Quadcode
