import Quadcode.Builder.Lowering
import Quadcode.Proofs.Grammar.Completion
import Quadcode.Proofs.Grammar.Written
import Quadcode.Proofs.Scope.Occurrence

/-!
# Places do not matter

What is read, which names are refused and what code is emitted depends on classes and texts of
tokens and on the shape of trees, and never on where something stands. For the reader this comes
from the grammar: which lists of tokens spell a program does not depend on their places, and so
neither does the first token at which a list can no longer become one (`FirstMisfit.of_bare`). The
check of names and the lowering are compared on a tree and the tree without places.
-/

namespace Quadcode

/-! ## Reading -/

theorem Accepted.of_bare {ts us : List Token} (h : Accepted ts)
    (hb : us.map Token.bare = ts.map Token.bare) : Accepted us := by
  obtain ⟨program, hparse⟩ := h
  obtain ⟨program', -, hparse'⟩ := ((Grammar.statements_of_parse hparse).of_bare hb).parse
  exact ⟨program', hparse'⟩

/-- The token number `i` is the first one at which the tokens can no longer become a program. -/
def FirstMisfit (ts : List Token) (i : Nat) : Prop :=
  (∃ us, Accepted (ts.take i ++ us)) ∧ ∀ us, ¬ Accepted (ts.take (i + 1) ++ us)

namespace FirstMisfit

variable {ts us : List Token} {i j : Nat}

theorem not_accepted_take (h : FirstMisfit ts i) (hj : i < j) (us : List Token) :
    ¬ Accepted (ts.take j ++ us) := by
  have hsplit : ts.take j = ts.take (i + 1) ++ (ts.drop (i + 1)).take (j - (i + 1)) := by
    rw [← List.take_add]
    congr 1
    omega
  rw [hsplit, List.append_assoc]
  exact h.2 _

theorem not_accepted (h : FirstMisfit ts i) (us : List Token) : ¬ Accepted (ts ++ us) := by
  have hfar := h.not_accepted_take (j := max (i + 1) ts.length) (by omega) us
  rwa [List.take_of_length_le (by omega)] at hfar

theorem unique (h : FirstMisfit ts i) (h' : FirstMisfit ts j) : i = j := by
  obtain ⟨us, hus⟩ := h.1
  obtain ⟨us', hus'⟩ := h'.1
  apply Nat.le_antisymm
  · exact Nat.le_of_not_lt fun hlt => h'.not_accepted_take hlt us hus
  · exact Nat.le_of_not_lt fun hlt => h.not_accepted_take hlt us' hus'

theorem of_bare (h : FirstMisfit ts i) (hb : us.map Token.bare = ts.map Token.bare) :
    FirstMisfit us i := by
  have htake (k : Nat) (vs : List Token) :
      (us.take k ++ vs).map Token.bare = (ts.take k ++ vs).map Token.bare := by
    simp only [List.map_append, List.map_take, hb]
  obtain ⟨⟨vs, hvs⟩, hnone⟩ := h
  refine ⟨⟨vs, hvs.of_bare (htake i vs)⟩, fun vs hvs => ?_⟩
  exact hnone vs (hvs.of_bare (htake (i + 1) vs).symm)

end FirstMisfit

/-- Reading succeeds, or it stops at the first misfit, or the input ends too early. -/
theorem parse_cases (ts : List Token) :
    (∃ program, parse ts = .ok program) ∨
      (∃ e i t, parse ts = .error e ∧ FirstMisfit ts i ∧ ts[i]? = some t ∧ e.found = some t) ∨
      ∃ e, parse ts = .error e ∧ e.found = none ∧ ∃ us, Accepted (ts ++ us) := by
  cases hparse : parse ts with
  | ok program => exact .inl ⟨program, rfl⟩
  | error e =>
    obtain ⟨before, t, after, p, x, rfl, htakes, hstep, rfl⟩ | ⟨p, x, htakes, -, rfl⟩ :=
      parse_eq_error hparse
    · refine .inr (.inl ⟨_, before.length, t, rfl, ⟨?_, fun us => ?_⟩, by simp, rfl⟩)
      · simpa using exists_accepted_of_takes htakes
      · rw [List.take_length_add_append]
        simpa using not_accepted_of_refused htakes hstep us
    · exact .inr (.inr ⟨_, rfl, rfl, exists_accepted_of_takes htakes⟩)

/-- Tokens of the same classes and texts are read as the same program up to places, or reading stops
at the same token, or both inputs end too early. -/
theorem parse_of_bare {ts us : List Token} (hb : us.map Token.bare = ts.map Token.bare) :
    (∃ p q, parse ts = .ok p ∧ parse us = .ok q ∧ Stmt.bareAll p = Stmt.bareAll q) ∨
      (∃ e e' i t u, parse ts = .error e ∧ parse us = .error e' ∧ FirstMisfit ts i ∧
        FirstMisfit us i ∧
        ts[i]? = some t ∧ us[i]? = some u ∧ e.found = some t ∧ e'.found = some u) ∨
      ∃ e e', parse ts = .error e ∧ parse us = .error e' ∧ e.found = none ∧ e'.found = none := by
  have hextend (vs : List Token) : (us ++ vs).map Token.bare = (ts ++ vs).map Token.bare := by
    simp only [List.map_append, hb]
  rcases parse_cases ts with ⟨p, hp⟩ | ⟨e, i, t, he, hfirst, hi, ht⟩ | ⟨e, he, hfound, vs, hvs⟩
  · obtain ⟨q, hsame, hq⟩ := ((Grammar.statements_of_parse hp).of_bare hb).parse
    exact .inl ⟨p, q, hp, hq, hsame.symm⟩
  · have hfirst' := hfirst.of_bare hb
    rcases parse_cases us with hq | ⟨e', j, u, he', hj, hu, hu'⟩ | ⟨e', -, -, vs, hvs⟩
    · exact absurd (by rwa [List.append_nil]) (hfirst'.not_accepted [])
    · obtain rfl := hfirst'.unique hj
      exact .inr (.inl ⟨e, e', i, t, u, he, he', hfirst, hj, hi, hu, ht, hu'⟩)
    · exact absurd hvs (hfirst'.not_accepted vs)
  · have hvs' := hvs.of_bare (hextend vs)
    rcases parse_cases us with hq | ⟨e', j, u, -, hj, -⟩ | ⟨e', he', hfound', -⟩
    · obtain ⟨p, hp⟩ := Accepted.of_bare hq hb.symm
      rw [hp] at he
      cases he
    · exact absurd hvs' (hj.not_accepted vs)
    · exact .inr (.inr ⟨e, e', he, he', hfound, hfound'⟩)

/-! ## Checking names -/

/-- The error with the place of its name forgotten. -/
def NameError.bare : NameError → NameError
  | .redeclared name => .redeclared name.bare
  | .undeclared name => .undeclared name.bare

namespace Occurrence

/-- The occurrence with the place of its name forgotten. -/
def bare (o : Occurrence) : Occurrence :=
  { o with name := o.name.bare }

theorem error_bare (o : Occurrence) : o.bare.error = o.error.bare := by
  unfold error bare
  split <;> rfl

theorem violates_bare (before : List Occurrence) (o : Occurrence) :
    o.bare.Violates (before.map bare) ↔ o.Violates before := by
  simp [Violates, Declared, bare, Ident.bare]

theorem first?_map_bare (before os : List Occurrence) :
    first? (before.map bare) (os.map bare) = (first? before os).map bare := by
  induction os generalizing before with
  | nil => rfl
  | cons o rest ih =>
    rw [List.map_cons, first?, first?]
    by_cases ho : o.Violates before
    · rw [if_pos ho, if_pos ((violates_bare before o).2 ho), Option.map_some]
    · rw [if_neg ho, if_neg (fun h => ho ((violates_bare before o).1 h)), ← ih, List.map_append,
        List.map_singleton]

end Occurrence

theorem Expr.occurrences_bare (path : ScopePath) (e : Expr) :
    e.bare.occurrences path = (e.occurrences path).map Occurrence.bare := by
  induction e with
  | number value span => rfl
  | name x span => rfl
  | binary op left right span ihl ihr =>
    rw [bare, occurrences, occurrences, ihl, ihr, List.map_append]

mutual

theorem Stmt.occurrences_bare (path : ScopePath) (n : Nat) (s : Stmt) :
    s.bare.occurrences path n = (s.occurrences path n).map Occurrence.bare := by
  match s with
  | .print value _ => exact value.occurrences_bare path
  | .declare name value _ | .assign name value _ =>
    simp only [bare, occurrences, value.occurrences_bare, List.map_append, List.map_cons,
      List.map_nil, Occurrence.bare]
  | .ifThen test body _ | .whileDo test body _ =>
    simp only [bare, occurrences, test.occurrences_bare, occurrencesAll_bareAll, List.map_append]
  | .forDo initial test step body _ =>
    simp only [bare, occurrences, initial.occurrences_bare, test.occurrences_bare,
      step.occurrences_bare, occurrencesAll_bareAll, List.map_append]

theorem Stmt.occurrencesAll_bareAll (path : ScopePath) (n : Nat) (body : List Stmt) :
    occurrencesAll path n (bareAll body) = (occurrencesAll path n body).map Occurrence.bare := by
  match body with
  | [] => rfl
  | s :: rest =>
    simp only [bareAll, occurrencesAll, s.occurrences_bare, occurrencesAll_bareAll, List.map_append]

end

theorem checkNames_bareAll (program : List Stmt) :
    checkNames (Stmt.bareAll program) = (checkNames program).mapError NameError.bare := by
  rw [checkNames_eq, checkNames_eq, Stmt.occurrencesAll_bareAll]
  have hfirst := Occurrence.first?_map_bare [] (Stmt.occurrencesAll [] 0 program)
  rw [List.map_nil] at hfirst
  rw [hfirst]
  cases Occurrence.first? [] (Stmt.occurrencesAll [] 0 program) with
  | none => rfl
  | some o => exact congrArg Except.error o.error_bare

/-! ## Lowering -/

theorem Expr.comparison?_bare (e : Expr) :
    e.bare.comparison? = e.comparison?.map fun (c, left, right) => (c, left.bare, right.bare) := by
  cases e with
  | number value span => rfl
  | name x span => rfl
  | binary op left right span => cases h : op.comparison? <;> simp [bare, comparison?, h]

namespace Builder

theorem lowerExpr_bare (e : Expr) : lowerExpr e.bare = lowerExpr e := by
  induction e with
  | number value span => rfl
  | name x span => rfl
  | binary op left right span ihl ihr => rw [Expr.bare, lowerExpr, lowerExpr, ihl, ihr]

theorem lowerTest_bare (test : Expr) : lowerTest test.bare = lowerTest test := by
  unfold lowerTest
  rw [test.comparison?_bare]
  cases test.comparison? with
  | none => simp only [Option.map_none, lowerExpr_bare]
  | some comparison => simp only [Option.map_some, lowerExpr_bare]

theorem lowerAssign_bare (name : Ident) (value : Expr) :
    lowerAssign name.bare value.bare = lowerAssign name value := by
  simp only [lowerAssign, lowerExpr_bare, Ident.bare]

theorem lowerBranch_bare (test : Expr) (body : Build Unit) :
    lowerBranch test.bare body = lowerBranch test body := by
  simp only [lowerBranch, lowerTest_bare]

theorem lowerLoop_bare (test : Expr) (body : Build Unit) :
    lowerLoop test.bare body = lowerLoop test body := by
  simp only [lowerLoop, lowerTest_bare]

mutual

theorem lowerStmt_bare (s : Stmt) : lowerStmt s.bare = lowerStmt s := by
  match s with
  | .print value _ => simp only [Stmt.bare, lowerStmt, lowerExpr_bare]
  | .declare name value _ | .assign name value _ => exact lowerAssign_bare name value
  | .ifThen test body _ => simp only [Stmt.bare, lowerStmt, lowerBranch_bare, lowerAll_bareAll body]
  | .whileDo test body _ => simp only [Stmt.bare, lowerStmt, lowerLoop_bare, lowerAll_bareAll body]
  | .forDo initial test step body _ =>
    simp only [Stmt.bare, lowerStmt, lowerLoop_bare, lowerStmt_bare initial, lowerStmt_bare step,
      lowerAll_bareAll body]

theorem lowerAll_bareAll (body : List Stmt) : lowerAll (Stmt.bareAll body) = lowerAll body := by
  match body with
  | [] => rfl
  | s :: rest => rw [Stmt.bareAll, lowerAll, lowerAll, lowerStmt_bare s, lowerAll_bareAll rest]

end

end Builder

theorem lower_bareAll (program : List Stmt) : lower (Stmt.bareAll program) = lower program := by
  rw [lower, lower, Builder.ofProgram, Builder.ofProgram, Builder.lowerAll_bareAll]

/-! ## All stages -/

/-- Places do not matter. Two lists of tokens that differ only in places are both read, as programs
that differ only in places, or reading stops at the same token of both, or both end too early. Two
programs that differ only in places both pass the check of names, or fail with the same kind of
error for the same name, and they have the same listing. -/
theorem places_irrelevant :
    (∀ ts us : List Token, ts.map Token.bare = us.map Token.bare →
      (∃ p q, parse ts = .ok p ∧ parse us = .ok q ∧ Stmt.bareAll p = Stmt.bareAll q) ∨
      (∃ e e' i t u, parse ts = .error e ∧ parse us = .error e' ∧ FirstMisfit ts i ∧
        FirstMisfit us i ∧
        ts[i]? = some t ∧ us[i]? = some u ∧ e.found = some t ∧ e'.found = some u) ∨
      ∃ e e', parse ts = .error e ∧ parse us = .error e' ∧ e.found = none ∧ e'.found = none) ∧
    ∀ p q : List Stmt, Stmt.bareAll p = Stmt.bareAll q →
      (checkNames p).mapError NameError.bare = (checkNames q).mapError NameError.bare ∧
        lower p = lower q := by
  refine ⟨fun ts us hb => parse_of_bare hb.symm, fun p q hb => ⟨?_, ?_⟩⟩
  · rw [← checkNames_bareAll, ← checkNames_bareAll, hb]
  · rw [← lower_bareAll p, ← lower_bareAll q, hb]

/-- The tokens of `misfitTokens`, all on top of each other at another place. -/
def movedTokens : List Token :=
  misfitTokens.map fun t => { t with span := ⟨40, 47, 3, 2⟩ }

theorem places_irrelevant_moved :
    misfitTokens.map Token.bare = movedTokens.map Token.bare ∧
      (∃ i e, FirstMisfit misfitTokens i ∧ FirstMisfit movedTokens i ∧
        parse movedTokens = .error e ∧
        movedTokens[i]? = e.found) ∧
      Stmt.bareAll [.print (.name "x" ⟨6, 7, 0, 6⟩) ⟨0, 8, 0, 0⟩] =
        Stmt.bareAll [.print (.name "x" {}) {}] ∧
      (checkNames [.print (.name "x" ⟨6, 7, 0, 6⟩) ⟨0, 8, 0, 0⟩]).mapError NameError.bare =
        .error (.undeclared { text := "x" }) := by
  obtain ⟨hread, hcheck⟩ := places_irrelevant
  refine ⟨rfl, ?_, rfl, ?_⟩
  · rcases hread misfitTokens movedTokens rfl with
      ⟨p, q, hp, -⟩ | ⟨e, e', i, t, u, hstop⟩ | ⟨e, e', -, hend, -, hnone⟩
    · cases hp
    · obtain ⟨-, he', hfirst, hfirst', -, hu, -, hfound⟩ := hstop
      exact ⟨i, e', hfirst, hfirst', he', hu.trans hfound.symm⟩
    · cases hend
      cases hnone
  · exact (hcheck _ [.print (.name "x" {}) {}] rfl).1.trans rfl

end Quadcode
