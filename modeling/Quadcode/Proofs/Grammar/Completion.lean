import Quadcode.Proofs.Grammar.Recognition

/-!
# Where an input can no longer become a program

Whatever has been read without an error can be completed to a program: brackets and bodies are
closed from the inside out, and a name stands wherever a value is still missing
(`Expr.Partial.completable`, `Stmt.Partial.completable`). A token that is refused is refused
whatever follows it. So a syntax error names the first token at which the input can no longer become
a program, and an input that ends too early can be continued to one.
-/

namespace Quadcode

/-- The tokens spell a program. -/
def Accepted (ts : List Token) : Prop :=
  ∃ program, parse ts = .ok program

/-- A token that can stand wherever a name or a value is missing. -/
def Token.filler : Token :=
  { kind := .identifier, text := "x" }

/-! ## Completing expressions -/

namespace Expr

/-- Some further tokens complete what has been read of an expression, if it is not complete. -/
def Progress.Completable : Progress → Prop
  | .more read => ∃ ts e, read.Steps ts (.complete e)
  | .complete _ => True

namespace Partial

theorem completable_of_step {p : Partial} {t : Token} {g : Progress} (h : p.step t = .ok g)
    (hg : g.Completable) : (Progress.more p).Completable := by
  cases g with
  | more read =>
    obtain ⟨ts, e, hs⟩ := hg
    exact ⟨t :: ts, e, .cons h hs⟩
  | complete e => exact ⟨[t], e, .last h⟩

theorem completable_fill (e : Expr) (around : List Context) : (fill e around).Completable := by
  induction around generalizing e with
  | nil => trivial
  | cons context around ih =>
    -- the innermost bracket is closed, and what stands in it fills the next one
    have hclose : ({ kind := .bracket, text := ")" } : Token).is .bracket ")" := rfl
    cases context with
    | first opened => exact completable_of_step (step_group hclose opened e) (ih _)
    | second opened left op => exact completable_of_step (step_close hclose opened left e op) (ih _)

theorem completable (p : Partial) : ∃ ts e, p.Steps ts (.complete e) := by
  have hclose : ({ kind := .bracket, text := ")" } : Token).is .bracket ")" := rfl
  obtain ⟨stage, around⟩ := p
  cases stage with
  | operand =>
    have hname : step { stage := .operand, around } .filler = .ok (fill (.name "x" {}) around) :=
      rfl
    exact completable_of_step hname (completable_fill _ around)
  | operator opened left =>
    exact completable_of_step (step_group hclose opened left) (completable_fill _ around)
  | close opened left op right =>
    exact completable_of_step (step_close hclose opened left right op) (completable_fill _ around)

end Partial

end Expr

/-! ## Completing programs -/

namespace Stmt.Partial

/-- Some further tokens complete what has been read of a program. -/
def Completable (p : Partial) : Prop :=
  ∃ ts q program, p.Takes ts q ∧ q.finish = .ok program

theorem Completable.of_takes {p q : Partial} {ts : List Token} (h : p.Takes ts q)
    (hq : q.Completable) : p.Completable := by
  obtain ⟨us, r, program, hus, hr⟩ := hq
  exact ⟨ts ++ us, r, program, h.append hus, hr⟩

theorem Completable.of_step {p q : Partial} {t : Token} (h : p.step t = .ok q)
    (hq : q.Completable) : p.Completable :=
  .of_takes (.one h) hq

section

variable {frames : List Frame} {done : List Stmt}

theorem completable_value {purpose : Purpose}
    (h : ∀ e, Completable { phase := .ended purpose e, frames, done }) (read : Expr.Partial) :
    Completable { phase := .value purpose read, frames, done } := by
  obtain ⟨ts, e, hs⟩ := read.completable
  exact .of_takes (hs.takes purpose frames done) (h e)

theorem completable_equals {receiver : Receiver}
    (h : ∀ e, Completable { phase := .ended (.give receiver) e, frames, done }) :
    Completable { phase := .equals receiver, frames, done } :=
  .of_step (t := { kind := .assignment, text := "=" }) (step_equals frames done rfl receiver)
    (completable_value h {})

theorem completable_inBody (h : ∀ s, Completable (fill s frames done)) (header : Header)
    (inner : List Stmt) :
    Completable { phase := .statement, frames := .body header inner :: frames, done } :=
  .of_step (t := { kind := .bracket, text := "\x7d" })
    (step_closeBody frames done rfl header inner) (h _)

theorem completable_loopBody (h : ∀ s, Completable (fill s frames done)) (start : Span)
    (initial : Stmt) (test : Expr) (step : Stmt) :
    Completable { phase := .body start initial test step, frames, done } :=
  .of_step (t := { kind := .bracket, text := "\x7b" })
    (step_openBody frames done rfl start initial test step) (completable_inBody h _ [])

theorem completable_ended_give (h : ∀ s, Completable (fill s frames done)) (receiver : Receiver)
    (value : Expr) : Completable { phase := .ended (.give receiver) value, frames, done } := by
  cases receiver with
  | declared start name =>
    exact .of_step (t := { kind := .separator, text := ";" })
      (step_ended frames done rfl rfl value) (h _)
  | assigned name =>
    exact .of_step (t := { kind := .separator, text := ";" })
      (step_ended frames done rfl rfl value) (h _)
  | stepped start initial test name =>
    exact .of_step (t := { kind := .bracket, text := ")" }) (step_ended frames done rfl rfl value)
      (completable_loopBody h _ _ _ _)

theorem completable_step (h : ∀ s, Completable (fill s frames done)) (start : Span) (initial : Stmt)
    (test : Expr) : Completable { phase := .step start initial test, frames, done } := by
  have hname : step { phase := .step start initial test, frames, done } .filler =
      .ok { phase := .equals (.stepped start initial test Token.filler.ident), frames, done } := rfl
  exact .of_step hname (completable_equals (completable_ended_give h _))

theorem completable_ended (h : ∀ s, Completable (fill s frames done)) (purpose : Purpose)
    (value : Expr) : Completable { phase := .ended purpose value, frames, done } := by
  cases purpose with
  | print start =>
    exact .of_step (t := { kind := .separator, text := ";" })
      (step_ended frames done rfl rfl value) (h _)
  | give receiver => exact completable_ended_give h receiver value
  | ifTest start =>
    exact .of_step (t := { kind := .bracket, text := "\x7b" })
      (step_ended frames done rfl rfl value) (completable_inBody h _ [])
  | whileTest start =>
    exact .of_step (t := { kind := .bracket, text := "\x7b" })
      (step_ended frames done rfl rfl value) (completable_inBody h _ [])
  | forTest start initial =>
    exact .of_step (t := { kind := .separator, text := ";" }) (step_ended frames done rfl rfl value)
      (completable_step h _ _ _)

end

/-- A complete statement leaves a program that can be completed. The induction is on the places that
are open: each body is closed at once, and each header of a loop is completed with an empty body. -/
theorem completable_fill (s : Stmt) (frames : List Frame) (done : List Stmt) :
    Completable (fill s frames done) := by
  induction frames generalizing s with
  | nil => exact ⟨[], _, _, takes_nil_iff.2 rfl, rfl⟩
  | cons frame frames ih =>
    cases frame with
    | body header inner => exact completable_inBody ih header (s :: inner)
    | initial start => exact completable_value (completable_ended ih _) {}

theorem completable (p : Partial) : p.Completable := by
  obtain ⟨phase, frames, done⟩ := p
  have hfill (s : Stmt) : Completable (fill s frames done) := completable_fill s frames done
  cases phase with
  | statement =>
    -- an assignment can begin here, whatever place is open
    have hname : step { phase := .statement, frames, done } .filler =
        .ok { phase := .equals (.assigned Token.filler.ident), frames, done } := rfl
    exact .of_step hname (completable_equals (completable_ended_give hfill _))
  | declaredName start =>
    have hname : step { phase := .declaredName start, frames, done } .filler =
        .ok { phase := .equals (.declared start Token.filler.ident), frames, done } := rfl
    exact .of_step hname (completable_equals (completable_ended_give hfill _))
  | equals receiver => exact completable_equals (completable_ended_give hfill receiver)
  | value purpose read => exact completable_value (completable_ended hfill purpose) read
  | ended purpose value => exact completable_ended hfill purpose value
  | header start =>
    -- the header is opened, and the statement that it begins with is completed like any other
    have hname : step { phase := .statement, frames := .initial start :: frames, done } .filler =
        .ok
          { phase := .equals (.assigned Token.filler.ident), frames := .initial start :: frames,
            done } := rfl
    exact .of_step (t := { kind := .bracket, text := "(" }) (step_header frames done rfl start)
      (.of_step hname
        (completable_equals (completable_ended_give (fun s => completable_fill s _ done) _)))
  | step start initial test => exact completable_step hfill start initial test
  | body start initial test step => exact completable_loopBody hfill start initial test step

/-! ## The tokens up to an error -/

theorem takes_append_iff {p r : Partial} {ts us : List Token} :
    p.Takes (ts ++ us) r ↔ ∃ q, p.Takes ts q ∧ q.Takes us r := by
  unfold Takes
  rw [List.foldlM_append, except_bind_eq_ok_iff]

theorem Takes.unique {p q r : Partial} {ts : List Token} (h : p.Takes ts q)
    (h' : p.Takes ts r) : q = r :=
  Except.ok.inj (h.symm.trans h')

/-- Reading fails at the first token that is refused. -/
theorem foldlM_read_eq_error {p : Partial} {ts : List Token} {e : SyntaxError}
    (h : ts.foldlM read p = .error e) :
    ∃ before t after q x, ts = before ++ t :: after ∧ p.Takes before q ∧ q.step t = .error x ∧
      e = .atToken t x := by
  induction ts generalizing p with
  | nil => cases h
  | cons t ts ih =>
    rw [List.foldlM_cons] at h
    cases hs : p.step t with
    | error x =>
      have hread : p.read t = .error (.atToken t x) := by rw [read, hs]; rfl
      rw [hread] at h
      exact ⟨[], t, ts, p, x, rfl, takes_nil_iff.2 rfl, hs, (Except.error.inj h).symm⟩
    | ok q =>
      rw [read_eq_ok_iff.2 hs] at h
      obtain ⟨before, u, after, r, x, rfl, htakes, hstep, he⟩ := ih h
      exact ⟨t :: before, u, after, r, x, rfl, .cons hs htakes, hstep, he⟩

end Stmt.Partial

open Stmt.Partial

theorem accepted_iff {ts : List Token} :
    Accepted ts ↔ ∃ p program, Takes {} ts p ∧ p.finish = .ok program := by
  constructor
  · rintro ⟨program, h⟩
    obtain ⟨p, hp⟩ := parse_eq_ok_iff.1 h
    exact ⟨p, program, hp⟩
  · rintro ⟨p, program, hp⟩
    exact ⟨program, parse_eq_ok_iff.2 ⟨p, hp⟩⟩

theorem exists_accepted_of_takes {ts : List Token} {p : Stmt.Partial} (h : Takes {} ts p) :
    ∃ us, Accepted (ts ++ us) := by
  obtain ⟨us, q, program, hus, hq⟩ := p.completable
  exact ⟨us, accepted_iff.2 ⟨q, program, h.append hus, hq⟩⟩

theorem not_accepted_of_refused {ts : List Token} {t : Token} {p : Stmt.Partial} {x : Expectation}
    (h : Takes {} ts p) (ht : p.step t = .error x) (us : List Token) :
    ¬ Accepted (ts ++ t :: us) := by
  intro ha
  obtain ⟨q, program, hq, -⟩ := accepted_iff.1 ha
  obtain ⟨p', hts, hrest⟩ := takes_append_iff.1 hq
  obtain ⟨r, hr, -⟩ := takes_cons_iff.1 hrest
  rw [← h.unique hts, ht] at hr
  cases hr

/-- The two ways in which the reading of an input fails: at a token that is
refused, or at its end. -/
theorem parse_eq_error {ts : List Token} {e : SyntaxError} (h : parse ts = .error e) :
    (∃ before t after p x, ts = before ++ t :: after ∧ Takes {} before p ∧ p.step t = .error x ∧
      e = .atToken t x) ∨
    ∃ p x, Takes {} ts p ∧ p.finish = .error x ∧ e = .atEnd ts x := by
  cases hread : ts.foldlM read {} with
  | error e' =>
    rw [parse, hread] at h
    obtain rfl := Except.error.inj h
    exact .inl (foldlM_read_eq_error hread)
  | ok p =>
    rw [parse, hread] at h
    change p.finish.mapError (.atEnd ts) = .error e at h
    cases hfinish : p.finish with
    | error x =>
      rw [hfinish] at h
      exact .inr ⟨p, x, hread, hfinish, (Except.error.inj h).symm⟩
    | ok program =>
      rw [hfinish] at h
      cases h

/-- A syntax error names the first token at which the input can no longer become a program: the
tokens before it begin some program, and no program begins with them and it. An error at the end of
the input means that the input itself begins a longer program. -/
theorem parse_error_at_first_misfit {ts : List Token} {e : SyntaxError} (h : parse ts = .error e) :
    (∀ t, e.found = some t → ∃ i, ts[i]? = some t ∧ e.span = t.span ∧
      (∃ us, Accepted us ∧ ts.take i <+: us) ∧ ∀ us, Accepted us → ¬ ts.take (i + 1) <+: us) ∧
    (e.found = none → ∃ us, Accepted us ∧ ts <+: us ∧ ts ≠ us) := by
  obtain ⟨before, t, after, p, x, rfl, htakes, hstep, rfl⟩ | ⟨p, x, htakes, hfinish, rfl⟩ :=
    parse_eq_error h
  · refine ⟨fun t' ht => ?_, nofun⟩
    obtain rfl := Option.some.inj ht
    refine ⟨before.length, by simp, rfl, ?_, ?_⟩
    · obtain ⟨us, hus⟩ := exists_accepted_of_takes htakes
      exact ⟨before ++ us, hus, by simp⟩
    · rintro _ haccepted ⟨us, rfl⟩
      refine not_accepted_of_refused htakes hstep us ?_
      rw [List.take_length_add_append] at haccepted
      simpa using haccepted
  · refine ⟨nofun, fun _ => ?_⟩
    obtain ⟨us, hus⟩ := exists_accepted_of_takes htakes
    refine ⟨ts ++ us, hus, List.prefix_append ts us, fun hsame => ?_⟩
    -- the input itself is refused, so that something has been added to it
    obtain ⟨program, hprogram⟩ := hus
    rw [← hsame, h] at hprogram
    cases hprogram

/-- The tokens of `for (x 1`, where the name is followed by no equals sign. -/
def misfitTokens : List Token :=
  [{ kind := .keyword, text := "for" }, { kind := .bracket, text := "(" },
    { kind := .identifier, text := "x" }, { kind := .number, text := "1" }]

theorem parse_error_at_first_misfit_lookahead :
    parse misfitTokens = .error (.atToken { kind := .number, text := "1" } (.equalsAfterName "x")) ∧
      (∃ i, misfitTokens[i]? = some { kind := .number, text := "1" } ∧
        (∃ us, Accepted us ∧ misfitTokens.take i <+: us) ∧
        ∀ us, Accepted us → ¬ misfitTokens.take (i + 1) <+: us) ∧
      parse (misfitTokens.take 3) = .error (.atEnd (misfitTokens.take 3) (.equalsAfterName "x")) ∧
      ∃ us, Accepted us ∧ misfitTokens.take 3 <+: us ∧ misfitTokens.take 3 ≠ us := by
  have hmisfit : parse misfitTokens =
      .error (.atToken { kind := .number, text := "1" } (.equalsAfterName "x")) := rfl
  have hend : parse (misfitTokens.take 3) =
      .error (.atEnd (misfitTokens.take 3) (.equalsAfterName "x")) := rfl
  obtain ⟨i, hi, -, hbegins⟩ := (parse_error_at_first_misfit hmisfit).1 _ rfl
  exact ⟨hmisfit, ⟨i, hi, hbegins⟩, hend, (parse_error_at_first_misfit hend).2 rfl⟩

end Quadcode
