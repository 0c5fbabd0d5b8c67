import Quadcode.Proofs.Grammar.Placed
import Quadcode.Proofs.Result

/-!
# Every derivation is read

A derivation is followed token by token. From the place where an expression or a statement begins,
its tokens lead the reader to where its tree is filled in, with the places that it has in the
derivation (`Grammar.Placed.Expression.steps`, `Grammar.Placed.Statement.takes`).
-/

namespace Quadcode

/-! ## Tokens -/

@[simp]
theorem Token.is_eq_true_iff {t : Token} {kind : Token.Kind} {text : String} :
    t.is kind text = true ↔ t.kind = kind ∧ t.text = text := by
  simp [Token.is]

theorem Expectation.isMetBy_eq {x : Expectation} {kind : Token.Kind} {text : String}
    (h : x.mark? = some (kind, text)) (t : Token) : x.isMetBy t = t.is kind text := by
  simp [isMetBy, h]

/-! ## Following a derivation of an expression -/

namespace Expr.Partial

/-- Reading the tokens one after the other leads from `p` to the progress `g`. -/
inductive Steps : Partial → List Token → Progress → Prop
  | last {p : Partial} {t : Token} {g : Progress} (h : p.step t = .ok g) : Steps p [t] g
  | cons {p q : Partial} {t : Token} {ts : List Token} {g : Progress} (h : p.step t = .ok (.more q))
      (rest : Steps q ts g) : Steps p (t :: ts) g

theorem Steps.append {p q : Partial} {ts us : List Token} {g : Progress} (h : Steps p ts (.more q))
    (h' : Steps q us g) : Steps p (ts ++ us) g := by
  generalize hm : Progress.more q = m at h
  induction h with
  | last hs =>
    subst hm
    exact .cons hs h'
  | cons hs _ ih => exact .cons hs (ih hm)

variable {around : List Context}

theorem step_open {t : Token} (h : t.is .bracket "(") :
    step { stage := .operand, around } t =
      .ok (.more { stage := .operand, around := .first t.span :: around }) := by
  have hk := (Token.is_eq_true_iff.1 h).1
  simp [step, hk, h]

theorem step_group {t : Token} (h : t.is .bracket ")") (opened : Span) (e : Expr) :
    step { stage := .operator opened e, around } t =
      .ok (fill (e.withSpan (opened.upTo t.span)) around) := by
  simp [step, h]

theorem step_operator {t : Token} {op : Operator} (hk : t.kind = .operator)
    (hs : Operator.ofSymbol? t.text = some op) (opened : Span) (e : Expr) :
    step { stage := .operator opened e, around } t =
      .ok (.more { stage := .operand, around := .second opened e op :: around }) := by
  have hb : ¬ t.is .bracket ")" = true := by simp [hk]
  simp [step, hb, Token.operator?, hk, hs]

theorem step_close {t : Token} (h : t.is .bracket ")") (opened : Span) (e f : Expr)
    (op : Operator) :
    step { stage := .close opened e op f, around } t =
      .ok (fill (.binary op e f (opened.upTo t.span)) around) := by
  have hm : Expectation.closeOperation.isMetBy t = true := (Expectation.isMetBy_eq rfl t).trans h
  simp [step, hm]

end Expr.Partial

open Expr.Partial in
/-- The tokens of an expression fill its tree into the brackets that are open around it. -/
theorem Grammar.Placed.Expression.steps {ts : List Token} {e : Expr} (h : Placed.Expression ts e)
    (around : List Expr.Context) : Steps { stage := .operand, around } ts (fill e around) := by
  induction h generalizing around with
  | number kind numeral => exact .last (by simp [step, kind, numeral])
  | name kind => exact .last (by simp [step, kind])
  | @group l r ts e opens _ closes ih =>
    exact (Steps.cons (step_open opens) (ih (.first l.span :: around))).append
      (.last (step_group closes _ _))
  | @binary l o r ts us e f op opens _ kind symbol _ closes ihl ihr =>
    have hleft := Steps.cons (step_open opens) (ihl (.first l.span :: around))
    have hright := Steps.cons (step_operator kind symbol _ _) (ihr (.second l.span e op :: around))
    exact (hleft.append hright).append (.last (step_close closes _ _ _ _))

/-! ## Following a derivation of statements -/

namespace Stmt

/-- The phase to which the keyword of a statement leads. -/
def Phase.ofKeyword? (start : Span) : String → Option Phase
  | "print" => some (.value (.print start) {})
  | "var" => some (.declaredName start)
  | "if" => some (.value (.ifTest start) {})
  | "while" => some (.value (.whileTest start) {})
  | "for" => some (.header start)
  | _ => none

namespace Partial

theorem begin_keyword (p : Partial) {t : Token} (h : t.kind = .keyword) :
    p.begin t =
      ((Phase.ofKeyword? t.span t.text).map fun phase => { p with phase }).elim
        (.error .statement) .ok := by
  simp only [Partial.begin, h]
  split <;> simp [Phase.ofKeyword?, *]

/-- Reading the tokens one after the other leads from `p` to `q`. -/
def Takes (p : Partial) (ts : List Token) (q : Partial) : Prop :=
  ts.foldlM read p = .ok q

theorem read_eq_ok_iff {p q : Partial} {t : Token} : p.read t = .ok q ↔ p.step t = .ok q :=
  except_mapError_eq_ok_iff

@[simp]
theorem takes_nil_iff {p q : Partial} : p.Takes [] q ↔ p = q := by
  simp [Takes, pure, Except.pure]

theorem takes_cons_iff {p r : Partial} {t : Token} {ts : List Token} :
    p.Takes (t :: ts) r ↔ ∃ q, p.step t = .ok q ∧ q.Takes ts r := by
  unfold Takes
  simp only [List.foldlM_cons, except_bind_eq_ok_iff, read_eq_ok_iff]

theorem Takes.cons {p q r : Partial} {t : Token} {ts : List Token} (h : p.step t = .ok q)
    (rest : q.Takes ts r) : p.Takes (t :: ts) r :=
  takes_cons_iff.2 ⟨q, h, rest⟩

theorem Takes.one {p q : Partial} {t : Token} (h : p.step t = .ok q) : p.Takes [t] q :=
  .cons h (takes_nil_iff.2 rfl)

theorem Takes.append {p q r : Partial} {ts us : List Token} (h : p.Takes ts q) (h' : q.Takes us r) :
    p.Takes (ts ++ us) r := by
  induction ts generalizing p with
  | nil =>
    obtain rfl := takes_nil_iff.1 h
    exact h'
  | cons t ts ih =>
    obtain ⟨p', hs, hr⟩ := takes_cons_iff.1 h
    exact .cons hs (ih hr)

/-- What has been read of a program once an expression in it has made the progress `g`. -/
def proceed (p : Partial) (purpose : Purpose) : Expr.Progress → Partial
  | .more read => { p with phase := .value purpose read }
  | .complete value => { p with phase := .ended purpose value }

theorem step_value (purpose : Purpose) (read : Expr.Partial) (frames : List Frame)
    (done : List Stmt) (t : Token) :
    step { phase := .value purpose read, frames, done } t =
      (read.step t).map (proceed { phase := .value purpose read, frames, done } purpose) := by
  simp only [step]
  rcases read.step t with x | g
  · rfl
  · cases g <;> rfl

variable (frames : List Frame) (done : List Stmt)

theorem step_keyword {t : Token} {text : String} {phase : Phase} (h : t.is .keyword text)
    (hp : Phase.ofKeyword? t.span text = some phase) :
    step { phase := .statement, frames, done } t = .ok { phase, frames, done } := by
  obtain ⟨hk, rfl⟩ := Token.is_eq_true_iff.1 h
  simp [step, begin_keyword _ hk, hp]

theorem step_equals {t : Token} (h : t.is .assignment "=") (receiver : Receiver) :
    step { phase := .equals receiver, frames, done } t =
      .ok { phase := .value (.give receiver) {}, frames, done } := by
  have hm : (equalsAfter receiver).isMetBy t = true := by
    rw [Expectation.isMetBy_eq (by cases receiver <;> rfl)]
    exact h
  simp [step, hm]

theorem step_ended {t : Token} {purpose : Purpose} {kind : Token.Kind} {text : String}
    (hp : (endOf purpose).mark? = some (kind, text)) (h : t.is kind text) (value : Expr) :
    step { phase := .ended purpose value, frames, done } t =
      .ok (conclude { phase := .ended purpose value, frames, done } value t.span purpose) := by
  have hm : (endOf purpose).isMetBy t = true := (Expectation.isMetBy_eq hp t).trans h
  simp [step, hm]

theorem step_closeBody {t : Token} (h : t.is .bracket "\x7d") (header : Header)
    (inner : List Stmt) :
    step { phase := .statement, frames := .body header inner :: frames, done } t =
      .ok (fill (header.withBody inner.reverse t.span) frames done) := by
  have hk := (Token.is_eq_true_iff.1 h).1
  have hm : (Expectation.closeBody header.compound).isMetBy t = true :=
    (Expectation.isMetBy_eq rfl t).trans h
  simp [step, Partial.begin, hk, hm]

theorem step_header {t : Token} (h : t.is .bracket "(") (start : Span) :
    step { phase := .header start, frames, done } t =
      .ok { phase := .statement, frames := .initial start :: frames, done } := by
  have hm : Expectation.openHeader.isMetBy t = true := (Expectation.isMetBy_eq rfl t).trans h
  simp [step, hm]

theorem step_openBody {t : Token} (h : t.is .bracket "\x7b") (start : Span) (initial : Stmt)
    (test : Expr) (step : Stmt) :
    Partial.step { phase := .body start initial test step, frames, done } t =
      .ok
        { phase := .statement, frames := .body (.forDo start initial test step) [] :: frames,
          done } := by
  have hm : (Expectation.openBody .forDo).isMetBy t = true := (Expectation.isMetBy_eq rfl t).trans h
  simp [Partial.step, hm, enter]

/-- Wherever `place` has read some statements, it reads one more by putting it in front of them. -/
structure Collects (place : List Stmt → Partial) : Prop where
  phase : ∀ inner, (place inner).phase = .statement
  fill : ∀ s inner, fill s (place inner).frames (place inner).done = place (s :: inner)

theorem collects_body (header : Header) :
    Collects fun inner => { phase := .statement, frames := .body header inner :: frames, done } :=
  ⟨fun _ => rfl, fun _ _ => rfl⟩

theorem collects_top : Collects fun done => { phase := .statement, frames := [], done } :=
  ⟨fun _ => rfl, fun _ _ => rfl⟩

end Partial

end Stmt

open Stmt Stmt.Partial

theorem Expr.Partial.Steps.takes {read : Expr.Partial} {ts : List Token} {g : Expr.Progress}
    (h : read.Steps ts g) (purpose : Purpose) (frames : List Frame) (done : List Stmt) :
    Takes { phase := .value purpose read, frames, done } ts
      (proceed { phase := .value purpose read, frames, done } purpose g) := by
  induction h with
  | last hs =>
    refine .one ?_
    rw [step_value, hs]
    rfl
  | cons hs _ ih =>
    refine .cons ?_ ih
    rw [step_value, hs]
    rfl

/-- The tokens of an expression are read as the value that it is for. -/
theorem Grammar.Placed.Expression.takes {ts : List Token} {e : Expr} (h : Placed.Expression ts e)
    (purpose : Purpose) (frames : List Frame) (done : List Stmt) :
    Takes { phase := .value purpose {}, frames, done } ts
      { phase := .ended purpose e, frames, done } :=
  (h.steps []).takes purpose frames done

mutual

/-- The tokens of a statement fill it into the innermost place that is open. -/
theorem Grammar.Placed.Statement.takes {ts : List Token} {s : Stmt} (h : Placed.Statement ts s)
    (frames : List Frame) (done : List Stmt) :
    Takes { phase := .statement, frames, done } ts (fill s frames done) := by
  match h with
  | @Placed.Statement.print k z ts e keyword value stop =>
    have hvalue :=
      Takes.cons (step_keyword frames done keyword rfl) (value.takes (.print k.span) frames done)
    exact hvalue.append (.one (step_ended frames done rfl stop e))
  | @Placed.Statement.declare k x q z ts e keyword name equals value stop =>
    have hname : step { phase := .declaredName k.span, frames, done } x =
        .ok { phase := .equals (.declared k.span x.ident), frames, done } := by
      simp [step, name]
    have hvalue :=
      Takes.cons hname (.cons (step_equals frames done equals _) (value.takes _ frames done))
    have hstart := Takes.cons (step_keyword frames done keyword rfl) hvalue
    exact hstart.append (.one (step_ended frames done rfl stop e))
  | @Placed.Statement.assign x q z ts e name equals value stop =>
    have hname : step { phase := .statement, frames, done } x =
        .ok { phase := .equals (.assigned x.ident), frames, done } := by
      simp [step, Stmt.Partial.begin, name]
    have hvalue :=
      Takes.cons hname (.cons (step_equals frames done equals _) (value.takes _ frames done))
    exact hvalue.append (.one (step_ended frames done rfl stop e))
  | @Placed.Statement.ifThen k l r ts bs e body keyword test opens inner closes =>
    have htest :=
      Takes.cons (step_keyword frames done keyword rfl) (test.takes (.ifTest k.span) frames done)
    have hbody := inner.takes (collects_body frames done (.ifThen k.span e)) []
    have hopen := htest.append (.cons (step_ended frames done rfl opens e) hbody)
    have hclose := hopen.append (.one (step_closeBody frames done closes _ _))
    simpa [Header.withBody] using hclose
  | @Placed.Statement.whileDo k l r ts bs e body keyword test opens inner closes =>
    have htest :=
      Takes.cons (step_keyword frames done keyword rfl) (test.takes (.whileTest k.span) frames done)
    have hbody := inner.takes (collects_body frames done (.whileDo k.span e)) []
    have hopen := htest.append (.cons (step_ended frames done rfl opens e) hbody)
    have hclose := hopen.append (.one (step_closeBody frames done closes _ _))
    simpa [Header.withBody] using hclose
  | @Placed.Statement.forDo k h z x q c l r is ts us bs initial e f body keyword header first test
      stop name equals value headerEnd opens inner closes =>
    have hname : step { phase := .step k.span initial e, frames, done } x =
        .ok { phase := .equals (.stepped k.span initial e x.ident), frames, done } := by
      simp [step, name]
    have hbody := inner.takes (collects_body frames done (.forDo k.span initial e
      (.assign x.ident f (x.span.upTo f.span)))) []
    have htest := (Takes.cons (step_keyword frames done keyword rfl)
      (.cons (step_header frames done header _)
        (first.takes (.initial k.span :: frames) done))).append
      (test.takes (.forTest k.span initial) frames done)
    have hstep := htest.append (.cons (step_ended frames done rfl stop e)
      (.cons hname (.cons (step_equals frames done equals _) (value.takes _ frames done))))
    have hopen := hstep.append (.cons (step_ended frames done rfl headerEnd f)
      (.cons (step_openBody frames done opens _ _ _ _) hbody))
    have hclose := hopen.append (.one (step_closeBody frames done closes _ _))
    simpa [Header.withBody] using hclose

theorem Grammar.Placed.Statements.takes {ts : List Token} {body : List Stmt}
    (h : Placed.Statements ts body) {place : List Stmt → Stmt.Partial} (hp : Collects place)
    (inner : List Stmt) : (place inner).Takes ts (place (body.reverse ++ inner)) := by
  match h with
  | .nil => exact takes_nil_iff.2 rfl
  | @Placed.Statements.cons ts us s rest head tail =>
    have hs := head.takes (place inner).frames (place inner).done
    rw [hp.fill s inner, ← hp.phase inner] at hs
    rw [List.reverse_cons, List.append_assoc]
    exact hs.append (tail.takes hp (s :: inner))

end

end Quadcode
