import Mathlib.Logic.ExistsUnique
import Quadcode.Proofs.Grammar.Completeness

/-!
# The reader accepts exactly the grammar

Every partial tree of the reader is backed by derivations of all that it holds: `Expr.Partial.Reads`
and `Stmt.Partial.Reads` say so of the tokens that have been read. A step keeps this
(`Expr.Partial.Reads.step`, `Stmt.Partial.Reads.step`), so the program that is handed out in the end
has a derivation. Together with the completeness of the reader this means that a list of tokens is
accepted exactly if it spells a program, and that it spells one only.
-/

namespace Quadcode

open Grammar

/-! ## Partial expressions -/

namespace Expr

/-- The tokens open the brackets, and spell the operands and operators that
stand in them already. -/
inductive Opens : List Token → List Context → Prop
  | nil : Opens [] []
  | first {ts : List Token} {around : List Context} {l : Token} {opened : Span}
      (outer : Opens ts around) (opens : l.is .bracket "(") :
      Opens (ts ++ [l]) (.first opened :: around)
  | second {ts us : List Token} {around : List Context} {l o : Token} {opened : Span} {left : Expr}
      {op : Operator} (outer : Opens ts around) (opens : l.is .bracket "(")
      (operand : Expression us left.bare) (kind : o.kind = .operator)
      (symbol : Operator.ofSymbol? o.text = some op) :
      Opens (ts ++ l :: us ++ [o]) (.second opened left op :: around)

/-- The tokens spell what has been read of an expression. -/
inductive Partial.Reads : List Token → Partial → Prop
  | operand {ts : List Token} {around : List Context} (outer : Opens ts around) :
      Reads ts { stage := .operand, around }
  | operator {ts us : List Token} {around : List Context} {l : Token} {opened : Span} {left : Expr}
      (outer : Opens ts around) (opens : l.is .bracket "(") (operand : Expression us left.bare) :
      Reads (ts ++ l :: us) { stage := .operator opened left, around }
  | close {ts us vs : List Token} {around : List Context} {l o : Token} {opened : Span}
      {left right : Expr} {op : Operator} (outer : Opens ts around) (opens : l.is .bracket "(")
      (operand : Expression us left.bare) (kind : o.kind = .operator)
      (symbol : Operator.ofSymbol? o.text = some op) (second : Expression vs right.bare) :
      Reads (ts ++ l :: us ++ o :: vs) { stage := .close opened left op right, around }

/-- The tokens spell what has been read of an expression, or all of it. -/
def Progress.Reads (ts : List Token) : Progress → Prop
  | .more read => read.Reads ts
  | .complete e => Expression ts e.bare

namespace Partial

theorem reads_fill {ts us : List Token} {around : List Context} {e : Expr} (outer : Opens ts around)
    (h : Expression us e.bare) : (fill e around).Reads (ts ++ us) := by
  cases outer with
  | nil => exact h
  | first outer opens =>
    rw [List.append_assoc]
    exact .operator outer opens h
  | second outer opens operand kind symbol =>
    rw [List.append_assoc]
    exact .close outer opens operand kind symbol h

theorem Reads.step {ts : List Token} {p : Partial} {t : Token} {g : Progress} (h : p.Reads ts)
    (hs : p.step t = .ok g) : g.Reads (ts ++ [t]) := by
  cases h with
  | operand outer =>
    simp only [Partial.step] at hs
    split at hs
    next hk =>
      split at hs
      next value hv =>
        obtain rfl := Except.ok.inj hs
        exact reads_fill outer (.number hk hv)
      next => cases hs
    next hk =>
      obtain rfl := Except.ok.inj hs
      exact reads_fill outer (.name hk)
    next =>
      split at hs
      next hb =>
        obtain rfl := Except.ok.inj hs
        exact .operand (.first outer hb)
      next => cases hs
  | @operator ts us around l opened left outer opens operand =>
    simp only [Partial.step] at hs
    split at hs
    next hb =>
      obtain rfl := Except.ok.inj hs
      have hgroup : Expression (l :: us ++ [t]) (left.withSpan (opened.upTo t.span)).bare := by
        rw [Expr.bare_withSpan]
        exact .group opens operand hb
      rw [List.append_assoc]
      exact reads_fill outer hgroup
    next =>
      split at hs
      next op hop =>
        obtain rfl := Except.ok.inj hs
        obtain ⟨hk, hsym⟩ : t.kind = .operator ∧ Operator.ofSymbol? t.text = some op := by
          simpa [Token.operator?] using hop
        exact .operand (.second outer opens operand hk hsym)
      next => cases hs
  | @close ts us vs around l o opened left right op outer opens operand kind symbol second =>
    simp only [Partial.step] at hs
    split at hs
    next hm =>
      obtain rfl := Except.ok.inj hs
      have hb : t.is .bracket ")" := (Expectation.isMetBy_eq rfl t).symm.trans hm
      have hop := Expression.binary opens operand kind symbol second hb
      have hfill := reads_fill (e := .binary op left right (opened.upTo t.span)) outer hop
      simpa using hfill
    next => cases hs

end Partial

end Expr

/-! ## Partial programs -/

namespace Stmt

/-- The tokens open the header of a counting loop and spell its first part. -/
inductive LoopStart : List Token → Stmt → Prop
  | intro {k h : Token} {ts : List Token} {initial : Stmt} (keyword : k.is .keyword "for")
      (header : h.is .bracket "(") (first : Statement ts initial.bare) :
      LoopStart (k :: h :: ts) initial

/-- The tokens spell the header of a counting loop up to the end of its test. -/
inductive LoopTest : List Token → Stmt → Expr → Prop
  | intro {z : Token} {ts us : List Token} {initial : Stmt} {test : Expr}
      (start : LoopStart ts initial) (value : Expression us test.bare)
      (stop : z.is .separator ";") :
      LoopTest (ts ++ us ++ [z]) initial test

/-- The tokens spell the whole header of a counting loop. -/
inductive LoopHeader : List Token → Stmt → Expr → Stmt → Prop
  | intro {x q c : Token} {ts us : List Token} {initial : Stmt} {test value : Expr} {span : Span}
      (tested : LoopTest ts initial test) (name : x.kind = .identifier)
      (equals : q.is .assignment "=") (second : Expression us value.bare)
      (closes : c.is .bracket ")") :
      LoopHeader (ts ++ x :: q :: us ++ [c]) initial test (.assign x.ident value span)

/-- The tokens spell a statement up to the name that a value is for. -/
inductive Receiver.Reads : List Token → Receiver → Prop
  | declared {k x : Token} {start : Span} (keyword : k.is .keyword "var")
      (name : x.kind = .identifier) :
      Reads [k, x] (.declared start x.ident)
  | assigned {x : Token} (name : x.kind = .identifier) : Reads [x] (.assigned x.ident)
  | stepped {x : Token} {ts : List Token} {start : Span} {initial : Stmt} {test : Expr}
      (tested : LoopTest ts initial test) (name : x.kind = .identifier) :
      Reads (ts ++ [x]) (.stepped start initial test x.ident)

/-- The tokens spell a statement up to the beginning of an expression in it. -/
inductive Purpose.Reads : List Token → Purpose → Prop
  | print {k : Token} {start : Span} (keyword : k.is .keyword "print") : Reads [k] (.print start)
  | give {q : Token} {ts : List Token} {receiver : Receiver} (read : receiver.Reads ts)
      (equals : q.is .assignment "=") : Reads (ts ++ [q]) (.give receiver)
  | ifTest {k : Token} {start : Span} (keyword : k.is .keyword "if") : Reads [k] (.ifTest start)
  | whileTest {k : Token} {start : Span} (keyword : k.is .keyword "while") :
      Reads [k] (.whileTest start)
  | forTest {ts : List Token} {start : Span} {initial : Stmt} (opened : LoopStart ts initial) :
      Reads ts (.forTest start initial)

/-- The tokens spell a compound statement up to the brace that opens its body. -/
inductive Header.Reads : List Token → Header → Prop
  | ifThen {k l : Token} {ts : List Token} {start : Span} {test : Expr}
      (keyword : k.is .keyword "if") (value : Expression ts test.bare)
      (opens : l.is .bracket "\x7b") :
      Reads (k :: ts ++ [l]) (.ifThen start test)
  | whileDo {k l : Token} {ts : List Token} {start : Span} {test : Expr}
      (keyword : k.is .keyword "while") (value : Expression ts test.bare)
      (opens : l.is .bracket "\x7b") :
      Reads (k :: ts ++ [l]) (.whileDo start test)
  | forDo {l : Token} {ts : List Token} {start : Span} {initial step : Stmt} {test : Expr}
      (header : LoopHeader ts initial test step) (opens : l.is .bracket "\x7b") :
      Reads (ts ++ [l]) (.forDo start initial test step)

/-- The tokens spell what has been read of the innermost statement. -/
inductive Phase.Reads : List Token → Phase → Prop
  | statement : Reads [] .statement
  | declaredName {k : Token} {start : Span} (keyword : k.is .keyword "var") :
      Reads [k] (.declaredName start)
  | equals {ts : List Token} {receiver : Receiver} (read : receiver.Reads ts) :
      Reads ts (.equals receiver)
  | value {ts us : List Token} {purpose : Purpose} {part : Expr.Partial} (read : purpose.Reads ts)
      (inner : part.Reads us) : Reads (ts ++ us) (.value purpose part)
  | ended {ts us : List Token} {purpose : Purpose} {e : Expr} (read : purpose.Reads ts)
      (inner : Expression us e.bare) : Reads (ts ++ us) (.ended purpose e)
  | header {k : Token} {start : Span} (keyword : k.is .keyword "for") : Reads [k] (.header start)
  | step {ts : List Token} {start : Span} {initial : Stmt} {test : Expr}
      (tested : LoopTest ts initial test) : Reads ts (.step start initial test)
  | body {ts : List Token} {start : Span} {initial step : Stmt} {test : Expr}
      (header : LoopHeader ts initial test step) : Reads ts (.body start initial test step)

/-- The tokens open the places, and spell the statements that stand in them already. -/
inductive Opens : List Token → List Frame → Prop
  | nil : Opens [] []
  | body {ts us vs : List Token} {frames : List Frame} {header : Header} {inner : List Stmt}
      (outer : Opens ts frames) (read : header.Reads us)
      (statements : Statements vs (bareAll inner.reverse)) :
      Opens (ts ++ us ++ vs) (.body header inner :: frames)
  | initial {k h : Token} {ts : List Token} {frames : List Frame} {start : Span}
      (outer : Opens ts frames) (keyword : k.is .keyword "for") (header : h.is .bracket "(") :
      Opens (ts ++ [k, h]) (.initial start :: frames)

/-- The tokens spell what has been read of a program. -/
inductive Partial.Reads : List Token → Partial → Prop
  | intro {ts us vs : List Token} {phase : Phase} {frames : List Frame} {done : List Stmt}
      (statements : Statements ts (bareAll done.reverse)) (outer : Opens us frames)
      (read : phase.Reads vs) :
      Reads (ts ++ us ++ vs) { phase, frames, done }

theorem Phase.reads_ofKeyword {t : Token} {start : Span} {phase : Phase} (hk : t.kind = .keyword)
    (h : Phase.ofKeyword? start t.text = some phase) : phase.Reads [t] := by
  have hm {text : String} (ht : t.text = text) : t.is .keyword text :=
    Token.is_eq_true_iff.2 ⟨hk, ht⟩
  have hv {purpose : Purpose} (hp : purpose.Reads [t]) : (Phase.value purpose {}).Reads [t] :=
    .value hp (.operand .nil)
  unfold Phase.ofKeyword? at h
  split at h
  next ht =>
    obtain rfl := Option.some.inj h
    exact hv (.print (hm ht))
  next ht =>
    obtain rfl := Option.some.inj h
    exact .declaredName (hm ht)
  next ht =>
    obtain rfl := Option.some.inj h
    exact hv (.ifTest (hm ht))
  next ht =>
    obtain rfl := Option.some.inj h
    exact hv (.whileTest (hm ht))
  next ht =>
    obtain rfl := Option.some.inj h
    exact .header (hm ht)
  next => cases h

theorem bareAll_concat (body : List Stmt) (s : Stmt) :
    bareAll (body ++ [s]) = bareAll body ++ [s.bare] := by
  simp [bareAll_eq_map]

theorem Header.Reads.withBody {ts bs : List Token} {r : Token} {header : Header} {body : List Stmt}
    (h : header.Reads ts) (inner : Statements bs (bareAll body)) (closes : r.is .bracket "\x7d")
    (stop : Span) : Statement (ts ++ bs ++ [r]) (header.withBody body stop).bare := by
  cases h with
  | ifThen keyword value opens =>
    simpa [Header.withBody, bare] using Statement.ifThen keyword value opens inner closes
  | whileDo keyword value opens =>
    simpa [Header.withBody, bare] using Statement.whileDo keyword value opens inner closes
  | forDo header opens =>
    obtain ⟨⟨⟨keyword, parens, first⟩, test, stop⟩, name, equals, second, headerEnd⟩ := header
    simpa [Header.withBody, bare, Ident.bare] using
      Statement.forDo keyword parens first test stop name equals second headerEnd opens inner closes

namespace Partial

theorem reads_fill {ts us vs : List Token} {frames : List Frame} {done : List Stmt} {s : Stmt}
    (statements : Statements ts (bareAll done.reverse)) (outer : Opens us frames)
    (h : Statement vs s.bare) : (fill s frames done).Reads (ts ++ us ++ vs) := by
  cases outer with
  | nil =>
    have hd : Statements (ts ++ vs) (bareAll (s :: done).reverse) := by
      rw [List.reverse_cons, bareAll_concat]
      exact statements.concat h
    simpa [fill] using Reads.intro hd .nil .statement
  | @body us₁ us₂ us₃ frames header inner outer read within =>
    have hi : Statements (us₃ ++ vs) (bareAll (s :: inner).reverse) := by
      rw [List.reverse_cons, bareAll_concat]
      exact within.concat h
    simpa [fill] using Reads.intro statements (.body outer read hi) .statement
  | @initial k l us frames start outer keyword header =>
    have hp : (Purpose.forTest start s).Reads (k :: l :: vs) := .forTest (.intro keyword header h)
    simpa [fill] using Reads.intro statements outer (.value hp (.operand .nil))

theorem reads_begin {ts us : List Token} {p q : Partial} {t : Token}
    (statements : Statements ts (bareAll p.done.reverse)) (outer : Opens us p.frames)
    (hs : p.begin t = .ok q) : q.Reads (ts ++ us ++ [t]) := by
  by_cases hk : t.kind = .keyword
  · rw [begin_keyword p hk] at hs
    cases hp : Phase.ofKeyword? t.span t.text with
    | none => simp [hp] at hs
    | some phase =>
      simp only [hp, Option.map_some, Option.elim_some, Except.ok.injEq] at hs
      subst hs
      exact .intro statements outer (Phase.reads_ofKeyword hk hp)
  by_cases hi : t.kind = .identifier
  · simp only [Partial.begin, hi, Except.ok.injEq] at hs
    subst hs
    exact .intro statements outer (.equals (.assigned hi))
  -- neither a keyword nor a name: only the brace that closes the innermost body is left
  obtain ⟨phase, frames, done⟩ := p
  have hb : ∃ header inner rest, frames = .body header inner :: rest ∧ t.is .bracket "\x7d" ∧
      q = fill (header.withBody inner.reverse t.span) rest done := by
    simp only [Partial.begin] at hs
    split at hs
    next header inner rest =>
      split at hs
      next hm =>
        exact ⟨header, inner, rest, rfl, (Expectation.isMetBy_eq rfl t).symm.trans hm,
          (Except.ok.inj hs).symm⟩
      next => cases hs
    next => cases hs
  obtain ⟨header, inner, rest, rfl, hm, rfl⟩ := hb
  cases outer with
  | body outer read within =>
    have hbody := read.withBody within hm t.span
    simpa using reads_fill statements outer hbody

theorem reads_conclude {ts us vs ws : List Token} {frames : List Frame}
    {done : List Stmt} {t : Token} {purpose : Purpose} {e : Expr}
    (statements : Statements ts (bareAll done.reverse)) (outer : Opens us frames)
    (read : purpose.Reads vs) (value : Expression ws e.bare) (hm : (endOf purpose).isMetBy t) :
    (conclude { phase := .ended purpose e, frames, done } e t.span purpose).Reads
      (ts ++ us ++ (vs ++ ws) ++ [t]) := by
  have hmark {kind : Token.Kind} {text : String} (h : (endOf purpose).mark? = some (kind, text)) :
      t.is kind text := (Expectation.isMetBy_eq h t).symm.trans hm
  cases read with
  | print keyword =>
    have hs := Statement.print keyword value (hmark rfl)
    simpa [conclude] using reads_fill (s := .print e _) statements outer hs
  | @ifTest k start keyword =>
    have hh : (Header.ifThen start e).Reads (k :: ws ++ [t]) := .ifThen keyword value (hmark rfl)
    simpa [conclude, enter] using Reads.intro statements (.body outer hh .nil) .statement
  | @whileTest k start keyword =>
    have hh : (Header.whileDo start e).Reads (k :: ws ++ [t]) := .whileDo keyword value (hmark rfl)
    simpa [conclude, enter] using Reads.intro statements (.body outer hh .nil) .statement
  | forTest opened =>
    have ht := LoopTest.intro opened value (hmark rfl)
    simpa [conclude] using Reads.intro statements outer (.step ht)
  | give read equals =>
    cases read with
    | declared keyword name =>
      have hs := Statement.declare keyword name equals value (hmark rfl)
      simpa [conclude] using reads_fill (s := .declare _ e _) statements outer hs
    | assigned name =>
      have hs := Statement.assign name equals value (hmark rfl)
      simpa [conclude] using reads_fill (s := .assign _ e _) statements outer hs
    | @stepped x vs start initial test tested name =>
      have hh : LoopHeader _ initial test (.assign x.ident e (x.span.upTo e.span)) :=
        .intro tested name equals value (hmark rfl)
      simpa [conclude] using Reads.intro statements outer (.body hh)

theorem Reads.extend {ts us vs : List Token} {frames : List Frame} {done : List Stmt}
    {phase : Phase} {t : Token} (statements : Statements ts (bareAll done.reverse))
    (outer : Opens us frames) (read : phase.Reads (vs ++ [t])) :
    Reads (ts ++ us ++ vs ++ [t]) { phase, frames, done } := by
  rw [List.append_assoc]
  exact .intro statements outer read

/-- One more token keeps the backing of what has been read. -/
theorem Reads.step {ts : List Token} {p q : Partial} {t : Token} (h : p.Reads ts)
    (hs : p.step t = .ok q) : q.Reads (ts ++ [t]) := by
  obtain ⟨statements, outer, read⟩ := h
  cases read with
  | statement => simpa using reads_begin statements outer hs
  | declaredName keyword =>
    simp only [Partial.step] at hs
    split at hs
    next hk =>
      obtain rfl := Except.ok.inj hs
      exact .extend statements outer (.equals (.declared keyword hk))
    next => cases hs
  | @equals vs receiver read =>
    simp only [Partial.step] at hs
    split at hs
    next hm =>
      obtain rfl := Except.ok.inj hs
      have hq : t.is .assignment "=" := by
        rw [← hm]
        exact (Expectation.isMetBy_eq (by cases receiver <;> rfl) t).symm
      refine .extend statements outer ?_
      simpa using Phase.Reads.value (.give read hq) (.operand .nil)
    next => split at hs <;> cases hs
  | @value vs ws purpose part read inner =>
    rw [step_value] at hs
    cases hg : part.step t with
    | error x =>
      rw [hg] at hs
      cases hs
    | ok g =>
      rw [hg] at hs
      obtain rfl := Except.ok.inj hs
      have hr := inner.step hg
      cases g with
      | more part' =>
        refine .extend statements outer ?_
        rw [List.append_assoc]
        exact .value read hr
      | complete e =>
        refine .extend statements outer ?_
        rw [List.append_assoc]
        exact .ended read hr
  | ended read inner =>
    simp only [Partial.step] at hs
    split at hs
    next hm =>
      obtain rfl := Except.ok.inj hs
      exact reads_conclude statements outer read inner hm
    next => cases hs
  | header keyword =>
    simp only [Partial.step] at hs
    split at hs
    next hm =>
      obtain rfl := Except.ok.inj hs
      have hb : t.is .bracket "(" := (Expectation.isMetBy_eq rfl t).symm.trans hm
      simpa using Reads.intro statements (.initial outer keyword hb) .statement
    next => cases hs
  | step tested =>
    simp only [Partial.step] at hs
    split at hs
    next hk =>
      obtain rfl := Except.ok.inj hs
      exact .extend statements outer (.equals (.stepped tested hk))
    next => cases hs
  | body header =>
    simp only [Partial.step] at hs
    split at hs
    next hm =>
      obtain rfl := Except.ok.inj hs
      have hb : t.is .bracket "\x7b" := (Expectation.isMetBy_eq rfl t).symm.trans hm
      simpa [enter] using Reads.intro statements (.body outer (.forDo header hb) .nil) .statement
    next => cases hs

theorem Takes.reads {ts us : List Token} {p q : Partial} (h : p.Takes us q) (hp : p.Reads ts) :
    q.Reads (ts ++ us) := by
  induction us generalizing p ts with
  | nil =>
    obtain rfl := takes_nil_iff.1 h
    simpa using hp
  | cons t us ih =>
    obtain ⟨p', hs, hr⟩ := takes_cons_iff.1 h
    simpa using ih hr (hp.step hs)

theorem Reads.finish {ts : List Token} {p : Partial} {program : List Stmt} (h : p.Reads ts)
    (hf : p.finish = .ok program) : Statements ts (bareAll program) := by
  obtain ⟨statements, outer, read⟩ := h
  cases read with
  | statement =>
    cases outer with
    | nil =>
      obtain rfl := Except.ok.inj hf
      simpa using statements
    | body outer read within => cases hf
    | initial outer keyword header => cases hf
  | declaredName keyword => cases hf
  | equals read => cases hf
  | value read inner => cases hf
  | ended read inner => cases hf
  | header keyword => cases hf
  | step tested => cases hf
  | body header => cases hf

end Partial

end Stmt

/-! ## Whole programs -/

theorem parse_eq_ok_iff {ts : List Token} {program : List Stmt} :
    parse ts = .ok program ↔
      ∃ p : Stmt.Partial, Stmt.Partial.Takes {} ts p ∧ p.finish = .ok program := by
  simp only [parse, Stmt.Partial.Takes, except_bind_eq_ok_iff, except_mapError_eq_ok_iff]

theorem Grammar.statements_of_parse {ts : List Token} {program : List Stmt}
    (h : parse ts = .ok program) : Statements ts (Stmt.bareAll program) := by
  obtain ⟨p, ht, hf⟩ := parse_eq_ok_iff.1 h
  have hstart : Stmt.Partial.Reads ([] ++ [] ++ []) {} := .intro .nil .nil .statement
  exact (ht.reads hstart).finish hf

theorem Grammar.Placed.Statements.parse {ts : List Token} {program : List Stmt}
    (h : Placed.Statements ts program) : Quadcode.parse ts = .ok program := by
  refine parse_eq_ok_iff.2 ⟨_, h.takes Stmt.Partial.collects_top [], ?_⟩
  simp [Stmt.Partial.finish]

theorem Grammar.Statements.parse {ts : List Token} {program : List Stmt}
    (h : Statements ts program) :
    ∃ program' : List Stmt, Stmt.bareAll program' = program ∧ Quadcode.parse ts = .ok program' := by
  obtain ⟨program', hbare, hplaced⟩ := h.exists_placed
  exact ⟨program', hbare, hplaced.parse⟩

/-- A program is read with the places of its tokens. -/
theorem Grammar.placed_of_parse {ts : List Token} {program : List Stmt}
    (h : Quadcode.parse ts = .ok program) : Placed.Statements ts program := by
  obtain ⟨program', -, hplaced⟩ := (statements_of_parse h).exists_placed
  obtain rfl : program = program' := Except.ok.inj (h.symm.trans hplaced.parse)
  exact hplaced

/-! ## The steps of counting loops -/

namespace Stmt

mutual

/-- The step of every counting loop in the statement is an assignment. -/
def StepsAssign : Stmt → Prop
  | .print _ _ => True
  | .declare _ _ _ => True
  | .assign _ _ _ => True
  | .ifThen _ body _ => StepsAssignAll body
  | .whileDo _ body _ => StepsAssignAll body
  | .forDo initial _ step body _ =>
    StepsAssign initial ∧ (∃ name value span, step = .assign name value span) ∧ StepsAssignAll body
termination_by structural s => s

/-- The step of every counting loop in the statements is an assignment. -/
def StepsAssignAll : List Stmt → Prop
  | [] => True
  | s :: rest => StepsAssign s ∧ StepsAssignAll rest
termination_by structural body => body

end

mutual

theorem stepsAssign_of_bare {s : Stmt} (h : s.bare.StepsAssign) : s.StepsAssign := by
  match s with
  | .print value _ => trivial
  | .declare name value _ => trivial
  | .assign name value _ => trivial
  | .ifThen test body _ => exact stepsAssignAll_of_bareAll h
  | .whileDo test body _ => exact stepsAssignAll_of_bareAll h
  | .forDo initial test step body _ =>
    obtain ⟨hinitial, hstep, hbody⟩ := h
    refine ⟨stepsAssign_of_bare hinitial, ?_, stepsAssignAll_of_bareAll hbody⟩
    cases step <;> simp [bare] at hstep
    exact ⟨_, _, _, rfl⟩

theorem stepsAssignAll_of_bareAll {body : List Stmt} (h : StepsAssignAll (bareAll body)) :
    StepsAssignAll body := by
  match body with
  | [] => trivial
  | s :: rest => exact ⟨stepsAssign_of_bare h.1, stepsAssignAll_of_bareAll h.2⟩

end

end Stmt

mutual

theorem Grammar.Statement.stepsAssign {ts : List Token} {s : Stmt} (h : Statement ts s) :
    s.StepsAssign := by
  match h with
  | .print .. => trivial
  | .declare .. => trivial
  | .assign .. => trivial
  | .ifThen _ _ _ inner _ => exact inner.stepsAssignAll
  | .whileDo _ _ _ inner _ => exact inner.stepsAssignAll
  | .forDo _ _ first _ _ _ _ _ _ _ inner _ =>
    exact ⟨first.stepsAssign, ⟨_, _, _, rfl⟩, inner.stepsAssignAll⟩

theorem Grammar.Statements.stepsAssignAll {ts : List Token} {body : List Stmt}
    (h : Statements ts body) : Stmt.StepsAssignAll body := by
  match h with
  | .nil => trivial
  | .cons head tail => exact ⟨head.stepsAssign, tail.stepsAssignAll⟩

end

theorem stepsAssignAll_of_parse {ts : List Token} {program : List Stmt}
    (h : parse ts = .ok program) : Stmt.StepsAssignAll program :=
  Stmt.stepsAssignAll_of_bareAll (Grammar.statements_of_parse h).stepsAssignAll

/-! ## Exactly the grammar -/

/-- Up to places, a list of tokens is read as a program exactly when it spells it. So a list that is
accepted spells one program only, and every other list is refused. -/
theorem parse_bare_eq_ok_iff (ts : List Token) :
    (∀ program, (parse ts).map Stmt.bareAll = .ok program ↔ Statements ts program) ∧
      ((∃! program, Statements ts program) ∨
        (¬ ∃ program, Statements ts program) ∧ ∃ e, parse ts = .error e) := by
  have hiff : ∀ program, (parse ts).map Stmt.bareAll = .ok program ↔ Statements ts program := by
    intro program
    constructor
    · intro h
      cases hp : parse ts with
      | error e => simp [hp, Except.map] at h
      | ok program' =>
        obtain rfl : Stmt.bareAll program' = program := by simpa [hp, Except.map] using h
        exact statements_of_parse hp
    · intro h
      obtain ⟨program', rfl, hp⟩ := h.parse
      rw [hp]
      rfl
  refine ⟨hiff, ?_⟩
  by_cases hsome : ∃ program, Statements ts program
  · obtain ⟨program, h⟩ := hsome
    refine .inl ⟨program, h, fun other ho => ?_⟩
    exact Except.ok.inj (((hiff other).2 ho).symm.trans ((hiff program).2 h))
  · refine .inr ⟨hsome, ?_⟩
    cases hp : parse ts with
    | error e => exact ⟨e, rfl⟩
    | ok program => exact absurd ⟨_, statements_of_parse hp⟩ hsome

end Quadcode
