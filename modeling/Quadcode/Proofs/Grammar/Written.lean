import Quadcode.Proofs.Binary64.Text
import Quadcode.Proofs.Grammar.Recognition
import Quadcode.Proofs.Token.Layout

/-!
# The tokens that a tree is written with

`Expr.tokens` and `Stmt.tokens` list the tokens of a tree in the one form in which it is written:
every operation in round brackets, and no other brackets around expressions. A number without a
numeral is written with a name, so the tokens spell the tree again exactly if all its literals are
finite (`Grammar.Statements.literalsAll_eq` and `Grammar.Statements.written`). Which tree some
tokens spell depends on their classes and texts alone (`Grammar.Statements.of_bare`).
-/

namespace Quadcode

/-! ## Literals -/

/-- The double has a numeral. -/
def Binary64.isFinite : Binary64 → Bool
  | .finite _ _ => true
  | .infinite _ | .nan => false

/-- The literals of the expression, from left to right. -/
def Expr.literals : Expr → List Binary64
  | .number value _ => [value]
  | .name _ _ => []
  | .binary _ left right _ => left.literals ++ right.literals

namespace Stmt

mutual

/-- The literals of the statement, from left to right. -/
def literals : Stmt → List Binary64
  | .print value _ => value.literals
  | .declare _ value _ => value.literals
  | .assign _ value _ => value.literals
  | .ifThen test body _ => test.literals ++ literalsAll body
  | .whileDo test body _ => test.literals ++ literalsAll body
  | .forDo initial test step body _ =>
    initial.literals ++ test.literals ++ step.literals ++ literalsAll body
termination_by structural s => s

/-- The literals of the statements, from left to right. -/
def literalsAll : List Stmt → List Binary64
  | [] => []
  | s :: rest => s.literals ++ literalsAll rest
termination_by structural body => body

end

end Stmt

theorem Expr.literals_bare (e : Expr) : e.bare.literals = e.literals := by
  induction e with
  | number value _ => rfl
  | name x _ => rfl
  | binary op left right _ ihl ihr => rw [bare, literals, ihl, ihr, literals]

mutual

theorem Stmt.literals_bare (s : Stmt) : s.bare.literals = s.literals := by
  match s with
  | .print value _ | .declare _ value _ | .assign _ value _ =>
    simp only [bare, literals, value.literals_bare]
  | .ifThen test body _ | .whileDo test body _ =>
    simp only [bare, literals, test.literals_bare, literalsAll_bareAll body]
  | .forDo initial test step body _ =>
    simp only [bare, literals, initial.literals_bare, test.literals_bare, step.literals_bare,
      literalsAll_bareAll body]

theorem Stmt.literalsAll_bareAll (body : List Stmt) :
    literalsAll (bareAll body) = literalsAll body := by
  match body with
  | [] => rfl
  | s :: rest => simp only [bareAll, literalsAll, s.literals_bare, literalsAll_bareAll rest]

end

/-! ## Tokens -/

namespace Token

/-- A token without a place. -/
def of (kind : Kind) (text : String) : Token :=
  { kind, text }

/-- The value of a number. -/
def numeral? (t : Token) : Option Binary64 :=
  if t.kind = .number then Binary64.ofText? t.text else none

end Token

/-- The tokens of a double. One without a numeral is written as a name, with a minus
before a negative infinity. -/
def Binary64.tokens : Binary64 → List Token
  | .finite negative rank => [.of .number (Binary64.finite negative rank).text]
  | .infinite false => [.of .identifier "inf"]
  | .infinite true => [.of .operator "-", .of .identifier "inf"]
  | .nan => [.of .identifier "NaN"]

/-- The tokens of the expression. -/
def Expr.tokens : Expr → List Token
  | .number value _ => value.tokens
  | .name x _ => [.of .identifier x]
  | .binary op left right _ =>
    .of .bracket "(" :: left.tokens ++ .of .operator op.symbol :: right.tokens ++ [.of .bracket ")"]

namespace Stmt

mutual

/-- The tokens of the statement. No semicolon stands behind the step of a counting loop
that is an assignment. -/
def tokens : Stmt → List Token
  | .print value _ => .of .keyword "print" :: value.tokens ++ [.of .separator ";"]
  | .declare name value _ =>
    .of .keyword "var" :: .of .identifier name.text :: .of .assignment "=" :: value.tokens ++
      [.of .separator ";"]
  | .assign name value _ =>
    .of .identifier name.text :: .of .assignment "=" :: value.tokens ++ [.of .separator ";"]
  | .ifThen test body _ =>
    .of .keyword "if" :: test.tokens ++ .of .bracket "\x7b" :: tokensAll body ++
      [.of .bracket "\x7d"]
  | .whileDo test body _ =>
    .of .keyword "while" :: test.tokens ++ .of .bracket "\x7b" :: tokensAll body ++
      [.of .bracket "\x7d"]
  | .forDo initial test step body _ =>
    let stepTokens := match step with
      | .assign name value _ => .of .identifier name.text :: .of .assignment "=" :: value.tokens
      | _ => tokens step
    .of .keyword "for" :: .of .bracket "(" :: tokens initial ++ test.tokens ++
      .of .separator ";" :: stepTokens ++
      .of .bracket ")" :: .of .bracket "\x7b" :: tokensAll body ++ [.of .bracket "\x7d"]
termination_by structural s => s

/-- The tokens of the statements, one after the other. -/
def tokensAll : List Stmt → List Token
  | [] => []
  | s :: rest => tokens s ++ tokensAll rest
termination_by structural body => body

end

end Stmt

namespace Token

theorem numeral?_of_kind {t : Token} {kind : Kind} (h : t.kind = kind) (hk : kind ≠ .number) :
    t.numeral? = none :=
  if_neg (h ▸ hk)

theorem numeral?_of_is {t : Token} {kind : Kind} {text : String} (h : t.is kind text)
    (hk : kind ≠ .number) : t.numeral? = none :=
  numeral?_of_kind (is_eq_true_iff.1 h).1 hk

@[simp]
theorem numeral?_of {kind : Kind} {text : String} :
    (Token.of kind text).numeral? = if kind = .number then Binary64.ofText? text else none :=
  rfl

@[simp]
theorem is_of (kind : Kind) (text : String) : (Token.of kind text).is kind text := by
  simp [Token.of, is]

theorem bare_eq_bare_iff {t u : Token} : t.bare = u.bare ↔ t.kind = u.kind ∧ t.text = u.text := by
  simp [bare]

section Places

variable {us : List Token}

theorem map_bare_eq_nil_iff : us.map bare = [].map bare ↔ us = [] :=
  List.map_eq_nil_iff

theorem map_bare_eq_cons_iff {t : Token} {ts : List Token} :
    us.map bare = (t :: ts).map bare ↔
      ∃ u vs, us = u :: vs ∧ u.bare = t.bare ∧ vs.map bare = ts.map bare :=
  List.map_eq_cons_iff

theorem map_bare_eq_append_iff {ts ts' : List Token} :
    us.map bare = (ts ++ ts').map bare ↔
      ∃ vs vs', us = vs ++ vs' ∧ vs.map bare = ts.map bare ∧ vs'.map bare = ts'.map bare := by
  rw [List.map_append, List.map_eq_append_iff]

end Places

theorem kind_of_bare {t u : Token} {kind : Kind} (h : t.kind = kind) (hb : u.bare = t.bare) :
    u.kind = kind :=
  (bare_eq_bare_iff.1 hb).1.trans h

theorem is_of_bare {t u : Token} {kind : Kind} {text : String} (h : t.is kind text)
    (hb : u.bare = t.bare) : u.is kind text := by
  obtain ⟨hkind, htext⟩ := bare_eq_bare_iff.1 hb
  rwa [is, hkind, htext]

end Token

namespace Grammar

/-! ## Literals and numerals -/

/-- The numerals among the tokens of an expression are its literals. -/
theorem Expression.literals_eq {ts : List Token} {e : Expr} (h : Expression ts e) :
    ts.filterMap Token.numeral? = e.literals := by
  induction h with
  | number kind numeral => simp [Token.numeral?, kind, numeral, Expr.literals]
  | name kind => simp [Token.numeral?, kind, Expr.literals]
  | group opens _ closes ih =>
    simp [Token.numeral?_of_is opens, Token.numeral?_of_is closes, ih]
  | binary opens _ kind _ _ closes ihl ihr =>
    simp [Token.numeral?_of_is opens, Token.numeral?_of_kind kind,
      Token.numeral?_of_is closes, ihl, ihr, Expr.literals]

mutual

theorem Statement.literals_eq {ts : List Token} {s : Stmt} (h : Statement ts s) :
    ts.filterMap Token.numeral? = s.literals := by
  match h with
  | .print keyword value stop =>
    simp [Token.numeral?_of_is keyword, Token.numeral?_of_is stop, value.literals_eq, Stmt.literals]
  | .declare keyword name equals value stop =>
    simp [Token.numeral?_of_is keyword, Token.numeral?_of_kind name, Token.numeral?_of_is equals,
      Token.numeral?_of_is stop, value.literals_eq, Stmt.literals]
  | .assign name equals value stop =>
    simp [Token.numeral?_of_kind name, Token.numeral?_of_is equals, Token.numeral?_of_is stop,
      value.literals_eq, Stmt.literals]
  | .ifThen keyword test opens inner closes | .whileDo keyword test opens inner closes =>
    simp [Token.numeral?_of_is keyword, Token.numeral?_of_is opens, Token.numeral?_of_is closes,
      test.literals_eq, inner.literalsAll_eq, Stmt.literals]
  | .forDo keyword header first test stop name equals value headerEnd opens inner closes =>
    simp [Token.numeral?_of_is keyword, Token.numeral?_of_is header, Token.numeral?_of_is stop,
      Token.numeral?_of_kind name, Token.numeral?_of_is equals, Token.numeral?_of_is headerEnd,
      Token.numeral?_of_is opens, Token.numeral?_of_is closes, first.literals_eq, test.literals_eq,
      value.literals_eq, inner.literalsAll_eq, Stmt.literals]

theorem Statements.literalsAll_eq {ts : List Token} {body : List Stmt} (h : Statements ts body) :
    ts.filterMap Token.numeral? = Stmt.literalsAll body := by
  match h with
  | .nil => rfl
  | .cons head tail =>
    rw [List.filterMap_append, head.literals_eq, tail.literalsAll_eq, Stmt.literalsAll]

end

/-- Only the finite literals of an expression are written as numerals. -/
theorem filterMap_tokens (e : Expr) :
    e.tokens.filterMap Token.numeral? = e.literals.filter Binary64.isFinite := by
  induction e with
  | number value _ =>
    match value with
    | .finite negative rank =>
      rw [Expr.literals, List.filter_cons_of_pos rfl]
      simp [Expr.tokens, Binary64.tokens, Binary64.ofText?_text]
    | .infinite true | .infinite false | .nan =>
      simp [Expr.tokens, Binary64.tokens, Expr.literals, Binary64.isFinite]
  | name x _ => simp [Expr.tokens, Expr.literals]
  | binary op left right _ ihl ihr => simp [Expr.tokens, ihl, ihr, Expr.literals]

mutual

theorem Statement.filterMap_tokens {ts : List Token} {s : Stmt} (h : Statement ts s) :
    s.tokens.filterMap Token.numeral? = s.literals.filter Binary64.isFinite := by
  match h with
  | .print .. | .declare .. | .assign .. =>
    simp [Stmt.tokens, Grammar.filterMap_tokens, Stmt.literals]
  | .ifThen _ _ _ inner _ | .whileDo _ _ _ inner _ =>
    simp [Stmt.tokens, Grammar.filterMap_tokens, inner.filterMap_tokensAll, Stmt.literals]
  | .forDo _ _ first _ _ _ _ _ _ _ inner _ =>
    simp [Stmt.tokens, Grammar.filterMap_tokens, first.filterMap_tokens, inner.filterMap_tokensAll,
      Stmt.literals]

theorem Statements.filterMap_tokensAll {ts : List Token} {body : List Stmt}
    (h : Statements ts body) :
    (Stmt.tokensAll body).filterMap Token.numeral? =
      (Stmt.literalsAll body).filter Binary64.isFinite := by
  match h with
  | .nil => rfl
  | .cons head tail =>
    simp [Stmt.tokensAll, Stmt.literalsAll, head.filterMap_tokens, tail.filterMap_tokensAll]

end

/-! ## Trees with finite literals -/

/-- An expression with finite literals is spelled by the tokens that it is written with. -/
theorem Expression.written {ts : List Token} {e : Expr} (h : Expression ts e)
    (hf : ∀ v ∈ e.literals, v.isFinite) : Expression e.tokens e := by
  induction h with
  | @number t value kind numeral =>
    have hvalue : value.isFinite := hf value (.head _)
    match value with
    | .finite negative rank => exact .number rfl (Binary64.ofText?_text negative rank)
    | .infinite _ | .nan => cases hvalue
  | name => exact .name rfl
  | group _ _ _ ih => exact ih hf
  | @binary l o r ts us e f op _ _ _ _ _ _ ihl ihr =>
    rw [Expr.literals, List.forall_mem_append] at hf
    exact .binary (Token.is_of _ _) (ihl hf.1) rfl (by cases op <;> rfl) (ihr hf.2)
      (Token.is_of _ _)

mutual

/-- A statement with finite literals is spelled by the tokens that it is written with. -/
theorem Statement.written {ts : List Token} {s : Stmt} (h : Statement ts s)
    (hf : ∀ v ∈ s.literals, v.isFinite) : Statement s.tokens s := by
  match h with
  | .print _ value _ => exact .print (Token.is_of _ _) (value.written hf) (Token.is_of _ _)
  | .declare _ _ _ value _ =>
    exact .declare (Token.is_of _ _) rfl (Token.is_of _ _) (value.written hf) (Token.is_of _ _)
  | .assign _ _ value _ => exact .assign rfl (Token.is_of _ _) (value.written hf) (Token.is_of _ _)
  | .ifThen _ test _ inner _ =>
    rw [Stmt.literals, List.forall_mem_append] at hf
    exact .ifThen (Token.is_of _ _) (test.written hf.1) (Token.is_of _ _) (inner.written hf.2)
      (Token.is_of _ _)
  | .whileDo _ test _ inner _ =>
    rw [Stmt.literals, List.forall_mem_append] at hf
    exact .whileDo (Token.is_of _ _) (test.written hf.1) (Token.is_of _ _) (inner.written hf.2)
      (Token.is_of _ _)
  | .forDo _ _ first test _ _ _ value _ _ inner _ =>
    simp only [Stmt.literals, List.forall_mem_append] at hf
    obtain ⟨⟨⟨hinitial, htest⟩, hstep⟩, hbody⟩ := hf
    exact .forDo (Token.is_of _ _) (Token.is_of _ _) (first.written hinitial) (test.written htest)
      (Token.is_of _ _) rfl (Token.is_of _ _) (value.written hstep) (Token.is_of _ _)
      (Token.is_of _ _) (inner.written hbody) (Token.is_of _ _)

theorem Statements.written {ts : List Token} {body : List Stmt} (h : Statements ts body)
    (hf : ∀ v ∈ Stmt.literalsAll body, v.isFinite) : Statements (Stmt.tokensAll body) body := by
  match h with
  | .nil => exact .nil
  | .cons head tail =>
    rw [Stmt.literalsAll, List.forall_mem_append] at hf
    exact .cons (head.written hf.1) (tail.written hf.2)

end

/-! ## Tokens at other places -/

theorem Expression.of_bare {ts us : List Token} {e : Expr} (h : Expression ts e)
    (hb : us.map Token.bare = ts.map Token.bare) : Expression us e := by
  induction h generalizing us with
  | @number t value kind numeral =>
    obtain ⟨u, rfl, hu⟩ : ∃ u, us = [u] ∧ u.bare = t.bare := by simpa using hb
    exact .number (Token.kind_of_bare kind hu) ((Token.bare_eq_bare_iff.1 hu).2 ▸ numeral)
  | @name t kind =>
    obtain ⟨u, rfl, hu⟩ : ∃ u, us = [u] ∧ u.bare = t.bare := by simpa using hb
    rw [← (Token.bare_eq_bare_iff.1 hu).2]
    exact .name (Token.kind_of_bare kind hu)
  | group opens _ closes ih =>
    simp only [Token.map_bare_eq_append_iff, Token.map_bare_eq_cons_iff,
      Token.map_bare_eq_nil_iff] at hb
    obtain ⟨_, _, rfl, ⟨l, ts, rfl, hl, hts⟩, r, _, rfl, hr, rfl⟩ := hb
    exact .group (Token.is_of_bare opens hl) (ih hts) (Token.is_of_bare closes hr)
  | binary opens _ kind symbol _ closes ihl ihr =>
    simp only [Token.map_bare_eq_append_iff, Token.map_bare_eq_cons_iff,
      Token.map_bare_eq_nil_iff] at hb
    obtain ⟨_, _, rfl, ⟨_, _, rfl, ⟨l, ts, rfl, hl, hts⟩, o, us, rfl, ho, hus⟩,
      r, _, rfl, hr, rfl⟩ := hb
    exact .binary (Token.is_of_bare opens hl) (ihl hts) (Token.kind_of_bare kind ho)
      ((Token.bare_eq_bare_iff.1 ho).2 ▸ symbol) (ihr hus) (Token.is_of_bare closes hr)

mutual

theorem Statement.of_bare {ts us : List Token} {s : Stmt} (h : Statement ts s)
    (hb : us.map Token.bare = ts.map Token.bare) : Statement us s := by
  match h with
  | .print keyword value stop =>
    simp only [Token.map_bare_eq_append_iff, Token.map_bare_eq_cons_iff,
      Token.map_bare_eq_nil_iff] at hb
    obtain ⟨_, _, rfl, ⟨k, ts, rfl, hk, hts⟩, z, _, rfl, hz, rfl⟩ := hb
    exact .print (Token.is_of_bare keyword hk) (value.of_bare hts) (Token.is_of_bare stop hz)
  | .declare keyword name equals value stop =>
    simp only [Token.map_bare_eq_append_iff, Token.map_bare_eq_cons_iff,
      Token.map_bare_eq_nil_iff] at hb
    obtain ⟨_, _, rfl, ⟨k, _, rfl, hk, x, _, rfl, hx, q, ts, rfl, hq, hts⟩,
      z, _, rfl, hz, rfl⟩ := hb
    rw [← (Token.bare_eq_bare_iff.1 hx).2]
    exact .declare (Token.is_of_bare keyword hk) (Token.kind_of_bare name hx)
      (Token.is_of_bare equals hq) (value.of_bare hts) (Token.is_of_bare stop hz)
  | .assign name equals value stop =>
    simp only [Token.map_bare_eq_append_iff, Token.map_bare_eq_cons_iff,
      Token.map_bare_eq_nil_iff] at hb
    obtain ⟨_, _, rfl, ⟨x, _, rfl, hx, q, ts, rfl, hq, hts⟩, z, _, rfl, hz, rfl⟩ := hb
    rw [← (Token.bare_eq_bare_iff.1 hx).2]
    exact .assign (Token.kind_of_bare name hx) (Token.is_of_bare equals hq) (value.of_bare hts)
      (Token.is_of_bare stop hz)
  | .ifThen keyword test opens inner closes =>
    simp only [Token.map_bare_eq_append_iff, Token.map_bare_eq_cons_iff,
      Token.map_bare_eq_nil_iff] at hb
    obtain ⟨_, _, rfl, ⟨_, _, rfl, ⟨k, ts, rfl, hk, hts⟩, l, bs, rfl, hl, hbs⟩,
      r, _, rfl, hr, rfl⟩ := hb
    exact .ifThen (Token.is_of_bare keyword hk) (test.of_bare hts) (Token.is_of_bare opens hl)
      (inner.of_bare hbs) (Token.is_of_bare closes hr)
  | .whileDo keyword test opens inner closes =>
    simp only [Token.map_bare_eq_append_iff, Token.map_bare_eq_cons_iff,
      Token.map_bare_eq_nil_iff] at hb
    obtain ⟨_, _, rfl, ⟨_, _, rfl, ⟨k, ts, rfl, hk, hts⟩, l, bs, rfl, hl, hbs⟩,
      r, _, rfl, hr, rfl⟩ := hb
    exact .whileDo (Token.is_of_bare keyword hk) (test.of_bare hts) (Token.is_of_bare opens hl)
      (inner.of_bare hbs) (Token.is_of_bare closes hr)
  | .forDo keyword header first test stop name equals value headerEnd opens inner closes =>
    simp only [Token.map_bare_eq_append_iff, Token.map_bare_eq_cons_iff,
      Token.map_bare_eq_nil_iff] at hb
    obtain ⟨_, _, rfl, ⟨_, _, rfl, ⟨_, _, rfl, ⟨_, _, rfl, ⟨k, _, rfl, hk, h, is, rfl, hh, his⟩,
      hts⟩, z, _, rfl, hz, x, _, rfl, hx, q, us, rfl, hq, hus⟩, c, _, rfl, hc, l, bs, rfl, hl, hbs⟩,
      r, _, rfl, hr, rfl⟩ := hb
    rw [← (Token.bare_eq_bare_iff.1 hx).2]
    exact .forDo (Token.is_of_bare keyword hk) (Token.is_of_bare header hh) (first.of_bare his)
      (test.of_bare hts) (Token.is_of_bare stop hz) (Token.kind_of_bare name hx)
      (Token.is_of_bare equals hq) (value.of_bare hus) (Token.is_of_bare headerEnd hc)
      (Token.is_of_bare opens hl) (inner.of_bare hbs) (Token.is_of_bare closes hr)

/-- Which statements some tokens spell depends on their classes and texts alone. -/
theorem Statements.of_bare {ts us : List Token} {body : List Stmt} (h : Statements ts body)
    (hb : us.map Token.bare = ts.map Token.bare) : Statements us body := by
  match h with
  | .nil =>
    obtain rfl := Token.map_bare_eq_nil_iff.1 hb
    exact .nil
  | .cons head tail =>
    obtain ⟨_, _, rfl, hhead, htail⟩ := Token.map_bare_eq_append_iff.1 hb
    exact .cons (head.of_bare hhead) (tail.of_bare htail)

end

end Grammar

end Quadcode
