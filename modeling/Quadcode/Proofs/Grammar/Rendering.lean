import Quadcode.Proofs.Grammar.Written

/-!
# Programs that are read from their own text

The text of a program is lexed into the tokens that its tree is written with
(`Grammar.Statements.lexed`), whatever its literals are. An expression always begins where no
operand stands before it, so a minus in front of a literal is its sign, and it ends in front of a
character that no lexeme goes on with. So the text is read as the same program exactly if these
tokens spell it, that is, if all literals are finite (`readsBack_iff_finite`).
-/

namespace Quadcode

/-! ## Texts of trees without places -/

theorem Expr.render_bare (e : Expr) : e.bare.render = e.render := by
  induction e with
  | number value _ => rfl
  | name x _ => rfl
  | binary op left right _ ihl ihr => rw [bare, render, ihl, ihr, render]

namespace Stmt

mutual

theorem renderAt_bare (depth : Nat) (s : Stmt) : s.bare.renderAt depth = s.renderAt depth := by
  match s with
  | .print value _ | .declare _ value _ | .assign _ value _ =>
    simp only [bare, renderAt, value.render_bare, Ident.bare]
  | .ifThen test body _ | .whileDo test body _ =>
    simp only [bare, renderAt, test.render_bare, renderLines_bareAll _ body]
  | .forDo initial test step body _ =>
    have hstep := renderAt_bare 0 step
    have hinitial := renderAt_bare 0 initial
    have hbody := renderLines_bareAll (depth + 1) body
    cases step <;> simp_all only [bare, renderAt, test.render_bare, Expr.render_bare, Ident.bare]

theorem renderLines_bareAll (depth : Nat) (body : List Stmt) :
    renderLines depth (bareAll body) = renderLines depth body := by
  match body with
  | [] => rfl
  | s :: rest => rw [bareAll, renderLines, renderAt_bare, renderLines_bareAll, renderLines]

end

theorem join_render (body : List Stmt) :
    String.join (body.map fun s => s.render ++ "\n") = renderLines 0 body := by
  induction body with
  | nil => rfl
  | cons s rest ih => rw [List.map_cons, String.join_cons, ih, render, renderLines]

end Stmt

/-! ## Pieces of a text -/

namespace Token

theorem ends_cons {c : Char} (h : joins c = false) (cs : List Char) : Ends (c :: cs) := by
  intro d hd
  rwa [← Option.some.inj hd]

section Pieces

variable {afterOperand : Bool} {rest : List Char} {ts : List Token}

theorem Lexed.blanks {w : List Char} (h : Lexed afterOperand rest ts) (hw : ∀ c ∈ w, isBlank c) :
    Lexed afterOperand (w ++ rest) ts := by
  have hgap : Gap false (w ++ []) := Gap.nil.blanks hw
  rw [List.append_nil] at hgap
  exact h.gap hgap fun h => nomatch h

theorem Lexed.space (h : Lexed afterOperand rest ts) : Lexed afterOperand (' ' :: rest) ts :=
  h.blanks (w := [' ']) (List.all_eq_true.1 rfl)

theorem Lexed.newline (h : Lexed afterOperand rest ts) : Lexed afterOperand ('\n' :: rest) ts :=
  h.blanks (w := ['\n']) (List.all_eq_true.1 rfl)

theorem Lexed.indent (h : Lexed afterOperand rest ts) (depth : Nat) :
    Lexed afterOperand ((Stmt.indent depth).toList ++ rest) ts := by
  rw [Stmt.indent, String.toList_ofList]
  refine h.blanks fun c hc => ?_
  rw [List.eq_of_mem_replicate hc]
  rfl

theorem Lexed.bracket (h : Lexed false rest ts) {text : String}
    (hs : text ∈ ["(", "\x7b", "\x7d"]) :
    Lexed afterOperand (text.toList ++ rest) (.of .bracket text :: ts) := by
  have hends : (Token.of .bracket text).endsOperand = false := by
    revert text
    decide
  have hbracket : text ∈ brackets := by
    revert text
    decide
  rw [← hends] at h
  exact Lexed.token (t := .of .bracket text) h ⟨text, hbracket, rfl⟩ rfl (.inl rfl)

/-- Behind a round bracket that closes a minus subtracts. -/
theorem Lexed.close (h : Lexed true rest ts) :
    Lexed afterOperand (')' :: rest) (.of .bracket ")" :: ts) :=
  Lexed.token (t := .of .bracket ")") h ⟨")", by decide, rfl⟩ rfl (.inl rfl)

theorem Lexed.separator (h : Lexed false rest ts) :
    Lexed afterOperand (';' :: rest) (.of .separator ";" :: ts) :=
  Lexed.token (t := .of .separator ";") h rfl rfl (.inr (.inl rfl))

theorem Lexed.keyword (h : Lexed false rest ts) {text : String} (hs : text ∈ keywords) :
    Lexed afterOperand (text.toList ++ ' ' :: rest) (.of .keyword text :: ts) :=
  Lexed.token (t := .of .keyword text) h.space ⟨text, hs, rfl⟩
    rfl (.inr (.inr (ends_cons rfl rest)))

theorem Lexed.operator (h : Lexed false rest ts) (op : Operator) :
    Lexed afterOperand (op.symbol.toList ++ ' ' :: rest) (.of .operator op.symbol :: ts) :=
  Lexed.token (t := .of .operator op.symbol) h.space ⟨op, rfl⟩
    rfl (.inr (.inr (ends_cons rfl rest)))

theorem Lexed.name {text : String} (h : Lexed true rest ts)
    (hs : Kind.identifier.Spells afterOperand text.toList) (hr : Ends rest) :
    Lexed afterOperand (text.toList ++ rest) (.of .identifier text :: ts) :=
  Lexed.token (t := .of .identifier text) h hs rfl (.inr (.inr hr))

theorem Lexed.number {text : String} (h : Lexed true rest ts)
    (hs : Kind.number.Spells afterOperand text.toList) (hr : Ends rest) :
    Lexed afterOperand (text.toList ++ rest) (.of .number text :: ts) :=
  Lexed.token (t := .of .number text) h hs rfl (.inr (.inr hr))

/-- A name to which a value is given. -/
theorem Lexed.target {text : String} (h : Lexed false rest ts)
    (hs : Kind.identifier.Spells afterOperand text.toList) :
    Lexed afterOperand (text.toList ++ ' ' :: '=' :: ' ' :: rest)
      (.of .identifier text :: .of .assignment "=" :: ts) := by
  have hequals : Lexed true ('=' :: ' ' :: rest) (.of .assignment "=" :: ts) :=
    Lexed.token (t := .of .assignment "=") h.space rfl rfl (.inr (.inr (ends_cons rfl rest)))
  exact hequals.space.name hs (ends_cons rfl _)

theorem Lexed.inBraces {depth : Nat} {lines : String} {bs : List Token}
    (h : Lexed false (lines.toList ++ ((Stmt.indent depth).toList ++ '\x7d' :: rest))
      (bs ++ .of .bracket "\x7d" :: ts)) :
    Lexed afterOperand ((Stmt.inBraces depth lines).toList ++ rest)
      (.of .bracket "\x7b" :: (bs ++ .of .bracket "\x7d" :: ts)) := by
  have hopen : Lexed afterOperand ("\x7b".toList ++ _) _ := h.newline.bracket (by decide)
  simpa [Stmt.inBraces] using hopen

/-- A minus that is not the sign of a number. -/
theorem Lexed.minus (h : Lexed false rest ts)
    (hr : ∀ c, rest.head? = some c → c.isDigit = false ∧ c ≠ '.') :
    Lexed afterOperand ('-' :: rest) (.of .operator "-" :: ts) := by
  intro p
  obtain ⟨us, hus, rfl⟩ := h (p.advance ['-'])
  refine ⟨{ kind := .operator, text := String.ofList ['-'], span := p.spanOf ['-'] } :: us, ?_, rfl⟩
  have hminus := lexFrom_of_lexeme (w := ['-']) (lexeme?_minus afterOperand hr) p
  exact hminus.trans (except_map_eq_ok_iff.2 ⟨us, hus, rfl⟩)

/-! ## Texts of trees -/

theorem spells_signed (negative : Bool) {digits : List Char} (h : Unsigned digits) :
    Kind.number.Spells false (Binary64.sign negative ++ digits) := by
  cases negative with
  | false => exact .inl h
  | true => exact .inr ⟨rfl, _, h, rfl⟩

theorem spells_text (negative : Bool) (rank : Fin Binary64.infinityRank) :
    Kind.number.Spells false (Binary64.finite negative rank).text.toList := by
  rw [Binary64.text, String.toList_ofList]
  exact spells_signed negative (Decimal.unsigned_positional _)

theorem lexed_double (v : Binary64) (h : Lexed true rest ts) (hr : Ends rest) :
    Lexed false (v.text.toList ++ rest) (v.tokens ++ ts) := by
  have hinf : Lexed false ("inf".toList ++ rest) (.of .identifier "inf" :: ts) :=
    h.name ⟨.intro rfl (List.all_eq_true.1 rfl), by decide⟩ hr
  match v with
  | .finite negative rank =>
    rw [Binary64.tokens]
    exact h.number (spells_text negative rank) hr
  | .infinite false =>
    have htext : (Binary64.infinite false).text = "inf" := by decide
    rw [htext, Binary64.tokens]
    exact hinf
  | .infinite true =>
    have htext : (Binary64.infinite true).text.toList = '-' :: "inf".toList := by decide
    rw [htext, Binary64.tokens]
    refine hinf.minus fun c hc => ?_
    obtain rfl : 'i' = c := Option.some.inj hc
    decide
  | .nan =>
    rw [Binary64.text, Binary64.tokens]
    exact h.name ⟨.intro rfl (List.all_eq_true.1 rfl), by decide⟩ hr

end Pieces

end Token

namespace Grammar

open Token

/-- An expression whose names are identifiers is lexed into the tokens that it is written with. -/
theorem Expression.lexed {us : List Token} {e : Expr} (h : Expression us e)
    (hus : ∀ t ∈ us, t.kind.Spells false t.text.toList) {rest : List Char} {ts : List Token}
    (hl : Lexed true rest ts) (hr : Ends rest) :
    Lexed false (e.render.toList ++ rest) (e.tokens ++ ts) := by
  induction h generalizing rest ts with
  | @number t value kind numeral => exact lexed_double value hl hr
  | @name t kind =>
    have hs := hus t (.head _)
    rw [kind] at hs
    exact hl.name hs hr
  | group _ _ _ ih => exact ih (fun t ht => hus t (by simp [ht])) hl hr
  | @binary l o r us vs e f op _ _ _ _ _ _ ihl ihr =>
    have hright : Lexed false (f.render.toList ++ ')' :: rest) _ :=
      ihr (fun t ht => hus t (by simp [ht])) hl.close (ends_cons rfl rest)
    have hop :
        Lexed true (' ' :: (op.symbol.toList ++ ' ' :: (f.render.toList ++ ')' :: rest))) _ :=
      (hright.operator op).space
    have hleft := ihl (fun t ht => hus t (by simp [ht])) hop (ends_cons rfl _)
    have hopen : Lexed false ("(".toList ++ _) _ := hleft.bracket (by decide)
    simpa [Expr.render, Expr.tokens] using hopen

/-- The value of a statement, up to its semicolon. -/
theorem Expression.lexed_stop {us : List Token} {e : Expr} (h : Expression us e)
    (hus : ∀ t ∈ us, t.kind.Spells false t.text.toList) {rest : List Char} {ts : List Token}
    (hl : Lexed false rest ts) :
    Lexed false (e.render.toList ++ ';' :: rest) (e.tokens ++ .of .separator ";" :: ts) :=
  h.lexed hus hl.separator (ends_cons rfl rest)

mutual

/-- A statement whose names are identifiers is lexed into the tokens that it is written with. -/
theorem Statement.lexed {us : List Token} {s : Stmt} (h : Statement us s)
    (hus : ∀ t ∈ us, t.kind.Spells false t.text.toList) (depth : Nat) {rest : List Char}
    {ts : List Token} (hl : Lexed false rest ts) :
    Lexed false ((s.renderAt depth).toList ++ rest) (s.tokens ++ ts) := by
  have hname {x : Token} (hx : x ∈ us) (kind : x.kind = .identifier) (afterOperand : Bool) :
      Kind.identifier.Spells afterOperand x.text.toList := by
    have hs := hus x hx
    rwa [kind] at hs
  match h with
  | .print _ value _ =>
    have hvalue := value.lexed_stop (fun t ht => hus t (by simp [ht])) hl
    have hprint : Lexed false ("print".toList ++ _) _ := hvalue.keyword (by decide)
    simpa [Stmt.renderAt, Stmt.tokens] using hprint.indent depth
  | .declare _ name _ value _ =>
    have hvalue := value.lexed_stop (fun t ht => hus t (by simp [ht])) hl
    have hvar : Lexed false ("var".toList ++ _) _ :=
      (hvalue.target (hname (by simp) name false)).keyword (by decide)
    simpa [Stmt.renderAt, Stmt.tokens] using hvar.indent depth
  | .assign name _ value _ =>
    have hvalue := value.lexed_stop (fun t ht => hus t (by simp [ht])) hl
    have htarget := hvalue.target (hname (by simp) name false)
    simpa [Stmt.renderAt, Stmt.tokens] using htarget.indent depth
  | .ifThen _ test _ inner _ =>
    have hclose : Lexed false ("\x7d".toList ++ rest) _ := hl.bracket (by decide)
    have hbody := inner.lexed (fun t ht => hus t (by simp [ht])) (depth + 1) (hclose.indent depth)
    have htest :=
      test.lexed (fun t ht => hus t (by simp [ht])) hbody.inBraces.space (ends_cons rfl _)
    have hif : Lexed false ("if".toList ++ _) _ := htest.keyword (by decide)
    simpa [Stmt.renderAt, Stmt.tokens] using hif.indent depth
  | .whileDo _ test _ inner _ =>
    have hclose : Lexed false ("\x7d".toList ++ rest) _ := hl.bracket (by decide)
    have hbody := inner.lexed (fun t ht => hus t (by simp [ht])) (depth + 1) (hclose.indent depth)
    have htest :=
      test.lexed (fun t ht => hus t (by simp [ht])) hbody.inBraces.space (ends_cons rfl _)
    have hwhile : Lexed false ("while".toList ++ _) _ := htest.keyword (by decide)
    simpa [Stmt.renderAt, Stmt.tokens] using hwhile.indent depth
  | .forDo _ _ first test _ name _ value _ _ inner _ =>
    have hclose : Lexed false ("\x7d".toList ++ rest) _ := hl.bracket (by decide)
    have hbody := inner.lexed (fun t ht => hus t (by simp [ht])) (depth + 1) (hclose.indent depth)
    have hvalue :=
      value.lexed (fun t ht => hus t (by simp [ht])) hbody.inBraces.space.close (ends_cons rfl _)
    have hstep := hvalue.target (hname (by simp) name false)
    have htest := test.lexed_stop (fun t ht => hus t (by simp [ht])) hstep.space
    have hinitial := first.lexed (fun t ht => hus t (by simp [ht])) 0 htest.space
    have hheader : Lexed false ("(".toList ++ _) _ := hinitial.bracket (by decide)
    have hfor : Lexed false ("for".toList ++ _) _ := hheader.keyword (by decide)
    simpa [Stmt.renderAt, Stmt.tokens] using hfor.indent depth

theorem Statements.lexed {us : List Token} {body : List Stmt} (h : Statements us body)
    (hus : ∀ t ∈ us, t.kind.Spells false t.text.toList) (depth : Nat) {rest : List Char}
    {ts : List Token} (hl : Lexed false rest ts) :
    Lexed false ((Stmt.renderLines depth body).toList ++ rest) (Stmt.tokensAll body ++ ts) := by
  match h with
  | .nil => exact hl
  | .cons head tail =>
    have htail := tail.lexed (fun t ht => hus t (by simp [ht])) depth hl
    have hhead := head.lexed (fun t ht => hus t (by simp [ht])) depth htail.newline
    simpa [Stmt.renderLines, Stmt.tokensAll] using hhead

end

end Grammar

/-! ## Reading back -/

/-- The text of the program, a statement after the other, is read as the
same program up to places. -/
def ReadsBack (program : List Stmt) : Prop :=
  ∃ us program', lex (String.join (program.map fun s => s.render ++ "\n")) = .ok us ∧
    parse us = .ok program' ∧
    Stmt.bareAll program' = Stmt.bareAll program

/-- A program that has been read from a source is read back from its own text exactly if all
its literals are finite. -/
theorem readsBack_iff_finite {source : String} {ts : List Token} {program : List Stmt}
    (hl : lex source = .ok ts) (hp : parse ts = .ok program) :
    ReadsBack program ↔ ∀ v ∈ Stmt.literalsAll program, v.isFinite := by
  have hspelled := (lex_eq_ok_iff.1 hl).spelled.of_mem
  have hgrammar := Grammar.statements_of_parse hp
  have hlexed := hgrammar.lexed (fun t ht => (hspelled t ht).2) 0 Token.lexed_nil
  rw [List.append_nil, List.append_nil, Stmt.renderLines_bareAll, ← Stmt.join_render] at hlexed
  obtain ⟨us, hus, hbare⟩ := hlexed {}
  rw [← Stmt.literalsAll_bareAll]
  constructor
  · rintro ⟨us', program', hus', hparse, hsame⟩
    obtain rfl : us = us' := Except.ok.inj (hus.symm.trans hus')
    have hread := Grammar.statements_of_parse hparse
    rw [hsame] at hread
    -- a literal that is not finite would have no numeral among the tokens, but every literal is
    -- read from one
    have hkept : (Stmt.literalsAll (Stmt.bareAll program)).filter Binary64.isFinite =
        Stmt.literalsAll (Stmt.bareAll program) := by
      calc (Stmt.literalsAll (Stmt.bareAll program)).filter Binary64.isFinite
          = (us.map Token.bare).filterMap Token.numeral? := by
            rw [hbare, hgrammar.filterMap_tokensAll]
        _ = us.filterMap Token.numeral? := List.filterMap_map
        _ = Stmt.literalsAll (Stmt.bareAll program) := hread.literalsAll_eq
    exact List.filter_eq_self.1 hkept
  · intro hf
    have hplaces : us.map Token.bare = (Stmt.tokensAll (Stmt.bareAll program)).map Token.bare := by
      rw [← hbare, List.map_map]
      rfl
    obtain ⟨program', hsame, hparse⟩ := ((hgrammar.written hf).of_bare hplaces).parse
    exact ⟨us, program', hus, hparse, hsame⟩

/-- A source with a sign in front of both operands of a difference. -/
def signedSource : String := "x=(-.5--1);"

/-- The tokens of `signedSource`. -/
def signedTokens : List Token :=
  [⟨.identifier, "x", 0, 1, 0, 0⟩, ⟨.assignment, "=", 1, 2, 0, 1⟩, ⟨.bracket, "(", 2, 3, 0, 2⟩,
    ⟨.number, "-.5", 3, 6, 0, 3⟩, ⟨.operator, "-", 6, 7, 0, 6⟩, ⟨.number, "-1", 7, 9, 0, 7⟩,
    ⟨.bracket, ")", 9, 10, 0, 9⟩, ⟨.separator, ";", 10, 11, 0, 10⟩]

/-- The program of `signedSource`. -/
def signedProgram : List Stmt :=
  [.assign ⟨"x", 0, 1, 0, 0⟩
    (.binary .sub (.number (.ofRank true 0x3FE0000000000000) ⟨3, 6, 0, 3⟩)
      (.number (.ofRank true 0x3FF0000000000000) ⟨7, 9, 0, 7⟩) ⟨2, 10, 0, 2⟩) ⟨0, 11, 0, 0⟩]

/-- A source with a literal that is too large for a double. -/
def hugeSource : String := "print -1e999;"

/-- The tokens of `hugeSource`. -/
def hugeTokens : List Token :=
  [⟨.keyword, "print", 0, 5, 0, 0⟩, ⟨.number, "-1e999", 6, 12, 0, 6⟩,
    ⟨.separator, ";", 12, 13, 0, 12⟩]

/-- The program of `hugeSource`. -/
def hugeProgram : List Stmt :=
  [.print (.number (.infinite true) ⟨6, 12, 0, 6⟩) ⟨0, 13, 0, 0⟩]

theorem readsBack_iff_finite_signs :
    (lex signedSource = .ok signedTokens ∧ parse signedTokens = .ok signedProgram ∧
      ReadsBack signedProgram) ∧
      lex hugeSource = .ok hugeTokens ∧ parse hugeTokens = .ok hugeProgram ∧
        ¬ ReadsBack hugeProgram := by
  have hsigned : lex signedSource = .ok signedTokens := by decide +kernel
  have hsignedProgram : parse signedTokens = .ok signedProgram := by decide +kernel
  have hhuge : lex hugeSource = .ok hugeTokens := by decide +kernel
  have hhugeProgram : parse hugeTokens = .ok hugeProgram := by decide +kernel
  refine ⟨⟨hsigned, hsignedProgram, ?_⟩, hhuge, hhugeProgram, ?_⟩
  · rw [readsBack_iff_finite hsigned hsignedProgram]
    decide
  · rw [readsBack_iff_finite hhuge hhugeProgram]
    decide

end Quadcode
