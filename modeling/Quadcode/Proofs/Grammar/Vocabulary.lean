import Quadcode.Proofs.Grammar.Completion
import Quadcode.Proofs.Grammar.Written

/-!
# The vocabulary of lexer and parser

The parser asks for tokens by their classes, and of a number, an operator or a keyword it then wants
to know what the text stands for. Three of its errors are about that alone
(`Expectation.Misspelled`). The classes of the lexer are made so that the text of every token is
known (`Token.Known`); above all, every number of the lexer is a numeral
(`Decimal.exists_ofNumeral?`). So none of the three errors occurs on the tokens of a source
(`lex_speaks_grammar`).
-/

namespace Quadcode

open Token

/-! ## Numbers are numerals -/

namespace Decimal

theorem splitSign_digits {ds : List Char} (h : Digits ds) : splitSign ds = (false, ds) := by
  obtain ⟨hne, hds⟩ := h
  obtain ⟨d, ds, rfl⟩ := List.exists_cons_of_ne_nil hne
  have hd : d.isDigit := hds d (.head _)
  have hminus : d ≠ '-' := ne_of_eq_false (p := Char.isDigit) hd rfl
  have hplus : d ≠ '+' := ne_of_eq_false (p := Char.isDigit) hd rfl
  simp [splitSign, hminus, hplus]

theorem exists_exponent? {es : List Char} (h : Exponent es) : ∃ e, exponent? es = some e := by
  have hcons {mark : Char} {cs ds : List Char} {negative : Bool} (hm : mark = 'e' ∨ mark = 'E')
      (hs : splitSign cs = (negative, ds)) (hd : Digits ds) :
      ∃ e, exponent? (mark :: cs) = some e := by
    simp only [exponent?, hs]
    rw [if_pos ⟨hm, hd.1, List.all_eq_true.2 hd.2⟩]
    exact ⟨_, rfl⟩
  cases h with
  | nil => exact ⟨0, rfl⟩
  | unsigned marks digits => exact hcons marks (splitSign_digits digits) digits
  | signed marks signs digits =>
    obtain rfl | rfl := signs
    · exact hcons marks rfl digits
    · exact hcons marks rfl digits

theorem exists_ofNumeral?_of_rest {ds rest : List Char} {fs es : List Char}
    (hds : ∀ c ∈ ds, c.isDigit) (hrest : ∀ c, rest.head? = some c → c.isDigit = false)
    (hsplit : splitFraction rest = (fs, es)) (hne : ¬ (ds = [] ∧ fs = []))
    (he : ∃ e, exponent? es = some e) : ∃ d, ofNumeral? (ds ++ rest) = some d := by
  obtain ⟨e, he⟩ := he
  have hstop : rest.takeWhile Char.isDigit = [] ∧ rest.dropWhile Char.isDigit = rest := by
    cases rest with
    | nil => exact ⟨rfl, rfl⟩
    | cons c cs => simp [hrest c rfl]
  simp only [ofNumeral?, List.takeWhile_append_of_pos hds, List.dropWhile_append_of_pos hds,
    hstop.1, hstop.2, hsplit, List.append_nil, he]
  rw [if_neg hne]
  exact ⟨_, rfl⟩

theorem splitFraction_point {fs es : List Char} (hfs : ∀ c ∈ fs, c.isDigit)
    (hes : ∀ c, es.head? = some c → c.isDigit = false ∧ c ≠ '.') :
    splitFraction ('.' :: fs ++ es) = (fs, es) := by
  cases es with
  | nil => simp [splitFraction, List.takeWhile_eq_self_iff.2 hfs, List.dropWhile_eq_nil_iff.2 hfs]
  | cons c cs =>
    simp [splitFraction, List.takeWhile_append_of_pos hfs, List.dropWhile_append_of_pos hfs,
      (hes c rfl).1]

/-- A number without a sign is a numeral, whether it has a fraction, an exponent or both. -/
theorem exists_ofNumeral? {w : List Char} (h : Unsigned w) : ∃ d, ofNumeral? w = some d := by
  cases h with
  | @intro ms es mantissa exponent =>
    have he := exists_exponent? exponent
    have hhead (c : Char) (hc : es.head? = some c) : c.isDigit = false ∧ c ≠ '.' := by
      have hends : Ends [] := nofun
      exact exponent.head hends c (by rwa [List.append_nil])
    have hpoint (fs : List Char) (c : Char) (hc : ('.' :: fs ++ es).head? = some c) :
        c.isDigit = false := by
      obtain rfl : '.' = c := Option.some.inj hc
      rfl
    cases mantissa with
    | @whole ds digits =>
      have hsplit : splitFraction es = ([], es) := by
        cases es with
        | nil => rfl
        | cons c cs => simp [splitFraction, (hhead c rfl).2]
      exact exists_ofNumeral?_of_rest digits.2 (fun c hc => (hhead c hc).1) hsplit
        (fun h => digits.1 h.1) he
    | @mixed ds fs digits fraction =>
      rw [List.append_assoc]
      exact exists_ofNumeral?_of_rest digits.2 (hpoint fs) (splitFraction_point fraction.2 hhead)
        (fun h => digits.1 h.1) he
    | @fraction fs fraction =>
      show ∃ d, ofNumeral? ([] ++ ('.' :: fs ++ es)) = some d
      exact exists_ofNumeral?_of_rest (by simp) (hpoint fs) (splitFraction_point fraction.2 hhead)
        (fun h => fraction.1 h.2) he

end Decimal

theorem Operator.ofSymbol?_symbol (op : Operator) : ofSymbol? op.symbol = some op := by
  cases op <;> rfl

namespace Token

/-- What the text of a number stands for is rounded from a decimal, and so it is a
double that is a number. -/
theorem exists_ofText? {afterOperand : Bool} {text : String}
    (h : Kind.number.Spells afterOperand text.toList) :
    ∃ negative d, Binary64.ofText? text = some (.ofDecimal negative d) := by
  have hsigned (negative : Bool) {w : List Char} (hw : Unsigned w)
      (htext : text.toList = Binary64.sign negative ++ w) :
      ∃ negative d, Binary64.ofText? text = some (.ofDecimal negative d) := by
    obtain ⟨d, hd⟩ := Decimal.exists_ofNumeral? hw
    refine ⟨negative, d, ?_⟩
    rw [← String.ofList_toList (s := text), htext, Binary64.ofText?_unsigned hw, hd,
      Option.map_some]
  obtain hw | ⟨-, w, hw, htext⟩ := h
  · exact hsigned false hw rfl
  · exact hsigned true hw htext

/-! ## What the parser knows -/

/-- The parser knows the text of the token. A number, an operator or a keyword stands for something,
a name is no keyword, and any other token is one that the grammar asks for somewhere. -/
def Known (t : Token) : Prop :=
  match t.kind with
  | .number => ∃ value, Binary64.ofText? t.text = some value
  | .operator => ∃ op, Operator.ofSymbol? t.text = some op
  | .keyword => t.text ∈ ["print", "var", "if", "while", "for"]
  | .identifier => t.text ∉ ["print", "var", "if", "while", "for"]
  | .assignment | .bracket | .separator => ∃ x : Expectation, x.isMetBy t
  | .comment | .whitespace => False

theorem known_of_spells {t : Token} (hk : t.kind.isTrivia = false)
    (h : t.kind.Spells false t.text.toList) : t.Known := by
  have hmark {x : Expectation} {text : String} (hx : x.mark? = some (t.kind, text))
      (ht : t.text = text) :
      ∃ x : Expectation, x.isMetBy t :=
    ⟨x, (Expectation.isMetBy_eq hx t).trans (is_eq_true_iff.2 ⟨rfl, ht⟩)⟩
  unfold Known
  cases hkind : t.kind with
  | comment | whitespace =>
    rw [hkind] at hk
    cases hk
  | number =>
    rw [hkind] at h
    obtain ⟨negative, d, hvalue⟩ := exists_ofText? h
    exact ⟨_, hvalue⟩
  | keyword =>
    rw [hkind] at h
    obtain ⟨w, hw, htext⟩ := h
    rwa [String.toList_inj.1 htext]
  | operator =>
    rw [hkind] at h
    obtain ⟨op, htext⟩ := h
    rw [String.toList_inj.1 htext]
    exact ⟨op, op.ofSymbol?_symbol⟩
  | identifier =>
    rw [hkind] at h
    exact fun hmem => h.2 _ hmem rfl
  | assignment =>
    rw [hkind] at h
    have htext : t.text.toList = "=".toList := h
    exact hmark (x := .equals) (by rw [hkind]; rfl) (String.toList_inj.1 htext)
  | bracket =>
    rw [hkind] at h
    obtain ⟨w, hw, htext⟩ := h
    have hmarks : ∃ x : Expectation, x.mark? = some (.bracket, w) := by
      simp only [brackets, List.mem_cons, List.not_mem_nil, or_false] at hw
      obtain rfl | rfl | rfl | rfl := hw
      · exact ⟨.openHeader, rfl⟩
      · exact ⟨.closeHeader, rfl⟩
      · exact ⟨.openBody .ifThen, rfl⟩
      · exact ⟨.closeBody .ifThen, rfl⟩
    obtain ⟨x, hx⟩ := hmarks
    exact hmark (x := x) (by rw [hkind, hx]) (String.toList_inj.1 htext)
  | separator =>
    rw [hkind] at h
    have htext : t.text.toList = ";".toList := h
    exact hmark (x := .endOfPrint) (by rw [hkind]; rfl) (String.toList_inj.1 htext)

theorem known_of_lex {source : String} {ts : List Token} (h : lex source = .ok ts) :
    ∀ t ∈ ts, t.Known := by
  intro t ht
  obtain ⟨hk, hspells⟩ := (lex_eq_ok_iff.1 h).spelled.of_mem t ht
  exact known_of_spells hk hspells

end Token

/-! ## Errors about the text of a token -/

/-- The token has the class that is asked for, and it is refused for its text: a number that is no
numeral, an operator without a meaning, or a keyword that begins no statement. -/
inductive Expectation.Misspelled (t : Token) : Expectation → Prop
  | numeral : Misspelled t .numeral
  | operator (kind : t.kind = .operator) : Misspelled t .operatorOrClose
  | keyword (kind : t.kind = .keyword) : Misspelled t .statement

/-- The error is about the text of a token. -/
def SyntaxError.Misspelled (e : SyntaxError) : Prop :=
  e.expected = .numeral ∨ ∃ t, e.found = some t ∧ e.expected.Misspelled t

theorem SyntaxError.misspelled_atToken {t : Token} {x : Expectation}
    (h : (atToken t x).Misspelled) : x.Misspelled t := by
  obtain hx | ⟨u, hu, hx⟩ := h
  · obtain rfl : x = .numeral := hx
    exact .numeral
  · obtain rfl := Option.some.inj hu
    exact hx

theorem SyntaxError.not_misspelled_atEnd {ts : List Token} {x : Expectation} (hx : x ≠ .numeral) :
    ¬ (atEnd ts x).Misspelled := by
  rintro (h | ⟨t, ht, -⟩)
  · exact hx h
  · cases ht

namespace Expr.Partial

theorem not_misspelled_of_step {t : Token} (h : t.Known) {p : Partial} {x : Expectation}
    (hs : p.step t = .error x) : ¬ x.Misspelled t := by
  unfold Known at h
  unfold step at hs
  split at hs
  next =>
    split at hs
    next hk =>
      -- the text of a number is a numeral
      rw [hk] at h
      obtain ⟨value, hvalue⟩ := h
      simp only [hvalue] at hs
      cases hs
    next => cases hs
    next =>
      split at hs
      · cases hs
      · obtain rfl := Except.error.inj hs
        rintro ⟨⟩
  next =>
    split at hs
    · cases hs
    · split at hs
      · cases hs
      next hnone =>
        obtain rfl := Except.error.inj hs
        rintro ⟨⟩
        next kind =>
          rw [kind] at h
          obtain ⟨op, hop⟩ := h
          rw [Token.operator?, if_pos kind, hop] at hnone
          cases hnone
  next =>
    split at hs
    · cases hs
    · obtain rfl := Except.error.inj hs
      rintro ⟨⟩

theorem missing_ne_numeral (p : Partial) : p.missing ≠ .numeral := by
  unfold missing
  split <;> exact nofun

theorem not_misspelled_of_run {tokens ts : List Token} (h : ∀ t ∈ ts, t.Known) (p : Partial)
    {e : SyntaxError} (hr : p.run (.atEnd tokens) ts = .error e) : ¬ e.Misspelled := by
  induction ts generalizing p with
  | nil =>
    obtain rfl := Except.error.inj hr
    exact SyntaxError.not_misspelled_atEnd p.missing_ne_numeral
  | cons t ts ih =>
    rw [List.forall_mem_cons] at h
    rw [run] at hr
    split at hr
    next x hs =>
      obtain rfl := Except.error.inj hr
      exact fun he => not_misspelled_of_step h.1 hs (SyntaxError.misspelled_atToken he)
    next q hs => exact ih h.2 q hr
    next => cases hr

end Expr.Partial

namespace Stmt.Partial

theorem begin_keyword_of_known {t : Token} (h : t.Known) (hk : t.kind = .keyword) (p : Partial) :
    ∃ q, p.begin t = .ok q := by
  have hphase : ∃ phase, Phase.ofKeyword? t.span t.text = some phase := by
    unfold Known at h
    rw [hk] at h
    simp only [List.mem_cons, List.not_mem_nil, or_false] at h
    obtain htext | htext | htext | htext | htext := h <;> exact ⟨_, by rw [htext]; rfl⟩
  obtain ⟨phase, hphase⟩ := hphase
  exact ⟨_, by rw [begin_keyword p hk, hphase]; rfl⟩

theorem not_misspelled_of_begin {t : Token} (h : t.Known) {p : Partial} {x : Expectation}
    (hs : p.begin t = .error x) : ¬ x.Misspelled t := by
  by_cases hk : t.kind = .keyword
  · obtain ⟨q, hq⟩ := begin_keyword_of_known h hk p
    rw [hq] at hs
    cases hs
  · have hx : x = .statement := by
      unfold Partial.begin at hs
      split at hs
      next hkeyword => exact absurd hkeyword hk
      next => cases hs
      next =>
        split at hs
        · split at hs
          · cases hs
          · exact (Except.error.inj hs).symm
        · exact (Except.error.inj hs).symm
    rintro ⟨⟩
    · cases hx
    · cases hx
    next kind => exact hk kind

/-- Whatever has been read, a token of which the text is known is not refused for its text. -/
theorem not_misspelled_of_step {t : Token} (h : t.Known) {p : Partial} {x : Expectation}
    (hs : p.step t = .error x) : ¬ x.Misspelled t := by
  -- where one fixed token or one class is asked for, the error is none of the three
  have hite {c : Prop} [Decidable c] {q : Partial} {y : Expectation} (hy : ¬ y.Misspelled t)
      (hs : (if c then .ok q else .error y) = Except.error x) : ¬ x.Misspelled t := by
    split at hs
    · cases hs
    · rwa [← Except.error.inj hs]
  have hmark {y : Expectation} {mark : Token.Kind × String} (hy : y.mark? = some mark) :
      ¬ y.Misspelled t := by
    rintro ⟨⟩ <;> cases hy
  obtain ⟨phase, frames, done⟩ := p
  cases phase with
  | statement => exact not_misspelled_of_begin h hs
  | declaredName start => exact hite (y := .declaredName) nofun hs
  | equals receiver =>
    have hequals : ¬ (equalsAfter receiver).Misspelled t := by cases receiver <;> exact hmark rfl
    simp only [step] at hs
    split at hs
    · cases hs
    · split at hs
      · rw [← Except.error.inj hs]
        exact hmark rfl
      · rwa [← Except.error.inj hs]
  | value purpose read =>
    rw [step_value] at hs
    exact Expr.Partial.not_misspelled_of_step h (except_map_eq_error_iff.1 hs)
  | ended purpose value =>
    have hend : ¬ (endOf purpose).Misspelled t := by
      cases purpose with
      | give receiver => cases receiver <;> exact hmark rfl
      | print | ifTest | whileTest | forTest => exact hmark rfl
    exact hite hend hs
  | header start => exact hite (hmark rfl) hs
  | step start initial test => exact hite (y := .step) nofun hs
  | body start initial test step => exact hite (hmark rfl) hs

theorem finish_ne_numeral (p : Partial) : p.finish ≠ .error .numeral := by
  intro h
  obtain ⟨phase, frames, done⟩ := p
  cases phase with
  | statement =>
    match frames with
    | [] | .body _ _ :: _ | .initial _ :: _ => cases h
  | equals receiver => cases receiver <;> cases h
  | value purpose read => exact read.missing_ne_numeral (Except.error.inj h)
  | ended purpose value =>
    cases purpose with
    | give receiver => cases receiver <;> cases h
    | print | ifTest | whileTest | forTest => cases h
  | declaredName | header | step | body => cases h

end Stmt.Partial

theorem not_misspelled_of_parse {ts : List Token} (h : ∀ t ∈ ts, t.Known) {e : SyntaxError}
    (hp : parse ts = .error e) : ¬ e.Misspelled := by
  obtain ⟨before, t, after, p, x, rfl, -, hstep, rfl⟩ | ⟨p, x, -, hfinish, rfl⟩ := parse_eq_error hp
  · intro he
    exact Stmt.Partial.not_misspelled_of_step (h t (by simp)) hstep
      (SyntaxError.misspelled_atToken he)
  · exact SyntaxError.not_misspelled_atEnd fun hx => p.finish_ne_numeral (hx ▸ hfinish)

/-- The parser knows the text of every token of a source. So whatever it has read, it refuses
none of them for its text alone, and no program and no expression that it reads from them
fails with such an error. -/
theorem lex_speaks_grammar {source : String} {ts : List Token} (h : lex source = .ok ts) :
    (∀ t ∈ ts, t.Known) ∧
      (∀ t ∈ ts, ∀ (p : Stmt.Partial) (x : Expectation), p.step t = .error x → ¬ x.Misspelled t) ∧
      (∀ e, parse ts = .error e → ¬ e.Misspelled) ∧ ∀ e, Expr.parse ts = .error e →
        ¬ e.Misspelled := by
  have hknown := known_of_lex h
  refine ⟨hknown, fun t ht p x hs => ?_, fun e hp => ?_, fun e hp => ?_⟩
  · exact Stmt.Partial.not_misspelled_of_step (hknown t ht) hs
  · exact not_misspelled_of_parse hknown hp
  · exact Expr.Partial.not_misspelled_of_run hknown {} hp

/-- A source that is refused at an operator, where no operator can stand. -/
def unbracketedSource : String := "while x-1.5E+3\x7b\x7d"

/-- The tokens of `unbracketedSource`. -/
def unbracketedTokens : List Token :=
  [⟨.keyword, "while", 0, 5, 0, 0⟩, ⟨.identifier, "x", 6, 7, 0, 6⟩, ⟨.operator, "-", 7, 8, 0, 7⟩,
    ⟨.number, "1.5E+3", 8, 14, 0, 8⟩, ⟨.bracket, "\x7b", 14, 15, 0, 14⟩,
    ⟨.bracket, "\x7d", 15, 16, 0, 15⟩]

theorem lex_speaks_grammar_unbracketed :
    lex unbracketedSource = .ok unbracketedTokens ∧ (∀ t ∈ unbracketedTokens, t.Known) ∧
      parse unbracketedTokens =
        .error (.atToken ⟨.operator, "-", 7, 8, 0, 7⟩ (.openBody .whileDo)) ∧
      ¬ (Expectation.openBody .whileDo).Misspelled ⟨.operator, "-", 7, 8, 0, 7⟩ := by
  have hlex : lex unbracketedSource = .ok unbracketedTokens := by decide +kernel
  have hparse : parse unbracketedTokens =
      .error (.atToken ⟨.operator, "-", 7, 8, 0, 7⟩ (.openBody .whileDo)) := rfl
  obtain ⟨hknown, -, hprogram, -⟩ := lex_speaks_grammar hlex
  exact ⟨hlex, hknown, hparse, fun hx => hprogram _ hparse (.inr ⟨_, rfl, hx⟩)⟩

-- Tokens that come from no source do get these errors.
example :
    parse [.of .keyword "print", .of .number "one"] =
      .error (.atToken (.of .number "one") .numeral) ∧
      parse [.of .keyword "let"] = .error (.atToken (.of .keyword "let") .statement) ∧
      Expr.parse [.of .bracket "(", .of .identifier "x", .of .operator "<="] =
        .error (.atToken (.of .operator "<=") .operatorOrClose) :=
  ⟨rfl, rfl, rfl⟩

end Quadcode
