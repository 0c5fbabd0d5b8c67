import Quadcode.Proofs.Grammar.Completion
import Quadcode.Proofs.Token.Locality

/-!
# Signs and subtractions

A minus in front of a digit can be read in two ways, as the sign of a number or as the operator, and
the lexer decides by the token before it. `Token.FreelyCut` leaves the choice open at every lexeme.
In a program a number never stands behind the end of an operand, and an operator always does
(`Token.Alternates`), wherever the two occur: also where the test of a counting loop follows a
closing brace. So the choices that lead to a program are those of the lexer (`lex_eq_of_freelyCut`).
-/

namespace Quadcode

namespace Token

/-- The text falls into lexemes, where at each of them it is open whether it stands behind an
operand. The tokens are those lexemes that are no trivia. -/
inductive FreelyCut : Position → List Char → List Token → Prop
  | nil {p : Position} : FreelyCut p [] []
  | trivia {p : Position} {k : Kind} {w rest : List Char} {ts : List Token} (afterOperand : Bool)
      (lexeme : lexeme? afterOperand (w ++ rest) = some (k, w.length)) (kind : k.isTrivia = true)
      (tail : FreelyCut (p.advance w) rest ts) : FreelyCut p (w ++ rest) ts
  | token {p : Position} {k : Kind} {w rest : List Char} {ts : List Token} (afterOperand : Bool)
      (lexeme : lexeme? afterOperand (w ++ rest) = some (k, w.length)) (kind : k.isTrivia = false)
      (tail : FreelyCut (p.advance w) rest ts) :
      FreelyCut p (w ++ rest) ({ kind := k, text := String.ofList w, span := p.spanOf w } :: ts)

theorem Cut.freelyCut {afterOperand : Bool} {p : Position} {cs : List Char} {ts : List Token}
    (h : Cut afterOperand p cs ts) : FreelyCut p cs ts := by
  induction h with
  | nil => exact .nil
  | trivia lexeme kind _ ih => exact .trivia _ lexeme kind ih
  | token lexeme kind _ ih => exact .token _ lexeme kind ih

/-- No number stands behind the end of an operand, and every operator does; the first token stands
behind an operand or not. -/
def Alternates : Bool → List Token → Prop
  | _, [] => True
  | afterOperand, t :: ts =>
    (t.kind = .number → afterOperand = false) ∧ (t.kind = .operator → afterOperand = true) ∧
      Alternates t.endsOperand ts

/-- Where numbers and operators stand as they should, every choice was that of the lexer,
or made no difference. -/
theorem FreelyCut.cut {p : Position} {cs : List Char} {ts : List Token} (h : FreelyCut p cs ts)
    {afterOperand : Bool} (hts : Alternates afterOperand ts) : Cut afterOperand p cs ts := by
  induction h generalizing afterOperand with
  | nil => exact .nil
  | @trivia p k w rest ts choice lexeme kind _ ih =>
    have hnumber : k ≠ .number := by
      rintro rfl
      cases kind
    have hoperator : k ≠ .operator := by
      rintro rfl
      cases kind
    have hlexeme :=
      lexeme?_of_afterOperand afterOperand lexeme (absurd · hnumber) (absurd · hoperator)
    exact .trivia hlexeme kind (ih hts)
  | token choice lexeme kind _ ih =>
    obtain ⟨hnumber, hoperator, htail⟩ := hts
    exact .token (lexeme?_of_afterOperand afterOperand lexeme hnumber hoperator) kind (ih htail)

/-! ## Tokens of programs -/

theorem Alternates.number {t : Token} {ts : List Token} (h : Alternates true ts)
    (hk : t.kind = .number) : Alternates false (t :: ts) := by
  have hends : t.endsOperand = true := by simp [endsOperand, hk]
  refine ⟨fun _ => rfl, fun hoperator => ?_, ?_⟩
  · rw [hk] at hoperator
    cases hoperator
  · rwa [hends]

theorem Alternates.operator {t : Token} {ts : List Token} (h : Alternates false ts)
    (hk : t.kind = .operator) : Alternates true (t :: ts) := by
  have hends : t.endsOperand = false := by simp [endsOperand, Token.is, hk]
  refine ⟨fun hnumber => ?_, fun _ => rfl, ?_⟩
  · rw [hk] at hnumber
    cases hnumber
  · rwa [hends]

/-- A token that is neither a number nor an operator can stand behind an operand or not. -/
theorem Alternates.mark {t : Token} {ts : List Token} {kind : Kind} {text : String} {next : Bool}
    (h : Alternates next ts) (ht : t.is kind text)
    (hends : ({ kind, text } : Token).endsOperand = next) (hk : kind ≠ .number ∧ kind ≠ .operator)
    (afterOperand : Bool) : Alternates afterOperand (t :: ts) := by
  obtain ⟨rfl, rfl⟩ := Token.is_eq_true_iff.1 ht
  subst hends
  exact ⟨(absurd · hk.1), (absurd · hk.2), h⟩

/-- A name can stand behind an operand or not. -/
theorem Alternates.name {t : Token} {ts : List Token} (h : Alternates true ts)
    (hk : t.kind = .identifier) (afterOperand : Bool) : Alternates afterOperand (t :: ts) := by
  have hends : t.endsOperand = true := by simp [endsOperand, hk]
  refine ⟨fun hnumber => ?_, fun hoperator => ?_, by rwa [hends]⟩
  · rw [hk] at hnumber
    cases hnumber
  · rw [hk] at hoperator
    cases hoperator

end Token

namespace Grammar

open Token

theorem Expression.alternates {ts rest : List Token} {e : Expr} (h : Expression ts e)
    (hrest : Alternates true rest) : Alternates false (ts ++ rest) := by
  induction h generalizing rest with
  | number kind _ => exact hrest.number kind
  | name kind => exact hrest.name kind false
  | group opens _ closes ih =>
    simp only [List.cons_append, List.append_assoc, List.nil_append]
    have hclosed := hrest.mark closes rfl (by decide) true
    exact (ih hclosed).mark opens rfl (by decide) false
  | binary opens _ kind _ _ closes ihl ihr =>
    simp only [List.cons_append, List.append_assoc, List.nil_append]
    have hclosed := hrest.mark closes rfl (by decide) true
    have hright := (ihr hclosed).operator kind
    exact (ihl hright).mark opens rfl (by decide) false

mutual

theorem Statement.alternates {ts rest : List Token} {s : Stmt} (h : Statement ts s)
    (hrest : Alternates false rest) (afterOperand : Bool) :
    Alternates afterOperand (ts ++ rest) := by
  match h with
  | .print keyword value stop =>
    simp only [List.cons_append, List.append_assoc, List.nil_append]
    have hvalue := value.alternates (hrest.mark stop rfl (by decide) true)
    exact hvalue.mark keyword rfl (by decide) afterOperand
  | .declare keyword name equals value stop =>
    simp only [List.cons_append, List.append_assoc, List.nil_append]
    have hvalue := value.alternates (hrest.mark stop rfl (by decide) true)
    have hname := (hvalue.mark equals rfl (by decide) true).name name false
    exact hname.mark keyword rfl (by decide) afterOperand
  | .assign name equals value stop =>
    simp only [List.cons_append, List.append_assoc, List.nil_append]
    have hvalue := value.alternates (hrest.mark stop rfl (by decide) true)
    exact (hvalue.mark equals rfl (by decide) true).name name afterOperand
  | .ifThen keyword test opens inner closes | .whileDo keyword test opens inner closes =>
    simp only [List.cons_append, List.append_assoc, List.nil_append]
    have hbody := inner.alternates (hrest.mark closes rfl (by decide))
    have htest := test.alternates ((hbody false).mark opens rfl (by decide) true)
    exact htest.mark keyword rfl (by decide) afterOperand
  | .forDo keyword header first test stop name equals value headerEnd opens inner closes =>
    simp only [List.cons_append, List.append_assoc, List.nil_append]
    have hbody := inner.alternates (hrest.mark closes rfl (by decide))
    have hopened := (hbody false).mark opens rfl (by decide) true
    have hvalue := value.alternates (hopened.mark headerEnd rfl (by decide) true)
    have hname := (hvalue.mark equals rfl (by decide) true).name name false
    have htest := test.alternates (hname.mark stop rfl (by decide) true)
    have hfirst := first.alternates htest false
    exact (hfirst.mark header rfl (by decide) false).mark keyword rfl (by decide) _

theorem Statements.alternates {ts rest : List Token} {body : List Stmt} (h : Statements ts body)
    (hrest : ∀ afterOperand, Alternates afterOperand rest) (afterOperand : Bool) :
    Alternates afterOperand (ts ++ rest) := by
  match h with
  | .nil => exact hrest afterOperand
  | .cons head tail =>
    rw [List.append_assoc]
    exact head.alternates (tail.alternates hrest false) afterOperand

end

end Grammar

open Token

/-- The tokens of the lexer are among those that free choices can lead to. If any of these spell a
program, the lexer succeeds and gives just them, and no other choices lead to a program. -/
theorem lex_eq_of_freelyCut (source : String) :
    (∀ ts, lex source = .ok ts → FreelyCut {} source.toList ts) ∧
    ∀ ts, FreelyCut {} source.toList ts → Accepted ts →
      lex source = .ok ts ∧ ∀ us, FreelyCut {} source.toList us → Accepted us → us = ts := by
  have hlex {ts : List Token} (hfree : FreelyCut {} source.toList ts) (haccepted : Accepted ts) :
      lex source = .ok ts := by
    obtain ⟨program, hparse⟩ := haccepted
    have hend (afterOperand : Bool) : Alternates afterOperand [] := trivial
    have halternates := (Grammar.statements_of_parse hparse).alternates hend false
    rw [List.append_nil] at halternates
    exact lex_eq_ok_iff.2 (hfree.cut halternates)
  refine ⟨fun ts h => (lex_eq_ok_iff.1 h).freelyCut,
    fun ts hfree haccepted => ⟨hlex hfree haccepted, ?_⟩⟩
  intro us hus haccepted'
  exact Except.ok.inj ((hlex hus haccepted').symm.trans (hlex hfree haccepted))

/-- A program with a subtraction and, behind a closing brace, a number with a sign. -/
def minusSource : String := "print(x-1);for(if x\x7b\x7d-1;x=x)\x7b\x7d"

/-- The tokens of `minusSource` behind its first minus and the digit there. -/
def minusTail : List Token :=
  [⟨.bracket, ")", 9, 10, 0, 9⟩, ⟨.separator, ";", 10, 11, 0, 10⟩, ⟨.keyword, "for", 11, 14, 0, 11⟩,
    ⟨.bracket, "(", 14, 15, 0, 14⟩, ⟨.keyword, "if", 15, 17, 0, 15⟩,
    ⟨.identifier, "x", 18, 19, 0, 18⟩, ⟨.bracket, "\x7b", 19, 20, 0, 19⟩,
    ⟨.bracket, "\x7d", 20, 21, 0, 20⟩, ⟨.number, "-1", 21, 23, 0, 21⟩,
    ⟨.separator, ";", 23, 24, 0, 23⟩, ⟨.identifier, "x", 24, 25, 0, 24⟩,
    ⟨.assignment, "=", 25, 26, 0, 25⟩, ⟨.identifier, "x", 26, 27, 0, 26⟩,
    ⟨.bracket, ")", 27, 28, 0, 27⟩, ⟨.bracket, "\x7b", 28, 29, 0, 28⟩,
    ⟨.bracket, "\x7d", 29, 30, 0, 29⟩]

/-- The tokens of `minusSource`, where those of the first minus and the
digit behind it are given. -/
def minusTokens (minus : List Token) : List Token :=
  ⟨.keyword, "print", 0, 5, 0, 0⟩ :: ⟨.bracket, "(", 5, 6, 0, 5⟩ ::
    ⟨.identifier, "x", 6, 7, 0, 6⟩ :: (minus ++ minusTail)

theorem freelyCut_sign :
    FreelyCut {} minusSource.toList (minusTokens [⟨.number, "-1", 7, 9, 0, 7⟩]) := by
  have hsource : minusSource.toList = ['p', 'r', 'i', 'n', 't'] ++
      (['('] ++ (['x'] ++ (['-', '1'] ++ ");for(if x\x7b\x7d-1;x=x)\x7b\x7d".toList))) := by
    decide +kernel
  have htail : Cut true ⟨9, 0, 9⟩ ");for(if x\x7b\x7d-1;x=x)\x7b\x7d".toList minusTail :=
    lexFrom_eq_ok_iff.1 (by decide +kernel)
  rw [hsource]
  have hnumber :=
    @FreelyCut.token ⟨7, 0, 7⟩ .number ['-', '1'] _ _ false (by decide +kernel) rfl htail.freelyCut
  have hname :=
    @FreelyCut.token ⟨6, 0, 6⟩ .identifier ['x'] _ _ false (by decide +kernel) rfl hnumber
  have hbracket := @FreelyCut.token ⟨5, 0, 5⟩ .bracket ['('] _ _ false (by decide +kernel) rfl hname
  exact @FreelyCut.token ⟨0, 0, 0⟩ .keyword ['p', 'r', 'i', 'n', 't'] _ _ false (by decide +kernel)
    rfl hbracket

/-- The first minus is read as the operator, and so there is a program. Read as a sign it leads to
tokens as well, but to no program. -/
theorem lex_eq_of_freelyCut_minus :
    lex minusSource = .ok (minusTokens [⟨.operator, "-", 7, 8, 0, 7⟩, ⟨.number, "1", 8, 9, 0, 8⟩]) ∧
      FreelyCut {} minusSource.toList (minusTokens [⟨.number, "-1", 7, 9, 0, 7⟩]) ∧
      ¬ Accepted (minusTokens [⟨.number, "-1", 7, 9, 0, 7⟩]) := by
  have hlex : lex minusSource =
      .ok (minusTokens [⟨.operator, "-", 7, 8, 0, 7⟩, ⟨.number, "1", 8, 9, 0, 8⟩]) := by
    decide +kernel
  have haccepted :
      Accepted (minusTokens [⟨.operator, "-", 7, 8, 0, 7⟩, ⟨.number, "1", 8, 9, 0, 8⟩]) := ⟨_, rfl⟩
  obtain ⟨hfree, hprogram⟩ := lex_eq_of_freelyCut minusSource
  obtain ⟨hsame, hunique⟩ := hprogram _ (hfree _ hlex) haccepted
  refine ⟨hsame, freelyCut_sign, fun hsign => ?_⟩
  exact absurd (hunique _ freelyCut_sign hsign) (by decide)

end Quadcode
