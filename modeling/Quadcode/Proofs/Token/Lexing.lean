import Quadcode.Proofs.Result
import Quadcode.Proofs.Token.Classes
import Quadcode.Token.Lexer

/-!
# How a text is cut into tokens

The equations of the lexer, one for each kind of piece at the head of a text: a blank, a comment, a
gap of both, a token. They hold whatever follows the piece, also where the lexer fails later on.
`Token.Lexed` says which tokens a text gives, whatever its place, and is proved piece by piece from
the end of the text. `Token.Cut` is the lexer as a relation: a text is lexed into the tokens exactly
if it is cut so (`Token.lexFrom_eq_ok_iff`). `Token.Passes` follows the lexer through a part of a
text only, up to the place where it fails (`Token.lexFrom_eq_error`).
-/

namespace Quadcode

namespace Token

/-! ## One lexeme -/

theorem lexFrom_nil (afterOperand : Bool) (p : Position) : lexFrom afterOperand p [] = .ok [] := by
  rw [lexFrom]

theorem lexFrom_of_lexeme {afterOperand : Bool} {w rest : List Char} {k : Kind}
    (h : lexeme? afterOperand (w ++ rest) = some (k, w.length)) (p : Position) :
    lexFrom afterOperand p (w ++ rest) =
      if k.isTrivia then lexFrom afterOperand (p.advance w) rest
      else
        let token : Token := { kind := k, text := String.ofList w, span := p.spanOf w }
        (lexFrom token.endsOperand (p.advance w) rest).map (token :: ·) := by
  generalize hcs : w ++ rest = cs at h
  cases cs with
  | nil => cases h
  | cons c cs =>
    rw [lexFrom]
    split
    next hnone =>
      rw [hnone] at h
      cases h
    next kind length hsome =>
      obtain ⟨rfl, rfl⟩ : k = kind ∧ w.length = length := by simpa [h] using hsome
      simp only [← hcs, List.take_left, List.drop_left]

/-! ## Tokens -/

theorem lexFrom_token {afterOperand : Bool} {t : Token} {rest : List Char}
    (h : t.kind.Spells afterOperand t.text.toList) (hk : t.kind.isTrivia = false)
    (hr : t.kind = .bracket ∨ t.kind = .separator ∨ Ends rest) (p : Position) :
    lexFrom afterOperand p (t.text.toList ++ rest) =
      (lexFrom t.endsOperand (p.advance t.text.toList) rest).map
        ({ t with span := p.spanOf t.text.toList } :: ·) := by
  rw [lexFrom_of_lexeme (lexeme?_append h hk hr), hk, String.ofList_toList]
  rfl

/-! ## Blanks and comments -/

theorem lexFrom_blanks {w rest : List Char} (hne : w ≠ []) (hw : ∀ c ∈ w, isBlank c)
    (hr : ∀ c, rest.head? = some c → isBlank c = false) (afterOperand : Bool) (p : Position) :
    lexFrom afterOperand p (w ++ rest) = lexFrom afterOperand (p.advance w) rest := by
  obtain ⟨c, cs, rfl⟩ := List.exists_cons_of_ne_nil hne
  have hlength : whitespace? (c :: cs ++ rest) = some (c :: cs).length := by
    rw [whitespace?, run_append hw hr]
    rfl
  have hcomment : Kind.comment.opens c = false :=
    beq_eq_false_iff_ne.2 (ne_of_eq_false (p := isBlank) (hw c (.head _)) rfl)
  have hlexeme : lexeme? afterOperand (c :: cs ++ rest) = some (.whitespace, (c :: cs).length) := by
    refine lexeme?_cons hlength fun j hj => .inl ?_
    obtain rfl : j = .comment := by revert j; decide
    exact hcomment
  rw [lexFrom_of_lexeme hlexeme]
  rfl

theorem lexFrom_blank {c : Char} (hc : isBlank c) (afterOperand : Bool) (p : Position)
    (cs : List Char) : lexFrom afterOperand p (c :: cs) = lexFrom afterOperand (p.step c) cs := by
  obtain ⟨w, rest, rfl, -, hw, hrest⟩ := exists_run isBlank cs
  have hall : ∀ d ∈ c :: w, isBlank d := List.forall_mem_cons.2 ⟨hc, hw⟩
  have hwhole := lexFrom_blanks (List.cons_ne_nil c w) hall hrest afterOperand p
  rw [List.cons_append] at hwhole
  rw [hwhole, Position.advance_cons]
  -- the blanks behind the first one are skipped as a whole too, if there are any
  by_cases hne : w = []
  · subst hne
    rfl
  · exact (lexFrom_blanks hne hw hrest afterOperand _).symm

theorem lexFrom_comment {body rest : List Char} (hbody : '\n' ∉ body)
    (hr : ∀ c, rest.head? = some c → c = '\n') (afterOperand : Bool) (p : Position) :
    lexFrom afterOperand p ('/' :: '/' :: body ++ rest) =
      lexFrom afterOperand (p.advance ('/' :: '/' :: body)) rest := by
  have hrun : run (· != '\n') (body ++ rest) = body.length := by
    refine run_append (fun c hc => ?_) fun c hc => ?_
    · exact bne_iff_ne.2 fun h => hbody (h ▸ hc)
    · rw [hr c hc]
      rfl
  have hlength : comment? ('/' :: '/' :: body ++ rest) = some ('/' :: '/' :: body).length := by
    simp only [comment?, List.cons_append, hrun, List.length_cons]
    congr 1
    omega
  have hlexeme : lexeme? afterOperand ('/' :: '/' :: body ++ rest) =
      some (.comment, ('/' :: '/' :: body).length) :=
    lexeme?_cons hlength fun _ hj => absurd hj List.not_mem_nil
  rw [lexFrom_of_lexeme hlexeme]
  rfl

/-- Text without tokens: blanks, and comments that go on to the end of their line. At the end of the
source the `last` line can be one that ends in a comment. -/
inductive Gap (last : Bool) : List Char → Prop
  | nil : Gap last []
  | blank {c : Char} {cs : List Char} (blank : isBlank c) (tail : Gap last cs) : Gap last (c :: cs)
  | comment {body cs : List Char} (line : '\n' ∉ body) (tail : Gap last ('\n' :: cs)) :
      Gap last ('/' :: '/' :: body ++ '\n' :: cs)
  | unended {body : List Char} (atEnd : last = true) (line : '\n' ∉ body) :
      Gap last ('/' :: '/' :: body)

theorem lexFrom_gap {last : Bool} {g rest : List Char} (h : Gap last g)
    (hlast : last = true → rest = []) (afterOperand : Bool) (p : Position) :
    lexFrom afterOperand p (g ++ rest) = lexFrom afterOperand (p.advance g) rest := by
  induction h generalizing p with
  | nil => rfl
  | blank hblank _ ih => rw [List.cons_append, lexFrom_blank hblank, ih, Position.advance_cons]
  | @comment body cs line _ ih =>
    rw [List.append_assoc, lexFrom_comment line (by simp), ih, Position.advance_append]
  | unended h line =>
    rw [hlast h]
    exact lexFrom_comment line (by simp) afterOperand p

/-! ## Texts with given tokens -/

/-- The token with its place forgotten. -/
def bare (t : Token) : Token :=
  { kind := t.kind, text := t.text }

/-- Wherever the text stands, behind an operand or not, it is lexed into these
tokens, up to their places. -/
def Lexed (afterOperand : Bool) (cs : List Char) (ts : List Token) : Prop :=
  ∀ p, ∃ us, lexFrom afterOperand p cs = .ok us ∧ us.map bare = ts

theorem lexed_nil {afterOperand : Bool} : Lexed afterOperand [] [] :=
  fun p => ⟨[], lexFrom_nil afterOperand p, rfl⟩

theorem Lexed.gap {afterOperand last : Bool} {g rest : List Char} {ts : List Token}
    (h : Lexed afterOperand rest ts) (hg : Gap last g) (hlast : last = true → rest = []) :
    Lexed afterOperand (g ++ rest) ts := by
  intro p
  rw [lexFrom_gap hg hlast]
  exact h (p.advance g)

theorem Lexed.token {afterOperand : Bool} {t : Token} {rest : List Char} {ts : List Token}
    (h : Lexed t.endsOperand rest ts) (hs : t.kind.Spells afterOperand t.text.toList)
    (hk : t.kind.isTrivia = false) (hr : t.kind = .bracket ∨ t.kind = .separator ∨ Ends rest) :
    Lexed afterOperand (t.text.toList ++ rest) (t.bare :: ts) := by
  intro p
  obtain ⟨us, hus, rfl⟩ := h (p.advance t.text.toList)
  refine ⟨{ t with span := p.spanOf t.text.toList } :: us, ?_, rfl⟩
  rw [lexFrom_token hs hk hr, hus]
  rfl

/-! ## Texts and their tokens -/

/-- The text, which stands at the position behind an operand or not, falls into lexemes. The tokens
are those of them that are no trivia. -/
inductive Cut : Bool → Position → List Char → List Token → Prop
  | nil {afterOperand : Bool} {p : Position} : Cut afterOperand p [] []
  | trivia {afterOperand : Bool} {p : Position} {k : Kind} {w rest : List Char} {ts : List Token}
      (lexeme : lexeme? afterOperand (w ++ rest) = some (k, w.length)) (kind : k.isTrivia = true)
      (tail : Cut afterOperand (p.advance w) rest ts) : Cut afterOperand p (w ++ rest) ts
  | token {afterOperand : Bool} {p : Position} {k : Kind} {w rest : List Char} {ts : List Token}
      (lexeme : lexeme? afterOperand (w ++ rest) = some (k, w.length)) (kind : k.isTrivia = false)
      (tail : Cut ({ kind := k, text := String.ofList w } : Token).endsOperand
        (p.advance w) rest ts) :
      Cut afterOperand p (w ++ rest)
        ({ kind := k, text := String.ofList w, span := p.spanOf w } :: ts)

theorem lexFrom_eq_ok_iff {afterOperand : Bool} {p : Position} {cs : List Char} {ts : List Token} :
    lexFrom afterOperand p cs = .ok ts ↔ Cut afterOperand p cs ts := by
  constructor
  · intro h
    fun_induction lexFrom afterOperand p cs generalizing ts with
    | case1 =>
      obtain rfl := Except.ok.inj h
      exact .nil
    | case2 => cases h
    | case3 afterOperand p c cs k length hlexeme _ text after hk =>
      rename_i ih
      obtain ⟨w, rest, hcs, rfl, -⟩ := lexeme?_spells hlexeme
      have htext : text = w := by simp [text, hcs]
      have hafter : after = rest := by simp [after, hcs]
      rw [htext, hafter] at ih h
      rw [hcs] at hlexeme ⊢
      exact .trivia hlexeme hk (ih h)
    | case4 afterOperand p c cs k length hlexeme _ text after hk token =>
      rename_i ih
      obtain ⟨w, rest, hcs, rfl, -⟩ := lexeme?_spells hlexeme
      have htext : text = w := by simp [text, hcs]
      have hafter : after = rest := by simp [after, hcs]
      obtain ⟨us, hus, rfl⟩ := except_map_eq_ok_iff.1 h
      have htail := ih hus
      simp only [token, htext, hafter] at htail ⊢
      rw [hcs] at hlexeme ⊢
      exact .token hlexeme (Bool.eq_false_iff.2 hk) htail
  · intro h
    induction h with
    | nil => exact lexFrom_nil _ _
    | trivia lexeme kind _ ih => rw [lexFrom_of_lexeme lexeme, if_pos kind, ih]
    | token lexeme kind _ ih =>
      rw [lexFrom_of_lexeme lexeme, kind]
      exact except_map_eq_ok_iff.2 ⟨_, ih, rfl⟩

/-! ## Texts that are cut up to a place -/

/-- Whether the text behind the lexeme `w` stands behind an operand. -/
def Kind.operandBehind (k : Kind) (afterOperand : Bool) (w : List Char) : Bool :=
  if k.isTrivia then afterOperand else ({ kind := k, text := String.ofList w } : Token).endsOperand

/-- The text `w`, with `rest` behind it, falls into lexemes, and `rest` stands
behind an `operand` or not. -/
inductive Passes : Bool → List Char → List Char → Bool → Prop
  | nil {afterOperand : Bool} {rest : List Char} : Passes afterOperand [] rest afterOperand
  | cons {afterOperand operand : Bool} {k : Kind} {v w rest : List Char}
      (lexeme : lexeme? afterOperand (v ++ (w ++ rest)) = some (k, v.length))
      (tail : Passes (k.operandBehind afterOperand v) w rest operand) :
      Passes afterOperand (v ++ w) rest operand

theorem lexFrom_of_none {afterOperand : Bool} {c : Char} {cs : List Char}
    (h : lexeme? afterOperand (c :: cs) = none) (p : Position) :
    lexFrom afterOperand p (c :: cs) = .error { character := c, position := p } := by
  rw [lexFrom]
  split
  next => rfl
  next hsome =>
    rw [h] at hsome
    cases hsome

theorem lexFrom_eq_error_iff_of_lexeme {afterOperand : Bool} {w rest : List Char} {k : Kind}
    (h : lexeme? afterOperand (w ++ rest) = some (k, w.length)) {p : Position} {e : LexicalError} :
    lexFrom afterOperand p (w ++ rest) = .error e ↔
      lexFrom (k.operandBehind afterOperand w) (p.advance w) rest = .error e := by
  rw [lexFrom_of_lexeme h, Kind.operandBehind]
  split
  next => rfl
  next => exact except_map_eq_error_iff

/-- Where the lexer passes a text, it fails as it does on the rest. -/
theorem Passes.lexFrom_eq_error_iff {afterOperand operand : Bool} {w rest : List Char}
    (h : Passes afterOperand w rest operand) {p : Position} {e : LexicalError} :
    lexFrom afterOperand p (w ++ rest) = .error e ↔
      lexFrom operand (p.advance w) rest = .error e := by
  induction h generalizing p with
  | nil => rfl
  | cons lexeme _ ih =>
    rw [List.append_assoc, lexFrom_eq_error_iff_of_lexeme lexeme, ih, Position.advance_append]

/-- The lexer fails at a character with which no lexeme begins, and it passes the text before it. -/
theorem lexFrom_eq_error {afterOperand : Bool} {p : Position} {cs : List Char} {e : LexicalError}
    (h : lexFrom afterOperand p cs = .error e) :
    ∃ w rest operand, cs = w ++ e.character :: rest ∧ e.position = p.advance w ∧
      Passes afterOperand w (e.character :: rest) operand ∧
        lexeme? operand (e.character :: rest) = none := by
  -- the text behind a lexeme is shorter, but it is no tail of the text that an induction on the
  -- list would give
  generalize hlength : cs.length = length
  induction length using Nat.strongRecOn generalizing afterOperand p cs with
  | ind length ih =>
    cases cs with
    | nil =>
      rw [lexFrom_nil] at h
      cases h
    | cons c cs =>
      cases hlexeme : lexeme? afterOperand (c :: cs) with
      | none =>
        rw [lexFrom_of_none hlexeme] at h
        obtain rfl := Except.error.inj h
        exact ⟨[], cs, afterOperand, rfl, rfl, .nil, hlexeme⟩
      | some lexeme =>
        obtain ⟨k, n⟩ := lexeme
        have hpos := lexeme?_pos hlexeme
        obtain ⟨v, tail, hcs, rfl, -⟩ := lexeme?_spells hlexeme
        rw [hcs] at h hlexeme hlength ⊢
        rw [lexFrom_eq_error_iff_of_lexeme hlexeme] at h
        rw [List.length_append] at hlength
        obtain ⟨w, rest, operand, rfl, hposition, hpasses, hnone⟩ := ih tail.length (by omega) h rfl
        refine ⟨v ++ w, rest, operand, by simp, ?_, .cons hlexeme hpasses, hnone⟩
        rw [hposition, Position.advance_append]

end Token

end Quadcode
