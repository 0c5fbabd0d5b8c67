import Quadcode.Proofs.Token.Position

/-!
# Stretches of a source by themselves

What the lexer finds at the head of a text it also finds where the text is cut off behind it
(`Token.lexeme?_take`), and what stands before the text matters only for a minus and for a number
(`Token.lexeme?_of_afterOperand`). So a stretch of a source from one of its tokens to another one is
lexed into these tokens by itself (`Token.Cut.stretch`).
-/

namespace Quadcode

namespace Token

/-! ## Lengths where a text is cut off -/

theorem run_take (p : Char → Bool) (cs : List Char) (m : Nat) :
    run p (cs.take m) = min m (run p cs) := by
  rw [run, ← List.take_takeWhile, List.length_take, run]

theorem head?_of_take {cs : List Char} {m : Nat} {c : Char} (h : (cs.take m).head? = some c) :
    cs.head? = some c := by
  rw [List.head?_take] at h
  split at h
  · cases h
  · exact h

theorem fractionLength_take {cs : List Char} {m : Nat} (h : fractionLength cs ≤ m) :
    fractionLength (cs.take m) = fractionLength cs := by
  by_cases hpoint : cs.head? = some '.'
  · obtain ⟨cs, rfl⟩ := List.head?_eq_some_iff.1 hpoint
    cases m with
    | zero => exact (Nat.le_zero.1 h).symm
    | succ m =>
      rw [List.take_succ_cons]
      simp only [fractionLength, run_take] at h ⊢
      by_cases hrun : run Char.isDigit cs = 0
      · simp [hrun]
      · rw [if_neg hrun] at h ⊢
        rw [Nat.min_eq_right (by omega), if_neg hrun]
  · rw [fractionLength_of_head hpoint, fractionLength_of_head fun hc => hpoint (head?_of_take hc)]

theorem signLength_cons (c : Char) (cs : List Char) :
    signLength (c :: cs) = if c = '+' ∨ c = '-' then 1 else 0 := by
  by_cases hplus : c = '+'
  · subst hplus
    rfl
  · by_cases hminus : c = '-'
    · subst hminus
      rfl
    · simp [signLength, hplus, hminus]

theorem signLength_take {cs : List Char} {m : Nat} :
    signLength (cs.take (m + 1)) = signLength cs := by
  cases cs with
  | nil => rfl
  | cons c cs => rw [List.take_succ_cons, signLength_cons, signLength_cons]

theorem exponentLength_take {cs : List Char} {m : Nat} (h : exponentLength cs ≤ m) :
    exponentLength (cs.take m) = exponentLength cs := by
  cases cs with
  | nil => rw [List.take_nil]
  | cons mark cs =>
    match m with
    | 0 => exact (Nat.le_zero.1 h).symm
    | 1 =>
      rw [List.take_succ_cons, List.take_zero]
      simp only [exponentLength] at h ⊢
      split at h
      · omega
      · next hnone =>
        rw [if_neg hnone]
        simp [run]
    | m + 2 =>
      rw [List.take_succ_cons]
      simp only [exponentLength, signLength_take, List.drop_take, run_take] at h ⊢
      by_cases hcond : (mark = 'e' ∨ mark = 'E') ∧ run Char.isDigit (cs.drop (signLength cs)) ≠ 0
      · rw [if_pos hcond] at h ⊢
        rw [Nat.min_eq_right (by omega), if_pos hcond]
      · rw [if_neg hcond, if_neg]
        exact fun hshort => hcond ⟨hshort.1, fun hzero => hshort.2 (by rw [hzero, Nat.min_zero])⟩

/-! ## Classes where a text is cut off -/

/-- What the measure finds at the head of a text is also found where the
text is cut off behind it. -/
def Local (length? : List Char → Option Nat) : Prop :=
  ∀ cs m, (∀ n, length? cs = some n → n ≤ m) → length? (cs.take m) = length? cs

theorem local_comment : Local comment? := by
  intro cs m h
  by_cases hslashes : ∃ rest, cs = '/' :: '/' :: rest
  · obtain ⟨cs, rfl⟩ := hslashes
    have hm := h _ rfl
    obtain ⟨m, rfl⟩ : ∃ k, m = k + 2 := ⟨m - 2, by omega⟩
    rw [List.take_succ_cons, List.take_succ_cons]
    simp only [comment?, run_take]
    rw [Nat.min_eq_right (by omega)]
  · have hnone {ds : List Char} (hds : ds <+: cs) : comment? ds = none := by
      unfold comment?
      split
      · next rest =>
        obtain ⟨after, rfl⟩ := hds
        exact absurd ⟨_, rfl⟩ hslashes
      · rfl
    rw [hnone (List.take_prefix m cs), hnone (List.prefix_refl cs)]

theorem local_whitespace : Local whitespace? := by
  intro cs m h
  unfold whitespace? at h ⊢
  rw [run_take]
  by_cases hrun : run isBlank cs = 0
  · simp [hrun]
  · rw [if_neg hrun] at h ⊢
    rw [Nat.min_eq_right (h _ rfl), if_neg hrun]

theorem local_unsigned : Local unsigned? := by
  intro cs m h
  simp only [unsigned?] at h ⊢
  have hmantissa : run Char.isDigit cs + fractionLength (cs.drop (run Char.isDigit cs)) ≤ m := by
    split at h
    · omega
    · have hm := h _ rfl
      omega
  have hrun : run Char.isDigit (cs.take m) = run Char.isDigit cs := by
    rw [run_take]
    omega
  rw [hrun, List.drop_take, fractionLength_take (by omega)]
  split
  · rfl
  · next hne =>
    rw [if_neg hne] at h
    have hm := h _ rfl
    rw [List.drop_take, exponentLength_take (by omega)]

theorem number?_of_head {cs : List Char} (h : cs.head? ≠ some '-') (afterOperand : Bool) :
    number? afterOperand cs = unsigned? cs := by
  unfold number?
  split
  · exact absurd rfl h
  · rfl

theorem local_number (afterOperand : Bool) : Local (number? afterOperand) := by
  intro cs m h
  by_cases hminus : cs.head? = some '-'
  · obtain ⟨cs, rfl⟩ := List.head?_eq_some_iff.1 hminus
    cases m with
    | zero =>
      have hnone : number? afterOperand ('-' :: cs) = none := by
        rw [Option.eq_none_iff_forall_ne_some]
        intro n hn
        have hpos := @Kind.length?_pos afterOperand ('-' :: cs) .number n hn
        have hzero := h n hn
        omega
      rw [hnone]
      rfl
    | succ m =>
      rw [List.take_succ_cons]
      simp only [number?] at h ⊢
      split
      · rfl
      · next hoperand =>
        rw [if_neg hoperand] at h
        rw [local_unsigned cs m]
        intro n hn
        have hm := h (n + 1) (by rw [hn]; rfl)
        omega
  · have hshort : (cs.take m).head? ≠ some '-' := fun hc => hminus (head?_of_take hc)
    rw [number?_of_head hminus] at h ⊢
    rw [number?_of_head hshort, local_unsigned cs m h]

theorem local_spelled (words : List String) : Local (spelled? words) := by
  intro cs m h
  induction words with
  | nil => rfl
  | cons w words ih =>
    by_cases hw : w.toList <+: cs
    · have hword : spelled? (w :: words) cs = some w.toList.length := by simp [spelled?, hw]
      have hshort : w.toList <+: cs.take m := by
        rw [List.prefix_take_iff]
        exact ⟨hw, h _ hword⟩
      rw [hword]
      simp [spelled?, hshort]
    · have hshort : ¬ w.toList <+: cs.take m := fun hp => hw (hp.trans (List.take_prefix m cs))
      have hskip {ds : List Char} (hds : ¬ w.toList <+: ds) :
          spelled? (w :: words) ds = spelled? words ds := by
        simp [spelled?, hds]
      rw [hskip hw] at h ⊢
      rw [hskip hshort, ih h]

theorem local_identifier : Local identifier? := by
  intro cs m h
  cases cs with
  | nil => rw [List.take_nil]
  | cons c cs =>
    by_cases hc : isWordStart c
    · have hm := h _ (if_pos hc)
      obtain ⟨m, rfl⟩ : ∃ k, m = k + 1 := ⟨m - 1, by omega⟩
      rw [List.take_succ_cons]
      simp only [identifier?, run_take]
      rw [Nat.min_eq_right (by omega)]
    · cases m <;> simp [identifier?, hc]

theorem keyword?_eq_none {cs : List Char} (h : identifier? cs = none) : keyword? cs = none := by
  cases cs with
  | nil => rfl
  | cons c cs =>
    have hc : isWordStart c = false := by simpa [identifier?] using h
    exact @length?_eq_none .keyword c hc false cs

/-- Whether there is a keyword is decided by the characters of the word and the one behind it. -/
theorem keyword?_take {cs : List Char} {m : Nat} (h : ∀ n, identifier? cs = some n → n ≤ m) :
    keyword? (cs.take m) = keyword? cs := by
  have hshort := local_identifier cs m h
  cases hword : identifier? cs with
  | none =>
    rw [hword] at hshort
    rw [keyword?_eq_none hshort, keyword?_eq_none hword]
  | some n =>
    have hm := h n hword
    obtain ⟨w, rest, rfl, rfl, hw, hrest⟩ := begins_identifier hword
    have hrest' : ∀ c, (rest.take (m - w.length)).head? = some c → isWordChar c = false :=
      fun c hc => hrest c (head?_of_take hc)
    apply Option.ext
    intro n
    rw [List.take_append, List.take_of_length_le hm, keyword?_append_iff hw.isWordChar hrest',
      keyword?_append_iff hw.isWordChar hrest]

theorem identifier?_of_keyword {cs : List Char} {n : Nat} (h : keyword? cs = some n) :
    identifier? cs = some n := by
  cases hword : identifier? cs with
  | none =>
    rw [keyword?_eq_none hword] at h
    cases h
  | some m =>
    obtain ⟨w, rest, rfl, rfl, hw, hrest⟩ := begins_identifier hword
    rw [((keyword?_append_iff hw.isWordChar hrest).1 h).1]

/-- Where an identifier could be found, the lexeme is that word. -/
theorem eq_of_identifier {afterOperand : Bool} {cs : List Char} {k : Kind} {n m : Nat}
    (h : lexeme? afterOperand cs = some (k, n)) (hm : identifier? cs = some m) : m = n := by
  obtain ⟨hlength, hearlier⟩ := lexeme?_eq_some_iff.1 h
  cases cs with
  | nil => cases hm
  | cons c cs =>
    have hc : isWordStart c := by
      rw [identifier?] at hm
      exact (Option.ite_none_right_eq_some.1 hm).1
    have hnone {j : Kind} (hj : j.opens c = false) : j.length? afterOperand (c :: cs) ≠ some n := by
      rw [length?_eq_none hj]
      simp
    cases k with
    | comment | whitespace | number | operator =>
      exact absurd hlength (hnone (opens_of_isWordStart hc _ (by decide) (by decide)))
    | keyword => exact Option.some.inj (hm.symm.trans (identifier?_of_keyword hlength))
    | identifier => exact Option.some.inj (hm.symm.trans hlength)
    | assignment | bracket | separator =>
      have hno : identifier? (c :: cs) = none := hearlier .identifier (by decide)
      rw [hno] at hm
      cases hm

/-- The lexeme at the head of a text is found again if the text is cut off somewhere behind it. -/
theorem lexeme?_take {afterOperand : Bool} {cs : List Char} {k : Kind} {n m : Nat}
    (h : lexeme? afterOperand cs = some (k, n)) (hm : n ≤ m) :
    lexeme? afterOperand (cs.take m) = some (k, n) := by
  obtain ⟨hlength, hearlier⟩ := lexeme?_eq_some_iff.1 h
  have hword : ∀ i, identifier? cs = some i → i ≤ m := by
    intro i hi
    rw [eq_of_identifier h hi]
    exact hm
  have hsame (j : Kind) (hj : ∀ i, j.length? afterOperand cs = some i → i ≤ m) :
      j.length? afterOperand (cs.take m) = j.length? afterOperand cs := by
    cases j with
    | comment => exact local_comment cs m hj
    | whitespace => exact local_whitespace cs m hj
    | number => exact local_number afterOperand cs m hj
    | keyword => exact keyword?_take hword
    | identifier => exact local_identifier cs m hword
    | operator | assignment | bracket | separator => exact local_spelled _ cs m hj
  apply lexeme?_eq_some_iff.2
  constructor
  · rw [hsame k, hlength]
    intro i hi
    rw [hlength] at hi
    exact Option.some.inj hi ▸ hm
  · intro j hj
    rw [hsame j, hearlier j hj]
    intro i hi
    rw [hearlier j hj] at hi
    cases hi

theorem lexeme?_cutOff {afterOperand : Bool} {w text rest : List Char} {k : Kind}
    (h : lexeme? afterOperand (w ++ (text ++ rest)) = some (k, w.length)) :
    lexeme? afterOperand (w ++ text) = some (k, w.length) := by
  have hshort := lexeme?_take h (List.length_append ▸ Nat.le_add_right w.length text.length)
  rwa [← List.append_assoc, List.take_left] at hshort

/-! ## Behind an operand or not -/

/-- The lexeme depends on what stands before it only where it is a minus or a number. -/
theorem lexeme?_of_afterOperand {afterOperand : Bool} (other : Bool) {cs : List Char}
    {k : Kind} {n : Nat} (h : lexeme? afterOperand cs = some (k, n))
    (hnumber : k = .number → other = false) (hoperator : k = .operator → other = true) :
    lexeme? other cs = some (k, n) := by
  by_cases hminus : cs.head? = some '-'
  · obtain ⟨cs, rfl⟩ := List.head?_eq_some_iff.1 hminus
    have hlength := (lexeme?_eq_some_iff.1 h).1
    cases k with
    | number =>
      obtain rfl := hnumber rfl
      cases afterOperand with
      | false => exact h
      | true => cases hlength
    | operator =>
      obtain rfl := hoperator rfl
      exact lexeme?_cons_later .number hlength rfl (by decide)
    | comment | whitespace | keyword | identifier | assignment | bracket | separator =>
      rw [length?_eq_none rfl] at hlength
      cases hlength
  · have hsame (j : Kind) : j.length? other cs = j.length? afterOperand cs := by
      cases j with
      | number =>
        show number? other cs = number? afterOperand cs
        rw [number?_of_head hminus, number?_of_head hminus]
      | comment | whitespace | keyword | operator | identifier | assignment | bracket | separator =>
        rfl
    rw [lexeme?_eq_some_iff] at h ⊢
    simpa only [hsame] using h

/-! ## Stretches of a text -/

/-- The tokens of a text do not depend on its place, but for their own places. -/
theorem Cut.lexed {afterOperand : Bool} {p : Position} {cs : List Char} {ts : List Token}
    (h : Cut afterOperand p cs ts) : Lexed afterOperand cs (ts.map bare) := by
  induction h with
  | nil => exact lexed_nil
  | trivia lexeme kind _ ih =>
    intro q
    rw [lexFrom_of_lexeme lexeme, if_pos kind]
    exact ih _
  | @token afterOperand p k w rest ts lexeme kind _ ih =>
    intro q
    obtain ⟨us, hus, hbare⟩ := ih (q.advance w)
    refine ⟨{ kind := k, text := String.ofList w, span := q.spanOf w } :: us, ?_, ?_⟩
    · rw [lexFrom_of_lexeme lexeme, kind]
      exact except_map_eq_ok_iff.2 ⟨us, hus, rfl⟩
    · rw [List.map_cons, List.map_cons, hbare]
      rfl

/-- The text up to the end of a token is cut as before. -/
theorem Cut.take {afterOperand : Bool} {p : Position} {cs : List Char}
    {us vs : List Token} {t : Token} (h : Cut afterOperand p cs (us ++ t :: vs)) :
    ∃ text rest, cs = text ++ rest ∧ t.span.stop = (p.advance text).offset ∧
      Cut afterOperand p text (us ++ [t]) := by
  generalize hts : us ++ t :: vs = ts at h
  induction h generalizing us with
  | nil => simp at hts
  | @trivia afterOperand p k w rest ts lexeme kind _ ih =>
    obtain ⟨text, rest, rfl, hstop, hcut⟩ := ih hts
    refine ⟨w ++ text, rest, by simp, ?_, .trivia (lexeme?_cutOff lexeme) kind hcut⟩
    rw [hstop, Position.advance_append]
  | @token afterOperand p k w rest ts lexeme kind _ ih =>
    cases us with
    | nil =>
      obtain ⟨rfl, rfl⟩ := List.cons.inj hts
      have hshort : lexeme? afterOperand (w ++ []) = some (k, w.length) := lexeme?_cutOff lexeme
      refine ⟨w ++ [], rest, by simp, ?_, .token hshort kind .nil⟩
      rw [List.append_nil, Position.spanOf]
    | cons u us =>
      obtain ⟨rfl, htail⟩ := List.cons.inj hts
      obtain ⟨text, rest, rfl, hstop, hcut⟩ := ih htail
      refine ⟨w ++ text, rest, by simp, ?_, .token (lexeme?_cutOff lexeme) kind hcut⟩
      rw [hstop, Position.advance_append]

/-- A stretch from a token that is no operator to another token gives the same tokens by itself. -/
theorem Cut.stretch {afterOperand : Bool} {p : Position} {cs : List Char} {us vs ws : List Token}
    {t u : Token} (h : Cut afterOperand p cs (us ++ vs ++ ws)) (ht : vs.head? = some t)
    (hu : vs.getLast? = some u) (hk : t.kind ≠ .operator) :
    ∃ before text after, cs = before ++ text ++ after ∧
      t.span.upTo u.span = (p.advance before).spanOf text ∧
      Lexed false text (vs.map bare) := by
  obtain ⟨vs, rfl⟩ := List.head?_eq_some_iff.1 ht
  rw [List.append_assoc, List.cons_append] at h
  obtain ⟨operand, before, rest, rfl, hspan, hlexeme, hkind, htail⟩ := h.split_lexeme
  -- at its beginning the stretch does not stand behind an operand
  have hfirst :=
    lexeme?_of_afterOperand false hlexeme (fun _ => rfl) fun hoperator => absurd hoperator hk
  rw [Position.advance_append] at htail
  have hcut := Cut.token (p := p.advance before) hfirst hkind (by rwa [String.ofList_toList])
  rw [String.ofList_toList, ← hspan] at hcut
  -- at its end it is cut off behind the last token
  obtain ⟨vs', hvs⟩ : ∃ vs', t :: vs = vs' ++ [u] := ⟨_, (List.dropLast_append_getLast? u hu).symm⟩
  have hcut' : Cut false (p.advance before) (t.text.toList ++ rest) (vs' ++ u :: ws) := by
    rwa [← List.singleton_append, ← List.append_assoc, ← hvs]
  obtain ⟨text, after, htext, hstop, hshort⟩ := hcut'.take
  refine ⟨before, text, after, by rw [List.append_assoc, htext, List.append_assoc], ?_, ?_⟩
  · rw [Span.upTo, hstop, hspan]
    rfl
  · rw [hvs]
    exact hshort.lexed

end Token

end Quadcode
