import Quadcode.Proofs.Token.Longest

/-!
# Where the lexer fails

No lexeme begins with a character exactly if it is stray, and that depends on the character and the
one behind it only (`Token.lexeme?_eq_none_iff`). The lexer fails at the first place where it meets
a stray character: what stands before it is lexed by itself, and what stands behind it can be cut
off without any change (`lex_error_boundary`).
-/

namespace Quadcode

namespace Token

/-! ## Stray characters -/

/-- No lexeme begins with the character where the text follows it: an ampersand without another one
behind it, a point without a digit behind it, or a character with which nothing begins. -/
inductive Strays : Char → List Char → Prop
  | ampersand {cs : List Char} (single : cs.head? ≠ some '&') : Strays '&' cs
  | point {cs : List Char} (bare : ∀ c, cs.head? = some c → c.isDigit = false) : Strays '.' cs
  | foreign {c : Char} {cs : List Char} (blank : isBlank c = false) (word : isWordChar c = false)
      (mark : c ∉ marks) : Strays c cs

theorem Strays.cutOff {c : Char} {text rest : List Char} (h : Strays c (text ++ rest)) :
    Strays c text := by
  have hhead {d : Char} (hd : text.head? = some d) : (text ++ rest).head? = some d := by
    rw [List.head?_append, hd]
    rfl
  cases h with
  | ampersand single => exact .ampersand fun h => single (hhead h)
  | point bare => exact .point fun d hd => bare d (hhead hd)
  | foreign blank word mark => exact .foreign blank word mark

theorem number?_ne_none (afterOperand : Bool) {w : List Char} (h : Unsigned w) (rest : List Char) :
    number? afterOperand (w ++ rest) ≠ none := by
  have hbegins : Begins (Kind.number.Spells afterOperand) (w ++ rest) w.length :=
    ⟨w, rest, rfl, rfl, .inl h⟩
  obtain ⟨n, hn, -⟩ := (local_number afterOperand).exists_le (fun _ => number?_whole) hbegins
  rw [hn]
  exact Option.some_ne_none n

theorem Mantissa.unsigned {ms : List Char} (h : Mantissa ms) : Unsigned ms := by
  rw [← List.append_nil ms]
  exact .intro h .nil

section

variable {afterOperand : Bool} {c : Char} {cs : List Char}
  (h : ∀ k : Kind, k.length? afterOperand (c :: cs) = none)

include h

theorem isBlank_of_none : isBlank c = false := by
  rw [Bool.eq_false_iff]
  intro hblank
  have hnone : whitespace? (c :: cs) = none := h .whitespace
  simp [whitespace?, run, hblank] at hnone

theorem isWordChar_of_none : isWordChar c = false := by
  rw [Bool.eq_false_iff]
  intro hword
  by_cases hdigit : c.isDigit
  · have hdigits : Digits [c] := ⟨by simp, by simpa using hdigit⟩
    exact number?_ne_none afterOperand (Mantissa.whole hdigits).unsigned cs (h .number)
  · have hstart : isWordStart c := by
      simpa [isWordStart, isWordChar, Char.isAlphanum, hdigit] using hword
    have hnone : identifier? (c :: cs) = none := h .identifier
    simp [identifier?, hstart] at hnone

theorem strays_of_none : Strays c cs := by
  by_cases hmark : c ∈ marks
  · -- all marks but the ampersand and the point are lexemes by themselves
    have hsingle : marks.all fun c => c == '&' || c == '.' ||
        (Operator.all.map Operator.symbol).contains (String.singleton c) ||
        ["="].contains (String.singleton c) || brackets.contains (String.singleton c) ||
        [";"].contains (String.singleton c) := by decide
    have hcases := List.all_eq_true.1 hsingle c hmark
    simp only [Bool.or_eq_true, beq_iff_eq, List.contains_iff_mem] at hcases
    have hlist : (String.singleton c).toList ++ cs = c :: cs := by simp
    obtain ((((rfl | rfl) | hs) | hs) | hs) | hs := hcases
    · by_cases hnext : cs.head? = some '&'
      · obtain ⟨cs, rfl⟩ := List.head?_eq_some_iff.1 hnext
        cases h .operator
      · exact .ampersand hnext
    · refine .point fun d hd => ?_
      obtain ⟨cs, rfl⟩ := List.head?_eq_some_iff.1 hd
      rw [Bool.eq_false_iff]
      intro hdigit
      have hdigits : Digits [d] := ⟨by simp, by simpa using hdigit⟩
      exact number?_ne_none afterOperand (Mantissa.fraction hdigits).unsigned cs (h .number)
    · exact absurd (h .operator) (hlist ▸ spelled?_ne_none hs cs)
    · exact absurd (h .assignment) (hlist ▸ spelled?_ne_none hs cs)
    · exact absurd (h .bracket) (hlist ▸ spelled?_ne_none hs cs)
    · exact absurd (h .separator) (hlist ▸ spelled?_ne_none hs cs)
  · exact .foreign (isBlank_of_none h) (isWordChar_of_none h) hmark

end

/-- Where the lexemes of a single class begin with a character, it is enough
that this class has none. -/
theorem length?_eq_none_of_only {afterOperand : Bool} {c : Char} {cs : List Char} (j : Kind)
    (hothers : ∀ k ∈ Kind.all, k ≠ j → k.opens c = false)
    (hj : j.length? afterOperand (c :: cs) = none) (k : Kind) :
    k.length? afterOperand (c :: cs) = none := by
  by_cases hk : k = j
  · rw [hk, hj]
  · exact length?_eq_none (hothers k k.mem_all hk) afterOperand cs

theorem operator_length?_eq_none {cs : List Char} (h : cs.head? ≠ some '&') (afterOperand : Bool) :
    Kind.operator.length? afterOperand ('&' :: cs) = none := by
  cases cs with
  | nil => rfl
  | cons d cs =>
    have hd : '&' ≠ d := fun hd => h (by rw [hd]; rfl)
    simp [Kind.length?, spelled?, Operator.all, Operator.symbol, hd]

theorem number_length?_eq_none {cs : List Char} (h : ∀ c, cs.head? = some c → c.isDigit = false)
    (afterOperand : Bool) : Kind.number.length? afterOperand ('.' :: cs) = none := by
  have hwhole : run Char.isDigit ('.' :: cs) = 0 := rfl
  have hfraction : run Char.isDigit cs = 0 := run_append (w := []) (by simp) h
  show number? afterOperand ('.' :: cs) = none
  rw [number?_of_head (by simp)]
  simp [unsigned?, hwhole, fractionLength, hfraction]

theorem Strays.length?_eq_none {c : Char} {cs : List Char} (h : Strays c cs) (afterOperand : Bool)
    (k : Kind) : k.length? afterOperand (c :: cs) = none := by
  cases h with
  | ampersand single =>
    exact length?_eq_none_of_only .operator (by decide) (operator_length?_eq_none single _) k
  | point bare =>
    exact length?_eq_none_of_only .number (by decide) (number_length?_eq_none bare _) k
  | foreign blank word mark =>
    refine Token.length?_eq_none ?_ afterOperand cs
    rw [Bool.eq_false_iff]
    intro hopens
    obtain ⟨-, hdigit⟩ | ⟨-, hstart⟩ := opens_cases blank mark hopens
    · rw [isWordChar_of_isDigit hdigit] at word
      cases word
    · rw [isWordChar_of_isWordStart hstart] at word
      cases word

/-- No lexeme begins with a stray character, and one begins with any other. -/
theorem lexeme?_eq_none_iff {afterOperand : Bool} {c : Char} {cs : List Char} :
    lexeme? afterOperand (c :: cs) = none ↔ Strays c cs := by
  rw [lexeme?_eq_none_iff_forall]
  exact ⟨strays_of_none, fun h => h.length?_eq_none afterOperand⟩

/-! ## Texts that are cut off -/

/-- The lexer passes a text whatever part of the rest follows it. -/
theorem Passes.cutOff {afterOperand operand : Bool} {w text rest : List Char}
    (h : Passes afterOperand w (text ++ rest) operand) : Passes afterOperand w text operand := by
  generalize hbehind : text ++ rest = behind at h
  induction h with
  | nil => exact .nil
  | @cons _ _ k v w _ lexeme _ ih =>
    rw [← hbehind, ← List.append_assoc w] at lexeme
    exact .cons (lexeme?_cutOff lexeme) (ih hbehind)

theorem Passes.exists_ok {afterOperand operand : Bool} {w : List Char}
    (h : Passes afterOperand w [] operand) (p : Position) :
    ∃ ts, lexFrom afterOperand p w = .ok ts := by
  cases hlex : lexFrom afterOperand p w with
  | ok ts => exact ⟨ts, rfl⟩
  | error e =>
    rw [← List.append_nil w, h.lexFrom_eq_error_iff, lexFrom_nil] at hlex
    cases hlex

/-- A beginning of a text with more bytes than what stands before a character goes
on with the character. -/
theorem exists_of_longer {cut tail before after : String} {c : Char}
    (h : cut ++ tail = before ++ String.singleton c ++ after)
    (hlonger : before.utf8ByteSize < cut.utf8ByteSize) :
    ∃ text, cut.toList = before.toList ++ c :: text ∧ after.toList = text ++ tail.toList := by
  have hlists := congrArg String.toList h
  simp only [String.toList_append, String.toList_singleton, List.append_assoc,
    List.singleton_append] at hlists
  obtain ⟨v, hbefore, -⟩ | ⟨v, hcut, hbehind⟩ := List.append_eq_append_iff.1 hlists
  · have heq : before = cut ++ String.ofList v := String.toList_injective (by simp [hbefore])
    rw [heq, String.utf8ByteSize_append] at hlonger
    omega
  · cases v with
    | nil =>
      rw [List.append_nil] at hcut
      rw [String.toList_injective hcut] at hlonger
      omega
    | cons d v =>
      obtain ⟨rfl, hafter⟩ := List.cons.inj hbehind
      exact ⟨v, hcut, hafter⟩

end Token

open Token

/-- A lexical error marks a boundary. The text before it is lexed by itself, the character there is
stray, and every beginning of the source that goes beyond it fails with the same error. -/
theorem lex_error_boundary {source : String} {e : LexicalError} (h : lex source = .error e) :
    ∃ before after, source = before ++ String.singleton e.character ++ after ∧
      before.utf8ByteSize = e.position.offset ∧ (∃ ts, lex before = .ok ts) ∧
        Strays e.character after.toList ∧
      ∀ cut tail, source = cut ++ tail → e.position.offset < cut.utf8ByteSize →
        lex cut = .error e := by
  obtain ⟨w, rest, operand, hlist, hposition, hpasses, hnone⟩ := lexFrom_eq_error h
  have hsource : source = String.ofList w ++ String.singleton e.character ++ String.ofList rest :=
    String.toList_injective (by simp [hlist])
  have hoffset : (String.ofList w).utf8ByteSize = e.position.offset := by
    rw [hposition, Position.offset_advance, Nat.zero_add]
  have hstrays : Strays e.character rest := lexeme?_eq_none_iff.1 hnone
  refine ⟨String.ofList w, String.ofList rest, hsource, hoffset, ?_,
    by rwa [String.toList_ofList], ?_⟩
  · have hwhole : Passes false w [] operand := Passes.cutOff (by rwa [List.nil_append])
    rw [lex, String.toList_ofList]
    exact hwhole.exists_ok {}
  · intro cut tail hcut hlonger
    rw [← hoffset] at hlonger
    obtain ⟨text, hcut, hrest⟩ := exists_of_longer (hcut.symm.trans hsource) hlonger
    rw [String.toList_ofList] at hcut hrest
    rw [hrest] at hstrays hpasses
    have hshort : Passes false w (e.character :: text) operand :=
      Passes.cutOff (by rwa [List.cons_append])
    rw [lex, hcut, hshort.lexFrom_eq_error_iff,
      lexFrom_of_none (lexeme?_eq_none_iff.2 hstrays.cutOff), ← hposition]

/-- A source with a point that no digit follows, behind a number that could have
gone on with an exponent. -/
def pointSource : String := "x=-1e+.;"

theorem lex_error_boundary_point :
    lex pointSource = .error ⟨'.', ⟨6, 0, 6⟩⟩ ∧
      (∃ before after, pointSource = before ++ "." ++ after ∧
      before.utf8ByteSize = 6 ∧ (∃ ts, lex before = .ok ts) ∧ Strays '.' after.toList) ∧
      lex "x=-1e+." = .error ⟨'.', ⟨6, 0, 6⟩⟩ := by
  have hpoint : lex pointSource = .error ⟨'.', ⟨6, 0, 6⟩⟩ := by decide +kernel
  obtain ⟨before, after, hsource, hoffset, hlexed, hstrays, hcut⟩ := lex_error_boundary hpoint
  exact ⟨hpoint, ⟨before, after, hsource, hoffset, hlexed, hstrays⟩,
    hcut "x=-1e+." ";" rfl (by decide)⟩

end Quadcode
