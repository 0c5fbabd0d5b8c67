import Mathlib.Computability.RegularExpressions
import Mathlib.Order.Bounds.Basic
import Quadcode.Proofs.Token.Locality

/-!
# Longest lexemes

A number is the longest beginning of a text that the pattern of numbers matches
(`Token.number_is_longest`). The pattern is the regular expression `Token.Pattern.number`, and its
language is the class of numbers (`Token.Pattern.mem_number`).

Between the classes, the first one that has a lexeme wins. No later class has a longer lexeme at the
same place (`Token.first_is_longest`): only a few classes have lexemes that begin with the same
character (`Token.rivals`), and the one that is tried first then has the longer lexeme, but for
keywords, which are words as well.

Lengths count characters. Of two pieces at the head of a text, the one with more
characters has more bytes.
-/

namespace Quadcode.Token

/-! ## The longest text of a class -/

section Local

variable {length? : List Char → Option Nat} {P : List Char → Prop}

/-- A measure finds a piece at the head of a text that is not shorter than any
text it finds as a whole. -/
theorem Local.exists_le (hlocal : Local length?) (hwhole : ∀ w, P w → length? w = some w.length)
    {cs : List Char} {m : Nat} (h : Begins P cs m) : ∃ n, length? cs = some n ∧ m ≤ n := by
  obtain ⟨w, rest, rfl, rfl, hw⟩ := h
  by_contra hshort
  simp only [not_exists, not_and, Nat.not_le] at hshort
  -- all that is found would be shorter than `w`, so it would be found in `w` alone as well
  have htake := hlocal (w ++ rest) w.length fun n hn => Nat.le_of_lt (hshort n hn)
  rw [List.take_left, hwhole w hw] at htake
  exact Nat.lt_irrefl _ (hshort w.length htake.symm)

theorem Local.eq_some_iff (hlocal : Local length?)
    (hbegins : ∀ cs n, length? cs = some n → Begins P cs n)
    (hwhole : ∀ w, P w → length? w = some w.length) {cs : List Char} {n : Nat} :
    length? cs = some n ↔ IsGreatest {m | Begins P cs m} n := by
  constructor
  · intro h
    refine ⟨hbegins cs n h, fun m hm => ?_⟩
    obtain ⟨n', hn', hle⟩ := hlocal.exists_le hwhole hm
    rw [h] at hn'
    exact Option.some.inj hn' ▸ hle
  · rintro ⟨hmem, hupper⟩
    obtain ⟨n', hn', hle⟩ := hlocal.exists_le hwhole hmem
    have hle' : n' ≤ n := hupper (hbegins cs n' hn')
    rw [hn', Nat.le_antisymm hle' hle]

theorem Local.eq_none_iff (hlocal : Local length?)
    (hbegins : ∀ cs n, length? cs = some n → Begins P cs n)
    (hwhole : ∀ w, P w → length? w = some w.length) {cs : List Char} :
    length? cs = none ↔ ∀ m, ¬ Begins P cs m := by
  constructor
  · intro h m hm
    obtain ⟨n, hn, -⟩ := hlocal.exists_le hwhole hm
    rw [h] at hn
    cases hn
  · intro h
    rw [Option.eq_none_iff_forall_ne_some]
    exact fun n hn => h n (hbegins cs n hn)

end Local

/-! ## The pattern of numbers -/

namespace Pattern

open RegularExpression

/-- One of the characters. -/
def oneOf (cs : List Char) : RegularExpression Char :=
  (cs.map char).sum

/-- The pattern, or nothing. -/
def optional (P : RegularExpression Char) : RegularExpression Char :=
  1 + P

/-- A digit, `[0-9]`. -/
def digit : RegularExpression Char :=
  oneOf ['0', '1', '2', '3', '4', '5', '6', '7', '8', '9']

/-- Digits, `[0-9]+`. -/
def digits : RegularExpression Char :=
  digit * star digit

/-- Digits with or without a fraction, or a fraction alone, `[0-9]+(\.[0-9]+)?|\.[0-9]+`. -/
def mantissa : RegularExpression Char :=
  digits * optional (char '.' * digits) + char '.' * digits

/-- A mark and digits, perhaps with a sign between them, `[eE][+-]?[0-9]+`. -/
def exponent : RegularExpression Char :=
  oneOf ['e', 'E'] * optional (oneOf ['+', '-']) * digits

/-- Numbers, `-?([0-9]+(\.[0-9]+)?|\.[0-9]+)([eE][+-]?[0-9]+)?`. -/
def number : RegularExpression Char :=
  optional (char '-') * mantissa * optional exponent

theorem mem_oneOf {cs w : List Char} : w ∈ (oneOf cs).matches' ↔ ∃ c ∈ cs, w = [c] := by
  induction cs with
  | nil =>
    simp only [List.not_mem_nil, false_and, exists_false, iff_false]
    exact id
  | cons c cs ih =>
    have hsum : (oneOf (c :: cs)).matches' = {[c]} + (oneOf cs).matches' := rfl
    rw [hsum, Language.mem_add, ih, List.exists_mem_cons_iff]
    rfl

theorem mem_optional {P : RegularExpression Char} {w : List Char} :
    w ∈ (optional P).matches' ↔ w = [] ∨ w ∈ P.matches' :=
  Iff.rfl

theorem mem_digit {w : List Char} : w ∈ digit.matches' ↔ ∃ c : Char, c.isDigit ∧ w = [c] := by
  rw [digit, mem_oneOf]
  constructor
  · rintro ⟨c, hc, rfl⟩
    have hall : ['0', '1', '2', '3', '4', '5', '6', '7', '8', '9'].all Char.isDigit := rfl
    exact ⟨c, List.all_eq_true.1 hall c hc, rfl⟩
  · rintro ⟨c, hc, rfl⟩
    have hcodes : ∀ n, n < 58 → 48 ≤ n →
        Char.ofNat n ∈ ['0', '1', '2', '3', '4', '5', '6', '7', '8', '9'] := by decide
    obtain ⟨hlow, hhigh⟩ := Char.isDigit_iff_toNat.1 hc
    have hmem := hcodes c.toNat (Nat.lt_succ_of_le hhigh) hlow
    rw [Char.ofNat_toNat] at hmem
    exact ⟨c, hmem, rfl⟩

theorem mem_digits {w : List Char} : w ∈ digits.matches' ↔ Digits w := by
  constructor
  · rintro ⟨first, hfirst, others, ⟨pieces, rfl, hpieces⟩, rfl⟩
    obtain ⟨c, hc, rfl⟩ := mem_digit.1 hfirst
    refine ⟨by simp, List.forall_mem_cons.2 ⟨hc, fun d hd => ?_⟩⟩
    obtain ⟨piece, hpiece, hd⟩ := List.mem_flatten.1 hd
    obtain ⟨c, hc, rfl⟩ := mem_digit.1 (hpieces piece hpiece)
    rwa [List.mem_singleton.1 hd]
  · rintro ⟨hne, hdigits⟩
    obtain ⟨c, ds, rfl⟩ := List.exists_cons_of_ne_nil hne
    rw [List.forall_mem_cons] at hdigits
    refine ⟨[c], mem_digit.2 ⟨c, hdigits.1, rfl⟩, ds, ⟨ds.map fun d => [d], ?_, ?_⟩, rfl⟩
    · rw [← List.flatMap_def, List.flatMap_singleton']
    · intro piece hpiece
      obtain ⟨d, hd, rfl⟩ := List.mem_map.1 hpiece
      exact mem_digit.2 ⟨d, hdigits.2 d hd, rfl⟩

theorem mem_fraction {w : List Char} :
    w ∈ (char '.' * digits).matches' ↔ ∃ fs, Digits fs ∧ w = '.' :: fs := by
  constructor
  · rintro ⟨_, rfl, fs, hfs, rfl⟩
    exact ⟨fs, mem_digits.1 hfs, rfl⟩
  · rintro ⟨fs, hfs, rfl⟩
    exact ⟨['.'], rfl, fs, mem_digits.2 hfs, rfl⟩

theorem mem_mantissa {w : List Char} : w ∈ mantissa.matches' ↔ Mantissa w := by
  constructor
  · rintro (⟨ds, hds, tail, htail, rfl⟩ | hw)
    · have hds := mem_digits.1 hds
      obtain rfl | hfraction := mem_optional.1 htail
      · simpa using Mantissa.whole hds
      · obtain ⟨fs, hfs, rfl⟩ := mem_fraction.1 hfraction
        exact .mixed hds hfs
    · obtain ⟨fs, hfs, rfl⟩ := mem_fraction.1 hw
      exact .fraction hfs
  · intro h
    cases h with
    | whole hds => exact .inl ⟨w, mem_digits.2 hds, [], .inl rfl, by simp⟩
    | mixed hds hfs => exact .inl ⟨_, mem_digits.2 hds, _, .inr (mem_fraction.2 ⟨_, hfs, rfl⟩), rfl⟩
    | fraction hfs => exact .inr (mem_fraction.2 ⟨_, hfs, rfl⟩)

theorem mem_exponent {w : List Char} : w ∈ (optional exponent).matches' ↔ Exponent w := by
  constructor
  · rintro (rfl | ⟨_, ⟨m, hm, s, hs, rfl⟩, ds, hds, rfl⟩)
    · exact .nil
    · have hds := mem_digits.1 hds
      obtain ⟨mark, hmark, rfl⟩ := mem_oneOf.1 hm
      have hmark : mark = 'e' ∨ mark = 'E' := by simpa using hmark
      obtain rfl | hs := mem_optional.1 hs
      · exact .unsigned hmark hds
      · obtain ⟨sign, hsign, rfl⟩ := mem_oneOf.1 hs
        exact .signed hmark (by simpa using hsign) hds
  · intro h
    cases h with
    | nil => exact .inl rfl
    | @unsigned mark ds marks digits =>
      have hmark : [mark] ∈ (oneOf ['e', 'E']).matches' :=
        mem_oneOf.2 ⟨mark, by simpa using marks, rfl⟩
      exact .inr ⟨[mark], ⟨[mark], hmark, [], .inl rfl, rfl⟩, ds, mem_digits.2 digits, rfl⟩
    | @signed mark sign ds marks signs digits =>
      have hmark : [mark] ∈ (oneOf ['e', 'E']).matches' :=
        mem_oneOf.2 ⟨mark, by simpa using marks, rfl⟩
      have hsign : [sign] ∈ (oneOf ['+', '-']).matches' :=
        mem_oneOf.2 ⟨sign, by simpa using signs, rfl⟩
      exact .inr ⟨[mark, sign], ⟨[mark], hmark, [sign], .inr hsign, rfl⟩, ds,
        mem_digits.2 digits, rfl⟩

/-- The pattern matches the texts of the class of numbers. -/
theorem mem_number {w : List Char} : w ∈ number.matches' ↔ Kind.number.Spells false w := by
  constructor
  · rintro ⟨_, ⟨sign, hsign, ms, hms, rfl⟩, es, hes, rfl⟩
    have hunsigned : Unsigned (ms ++ es) := .intro (mem_mantissa.1 hms) (mem_exponent.1 hes)
    obtain rfl | hsign := mem_optional.1 hsign
    · exact .inl hunsigned
    · obtain rfl : sign = ['-'] := hsign
      exact .inr ⟨rfl, ms ++ es, hunsigned, rfl⟩
  · rintro (⟨mantissa, exponent⟩ | ⟨-, _, ⟨mantissa, exponent⟩, rfl⟩)
    · exact ⟨_, ⟨[], .inl rfl, _, mem_mantissa.2 mantissa, rfl⟩, _, mem_exponent.2 exponent, rfl⟩
    · exact ⟨_, ⟨['-'], .inr rfl, _, mem_mantissa.2 mantissa, rfl⟩, _, mem_exponent.2 exponent, rfl⟩

end Pattern

/-! ## The longest number -/

theorem number?_whole {afterOperand : Bool} {w : List Char}
    (h : Kind.number.Spells afterOperand w) : number? afterOperand w = some w.length := by
  have hends : Ends [] := by simp [Ends]
  have hlexeme := lexeme?_numeral h hends
  rw [List.append_nil] at hlexeme
  exact (lexeme?_eq_some_iff.1 hlexeme).1

/-- A number at the head of a text is its longest beginning that the pattern matches, and there is
none only where no beginning is matched. Behind an operand there is none at a minus either. -/
theorem number_is_longest (afterOperand : Bool) (cs : List Char) :
    (∀ n, Kind.number.length? afterOperand cs = some n ↔
      ¬ (afterOperand = true ∧ cs.head? = some '-') ∧
        IsGreatest {m | Begins (· ∈ Pattern.number.matches') cs m} n) ∧
    (Kind.number.length? afterOperand cs = none ↔
      (afterOperand = true ∧ cs.head? = some '-') ∨
        ∀ m, ¬ Begins (· ∈ Pattern.number.matches') cs m) := by
  by_cases hminus : afterOperand = true ∧ cs.head? = some '-'
  · obtain ⟨rfl, hhead⟩ := hminus
    obtain ⟨cs, rfl⟩ := List.head?_eq_some_iff.1 hhead
    simp [Kind.length?, number?]
  · have hfree : Kind.number.length? afterOperand cs = number? false cs := by
      cases afterOperand with
      | false => rfl
      | true =>
        have hhead : cs.head? ≠ some '-' := fun hhead => hminus ⟨rfl, hhead⟩
        show number? true cs = number? false cs
        rw [number?_of_head hhead, number?_of_head hhead]
    simp only [hfree, hminus, not_false_eq_true, true_and, false_or, Pattern.mem_number]
    have hbegins (ds : List Char) (n : Nat) : number? false ds = some n →
        Begins (Kind.number.Spells false) ds n :=
      begins_number
    have hwhole (w : List Char) : Kind.number.Spells false w → number? false w = some w.length :=
      number?_whole
    exact ⟨fun n => (local_number false).eq_some_iff hbegins hwhole,
      (local_number false).eq_none_iff hbegins hwhole⟩

example : Kind.number.length? false "-.5e+x".toList = some 3 := by decide

/-! ## Classes that begin with the same character -/

/-- The characters other than blanks, letters, digits and underscores with which lexemes begin. -/
def marks : List Char :=
  ['+', '-', '*', '/', '=', '>', '<', '(', ')', '\x7b', '\x7d', ';', '&', '.']

/-- Apart from blanks and marks, only numbers and words begin: with a digit, and with a
letter or an underscore. -/
theorem opens_cases {c : Char} (hblank : isBlank c = false) (hmark : c ∉ marks) {k : Kind}
    (h : k.opens c) :
    (k = .number ∧ c.isDigit) ∨ ((k = .keyword ∨ k = .identifier) ∧ isWordStart c) := by
  simp only [marks, List.mem_cons, List.not_mem_nil, or_false, not_or] at hmark
  cases k with
  | number =>
    left
    simpa [Kind.opens, hmark] using h
  | keyword => exact .inr ⟨.inl rfl, h⟩
  | identifier => exact .inr ⟨.inr rfl, h⟩
  | comment | whitespace | operator | assignment | bracket | separator =>
    simp [Kind.opens, hblank, hmark] at h

/-- Two classes, the earlier one first, and a character with which lexemes of both begin. Keywords
and identifiers, which begin with the same letters, are left out. -/
def rivals : List (Kind × Kind × Char) :=
  [(.comment, .operator, '/'), (.number, .operator, '-'), (.operator, .assignment, '=')]

theorem mem_rivals_of_opens {j k : Kind} {c : Char} (hearlier : j ∈ k.earlier) (hj : j.opens c)
    (hk : k.opens c) : (j = .keyword ∧ k = .identifier) ∨ (j, k, c) ∈ rivals := by
  by_cases hknown : c ∈ [' ', '\t', '\r', '\n', '\x0c'] ++ marks
  · have hall : ∀ c ∈ [' ', '\t', '\r', '\n', '\x0c'] ++ marks, ∀ k ∈ Kind.all, ∀ j ∈ k.earlier,
        j.opens c → k.opens c → (j, k, c) ∈ rivals := by decide +kernel
    exact .inr (hall c hknown k k.mem_all j hearlier hj hk)
  · rw [List.mem_append, not_or] at hknown
    have hblank : isBlank c = false := by
      rw [Bool.eq_false_iff]
      exact fun h => hknown.1 (List.contains_iff_mem.1 h)
    obtain ⟨rfl, hdigit⟩ | ⟨hjword, hstart⟩ := opens_cases hblank hknown.2 hj <;>
      obtain ⟨rfl, hdigit'⟩ | ⟨hkword, hstart'⟩ := opens_cases hblank hknown.2 hk
    · exact absurd hearlier (by decide)
    · rw [isDigit_of_isWordStart hstart'] at hdigit
      cases hdigit
    · rw [isDigit_of_isWordStart hstart] at hdigit'
      cases hdigit'
    · left
      obtain rfl | rfl := hjword <;> obtain rfl | rfl := hkword <;> revert hearlier <;> decide

theorem mem_earlier_or_mem_earlier {j k : Kind} (h : j ≠ k) : j ∈ k.earlier ∨ k ∈ j.earlier := by
  have hall : ∀ j ∈ Kind.all, ∀ k ∈ Kind.all, j ≠ k → j ∈ k.earlier ∨ k ∈ j.earlier := by decide
  exact hall j j.mem_all k k.mem_all h

theorem opens_of_length? {afterOperand : Bool} {c : Char} {cs : List Char} {k : Kind} {n : Nat}
    (h : k.length? afterOperand (c :: cs) = some n) : k.opens c := by
  by_contra hopens
  rw [length?_eq_none (Bool.eq_false_iff.2 hopens)] at h
  cases h

/-- Of two rivals the later one has the character alone, and the lexeme of the earlier
one goes on behind it. -/
theorem lt_of_mem_rivals {afterOperand : Bool} {c : Char} {cs : List Char} {j k : Kind} {m n : Nat}
    (hrivals : (k, j, c) ∈ rivals) (h : lexeme? afterOperand (c :: cs) = some (k, n))
    (hm : j.length? afterOperand (c :: cs) = some m) : m < n := by
  have hn := (lexeme?_eq_some_iff.1 h).1
  simp only [rivals, List.mem_cons, List.not_mem_nil, or_false, Prod.mk.injEq] at hrivals
  obtain ⟨rfl, rfl, rfl⟩ | ⟨rfl, rfl, rfl⟩ | ⟨rfl, rfl, rfl⟩ := hrivals
  · obtain rfl : 1 = m := Option.some.inj hm
    obtain ⟨body, rest, -, rfl, -⟩ := begins_comment hn
    omega
  · obtain rfl : 1 = m := Option.some.inj hm
    simp only [Kind.length?, number?, Option.ite_none_left_eq_some, Option.map_eq_some_iff] at hn
    obtain ⟨-, i, hi, rfl⟩ := hn
    have hpos := unsigned?_pos hi
    omega
  · obtain rfl : 1 = m := Option.some.inj hm
    by_cases hequals : cs.head? = some '='
    · obtain ⟨cs, rfl⟩ := List.head?_eq_some_iff.1 hequals
      obtain rfl : 2 = n := Option.some.inj hn
      omega
    · rw [lexeme?_equals afterOperand hequals] at h
      cases h

/-- Where the first class has a lexeme, any other class has a shorter one. Only an identifier
is as long as a keyword. -/
theorem length?_lt_of_lexeme? {afterOperand : Bool} {cs : List Char} {j k : Kind} {m n : Nat}
    (h : lexeme? afterOperand cs = some (k, n)) (hm : j.length? afterOperand cs = some m)
    (hne : j ≠ k) : m < n ∨ m = n ∧ k = .keyword ∧ j = .identifier := by
  obtain ⟨hn, hearlier⟩ := lexeme?_eq_some_iff.1 h
  have hlater : k ∈ j.earlier := by
    refine (mem_earlier_or_mem_earlier hne).resolve_left fun hj => ?_
    rw [hearlier j hj] at hm
    cases hm
  cases cs with
  | nil => cases h
  | cons c cs =>
    obtain ⟨rfl, rfl⟩ | hrivals :=
      mem_rivals_of_opens hlater (opens_of_length? hn) (opens_of_length? hm)
    · have hword : identifier? (c :: cs) = some n := identifier?_of_keyword hn
      exact .inr ⟨Option.some.inj (hm.symm.trans hword), rfl, rfl⟩
    · exact .inl (lt_of_mem_rivals hrivals h hm)

theorem lexeme?_eq_keyword_iff {afterOperand : Bool} {cs : List Char} {n : Nat} :
    lexeme? afterOperand cs = some (.keyword, n) ↔
      ∃ s ∈ keywords, cs.takeWhile isWordChar = s.toList ∧ n = s.toList.length := by
  obtain ⟨w, rest, rfl, -, hw, hrest⟩ := exists_run isWordChar cs
  rw [takeWhile_append_eq hw hrest]
  constructor
  · intro h
    obtain ⟨rfl, s, hs, rfl⟩ := (keyword?_append_iff hw hrest).1 (lexeme?_eq_some_iff.1 h).1
    exact ⟨s, hs, rfl, rfl⟩
  · rintro ⟨s, hs, rfl, rfl⟩
    exact lexeme?_keyword afterOperand hs hrest

/-- The first class that has a lexeme has the longest one. Another class has one of the same
length only at a keyword, which is found as an identifier as well. So a word is a keyword
exactly if all of it is. -/
theorem first_is_longest (afterOperand : Bool) (cs : List Char) :
    (∀ k n, lexeme? afterOperand cs = some (k, n) →
      0 < n ∧ ∀ j m, j ≠ k → j.length? afterOperand cs = some m →
        m ≤ n ∧ (m = n → k = .keyword ∧ j = .identifier)) ∧
    ∀ n, lexeme? afterOperand cs = some (.keyword, n) ↔
      ∃ s ∈ keywords, cs.takeWhile isWordChar = s.toList ∧ n = s.toList.length := by
  refine ⟨fun k n h => ⟨lexeme?_pos h, fun j m hne hm => ?_⟩, fun n => lexeme?_eq_keyword_iff⟩
  obtain hlt | ⟨rfl, hkinds⟩ := length?_lt_of_lexeme? h hm hne
  · exact ⟨Nat.le_of_lt hlt, fun heq => absurd heq (Nat.ne_of_lt hlt)⟩
  · exact ⟨Nat.le_refl m, fun _ => hkinds⟩

theorem first_is_longest_loop :
    lexeme? true "for(".toList = some (.keyword, 3) ∧
      (∀ (j : Kind) (m : Nat), j ≠ .keyword → j.length? true "for(".toList = some m →
        m ≤ 3 ∧ (m = 3 → j = .identifier)) ∧
      ∀ n, lexeme? true "format".toList ≠ some (.keyword, n) := by
  have hloop : lexeme? true "for(".toList = some (.keyword, 3) := by decide
  refine ⟨hloop, fun j m hne hm => ?_, fun n hn => ?_⟩
  · obtain ⟨hle, heq⟩ := ((first_is_longest true _).1 _ _ hloop).2 j m hne hm
    exact ⟨hle, fun h => (heq h).2⟩
  · obtain ⟨s, hs, hword, -⟩ := ((first_is_longest true _).2 n).1 hn
    revert s
    decide

end Quadcode.Token
