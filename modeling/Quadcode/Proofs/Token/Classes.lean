import Mathlib.Data.List.Basic
import Quadcode.Token.Lexeme

/-!
# The classes of lexemes

`Token.Kind.Spells` says which texts belong to which class, without any measuring of a longer text.
The lexeme that is found at the head of a text belongs to its class (`Token.lexeme?_spells`), and a
text of a class is found as a whole wherever nothing behind it can belong to it
(`Token.lexeme?_append`).
-/

namespace Quadcode.Token

/-! ## Which texts belong to a class -/

/-- Digits, one at least. -/
def Digits (cs : List Char) : Prop :=
  cs ≠ [] ∧ ∀ c ∈ cs, c.isDigit

/-- Digits, digits with a fraction, or a fraction alone. -/
inductive Mantissa : List Char → Prop
  | whole {ds : List Char} (digits : Digits ds) : Mantissa ds
  | mixed {ds fs : List Char} (digits : Digits ds) (fraction : Digits fs) :
      Mantissa (ds ++ '.' :: fs)
  | fraction {fs : List Char} (fraction : Digits fs) : Mantissa ('.' :: fs)

/-- Nothing, or a mark and digits, perhaps with a sign between them. -/
inductive Exponent : List Char → Prop
  | nil : Exponent []
  | unsigned {mark : Char} {ds : List Char} (marks : mark = 'e' ∨ mark = 'E') (digits : Digits ds) :
      Exponent (mark :: ds)
  | signed {mark sign : Char} {ds : List Char} (marks : mark = 'e' ∨ mark = 'E')
      (signs : sign = '+' ∨ sign = '-') (digits : Digits ds) : Exponent (mark :: sign :: ds)

/-- A number without a sign. -/
inductive Unsigned : List Char → Prop
  | intro {ms es : List Char} (mantissa : Mantissa ms) (exponent : Exponent es) :
      Unsigned (ms ++ es)

/-- A letter or an underscore, and then letters, digits and underscores. -/
inductive Word : List Char → Prop
  | intro {c : Char} {cs : List Char} (first : isWordStart c) (others : ∀ d ∈ cs, isWordChar d) :
      Word (c :: cs)

/-- The text belongs to the class. Behind an operand no number has a sign. -/
def Kind.Spells (afterOperand : Bool) (cs : List Char) : Kind → Prop
  | .comment => ∃ body, '\n' ∉ body ∧ cs = '/' :: '/' :: body
  | .whitespace => cs ≠ [] ∧ ∀ c ∈ cs, isBlank c
  | .number => Unsigned cs ∨ afterOperand = false ∧ ∃ ds, Unsigned ds ∧ cs = '-' :: ds
  | .keyword => ∃ w ∈ keywords, cs = w.toList
  | .operator => ∃ op : Operator, cs = op.symbol.toList
  | .identifier => Word cs ∧ ∀ w ∈ keywords, cs ≠ w.toList
  | .assignment => cs = ['=']
  | .bracket => ∃ w ∈ brackets, cs = w.toList
  | .separator => cs = [';']

/-- A lexeme can go on with this character. -/
def joins (c : Char) : Bool :=
  isWordChar c || ['.', '/', '='].contains c

/-- No lexeme goes on into the text. -/
def Ends (cs : List Char) : Prop :=
  ∀ c, cs.head? = some c → joins c = false

/-! ## Characters -/

theorem ne_of_eq_false {p : Char → Bool} {c d : Char} (hc : p c) (hd : p d = false) : c ≠ d := by
  rintro rfl
  rw [hd] at hc
  cases hc

theorem eq_false_of_isBlank {p : Char → Bool}
    (hp : [' ', '\t', '\r', '\n', '\x0c'].any p = false) {c : Char} (h : isBlank c) : p c = false :=
  Bool.eq_false_iff.2 (List.any_eq_false.1 hp c (List.contains_iff_mem.1 h))

theorem isBlank_eq_false {p : Char → Bool} (hp : [' ', '\t', '\r', '\n', '\x0c'].any p = false)
    {c : Char} (hc : p c) : isBlank c = false := by
  rw [Bool.eq_false_iff]
  intro hb
  rw [eq_false_of_isBlank hp hb] at hc
  cases hc

theorem isDigit_of_isWordStart {c : Char} (h : isWordStart c) : c.isDigit = false := by
  rw [Bool.eq_false_iff]
  intro hd
  have hdigit : c.toNat ≤ '9'.toNat := (Char.isDigit_iff_toNat.1 hd).2
  rw [isWordStart, Bool.or_eq_true] at h
  obtain hletter | hunderscore := h
  · obtain hupper | hlower := (Bool.or_eq_true _ _).mp hletter
    · have hcode : 'A'.toNat ≤ c.toNat := (of_decide_eq_true hupper).1
      exact absurd (Nat.le_trans hcode hdigit) (by decide)
    · have hcode : 'a'.toNat ≤ c.toNat := of_decide_eq_true ((Bool.and_eq_true _ _).mp hlower).1
      exact absurd (Nat.le_trans hcode hdigit) (by decide)
  · obtain rfl := eq_of_beq hunderscore
    exact absurd hdigit (by decide)

theorem isWordChar_of_isWordStart {c : Char} (h : isWordStart c) : isWordChar c := by
  simp only [isWordStart, isWordChar, Char.isAlphanum, Bool.or_eq_true] at h ⊢
  exact h.imp_left .inl

theorem isWordChar_of_isDigit {c : Char} (h : c.isDigit) : isWordChar c := by
  simp [isWordChar, Char.isAlphanum, h]

theorem isDigit_of_isWordChar {c : Char} (h : isWordChar c = false) : c.isDigit = false := by
  rw [Bool.eq_false_iff] at h ⊢
  exact fun hd => h (isWordChar_of_isDigit hd)

theorem Ends.isWordChar {cs : List Char} (h : Ends cs) (c : Char) (hc : cs.head? = some c) :
    isWordChar c = false :=
  (Bool.or_eq_false_iff.1 (h c hc)).1

theorem Ends.isDigit {cs : List Char} (h : Ends cs) (c : Char) (hc : cs.head? = some c) :
    c.isDigit = false :=
  isDigit_of_isWordChar (h.isWordChar c hc)

theorem Ends.ne {cs : List Char} (h : Ends cs) {d : Char} (hd : joins d) : cs.head? ≠ some d := by
  intro hc
  rw [h d hc] at hd
  cases hd

/-! ## Runs -/

/-- The first `n` characters of the text are a text with the property `P`. -/
def Begins (P : List Char → Prop) (cs : List Char) (n : Nat) : Prop :=
  ∃ w rest, cs = w ++ rest ∧ n = w.length ∧ P w

theorem takeWhile_append_eq {p : Char → Bool} {w rest : List Char} (hw : ∀ c ∈ w, p c)
    (hr : ∀ c, rest.head? = some c → p c = false) : (w ++ rest).takeWhile p = w := by
  have hrest : rest.takeWhile p = [] := by
    cases rest with
    | nil => rfl
    | cons c cs => simp [hr c rfl]
  rw [List.takeWhile_append_of_pos hw, hrest, List.append_nil]

theorem run_append {p : Char → Bool} {w rest : List Char} (hw : ∀ c ∈ w, p c)
    (hr : ∀ c, rest.head? = some c → p c = false) : run p (w ++ rest) = w.length := by
  rw [run, takeWhile_append_eq hw hr]

theorem exists_run (p : Char → Bool) (cs : List Char) :
    ∃ w rest, cs = w ++ rest ∧ run p cs = w.length ∧ (∀ c ∈ w, p c) ∧
      ∀ c, rest.head? = some c → p c = false := by
  refine ⟨cs.takeWhile p, cs.dropWhile p, List.takeWhile_append_dropWhile.symm, rfl, ?_, ?_⟩
  · intro c hc
    exact List.all_eq_true.1 List.all_takeWhile c hc
  · intro c hc
    have := List.head?_dropWhile_not p cs
    simp_all

/-! ## Numbers -/

theorem begins_fraction (cs : List Char) :
    Begins (fun w => w = [] ∨ ∃ fs, Digits fs ∧ w = '.' :: fs) cs (fractionLength cs) := by
  unfold fractionLength
  split
  next cs =>
    obtain ⟨fs, rest, rfl, hrun, hfs, -⟩ := exists_run Char.isDigit cs
    rw [hrun]
    split
    · exact ⟨[], _, rfl, rfl, .inl rfl⟩
    next hne =>
      exact ⟨'.' :: fs, rest, rfl, Nat.add_comm ..,
        .inr ⟨fs, ⟨List.ne_nil_of_length_pos (by omega), hfs⟩, rfl⟩⟩
  next => exact ⟨[], cs, rfl, rfl, .inl rfl⟩

theorem begins_exponent (cs : List Char) : Begins Exponent cs (exponentLength cs) := by
  cases cs with
  | nil => exact ⟨[], [], rfl, rfl, .nil⟩
  | cons mark cs =>
    simp only [exponentLength]
    split
    next h =>
      obtain ⟨hmark, hdigits⟩ := h
      obtain ⟨ds, rest, hrest, hrun, hds, -⟩ := exists_run Char.isDigit (cs.drop (signLength cs))
      rw [hrun] at hdigits ⊢
      have hd : Digits ds := ⟨List.ne_nil_of_length_pos (by omega), hds⟩
      unfold signLength at hrest ⊢
      split at hrest
      next cs =>
        obtain rfl : cs = ds ++ rest := hrest
        exact ⟨mark :: '+' :: ds, rest, rfl, by simp; omega, .signed hmark (.inl rfl) hd⟩
      next cs =>
        obtain rfl : cs = ds ++ rest := hrest
        exact ⟨mark :: '-' :: ds, rest, rfl, by simp; omega, .signed hmark (.inr rfl) hd⟩
      next =>
        obtain rfl : cs = ds ++ rest := hrest
        exact ⟨mark :: ds, rest, rfl, by simp; omega, .unsigned hmark hd⟩
    next => exact ⟨[], _, rfl, rfl, .nil⟩

theorem begins_unsigned {cs : List Char} {n : Nat} (h : unsigned? cs = some n) :
    Begins Unsigned cs n := by
  obtain ⟨ds, rest₁, rfl, hrun, hds, -⟩ := exists_run Char.isDigit cs
  obtain ⟨fs, rest₂, rfl, hfraction, hfs⟩ := begins_fraction rest₁
  obtain ⟨es, rest₃, rfl, hexponent, hes⟩ := begins_exponent rest₂
  simp only [unsigned?, hrun, List.drop_left, hfraction] at h
  rw [← List.length_append, ← List.append_assoc, List.drop_left, hexponent] at h
  rw [← List.append_assoc, ← List.append_assoc]
  split at h
  · cases h
  next hne =>
    have hmantissa : Mantissa (ds ++ fs) := by
      obtain rfl | ⟨fs, hfs, rfl⟩ := hfs
      · rw [List.append_nil] at hne ⊢
        exact .whole ⟨fun he => hne (by rw [he]; rfl), hds⟩
      · by_cases he : ds = []
        · rw [he]
          exact .fraction hfs
        · exact .mixed ⟨he, hds⟩ hfs
    exact ⟨ds ++ fs ++ es, rest₃, rfl, by simp [← Option.some.inj h, Nat.add_assoc],
      .intro hmantissa hes⟩

theorem fractionLength_of_head {cs : List Char} (h : cs.head? ≠ some '.') :
    fractionLength cs = 0 := by
  unfold fractionLength
  split
  · exact absurd rfl h
  · rfl

theorem signLength_of_isDigit {cs : List Char} (h : ∀ c, cs.head? = some c → c.isDigit) :
    signLength cs = 0 := by
  unfold signLength
  split
  · exact absurd (h _ rfl) (by decide)
  · exact absurd (h _ rfl) (by decide)
  · rfl

theorem fractionLength_append {fs rest : List Char} (hf : Digits fs)
    (hr : ∀ c, rest.head? = some c → c.isDigit = false) :
    fractionLength ('.' :: fs ++ rest) = fs.length + 1 := by
  have hpos : fs.length ≠ 0 := fun h => hf.1 (List.eq_nil_of_length_eq_zero h)
  simp only [fractionLength, List.cons_append, run_append hf.2 hr, hpos, if_false]
  exact Nat.add_comm ..

/-- What follows a mantissa, an exponent or the text behind it, does not go on with it. -/
theorem Exponent.head {es rest : List Char} (he : Exponent es) (hr : Ends rest) (c : Char)
    (hc : (es ++ rest).head? = some c) : c.isDigit = false ∧ c ≠ '.' := by
  have hmark {mark : Char} (h : mark = 'e' ∨ mark = 'E') : mark.isDigit = false ∧ mark ≠ '.' := by
    obtain rfl | rfl := h <;> decide
  cases he with
  | nil => exact ⟨hr.isDigit c hc, fun h => hr.ne (by decide) (h ▸ hc)⟩
  | unsigned marks _ => exact Option.some.inj hc ▸ hmark marks
  | signed marks _ _ => exact Option.some.inj hc ▸ hmark marks

theorem exponentLength_append {es rest : List Char} (he : Exponent es) (hr : Ends rest) :
    exponentLength (es ++ rest) = es.length := by
  cases he with
  | nil =>
    cases rest with
    | nil => rfl
    | cons c cs =>
      have hc : ¬ (c = 'e' ∨ c = 'E') := by
        rintro (rfl | rfl)
        · exact hr.ne (d := 'e') (by decide) rfl
        · exact hr.ne (d := 'E') (by decide) rfl
      simp [exponentLength, hc]
  | @unsigned mark ds marks digits =>
    obtain ⟨hne, hds⟩ := digits
    have hsign : signLength (ds ++ rest) = 0 := by
      refine signLength_of_isDigit fun c hc => hds c ?_
      rw [List.head?_append_of_ne_nil _ hne] at hc
      exact List.mem_of_head? hc
    simp [exponentLength, hsign, run_append hds hr.isDigit, marks, hne, Nat.add_comm]
  | @signed mark sign ds marks signs digits =>
    have hsign : signLength (sign :: (ds ++ rest)) = 1 := by
      obtain rfl | rfl := signs <;> rfl
    simp [exponentLength, hsign, run_append digits.2 hr.isDigit, marks, digits.1]
    omega

theorem unsigned?_of_parts {ds fs rest : List Char} (hds : ∀ c ∈ ds, c.isDigit)
    (hfs : fs = [] ∨ ∃ gs, Digits gs ∧ fs = '.' :: gs)
    (hr : ∀ c, rest.head? = some c → c.isDigit = false ∧ c ≠ '.') (hne : ds ++ fs ≠ []) :
    unsigned? (ds ++ fs ++ rest) = some ((ds ++ fs).length + exponentLength rest) := by
  have hfraction : fractionLength (fs ++ rest) = fs.length := by
    obtain rfl | ⟨gs, hgs, rfl⟩ := hfs
    · exact fractionLength_of_head fun hc => (hr _ hc).2 rfl
    · exact fractionLength_append hgs fun c hc => (hr c hc).1
  have hrun : run Char.isDigit (ds ++ (fs ++ rest)) = ds.length := by
    refine run_append hds fun c hc => ?_
    obtain rfl | ⟨gs, hgs, rfl⟩ := hfs
    · exact (hr c hc).1
    · exact Option.some.inj hc ▸ rfl
  have hpos : (ds ++ fs).length ≠ 0 := fun h => hne (List.eq_nil_of_length_eq_zero h)
  rw [← List.append_assoc] at hrun
  simp only [unsigned?, hrun]
  rw [List.append_assoc, List.drop_left, hfraction, ← List.length_append, ← List.append_assoc,
    List.drop_left, if_neg hpos]

theorem unsigned?_append {w rest : List Char} (h : Unsigned w) (hr : Ends rest) :
    unsigned? (w ++ rest) = some w.length := by
  obtain ⟨mantissa, exponent⟩ := h
  rw [List.append_assoc, List.length_append, ← exponentLength_append exponent hr]
  cases mantissa with
  | @whole ds digits =>
    simpa using unsigned?_of_parts digits.2 (.inl rfl) (exponent.head hr) (by simpa using digits.1)
  | @mixed ds fs digits fraction =>
    exact unsigned?_of_parts digits.2 (.inr ⟨fs, fraction, rfl⟩) (exponent.head hr) (by simp)
  | @fraction fs fraction =>
    have hnil : ∀ c ∈ ([] : List Char), c.isDigit := by simp
    exact unsigned?_of_parts hnil (.inr ⟨fs, fraction, rfl⟩) (exponent.head hr) (by simp)

theorem Unsigned.exists_cons {w : List Char} (h : Unsigned w) :
    ∃ c cs, w = c :: cs ∧ (c.isDigit ∨ c = '.') := by
  obtain ⟨mantissa, exponent⟩ := h
  have hdigits {ds : List Char} (h : Digits ds) (rest : List Char) :
      ∃ c cs, ds ++ rest = c :: cs ∧ c.isDigit := by
    obtain ⟨hne, hds⟩ := h
    obtain ⟨c, cs, rfl⟩ := List.exists_cons_of_ne_nil hne
    exact ⟨c, cs ++ rest, rfl, hds c (.head _)⟩
  cases mantissa with
  | @whole ds digits =>
    obtain ⟨c, cs, heq, hc⟩ := hdigits digits _
    exact ⟨c, cs, heq, .inl hc⟩
  | @mixed ds fs digits fraction =>
    rw [List.append_assoc]
    obtain ⟨c, cs, heq, hc⟩ := hdigits digits _
    exact ⟨c, cs, heq, .inl hc⟩
  | @fraction fs fraction => exact ⟨'.', _, rfl, .inr rfl⟩

theorem unsigned?_eq_none {cs : List Char}
    (h : ∀ c, cs.head? = some c → c.isDigit = false ∧ c ≠ '.') : unsigned? cs = none := by
  have hrun : run Char.isDigit cs = 0 := run_append (w := []) (by simp) fun c hc => (h c hc).1
  have hfraction : fractionLength cs = 0 := fractionLength_of_head fun hc => (h _ hc).2 rfl
  simp [unsigned?, hrun, hfraction]

/-! ## Fixed words -/

theorem begins_spelled {words : List String} {cs : List Char} {n : Nat}
    (h : spelled? words cs = some n) : Begins (fun w => ∃ s ∈ words, w = s.toList) cs n := by
  obtain ⟨s, hs, rfl⟩ := Option.map_eq_some_iff.1 h
  have hp := List.find?_some hs
  obtain ⟨rest, rfl⟩ := List.isPrefixOf_iff_prefix.1 hp
  exact ⟨s.toList, rest, rfl, rfl, s, List.mem_of_find?_eq_some hs, rfl⟩

theorem spelled?_ne_none {words : List String} {s : String} (hs : s ∈ words) (rest : List Char) :
    spelled? words (s.toList ++ rest) ≠ none := by
  rw [spelled?, ne_eq, Option.map_eq_none_iff, List.find?_eq_none]
  intro hnone
  exact hnone s hs (List.isPrefixOf_iff_prefix.2 (List.prefix_append _ _))

/-- Of words that begin with different characters, only one can stand at the head of a text. -/
theorem spelled?_append {words : List String} (hne : "" ∉ words)
    (hheads : ∀ s ∈ words, ∀ t ∈ words, s.toList.head? = t.toList.head? → s = t) {s : String}
    (hs : s ∈ words) (rest : List Char) :
    spelled? words (s.toList ++ rest) = some s.toList.length := by
  have hnil {t : String} (ht : t ∈ words) : t.toList ≠ [] :=
    fun h => hne (String.toList_eq_nil_iff.1 h ▸ ht)
  obtain ⟨n, hn⟩ := Option.ne_none_iff_exists'.1 (spelled?_ne_none hs rest)
  obtain ⟨w, rest', heq, rfl, t, ht, rfl⟩ := begins_spelled hn
  have hhead := congrArg List.head? heq
  rw [List.head?_append_of_ne_nil _ (hnil hs), List.head?_append_of_ne_nil _ (hnil ht)] at hhead
  obtain rfl := hheads s hs t ht hhead
  exact hn

theorem spelled?_eq_none {words : List String} (p : Char → Bool)
    (hw : ∀ s ∈ words, s.toList.head?.any p) {c : Char} (hc : p c = false) (cs : List Char) :
    spelled? words (c :: cs) = none := by
  rw [spelled?, Option.map_eq_none_iff, List.find?_eq_none]
  intro s hs hp
  have hany := hw s hs
  obtain ⟨rest, hrest⟩ := List.isPrefixOf_iff_prefix.1 hp
  cases hlist : s.toList with
  | nil =>
    rw [hlist] at hany
    cases hany
  | cons d ds =>
    rw [hlist] at hrest hany
    obtain rfl : d = c := (List.cons.inj hrest).1
    rw [List.head?_cons, Option.any_some, hc] at hany
    cases hany

/-! ## Words -/

theorem Word.isWordChar {w : List Char} (h : Word w) : ∀ c ∈ w, isWordChar c := by
  obtain ⟨first, others⟩ := h
  exact List.forall_mem_cons.2 ⟨isWordChar_of_isWordStart first, others⟩

theorem begins_identifier {cs : List Char} {n : Nat} (h : identifier? cs = some n) :
    ∃ w rest, cs = w ++ rest ∧ n = w.length ∧ Word w ∧ ∀ c, rest.head? = some c →
      isWordChar c = false := by
  cases cs with
  | nil => cases h
  | cons c cs =>
    obtain ⟨w, rest, rfl, hrun, hw, hrest⟩ := exists_run Token.isWordChar cs
    simp only [identifier?, hrun, Option.ite_none_right_eq_some, Option.some.injEq] at h
    obtain ⟨hc, rfl⟩ := h
    exact ⟨c :: w, rest, rfl, Nat.add_comm .., ⟨hc, hw⟩, hrest⟩

theorem identifier?_append {w rest : List Char} (h : Word w)
    (hr : ∀ c, rest.head? = some c → isWordChar c = false) :
    identifier? (w ++ rest) = some w.length := by
  obtain ⟨first, others⟩ := h
  simp [identifier?, first, run_append others hr, Nat.add_comm]

theorem word_of_mem_keywords : ∀ s ∈ keywords, Word s.toList := by
  simp only [keywords, List.forall_mem_cons, List.not_mem_nil, false_implies,
    implies_true, and_true]
  have hword {c : Char} {cs : List Char} (first : isWordStart c) (others : cs.all isWordChar) :
      Word (c :: cs) :=
    .intro first (List.all_eq_true.1 others)
  exact ⟨hword rfl rfl, hword rfl rfl, hword rfl rfl, hword rfl rfl, hword rfl rfl⟩

/-- A keyword is found exactly where the run of word characters at the head of the text is one. -/
theorem keyword?_append_iff {w rest : List Char} (hw : ∀ c ∈ w, isWordChar c)
    (hr : ∀ c, rest.head? = some c → isWordChar c = false) {n : Nat} :
    keyword? (w ++ rest) = some n ↔ n = w.length ∧ ∃ s ∈ keywords, w = s.toList := by
  have hany {cs : List Char} :
      (!cs.head?.any isWordChar) = true ↔ ∀ c, cs.head? = some c → isWordChar c = false := by
    simp [Option.any_eq_false]
  rw [keyword?, Option.filter_eq_some_iff, hany]
  constructor
  · rintro ⟨hspelled, hnext⟩
    obtain ⟨v, rest', heq, rfl, s, hs, rfl⟩ := begins_spelled hspelled
    rw [heq, List.drop_left] at hnext
    have hlength := run_append (word_of_mem_keywords s hs).isWordChar hnext
    rw [← heq, run_append hw hr] at hlength
    exact ⟨hlength.symm, s, hs, (List.append_inj heq hlength).1⟩
  · rintro ⟨rfl, s, hs, rfl⟩
    rw [List.drop_left]
    exact ⟨spelled?_append (by decide) (by decide) hs rest, hr⟩

/-! ## The first class that has a lexeme -/

/-- The classes that are tried before a class. -/
def Kind.earlier (k : Kind) : List Kind :=
  Kind.all.takeWhile (· ≠ k)

theorem findSome?_length_eq_some_iff {kinds : List Kind} {length? : Kind → Option Nat}
    {k : Kind} {n : Nat} :
    (kinds.findSome? fun j => (length? j).map fun m => (j, m)) = some (k, n) ↔
      k ∈ kinds ∧ length? k = some n ∧ ∀ j ∈ kinds.takeWhile (· ≠ k), length? j = none := by
  induction kinds with
  | nil => simp
  | cons j kinds ih =>
    by_cases hj : j = k
    · subst hj
      cases h : length? j with
      | none => simp [h, ih]
      | some m => simp [h]
    · cases h : length? j with
      | none => simp [h, hj, Ne.symm hj, ih]
      | some m => simp [h, hj]

theorem Kind.mem_all (k : Kind) : k ∈ Kind.all := by
  cases k <;> decide

theorem lexeme?_eq_some_iff {afterOperand : Bool} {cs : List Char} {k : Kind} {n : Nat} :
    lexeme? afterOperand cs = some (k, n) ↔
      k.length? afterOperand cs = some n ∧ ∀ j ∈ k.earlier, j.length? afterOperand cs = none := by
  rw [lexeme?, findSome?_length_eq_some_iff, and_iff_right k.mem_all]
  rfl

theorem lexeme?_eq_none_iff_forall {afterOperand : Bool} {cs : List Char} :
    lexeme? afterOperand cs = none ↔ ∀ k : Kind, k.length? afterOperand cs = none := by
  simp [lexeme?, Kind.mem_all]

/-- A comment goes on to the end of its line. -/
theorem begins_comment {cs : List Char} {n : Nat} (h : comment? cs = some n) :
    ∃ body rest, cs = '/' :: '/' :: body ++ rest ∧ n = body.length + 2 ∧ '\n' ∉ body ∧
      ∀ c, rest.head? = some c → c = '\n' := by
  unfold comment? at h
  split at h
  next cs =>
    obtain ⟨body, rest, rfl, hrun, hbody, hrest⟩ := exists_run (· != '\n') cs
    rw [hrun] at h
    refine ⟨body, rest, rfl, ?_, fun hn => absurd (hbody _ hn) (by decide), ?_⟩
    · rw [← Option.some.inj h, Nat.add_comm]
    · simpa using hrest
  next => cases h

theorem begins_number {afterOperand : Bool} {cs : List Char} {n : Nat}
    (h : number? afterOperand cs = some n) : Begins (Kind.number.Spells afterOperand) cs n := by
  unfold number? at h
  split at h
  next cs =>
    simp only [Option.ite_none_left_eq_some, Option.map_eq_some_iff] at h
    obtain ⟨hoperand, m, hm, rfl⟩ := h
    obtain ⟨w, rest, rfl, rfl, hw⟩ := begins_unsigned hm
    exact ⟨'-' :: w, rest, rfl, rfl, .inr ⟨Bool.eq_false_iff.2 hoperand, w, hw, rfl⟩⟩
  next =>
    obtain ⟨w, rest, rfl, rfl, hw⟩ := begins_unsigned h
    exact ⟨w, rest, rfl, rfl, .inl hw⟩

/-- The lexeme at the head of a text belongs to its class. -/
theorem lexeme?_spells {afterOperand : Bool} {cs : List Char} {k : Kind} {n : Nat}
    (h : lexeme? afterOperand cs = some (k, n)) : Begins (k.Spells afterOperand) cs n := by
  obtain ⟨hlength, hearlier⟩ := lexeme?_eq_some_iff.1 h
  cases k with
  | comment =>
    obtain ⟨body, rest, rfl, rfl, hbody, -⟩ := begins_comment hlength
    exact ⟨'/' :: '/' :: body, rest, rfl, rfl, body, hbody, rfl⟩
  | whitespace =>
    obtain ⟨w, rest, rfl, hrun, hw, -⟩ := exists_run isBlank cs
    simp only [Kind.length?, whitespace?, hrun, Option.ite_none_left_eq_some, Option.some.injEq]
      at hlength
    obtain ⟨hne, rfl⟩ := hlength
    exact ⟨w, rest, rfl, rfl, List.ne_nil_of_length_pos (by omega), hw⟩
  | number => exact begins_number hlength
  | keyword => exact begins_spelled (Option.filter_eq_some_iff.1 hlength).1
  | operator =>
    obtain ⟨w, rest, rfl, rfl, s, hs, rfl⟩ := begins_spelled hlength
    obtain ⟨op, -, rfl⟩ := List.mem_map.1 hs
    exact ⟨_, rest, rfl, rfl, op, rfl⟩
  | identifier =>
    obtain ⟨w, rest, rfl, rfl, hword, hrest⟩ := begins_identifier hlength
    refine ⟨w, rest, rfl, rfl, hword, fun s hs hws => ?_⟩
    have hkeyword := (keyword?_append_iff hword.isWordChar hrest).2 ⟨rfl, s, hs, hws⟩
    have hnone : keyword? (w ++ rest) = none := hearlier .keyword (by decide)
    rw [hnone] at hkeyword
    cases hkeyword
  | assignment =>
    obtain ⟨w, rest, rfl, rfl, s, hs, rfl⟩ := begins_spelled hlength
    obtain rfl := List.mem_singleton.1 hs
    exact ⟨_, rest, rfl, rfl, rfl⟩
  | bracket => exact begins_spelled hlength
  | separator =>
    obtain ⟨w, rest, rfl, rfl, s, hs, rfl⟩ := begins_spelled hlength
    obtain rfl := List.mem_singleton.1 hs
    exact ⟨_, rest, rfl, rfl, rfl⟩

/-! ## Texts that are found as a whole -/

/-- The characters with which the lexemes of a class begin. -/
def Kind.opens (c : Char) : Kind → Bool
  | .comment => c == '/'
  | .whitespace => isBlank c
  | .number => c.isDigit || c == '.' || c == '-'
  | .keyword => isWordStart c
  | .operator => ['+', '-', '*', '/', '=', '>', '<', '&'].contains c
  | .identifier => isWordStart c
  | .assignment => c == '='
  | .bracket => ['(', ')', '\x7b', '\x7d'].contains c
  | .separator => c == ';'

theorem length?_eq_none {k : Kind} {c : Char} (h : k.opens c = false) (afterOperand : Bool)
    (cs : List Char) : k.length? afterOperand (c :: cs) = none := by
  cases k with
  | comment =>
    simp only [Kind.length?]
    unfold comment?
    split
    next heq =>
      obtain rfl := (List.cons.inj heq).1
      cases h
    next => rfl
  | whitespace =>
    have hblank : isBlank c = false := h
    have hrun : run isBlank (c :: cs) = 0 := run_append (w := []) (by simp) (by simpa using hblank)
    simp [Kind.length?, whitespace?, hrun]
  | number =>
    simp only [Kind.opens, Bool.or_eq_false_iff, beq_eq_false_iff_ne] at h
    simp only [Kind.length?]
    unfold number?
    split
    next heq => exact absurd (List.cons.inj heq).1 h.2
    next => exact unsigned?_eq_none (by simpa using h.1)
  | keyword =>
    have hspelled : spelled? keywords (c :: cs) = none :=
      spelled?_eq_none isWordStart (by decide) h cs
    simp [Kind.length?, keyword?, hspelled]
  | operator => exact spelled?_eq_none (Kind.opens · .operator) (by decide) h cs
  | identifier =>
    have hfirst : isWordStart c = false := h
    simp [Kind.length?, identifier?, hfirst]
  | assignment => exact spelled?_eq_none (· == '=') (by decide) h cs
  | bracket => exact spelled?_eq_none (Kind.opens · .bracket) (by decide) h cs
  | separator => exact spelled?_eq_none (· == ';') (by decide) h cs

theorem lexeme?_cons {afterOperand : Bool} {k : Kind} {c : Char} {cs : List Char} {n : Nat}
    (h : k.length? afterOperand (c :: cs) = some n)
    (hearlier : ∀ j ∈ k.earlier, j.opens c = false ∨ j.length? afterOperand (c :: cs) = none) :
    lexeme? afterOperand (c :: cs) = some (k, n) :=
  lexeme?_eq_some_iff.2 ⟨h, fun j hj => (hearlier j hj).elim (length?_eq_none · afterOperand cs) id⟩

/-- Two classes can have lexemes that begin with one character; the earlier one has none here. -/
theorem lexeme?_cons_later {afterOperand : Bool} {k : Kind} {c : Char} {cs : List Char}
    {n : Nat} (j : Kind) (h : k.length? afterOperand (c :: cs) = some n)
    (hj : j.length? afterOperand (c :: cs) = none)
    (hothers : ∀ i ∈ k.earlier, i ≠ j → i.opens c = false) :
    lexeme? afterOperand (c :: cs) = some (k, n) := by
  refine lexeme?_cons h fun i hi => ?_
  by_cases hij : i = j
  · exact .inr (hij ▸ hj)
  · exact .inl (hothers i hi hij)

theorem lexeme?_minus (afterOperand : Bool) {cs : List Char}
    (h : ∀ c, cs.head? = some c → c.isDigit = false ∧ c ≠ '.') :
    lexeme? afterOperand ('-' :: cs) = some (.operator, 1) := by
  have hnumber : number? afterOperand ('-' :: cs) = none := by simp [number?, unsigned?_eq_none h]
  exact lexeme?_cons_later .number rfl hnumber (by decide)

theorem lexeme?_slash (afterOperand : Bool) {cs : List Char} (h : cs.head? ≠ some '/') :
    lexeme? afterOperand ('/' :: cs) = some (.operator, 1) := by
  have hcomment : comment? ('/' :: cs) = none := by
    unfold comment?
    split
    next heq =>
      obtain ⟨-, rfl⟩ := List.cons.inj heq
      exact absurd rfl h
    next => rfl
  exact lexeme?_cons_later .comment rfl hcomment (by decide)

theorem lexeme?_equals (afterOperand : Bool) {cs : List Char} (h : cs.head? ≠ some '=') :
    lexeme? afterOperand ('=' :: cs) = some (.assignment, 1) := by
  have hoperator : spelled? (Operator.all.map Operator.symbol) ('=' :: cs) = none := by
    cases cs with
    | nil => rfl
    | cons c cs =>
      have hc : c ≠ '=' := fun hc => h (by rw [hc]; rfl)
      simp [spelled?, Operator.all, Operator.symbol, Ne.symm hc]
  exact lexeme?_cons_later .operator rfl hoperator (by decide)

theorem lexeme?_numeral {afterOperand : Bool} {w rest : List Char}
    (h : Kind.number.Spells afterOperand w) (hr : Ends rest) :
    lexeme? afterOperand (w ++ rest) = some (.number, w.length) := by
  obtain hw | ⟨rfl, w, hw, rfl⟩ := h
  · obtain ⟨c, cs, rfl, hc⟩ := hw.exists_cons
    have hne : c ≠ '-' := by
      obtain hc | rfl := hc
      · exact ne_of_eq_false (p := Char.isDigit) hc rfl
      · decide
    have hnumber : number? afterOperand (c :: cs ++ rest) = unsigned? (c :: cs ++ rest) := by
      rw [List.cons_append]
      unfold number?
      split
      next heq => exact absurd (List.cons.inj heq).1 hne
      next => rfl
    refine lexeme?_cons (hnumber.trans (unsigned?_append hw hr)) fun j hj => .inl ?_
    obtain hc | rfl := hc
    · have hj' : j = .comment ∨ j = .whitespace := by revert j; decide
      obtain rfl | rfl := hj'
      · exact beq_eq_false_iff_ne.2 (ne_of_eq_false (p := Char.isDigit) hc rfl)
      · exact isBlank_eq_false rfl hc
    · revert j
      decide
  · have hnumber : number? false ('-' :: (w ++ rest)) = some (w.length + 1) := by
      simp [number?, unsigned?_append hw hr]
    refine lexeme?_cons hnumber fun j hj => .inl ?_
    revert j
    decide

theorem opens_of_isWordStart {c : Char} (hc : isWordStart c) :
    ∀ j ∈ Kind.identifier.earlier, j ≠ .keyword → j.opens c = false := by
  have hne {d : Char} (hd : isWordStart d = false) : c ≠ d := ne_of_eq_false hc hd
  intro j hj hkeyword
  cases j with
  | comment => exact beq_eq_false_iff_ne.2 (hne rfl)
  | whitespace => exact isBlank_eq_false rfl hc
  | number => simp [Kind.opens, isDigit_of_isWordStart hc, hne (d := '.') rfl, hne (d := '-') rfl]
  | operator =>
    have hall : ∀ d ∈ ['+', '-', '*', '/', '=', '>', '<', '&'], ¬ isWordStart d :=
      List.any_eq_false.1 rfl
    rw [Kind.opens, Bool.eq_false_iff, ne_eq, List.contains_iff_mem]
    exact fun hmem => hall c hmem hc
  | keyword => exact absurd rfl hkeyword
  | identifier | assignment | bracket | separator => exact absurd hj (by decide)

theorem lexeme?_keyword (afterOperand : Bool) {s : String} (hs : s ∈ keywords) {rest : List Char}
    (hr : ∀ c, rest.head? = some c → isWordChar c = false) :
    lexeme? afterOperand (s.toList ++ rest) = some (.keyword, s.toList.length) := by
  have hword := word_of_mem_keywords s hs
  have hkeyword := (keyword?_append_iff hword.isWordChar hr).2 ⟨rfl, s, hs, rfl⟩
  generalize s.toList = w at *
  obtain ⟨hc, -⟩ := hword
  exact lexeme?_cons hkeyword fun j hj =>
    .inl (opens_of_isWordStart hc j (by revert j; decide) (by revert j; decide))

/-- A text of a class is found where no lexeme goes on behind it. -/
theorem lexeme?_append {afterOperand : Bool} {k : Kind} {w rest : List Char}
    (h : k.Spells afterOperand w) (hk : k.isTrivia = false)
    (hr : k = .bracket ∨ k = .separator ∨ Ends rest) :
    lexeme? afterOperand (w ++ rest) = some (k, w.length) := by
  cases k with
  | comment => cases hk
  | whitespace => cases hk
  | number => exact lexeme?_numeral h (by simpa using hr)
  | keyword =>
    have hends : Ends rest := by simpa using hr
    obtain ⟨s, hs, rfl⟩ := h
    exact lexeme?_keyword afterOperand hs hends.isWordChar
  | operator =>
    have hends : Ends rest := by simpa using hr
    obtain ⟨op, rfl⟩ := h
    cases op with
    | sub =>
      exact lexeme?_minus afterOperand fun c hc =>
        ⟨hends.isDigit c hc, fun h => hends.ne (by decide) (h ▸ hc)⟩
    | div => exact lexeme?_slash afterOperand (hends.ne (by decide))
    | add | mul | eq | gt | lt | and => rfl
  | identifier =>
    have hends : Ends rest := by simpa using hr
    obtain ⟨hword, hne⟩ := h
    have hkeyword : keyword? (w ++ rest) = none := by
      rw [Option.eq_none_iff_forall_ne_some]
      intro n hn
      obtain ⟨-, s, hs, hws⟩ := (keyword?_append_iff hword.isWordChar hends.isWordChar).1 hn
      exact hne s hs hws
    have hidentifier := identifier?_append hword hends.isWordChar
    obtain ⟨hc, -⟩ := hword
    exact lexeme?_cons_later .keyword hidentifier hkeyword (opens_of_isWordStart hc)
  | assignment =>
    have hends : Ends rest := by simpa using hr
    obtain rfl := h
    exact lexeme?_equals afterOperand (hends.ne (by decide))
  | bracket =>
    obtain ⟨s, hs, rfl⟩ := h
    simp only [brackets, List.mem_cons, List.not_mem_nil, or_false] at hs
    obtain rfl | rfl | rfl | rfl := hs <;> rfl
  | separator =>
    obtain rfl := h
    rfl

end Quadcode.Token
