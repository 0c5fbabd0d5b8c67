import Mathlib.Data.List.TakeWhile
import Quadcode.Proofs.Binary64.Rounding
import Quadcode.Proofs.Token.Classes

/-!
# The text of a double

The text of a finite double is a number of the lexer, digits and perhaps a fraction behind a minus
at most (`Decimal.unsigned_positional`), and it is read as that double (`Binary64.ofText?_text`).
For the second the digits may be other ones than those that were laid out, since zeros at their end
come and go with the point; the numbers they write are rounded alike.
-/

namespace Quadcode

open Token

/-! ## Digits of natural numbers -/

theorem ofDigitChars_repr (n : Nat) : Nat.ofDigitChars 10 n.repr.toList 0 = n := by
  rw [Nat.toList_repr, Nat.ofDigitChars_ten_toDigits]

theorem eq_of_repr_eq {m n : Nat} (h : m.repr = n.repr) : m = n := by
  rw [← ofDigitChars_repr m, h, ofDigitChars_repr]

namespace Decimal

/-! ## Numerals without an exponent -/

theorem ofNumeral?_whole {ds : List Char} (h : Digits ds) :
    ofNumeral? ds = some { digits := Nat.ofDigitChars 10 ds 0, exponent := 0 } := by
  simp [ofNumeral?, List.takeWhile_eq_self_iff.2 h.2, List.dropWhile_eq_nil_iff.2 h.2,
    splitFraction, exponent?, h.1]

theorem ofNumeral?_mixed {ds fs : List Char} (hds : Digits ds) (hfs : Digits fs) :
    ofNumeral? (ds ++ '.' :: fs) =
      some { digits := Nat.ofDigitChars 10 (ds ++ fs) 0, exponent := -fs.length } := by
  simp [ofNumeral?, List.takeWhile_append_of_pos hds.2, List.dropWhile_append_of_pos hds.2,
    List.takeWhile_eq_self_iff.2 hfs.2, List.dropWhile_eq_nil_iff.2 hfs.2, splitFraction,
    exponent?, hds.1]

/-! ## Laid out digits -/

theorem isDigit_of_mem_replicate {count : Nat} {c : Char} (h : c ∈ List.replicate count '0') :
    c.isDigit := by
  rw [List.eq_of_mem_replicate h]
  rfl

theorem digits_append_zeros {ds : List Char} (h : Digits ds) (count : Nat) :
    Digits (ds ++ List.replicate count '0') := by
  refine ⟨by simp [h.1], fun c hc => ?_⟩
  exact (List.mem_append.1 hc).elim (h.2 c) isDigit_of_mem_replicate

/-- Laid out digits are followed by zeros up to the point, or there is a point
among them or before them. -/
theorem layOut_cases {ds : List Char} (h : Digits ds) (point : Int) :
    (∃ count : Nat, layOut ds point = ds ++ List.replicate count '0' ∧
      (count : Int) = point - ds.length) ∨
    ∃ whole fraction, layOut ds point = whole ++ '.' :: fraction ∧ Digits whole ∧ Digits fraction ∧
      Nat.ofDigitChars 10 (whole ++ fraction) 0 = Nat.ofDigitChars 10 ds 0 ∧
      (fraction.length : Int) = ds.length - point := by
  have hlength := List.length_pos_iff.2 h.1
  unfold layOut
  split
  next hpoint =>
    right
    refine ⟨['0'], List.replicate (-point).toNat '0' ++ ds, by simp, ⟨by simp, by simp⟩,
      ⟨by simp [h.1], ?_⟩, ?_, ?_⟩
    · intro c hc
      exact (List.mem_append.1 hc).elim isDigit_of_mem_replicate (h.2 c)
    · have hzeros : ['0'] ++ (List.replicate (-point).toNat '0' ++ ds) =
          List.replicate ((-point).toNat + 1) '0' ++ ds := by
        rw [List.replicate_succ]
        rfl
      rw [hzeros, Nat.ofDigitChars_append, Nat.ofDigitChars_replicate_zero, Nat.mul_zero]
    · rw [List.length_append, List.length_replicate]
      omega
  next hpoint =>
    split
    next hle => exact .inl ⟨_, rfl, by omega⟩
    next hlt =>
      right
      refine ⟨ds.take point.toNat, ds.drop point.toNat, by simp, ⟨?_, ?_⟩, ⟨?_, ?_⟩, ?_, ?_⟩
      · exact List.ne_nil_of_length_pos (by rw [List.length_take]; omega)
      · exact fun c hc => h.2 c (List.mem_of_mem_take hc)
      · exact List.ne_nil_of_length_pos (by rw [List.length_drop]; omega)
      · exact fun c hc => h.2 c (List.mem_of_mem_drop hc)
      · rw [List.take_append_drop]
      · rw [List.length_drop]
        omega

theorem mantissa_layOut {ds : List Char} (h : Digits ds) (point : Int) :
    Mantissa (layOut ds point) := by
  obtain ⟨count, heq, -⟩ | ⟨whole, fraction, heq, hwhole, hfraction, -⟩ := layOut_cases h point
  · rw [heq]
    exact .whole (digits_append_zeros h count)
  · rw [heq]
    exact .mixed hwhole hfraction

theorem ofNumeral?_layOut {ds : List Char} (h : Digits ds) (point : Int) :
    ∃ count, ofNumeral? (layOut ds point) =
      some (padded { digits := Nat.ofDigitChars 10 ds 0, exponent := point - ds.length }
        count) := by
  obtain ⟨count, heq, hcount⟩ | ⟨whole, fraction, heq, hwhole, hfraction, hdigits, hlength⟩ :=
    layOut_cases h point
  · refine ⟨count, ?_⟩
    rw [heq, ofNumeral?_whole (digits_append_zeros h count), padded, Nat.ofDigitChars_append,
      Nat.ofDigitChars_replicate_zero, Nat.mul_comm, ← hcount, Int.sub_self]
  · refine ⟨0, ?_⟩
    have hexponent : point - ds.length = -(fraction.length : Int) := by omega
    rw [heq, ofNumeral?_mixed hwhole hfraction, hdigits, padded, Nat.pow_zero,
      Nat.mul_one, hexponent]
    simp

/-! ## Digits without the zeros at their end -/

theorem exists_trimZeros (ds : List Char) :
    ∃ count, ds = trimZeros ds ++ List.replicate count '0' := by
  refine ⟨(ds.reverse.takeWhile (· = '0')).length, ?_⟩
  have hzeros : ds.reverse.takeWhile (· = '0') =
      List.replicate (ds.reverse.takeWhile (· = '0')).length '0' := by
    refine List.eq_replicate_of_mem fun c hc => ?_
    simpa using List.mem_takeWhile_imp hc
  rw [trimZeros, ← List.reverse_replicate, ← hzeros, ← List.reverse_append,
    List.takeWhile_append_dropWhile, List.reverse_reverse]

/-- A decimal is its trimmed digits with zeros behind them. -/
theorem exists_padded {d : Decimal} (h : d.digits ≠ 0) :
    Digits (trimZeros (Nat.toDigits 10 d.digits)) ∧ ∃ count, d = padded
      { digits := Nat.ofDigitChars 10 (trimZeros (Nat.toDigits 10 d.digits)) 0,
        exponent := d.point - (trimZeros (Nat.toDigits 10 d.digits)).length } count := by
  obtain ⟨count, heq⟩ := exists_trimZeros (Nat.toDigits 10 d.digits)
  generalize trimZeros (Nat.toDigits 10 d.digits) = ds at heq
  have hdigits : d.digits = Nat.ofDigitChars 10 ds 0 * 10 ^ count := by
    rw [← Nat.ofDigitChars_ten_toDigits (n := d.digits), heq, Nat.ofDigitChars_append,
      Nat.ofDigitChars_replicate_zero, Nat.mul_comm]
  refine ⟨⟨?_, fun c hc => ?_⟩, count, ?_⟩
  · rintro rfl
    exact h (by rw [hdigits, Nat.ofDigitChars_nil, Nat.zero_mul])
  · exact Nat.isDigit_of_mem_toDigits (by decide) (Nat.le_refl 10) (heq ▸ List.mem_append_left _ hc)
  · have hexponent : d.exponent = d.point - ds.length - count := by
      rw [point, heq, List.length_append, List.length_replicate]
      omega
    rw [padded, ← hdigits, ← hexponent]

theorem mantissa_positional (d : Decimal) : Mantissa d.positional := by
  by_cases h : d.digits = 0
  · rw [positional, if_pos h]
    have hzero : Digits ['0'] := ⟨by simp, by simp⟩
    exact .whole hzero
  · rw [positional, if_neg h]
    exact mantissa_layOut (exists_padded h).1 d.point

theorem unsigned_positional (d : Decimal) : Unsigned d.positional := by
  rw [← List.append_nil d.positional]
  exact .intro (mantissa_positional d) .nil

end Decimal

namespace Binary64

/-! ## Reading back -/

theorem exists_ofNumeral?_positional (d : Decimal) :
    ∃ read, Decimal.ofNumeral? d.positional = some read ∧ rankOfDecimal read = rankOfDecimal d := by
  by_cases h : d.digits = 0
  · refine ⟨{ digits := 0, exponent := 0 }, ?_, ?_⟩
    · rw [Decimal.positional, if_pos h]
      rfl
    · rw [rankOfDecimal, rankOfDecimal, if_pos (.inl rfl), if_pos (.inl h)]
  · obtain ⟨hdigits, count, hd⟩ := Decimal.exists_padded h
    obtain ⟨count', hread⟩ := Decimal.ofNumeral?_layOut hdigits d.point
    refine ⟨_, by rw [Decimal.positional, if_neg h, hread], ?_⟩
    conv_rhs => rw [hd]
    rw [rankOfDecimal_padded, rankOfDecimal_padded]

theorem toLower_of_isDigit {c : Char} (h : c.isDigit) : c.toLower = c := by
  have hdigit : c.toNat ≤ '9'.toNat := (Char.isDigit_iff_toNat.1 h).2
  refine dif_neg fun hupper => ?_
  have hcode : 'A'.toNat ≤ c.toNat := hupper.1
  exact absurd (Nat.le_trans hcode hdigit) (by decide)

/-- What begins like a number has no sign and is none of the words for the
values without a numeral. -/
theorem ofText?_unsigned {w : List Char} (h : Unsigned w) (negative : Bool) :
    ofText? (String.ofList (sign negative ++ w)) =
      (Decimal.ofNumeral? w).map (ofDecimal negative) := by
  obtain ⟨c, cs, rfl, hc⟩ := h.exists_cons
  have hne {d : Char} (hd : d.isDigit = false) (hpoint : d ≠ '.') : c ≠ d :=
    hc.elim (fun hc => ne_of_eq_false hc hd) fun hc => hc ▸ hpoint.symm
  have hlower : c.toLower = c := hc.elim toLower_of_isDigit fun hc => hc ▸ rfl
  have hsign : Decimal.splitSign (sign negative ++ c :: cs) = (negative, c :: cs) := by
    cases negative with
    | true => rfl
    | false =>
      simp [sign, Decimal.splitSign, hne (d := '-') rfl (by decide), hne (d := '+') rfl (by decide)]
  have hword {d : Char} {word : String} (hd : word.toList.head? = some d) (hcd : c ≠ d) :
      String.ofList ((c :: cs).map Char.toLower) ≠ word := by
    rintro rfl
    rw [String.toList_ofList, List.map_cons, List.head?_cons, hlower] at hd
    exact hcd (Option.some.inj hd)
  have hi : c ≠ 'i' := hne rfl (by decide)
  have hn : c ≠ 'n' := hne rfl (by decide)
  have hinf : ¬ (String.ofList ((c :: cs).map Char.toLower) = "inf" ∨
      String.ofList ((c :: cs).map Char.toLower) = "infinity") :=
    not_or.2 ⟨hword rfl hi, hword rfl hi⟩
  rw [ofText?, String.toList_ofList, hsign]
  dsimp only
  rw [if_neg hinf, if_neg (hword rfl hn)]

theorem ofText?_text (negative : Bool) (rank : Fin infinityRank) :
    ofText? (Binary64.finite negative rank).text = some (.finite negative rank) := by
  obtain ⟨read, hread, hrank⟩ := exists_ofNumeral?_positional (shortest rank)
  rw [rankOfDecimal_shortest rank.isLt] at hrank
  rw [text, ofText?_unsigned (Decimal.unsigned_positional _), hread, Option.map_some, ofDecimal,
    hrank, ofRank, dif_pos rank.isLt]

end Binary64

end Quadcode
