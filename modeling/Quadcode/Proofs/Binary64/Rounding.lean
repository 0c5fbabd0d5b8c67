import Mathlib.Order.Monotone.Basic
import Mathlib.Tactic.Ring
import Quadcode.Binary64

/-!
# Rounding to the nearest double

A double is the nearest one to its own size, however the size is written: as a quotient in other
terms (`Binary64.nearestRank_mul`), or as a decimal with other zeros at its end
(`Binary64.rankOfDecimal_padded`). So the exact expansion of a double is rounded to that double, and
so are its shortest digits (`Binary64.rankOfDecimal_shortest`).
-/

namespace Quadcode

/-! ## Decimals with more zeros -/

namespace Decimal

/-- The same number with `count` more zeros at the end of its digits. -/
def padded (d : Decimal) (count : Nat) : Decimal :=
  { digits := d.digits * 10 ^ count, exponent := d.exponent - count }

theorem lt_length_toDigits_iff {n k : Nat} (hn : 0 < n) :
    k < (Nat.toDigits 10 n).length ↔ 10 ^ k ≤ n := by
  cases k with
  | zero => simpa using ⟨fun _ => hn, fun _ => Nat.length_toDigits_pos⟩
  | succ k => simpa only [Nat.not_le, Nat.not_lt] using
      not_congr (Nat.length_toDigits_le_iff (by decide : 1 < 10) (Nat.succ_pos k))

theorem length_toDigits_mul_pow {n : Nat} (hn : 0 < n) (count : Nat) :
    (Nat.toDigits 10 (n * 10 ^ count)).length = (Nat.toDigits 10 n).length + count := by
  have hpos : 0 < n * 10 ^ count := Nat.mul_pos hn (Nat.pow_pos (by decide))
  refine Nat.le_antisymm (Nat.not_lt.1 fun h => ?_) (Nat.not_lt.1 fun h => ?_)
  · rw [lt_length_toDigits_iff hpos, Nat.pow_add] at h
    have hle := Nat.le_of_mul_le_mul_right h (Nat.pow_pos (by decide))
    exact absurd ((lt_length_toDigits_iff hn).2 hle) (Nat.lt_irrefl _)
  · obtain ⟨k, hk⟩ : ∃ k, (Nat.toDigits 10 n).length = k + 1 :=
      Nat.exists_eq_add_one.2 Nat.length_toDigits_pos
    have hle : 10 ^ k ≤ n := (lt_length_toDigits_iff hn).1 (by omega)
    have hlength : k + count < (Nat.toDigits 10 (n * 10 ^ count)).length := by
      rw [lt_length_toDigits_iff hpos, Nat.pow_add]
      exact Nat.mul_le_mul_right _ hle
    omega

theorem point_padded {d : Decimal} (h : d.digits ≠ 0) (count : Nat) :
    (d.padded count).point = d.point := by
  have hlength := length_toDigits_mul_pow (Nat.pos_of_ne_zero h) count
  simp only [point, padded, hlength]
  omega

end Decimal

namespace Binary64

/-! ## Ranks and sizes -/

theorem binade_eq : binade = 2 ^ 52 := rfl

theorem units_of_lt {rank : Nat} (h : rank < binade) : units rank = rank :=
  if_pos h

theorem units_of_binade (e : Nat) {m : Nat} (hm : m < binade) :
    units (binade * (e + 1) + m) = (binade + m) * 2 ^ e := by
  have hle : ¬ binade * (e + 1) + m < binade := by
    rw [Nat.mul_add]
    omega
  rw [units, if_neg hle, Nat.mul_add_mod, Nat.mod_eq_of_lt hm, Nat.mul_add_div (by decide),
    Nat.div_eq_of_lt hm, Nat.shiftLeft_eq]
  rfl

/-- A rank is one of the least magnitudes, or it has an exponent. -/
theorem lt_binade_or (rank : Nat) :
    rank < binade ∨ ∃ e m, m < binade ∧ rank = binade * (e + 1) + m := by
  refine (Nat.lt_or_ge rank binade).imp_right fun h => ?_
  obtain ⟨e, he⟩ := Nat.exists_eq_add_one.2 (Nat.div_pos h (by decide))
  refine ⟨e, rank % binade, Nat.mod_lt _ (by decide), ?_⟩
  rw [← he, Nat.div_add_mod]

theorem log2_mul_pow {m : Nat} (hm : m < binade) (e : Nat) :
    ((binade + m) * 2 ^ e).log2 = 52 + e := by
  have hpos : (binade + m) * 2 ^ e ≠ 0 :=
    Nat.mul_ne_zero (by rw [binade_eq]; omega) (Nat.two_pow_pos e).ne'
  rw [Nat.log2_eq_iff hpos, Nat.add_right_comm, Nat.pow_add, Nat.pow_add]
  rw [binade_eq] at hm ⊢
  exact ⟨Nat.mul_le_mul_right _ (by omega),
    Nat.mul_lt_mul_of_pos_right (by omega) (Nat.two_pow_pos e)⟩

theorem rankBelow_units (rank : Nat) : rankBelow (units rank) = rank := by
  obtain h | ⟨e, m, hm, rfl⟩ := lt_binade_or rank
  · have hlog : rank.log2 - 52 = 0 := by
      by_cases h0 : rank = 0
      · rw [h0]
        rfl
      · rw [binade_eq] at h
        have := (Nat.log2_lt h0).2 h
        omega
    rw [units_of_lt h, rankBelow, hlog, Nat.zero_mul, Nat.zero_add, Nat.shiftRight_zero]
  · rw [units_of_binade e hm, rankBelow, log2_mul_pow hm, Nat.add_sub_cancel_left,
      Nat.shiftRight_eq_div_pow, Nat.mul_div_cancel _ (Nat.two_pow_pos e), Nat.mul_add,
      Nat.mul_comm e, Nat.mul_one, Nat.add_assoc]

theorem units_lt_succ (rank : Nat) : units rank < units (rank + 1) := by
  obtain h | ⟨e, m, hm, rfl⟩ := lt_binade_or rank
  · obtain h' | h' := Nat.lt_or_ge (rank + 1) binade
    · rw [units_of_lt h, units_of_lt h']
      exact Nat.lt_succ_self rank
    · obtain rfl : rank = binade - 1 := by omega
      decide +kernel
  · rw [units_of_binade e hm]
    obtain hm' | hm' := Nat.lt_or_ge (m + 1) binade
    · rw [Nat.add_assoc, units_of_binade e hm']
      exact Nat.mul_lt_mul_of_pos_right (by omega) (Nat.two_pow_pos e)
    · -- the next rank is the first one with the next exponent
      have hnext : binade * (e + 1) + m + 1 = binade * (e + 1 + 1) + 0 := by
        rw [Nat.mul_add _ (e + 1)]
        omega
      rw [hnext, units_of_binade (e + 1) (by decide), Nat.pow_succ, Nat.mul_comm (2 ^ e),
        ← Nat.mul_assoc]
      exact Nat.mul_lt_mul_of_pos_right (by omega) (Nat.two_pow_pos e)

theorem units_strictMono : StrictMono units :=
  strictMono_nat_of_lt_succ units_lt_succ

theorem units_lt_of_lt {rank e : Nat} (h : rank < binade * (e + 1)) :
    units rank < binade * 2 ^ e := by
  have hnext : units (binade * (e + 1) + 0) = (binade + 0) * 2 ^ e := units_of_binade e (by decide)
  simp only [Nat.add_zero] at hnext
  rw [← hnext]
  exact units_strictMono h

theorem units_pos {rank : Nat} (h : 0 < rank) : 0 < units rank :=
  Nat.zero_lt_of_lt (units_strictMono h)

/-! ## The nearest rank -/

theorem nearestRank_mul (num den : Nat) {c : Nat} (hc : 0 < c) :
    nearestRank (num * c) (den * c) = nearestRank num den := by
  have heq (a b : Nat) : a * c = b * c ↔ a = b := Nat.mul_left_inj hc.ne'
  simp only [nearestRank, Nat.mul_div_mul_right num den hc, ← Nat.mul_assoc,
    Nat.mul_lt_mul_right hc, heq]

theorem nearestRank_units (rank : Nat) : nearestRank (units rank) 1 = rank := by
  have hlt : 2 * units rank < (units rank + units (rank + 1)) * 1 := by
    have := units_lt_succ rank
    omega
  simp only [nearestRank, Nat.div_one, rankBelow_units, hlt, true_or, if_true]

/-- A quotient of powers of ten, expanded by another one. -/
theorem nearestRank_pow (digits : Nat) (e : Int) (count shift : Nat) :
    nearestRank ((digits * 10 ^ count * 10 ^ (e - count).toNat) <<< shift)
      (10 ^ (-(e - count)).toNat) =
      nearestRank ((digits * 10 ^ e.toNat) <<< shift) (10 ^ (-e).toNat) := by
  have hnum : count + (e - count).toNat = e.toNat + (count - e.toNat) := by omega
  have hden : (-(e - count)).toNat = (-e).toNat + (count - e.toNat) := by omega
  have hten : 0 < 10 ^ (count - e.toNat) := Nat.pow_pos (by decide)
  rw [← nearestRank_mul _ (10 ^ (-e).toNat) hten, hden, Nat.pow_add, Nat.shiftLeft_eq,
    Nat.shiftLeft_eq, Nat.mul_assoc digits, ← Nat.pow_add, hnum, Nat.pow_add]
  congr 1
  ring

theorem rankOfDecimal_padded (d : Decimal) (count : Nat) :
    rankOfDecimal (d.padded count) = rankOfDecimal d := by
  by_cases h : d.digits = 0
  · simp [rankOfDecimal, Decimal.padded, h]
  · have hpadded : (d.padded count).digits ≠ 0 := Nat.mul_ne_zero h (Nat.pow_pos (by decide)).ne'
    simp only [rankOfDecimal, h, hpadded, Decimal.point_padded h, false_or]
    split
    · rfl
    split
    · rfl
    exact nearestRank_pow d.digits d.exponent count 1074

/-! ## Shortest digits -/

/-- A size in units, written as a decimal: `2 ^ -shift` is `5 ^ shift · 10 ^ -shift`. -/
theorem nearestRank_fives (size shift : Nat) :
    nearestRank ((size * Nat.pow 5 shift * Nat.pow 10 0) <<< shift) (Nat.pow 10 shift) =
      nearestRank size 1 := by
  have hten : 0 < 10 ^ shift := Nat.pow_pos (by decide)
  rw [Nat.pow_eq, Nat.pow_eq, Nat.pow_eq, Nat.pow_zero, Nat.mul_one, ← nearestRank_mul size 1 hten,
    Nat.shiftLeft_eq, Nat.mul_assoc, ← Nat.mul_pow, Nat.one_mul]

theorem digits_expansion_pos {rank : Nat} (h : 0 < rank) : 0 < (expansion rank).digits := by
  unfold expansion
  refine Nat.mul_pos (units_pos h) ?_
  generalize 1074 = k
  exact Nat.pow_pos (by decide)

theorem point_expansion {rank : Nat} (hpos : 0 < rank) (h : rank < infinityRank) :
    -330 ≤ (expansion rank).point ∧ (expansion rank).point ≤ 310 := by
  have hdigits := digits_expansion_pos hpos
  have hlower : 743 < (Nat.toDigits 10 (expansion rank).digits).length := by
    rw [Decimal.lt_length_toDigits_iff hdigits]
    have hbound : 10 ^ 743 ≤ Nat.pow 5 1074 := by decide +kernel
    exact Nat.le_trans hbound (Nat.le_mul_of_pos_left _ (units_pos hpos))
  have hupper : ¬ 1384 < (Nat.toDigits 10 (expansion rank).digits).length := by
    rw [Decimal.lt_length_toDigits_iff hdigits, Nat.not_le]
    have hbound : binade * 2 ^ 2046 * Nat.pow 5 1074 < 10 ^ 1384 := by decide +kernel
    exact Nat.lt_of_le_of_lt (Nat.mul_le_mul_right _ (units_lt_of_lt h).le) hbound
  have hexponent : (expansion rank).exponent = -1074 := rfl
  rw [Decimal.point, hexponent]
  omega

theorem rankOfDecimal_expansion {rank : Nat} (h : rank < infinityRank) :
    rankOfDecimal (expansion rank) = rank := by
  obtain rfl | hpos := Nat.eq_zero_or_pos rank
  · decide +kernel
  · have hdigits := digits_expansion_pos hpos
    obtain ⟨hlower, hupper⟩ := point_expansion hpos h
    have hnum : (-1074 : Int).toNat = 0 := rfl
    have hden : (- -1074 : Int).toNat = 1074 := rfl
    rw [rankOfDecimal, if_neg (by omega), if_neg (by omega), expansion, hnum, hden]
    generalize 1074 = shift
    rw [nearestRank_fives, nearestRank_units]

theorem rankOfDecimal_of_cut {rank count : Nat} {d cut : Decimal}
    (h : cut? rank d count = some cut) : rankOfDecimal cut = rank := by
  simp only [cut?] at h
  split at h
  next hlower hupper =>
    rw [decide_eq_true_eq] at hlower hupper
    obtain rfl := Option.some.inj h
    split
    · exact hlower
    · exact hupper
  next hlower _ =>
    obtain rfl := Option.some.inj h
    exact of_decide_eq_true hlower
  next _ hupper =>
    obtain rfl := Option.some.inj h
    exact of_decide_eq_true hupper
  next => cases h

theorem rankOfDecimal_shortest {rank : Nat} (h : rank < infinityRank) :
    rankOfDecimal (shortest rank) = rank := by
  simp only [shortest]
  generalize (List.range _).reverse = counts
  cases hfound : counts.findSome? (cut? rank (expansion rank)) with
  | none => exact rankOfDecimal_expansion h
  | some cut =>
    obtain ⟨count, -, hcut⟩ := List.exists_of_findSome?_eq_some hfound
    exact rankOfDecimal_of_cut hcut

end Binary64

end Quadcode
