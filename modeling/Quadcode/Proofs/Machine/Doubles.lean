import Quadcode.Proofs.Machine

/-!
# Computing with doubles

The machine with doubles for its values (`Arithmetic.double`). An operation works out the exact
result and rounds it to the nearest double, a tie going to the even rank. Where there is no such
result, as for `0 / 0` or the difference of two infinities, and where an operand is no number,
the result is no number.

Doubles are compared by their places on the line (`Binary64.place?`). What is no number has no
place: it differs from every double, itself included, and no other comparison with it holds. So a
comparison and its negation are complements only as long as both doubles have a place; of the
comparisons that an operator makes, equality alone always has its complement
(`Binary64.holds_negate_iff`).
-/

namespace Quadcode

namespace Binary64

/-! ## Operations -/

/-- The double zero. -/
def zero : Binary64 := ofRank false 0

/-- The double one. -/
def one : Binary64 := ofRank false 0x3FF0000000000000

/-- The double of the opposite sign. -/
def negated : Binary64 → Binary64
  | .finite negative rank => .finite (!negative) rank
  | .infinite negative => .infinite (!negative)
  | .nan => .nan

/-- A size with a sign. -/
def signed (negative : Bool) (size : Nat) : Int :=
  if negative then -size else size

/-- The double nearest to a whole number of units; `zeroSign` is the sign of zero. -/
def ofUnits (zeroSign : Bool) (size : Int) : Binary64 :=
  if size = 0 then ofRank zeroSign 0 else ofRank (decide (size < 0)) (nearestRank size.natAbs 1)

/-- The sum. A sum of zero is negative only if both of its terms are. -/
def add : Binary64 → Binary64 → Binary64
  | .finite s a, .finite t b => ofUnits (s && t) (signed s (units a) + signed t (units b))
  | .infinite s, .infinite t => if s = t then .infinite s else .nan
  | .infinite s, .finite _ _ => .infinite s
  | .finite _ _, .infinite t => .infinite t
  | .nan, _ => .nan
  | _, .nan => .nan

/-- The product. A unit times a unit is `2 ^ -1074` units. -/
def mul : Binary64 → Binary64 → Binary64
  | .finite s a, .finite t b => ofRank (s ^^ t) (nearestRank (units a * units b) (1 <<< 1074))
  | .infinite s, .infinite t => .infinite (s ^^ t)
  | .infinite s, .finite t b => if units b = 0 then .nan else .infinite (s ^^ t)
  | .finite s a, .infinite t => if units a = 0 then .nan else .infinite (s ^^ t)
  | .nan, _ => .nan
  | _, .nan => .nan

/-- The quotient. A unit by a unit is one, which is `2 ^ 1074` units. -/
def div : Binary64 → Binary64 → Binary64
  | .finite s a, .finite t b =>
    if units b ≠ 0 then ofRank (s ^^ t) (nearestRank (units a <<< 1074) (units b))
    else if units a ≠ 0 then .infinite (s ^^ t) else .nan
  | .infinite _, .infinite _ => .nan
  | .infinite s, .finite t _ => .infinite (s ^^ t)
  | .finite s _, .infinite t => ofRank (s ^^ t) 0
  | .nan, _ => .nan
  | _, .nan => .nan

/-! ## Comparisons -/

/-- The place on the line: the rank with the sign, so that the two zeros have one place. -/
def place? : Binary64 → Option Int
  | .finite negative rank => some (signed negative rank)
  | .infinite negative => some (signed negative infinityRank)
  | .nan => none

/-- The comparison holds of the doubles. -/
def holds (c : Comparison) (a b : Binary64) : Bool :=
  match a.place?, b.place? with
  | some x, some y => Arithmetic.whole.holds c x y
  | _, _ => decide (c = .ne)

/-- The double that stands for a truth value. -/
def ofBool (truth : Bool) : Binary64 :=
  if truth then one else zero

end Binary64

/-- Doubles as values. An operator that compares gives one or zero, and so does the conjunction. -/
def Arithmetic.double : Arithmetic Binary64 where
  apply op a b := match op with
    | .add => a.add b
    | .sub => a.add b.negated
    | .mul => a.mul b
    | .div => a.div b
    | .eq => .ofBool (Binary64.holds .eq a b)
    | .gt => .ofBool (Binary64.holds .gt a b)
    | .lt => .ofBool (Binary64.holds .lt a b)
    | .and => .ofBool (Binary64.holds .ne a .zero && Binary64.holds .ne b .zero)
  holds := Binary64.holds
  number := id
  isZero a := Binary64.holds .eq a .zero

namespace Binary64

theorem place?_eq_none_iff {a : Binary64} : a.place? = none ↔ a = .nan := by
  cases a <;> simp [place?]

theorem holds_of_nan (c : Comparison) {a b : Binary64} (h : a = .nan ∨ b = .nan) :
    holds c a b = decide (c = .ne) := by
  rcases h with rfl | rfl
  · rfl
  · cases a <;> rfl

theorem holds_negate_of_ne_nan (c : Comparison) {a b : Binary64} (ha : a ≠ .nan) (hb : b ≠ .nan) :
    holds c.negate a b = !holds c a b := by
  obtain ⟨x, hx⟩ := Option.ne_none_iff_exists'.1 fun h => ha (place?_eq_none_iff.1 h)
  obtain ⟨y, hy⟩ := Option.ne_none_iff_exists'.1 fun h => hb (place?_eq_none_iff.1 h)
  simp only [holds, hx, hy]
  exact Arithmetic.whole_lawful.complements c x y

/-- A comparison and its negation are complements, unless a double is no number and the
comparison is one of order. -/
theorem holds_negate_iff (c : Comparison) (a b : Binary64) :
    holds c.negate a b = (!holds c a b) ↔ c = .eq ∨ c = .ne ∨ a ≠ .nan ∧ b ≠ .nan := by
  by_cases h : a = .nan ∨ b = .nan
  · rw [holds_of_nan _ h, holds_of_nan _ h]
    have hnot : ¬ (a ≠ .nan ∧ b ≠ .nan) := fun hboth => h.elim hboth.1 hboth.2
    simp only [hnot, or_false]
    cases c <;> decide
  · rw [not_or] at h
    simp only [holds_negate_of_ne_nan c h.1 h.2, ne_eq, h.1, h.2, not_false_eq_true,
      and_self, or_true]

theorem isZero_ofBool (truth : Bool) : Arithmetic.double.isZero (ofBool truth) = !truth := by
  cases truth <;> decide +kernel

end Binary64

/-- An operator that compares gives zero exactly if its comparison does not hold, also of
doubles that are no number. -/
theorem Arithmetic.double_isZero_apply {op : Operator} {c : Comparison}
    (h : op.comparison? = some c) (a b : Binary64) :
    Arithmetic.double.isZero (Arithmetic.double.apply op a b) = !Binary64.holds c a b := by
  cases op with
  | eq | gt | lt =>
    obtain rfl := Option.some.inj h
    exact Binary64.isZero_ofBool _
  | add | sub | mul | div | and => cases h

end Quadcode
