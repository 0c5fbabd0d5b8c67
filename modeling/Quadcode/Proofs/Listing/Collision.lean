import Quadcode.Proofs.Grammar.Rendering
import Quadcode.Proofs.Lowering.Operands

/-!
# Operands that are written alike

The kinds of operands are apart in a quad, and in its text they are not: nothing keeps a script from
declaring a name that is written like a temporary, or like the number that an overflowing literal
stands for. Those are the only collisions (`Operand.text_eq_iff`). A script that has neither kind of
name has a listing in which equal texts are equal operands.
-/

namespace Quadcode

open Token

/-! ## Numbers -/

namespace Binary64

theorem ofText?_text_eq (v : Binary64) : ofText? v.text = some v := by
  match v with
  | .finite negative rank => exact ofText?_text negative rank
  | .infinite false => decide
  | .infinite true => decide
  | .nan => decide

theorem text_injective : Function.Injective text := by
  intro v w h
  apply Option.some.inj
  rw [← ofText?_text_eq v, ← ofText?_text_eq w, h]

/-- Infinity is the only number with the text of a word. -/
theorem eq_infinite_of_isWordStart {v : Binary64} (hv : v ≠ .nan) {c : Char} (hc : isWordStart c)
    (h : v.text.toList.head? = some c) : v = .infinite false := by
  match v with
  | .finite negative rank =>
    exfalso
    have hdigit := isDigit_of_isWordStart hc
    obtain hw | ⟨-, w, -, heq⟩ := spells_text negative rank
    · obtain ⟨d, w, heq, hd⟩ := hw.exists_cons
      rw [heq] at h
      obtain rfl : d = c := Option.some.inj h
      obtain hd | rfl := hd
      · rw [hdigit] at hd
        cases hd
      · exact absurd hc (by decide)
    · rw [heq] at h
      obtain rfl : '-' = c := Option.some.inj h
      exact absurd hc (by decide)
  | .infinite false => rfl
  | .infinite true =>
    obtain rfl : '-' = c := Option.some.inj h
    exact absurd hc (by decide)
  | .nan => exact absurd rfl hv

end Binary64

/-! ## Operands -/

namespace Operand

/-- A name and another operand that is written like it. -/
inductive Collides : Operand → Operand → Prop
  | temp (index : Nat) : Collides (.name ("temp" ++ index.repr)) (.temp index)
  | infinity : Collides (.name "inf") (.number (.infinite false))

theorem Collides.text_eq {a b : Operand} (h : a.Collides b) : a.text = b.text := by
  cases h with
  | temp index => rfl
  | infinity => decide

theorem text_temp_injective : Function.Injective fun index => (Operand.temp index).text := by
  intro i j h
  exact eq_of_repr_eq ((String.append_right_inj "temp").1 h)

theorem collides_of_number_name {v : Binary64} {x : String} (hv : (number v).Sourced)
    (hx : (name x).Sourced) (h : v.text = x) : (name x).Collides (.number v) := by
  subst h
  obtain ⟨c, cs, heq, hc⟩ : ∃ c cs, v.text.toList = c :: cs ∧ isWordStart c := by
    obtain ⟨hword, -⟩ : Kind.identifier.Spells false v.text.toList := hx
    generalize v.text.toList = w at hword
    cases hword with
    | @intro c cs first others => exact ⟨c, cs, rfl, first⟩
  obtain rfl := Binary64.eq_infinite_of_isWordStart hv hc (by rw [heq]; rfl)
  exact .infinity

theorem number_ne_temp {v : Binary64} (hv : (number v).Sourced) (index : Nat) :
    v.text ≠ (temp index).text := by
  intro h
  have hhead : v.text.toList.head? = some 't' := by
    rw [h, text, String.toList_append]
    rfl
  obtain rfl := Binary64.eq_infinite_of_isWordStart hv (by decide) hhead
  exact absurd hhead (by decide)

theorem text_eq_iff {a b : Operand} (ha : a.Sourced) (hb : b.Sourced) :
    a.text = b.text ↔ a = b ∨ a.Collides b ∨ b.Collides a := by
  constructor
  · intro h
    match a, b with
    | .number v, .number w => exact .inl (congrArg number (Binary64.text_injective h))
    | .name x, .name y => exact .inl (congrArg name h)
    | .temp i, .temp j => exact .inl (congrArg temp (text_temp_injective h))
    | .number v, .name x => exact .inr (.inr (collides_of_number_name ha hb h))
    | .name x, .number v => exact .inr (.inl (collides_of_number_name hb ha h.symm))
    | .number v, .temp i => exact absurd h (number_ne_temp ha i)
    | .temp i, .number v => exact absurd h.symm (number_ne_temp hb i)
    | .name x, .temp i =>
      obtain rfl : x = "temp" ++ i.repr := h
      exact .inr (.inl (.temp i))
    | .temp i, .name x =>
      obtain rfl : "temp" ++ i.repr = x := h
      exact .inr (.inr (.temp i))
  · rintro (rfl | h | h)
    · rfl
    · exact h.text_eq
    · exact h.text_eq.symm

end Operand

/-! ## Listings -/

/-- A name that is written like an operand of another kind. -/
def Reserved (x : String) : Prop :=
  x = "inf" ∨ ∃ index : Nat, x = "temp" ++ index.repr

theorem Operand.Collides.exists_reserved {a b : Operand} (h : a.Collides b) :
    ∃ x, a = .name x ∧ Reserved x := by
  cases h with
  | temp index => exact ⟨_, rfl, .inr ⟨index, rfl⟩⟩
  | infinity => exact ⟨_, rfl, .inl rfl⟩

/-- Operands in the listing of a script are written alike only where a name of the script has the
text of a temporary or of infinity. -/
theorem compile_collides_iff {source : String} {l : Listing} (h : compile source = .ok l) :
    (∀ a ∈ l.operands, ∀ b ∈ l.operands, a.text = b.text ↔ a = b ∨ a.Collides b ∨ b.Collides a) ∧
      ∃ ts, lex source = .ok ts ∧ ((∀ t ∈ ts, t.kind = .identifier → ¬ Reserved t.text) →
        ∀ a ∈ l.operands, ∀ b ∈ l.operands, a.text = b.text → a = b) := by
  have hsourced : ∀ a ∈ l.operands, a.Sourced := by
    intro a ha
    obtain ⟨q, hq, ha⟩ := List.mem_flatMap.1 ha
    exact (compile_sourced h q hq).operands a ha
  have hiff : ∀ a ∈ l.operands, ∀ b ∈ l.operands, a.text = b.text ↔
      a = b ∨ a.Collides b ∨ b.Collides a :=
    fun a ha b hb => Operand.text_eq_iff (hsourced a ha) (hsourced b hb)
  obtain ⟨ts, hlex, hmade⟩ := compile_madeOf h
  refine ⟨hiff, ts, hlex, fun hfree a ha b hb htext => ?_⟩
  have hnot : ∀ x ∈ l.operands, ∀ y, ¬ x.Collides y := by
    intro x hx y hxy
    obtain ⟨z, rfl, hz⟩ := hxy.exists_reserved
    obtain ⟨q, hq, hx⟩ := List.mem_flatMap.1 hx
    obtain ⟨t, ht, hkind, rfl⟩ := (hmade q hq).operands _ hx
    exact hfree t ht hkind hz
  obtain heq | hab | hba := (hiff a ha b hb).1 htext
  · exact heq
  · exact absurd hab (hnot a ha b)
  · exact absurd hba (hnot b hb a)

/-- The listing of a script whose only name is written like its only number. -/
def overflowListing : Listing :=
  ⟨[.operate .copy (.number (.infinite false)) none (.name "inf")]⟩

/-- The listing of a script that names a variable `x` and makes one temporary. -/
def sumListing (x : String) : Listing :=
  ⟨[.operate (.apply .add) (.number (.ofDecimal false ⟨1, 0⟩))
      (some (.number (.ofDecimal false ⟨2, 0⟩))) (.temp 0),
    .operate .copy (.temp 0) none (.name x)]⟩

/-- No number is written with a zero before its other digits. -/
theorem not_reserved_temp00 : ¬ Reserved "temp00" := by
  rintro (h | ⟨index, h⟩)
  · exact absurd h (by decide)
  · have hrepr : "00" = index.repr := (String.append_right_inj "temp").1 h
    have hzero : index = 0 := by
      rw [← ofDigitChars_repr index, ← hrepr]
      rfl
    rw [hzero] at hrepr
    exact absurd hrepr (by decide)

theorem compile_collides_iff_leading_zero :
    compile "var inf = 1e999;" = .ok overflowListing ∧
      (∀ a ∈ overflowListing.operands, ∀ b ∈ overflowListing.operands,
        a.text = b.text ↔ a = b ∨ a.Collides b ∨ b.Collides a) ∧
      compile "var temp00 = (1 + 2);" = .ok (sumListing "temp00") ∧
      ∀ a ∈ (sumListing "temp00").operands, ∀ b ∈ (sumListing "temp00").operands,
        a.text = b.text → a = b := by
  have hinf : compile "var inf = 1e999;" = .ok overflowListing :=
    eq_ok_of_toOption (by decide +kernel)
  have htemp : compile "var temp00 = (1 + 2);" = .ok (sumListing "temp00") :=
    eq_ok_of_toOption (by decide +kernel)
  obtain ⟨-, ts, hlex, hfree⟩ := compile_collides_iff htemp
  have hnames : ∀ t ∈ ts, t.kind = .identifier → t.text = "temp00" := by
    have hread : (lex "var temp00 = (1 + 2);").toOption.all
        (·.all fun t => t.kind != .identifier || t.text == "temp00") = true := by decide +kernel
    rw [hlex] at hread
    intro t ht hkind
    have hone := List.all_eq_true.1 hread t ht
    simpa [hkind] using hone
  refine ⟨hinf, (compile_collides_iff hinf).1, htemp, hfree fun t ht hkind => ?_⟩
  rw [hnames t ht hkind]
  exact not_reserved_temp00

/-- The variable `temp0` and the temporary of its value are two operands with one text. -/
theorem compile_aliases_temp :
    compile "var temp0 = (1 + 2);" = .ok (sumListing "temp0") ∧
      (sumListing "temp0").text = "0\t(+, 1, 2, temp0)\n1\t(=, temp0, _, temp0)\n" ∧
      ∃ a ∈ (sumListing "temp0").operands, ∃ b ∈ (sumListing "temp0").operands,
        a.text = b.text ∧ a ≠ b := by
  refine ⟨eq_ok_of_toOption (by decide +kernel), by decide +kernel, ?_⟩
  exact ⟨.temp 0, by decide +kernel, .name "temp0", by decide +kernel, by decide, by decide⟩

end Quadcode
