import Mathlib.Logic.Function.Basic
import Quadcode.Listing

/-!
# The machine that runs listings

The machine holds a value for every variable and every temporary. A quad that works on values writes
one of them and control passes on; a jump whose test holds sets the address of the next quad. What
the values are is left open: an `Arithmetic` says how the operators, the comparisons, the literals
and the test for zero work on them.

The machine halts at the address right behind the last quad. It is stuck at an address further on,
at an operator without a second operand, at a literal in the place of a result and at a jump with an
unresolved target; `step?` is `none` there too. `Quad.Sound` excludes all of these, and then a
machine that does not halt runs on forever (`Listing.diverges_iff`).
-/

namespace Quadcode

universe u

/-- Values to compute with. -/
structure Arithmetic (V : Type u) where
  apply : Operator → V → V → V
  holds : Comparison → V → V → Bool
  number : Binary64 → V
  isZero : V → Bool

namespace Arithmetic

variable {V : Type u}

/-- A comparison of values holds exactly if its negation does not. -/
def Complements (A : Arithmetic V) : Prop :=
  ∀ c a b, A.holds c.negate a b = !A.holds c a b

/-- Comparisons complement each other, and an operator that compares gives a value other than zero
exactly if the comparison holds. -/
structure Lawful (A : Arithmetic V) : Prop where
  complements : A.Complements
  isZero_apply : ∀ {op c}, op.comparison? = some c →
    ∀ a b, A.isZero (A.apply op a b) = !A.holds c a b

/-- Whole numbers as values; a literal stands for its rank among the doubles, with its sign. -/
def whole : Arithmetic Int where
  apply op a b := match op with
    | .add => a + b
    | .sub => a - b
    | .mul => a * b
    | .div => a / b
    | .eq => if a = b then 1 else 0
    | .gt => if b < a then 1 else 0
    | .lt => if a < b then 1 else 0
    | .and => if a = 0 ∨ b = 0 then 0 else 1
  holds c a b := match c with
    | .gt => b < a
    | .lt => a < b
    | .eq => a = b
    | .ge => b ≤ a
    | .le => a ≤ b
    | .ne => a ≠ b
  number x := match x with
    | .finite negative rank => if negative then -(rank : Int) else rank
    | _ => 0
  isZero a := a = 0

theorem whole_lawful : whole.Lawful where
  complements c a b := by cases c <;> grind [whole, Comparison.negate]
  isZero_apply {op c} h a b := by
    cases op <;> grind [whole, Operator.comparison?]

end Arithmetic

/-- A value for every variable. -/
abbrev Store (V : Type u) := String → V

/-- A state of the machine: the address of the next quad, and the values of
variables and temporaries. -/
structure Machine (V : Type u) where
  address : Nat
  vars : Store V
  temps : Nat → V

section

variable {V : Type u} (A : Arithmetic V)

/-- The value of an operand. -/
def Operand.value (vars : Store V) (temps : Nat → V) : Operand → V
  | .number x => A.number x
  | .name x => vars x
  | .temp i => temps i

/-- The value that an operation gives; an operator needs both of its operands. -/
def Operation.result? (left : V) (right : Option V) : Operation → Option V
  | .copy => some left
  | .apply op => right.map fun r => A.apply op left r

/-- The jump on the test is taken. -/
def Test.taken (vars : Store V) (temps : Nat → V) : Test → Bool
  | .always => true
  | .isZero x => A.isZero (x.value A vars temps)
  | .isNonzero x => !A.isZero (x.value A vars temps)
  | .compare c left right => A.holds c (left.value A vars temps) (right.value A vars temps)

/-- The address of a target that is resolved. -/
def Target.address? : Target → Option Address
  | .unresolved => none
  | .to a => some a

namespace Machine

/-- Gives a variable or a temporary a value and passes on to the next quad. -/
def write? (m : Machine V) (value : V) : Operand → Option (Machine V)
  | .number _ => none
  | .name x => some { m with address := m.address + 1, vars := Function.update m.vars x value }
  | .temp i => some { m with address := m.address + 1, temps := Function.update m.temps i value }

/-- Does what a quad says. -/
def exec? (m : Machine V) : Quad → Option (Machine V)
  | .operate operation left right result => do
    let value ← operation.result? A (left.value A m.vars m.temps)
        (right.map (·.value A m.vars m.temps))
    m.write? value result
  | .jump test target =>
    if test.taken A m.vars m.temps then target.address?.map ({ m with address := · })
    else some { m with address := m.address + 1 }

end Machine

namespace Listing

/-- One step of the machine. -/
def step? (l : Listing) (m : Machine V) : Option (Machine V) :=
  l.quads[m.address]?.bind (m.exec? A)

/-- The machine after `n` steps, if it can make so many. -/
def after? (l : Listing) : Nat → Machine V → Option (Machine V)
  | 0, m => some m
  | n + 1, m => (l.step? A m).bind (l.after? n)

/-- The machine comes from one state to another. -/
def Reaches (l : Listing) (m m' : Machine V) : Prop :=
  ∃ n, l.after? A n m = some m'

/-- The machine is at the end of the listing after `n` steps. -/
def HaltsIn (l : Listing) (n : Nat) (m : Machine V) : Prop :=
  ∃ m', l.after? A n m = some m' ∧ m'.address = l.size

/-- The machine makes step after step without end. -/
def Diverges (l : Listing) (m : Machine V) : Prop :=
  ∀ n, (l.after? A n m).isSome

end Listing

end

namespace Listing

variable {V : Type u} {A : Arithmetic V} {l : Listing} {m m₁ m₂ : Machine V} {n k : Nat}

/-! ## Runs -/

theorem after?_add (n k : Nat) (m : Machine V) :
    l.after? A (n + k) m = (l.after? A n m).bind (l.after? A k) := by
  induction n generalizing m with
  | zero => simp [after?]
  | succ n ih =>
    rw [Nat.succ_add, after?, after?, Option.bind_assoc]
    exact congrArg _ (funext ih)

theorem Reaches.refl (m : Machine V) : l.Reaches A m m := ⟨0, rfl⟩

theorem Reaches.trans (h : l.Reaches A m m₁) (h' : l.Reaches A m₁ m₂) : l.Reaches A m m₂ := by
  obtain ⟨n, hn⟩ := h
  obtain ⟨k, hk⟩ := h'
  exact ⟨n + k, by rw [after?_add, hn, Option.bind_some, hk]⟩

theorem Reaches.single (h : l.step? A m = some m₁) : l.Reaches A m m₁ :=
  ⟨1, by simp [after?, h]⟩

theorem step?_of_address_eq_size (h : m.address = l.size) : l.step? A m = none := by
  simp [step?, h, size]

theorem after?_halted (hn : l.after? A n m = some m₁) (hend : m₁.address = l.size) (k : Nat) :
    l.after? A (n + (k + 1)) m = none := by
  rw [after?_add, hn, Option.bind_some, after?, step?_of_address_eq_size hend, Option.bind_none]

/-- The machine makes no further step once it has halted. -/
theorem HaltsIn.of_after? (hn : l.HaltsIn A n m) (hk : l.after? A k m = some m₁) :
    k ≤ n ∧ l.HaltsIn A (n - k) m₁ := by
  obtain ⟨m', hm', hend⟩ := hn
  have hle : k ≤ n := by
    by_contra hlt
    obtain ⟨d, rfl⟩ : ∃ d, k = n + (d + 1) := ⟨k - n - 1, by omega⟩
    rw [after?_halted hm' hend d] at hk
    cases hk
  refine ⟨hle, m', ?_, hend⟩
  rwa [← Nat.add_sub_cancel' hle, after?_add, hk, Option.bind_some] at hm'

theorem HaltsIn.of_reaches (hn : l.HaltsIn A n m) (h : l.Reaches A m m₁) :
    ∃ k, k ≤ n ∧ l.HaltsIn A k m₁ := by
  obtain ⟨k, hk⟩ := h
  exact ⟨n - k, Nat.sub_le n k, (hn.of_after? hk).2⟩

theorem HaltsIn.of_step (hn : l.HaltsIn A n m) (h : l.step? A m = some m₁) :
    ∃ k, k < n ∧ l.HaltsIn A k m₁ := by
  have hone : l.after? A 1 m = some m₁ := by simp [after?, h]
  obtain ⟨hle, hk⟩ := hn.of_after? hone
  exact ⟨n - 1, by omega, hk⟩

/-- The machine halts in one state at most. -/
theorem Reaches.unique (h₁ : l.Reaches A m m₁) (h₂ : l.Reaches A m m₂) (hend₁ : m₁.address = l.size)
    (hend₂ : m₂.address = l.size) : m₁ = m₂ := by
  obtain ⟨n, hn⟩ := h₁
  obtain ⟨k, hk⟩ := h₂
  have hhalts : l.HaltsIn A n m := ⟨m₁, hn, hend₁⟩
  have hhalts' : l.HaltsIn A k m := ⟨m₂, hk, hend₂⟩
  obtain rfl : n = k := Nat.le_antisymm (hhalts'.of_after? hn).1 (hhalts.of_after? hk).1
  exact Option.some.inj (hn.symm.trans hk)

/-! ## Code inside of a listing -/

/-- The quads stand in the listing from the given address on. -/
def CodeAt (l : Listing) (base : Nat) (code : List Quad) : Prop :=
  ∀ i q, code[i]? = some q → l.quads[base + i]? = some q

variable {base : Nat} {code code' : List Quad} {q : Quad}

theorem codeAt_zero (l : Listing) : l.CodeAt 0 l.quads := by
  intro i q hq
  rwa [Nat.zero_add]

theorem CodeAt.left (h : l.CodeAt base (code ++ code')) : l.CodeAt base code := by
  intro i q hq
  obtain ⟨hi, -⟩ := List.getElem?_eq_some_iff.1 hq
  exact h i q (by rwa [List.getElem?_append_left hi])

theorem CodeAt.right (h : l.CodeAt base (code ++ code')) : l.CodeAt (base + code.length) code' := by
  intro i q hq
  rw [Nat.add_assoc]
  refine h _ q ?_
  rwa [List.getElem?_append_right (Nat.le_add_right _ _), Nat.add_sub_cancel_left]

theorem CodeAt.head (h : l.CodeAt base (q :: code)) : l.quads[base]? = some q :=
  h 0 q rfl

theorem CodeAt.tail (h : l.CodeAt base (q :: code)) : l.CodeAt (base + 1) code :=
  @CodeAt.right l base [q] code h

theorem CodeAt.step? (h : l.CodeAt m.address (q :: code)) : l.step? A m = m.exec? A q := by
  rw [Listing.step?, h.head, Option.bind_some]

theorem CodeAt.reaches (h : l.CodeAt m.address (q :: code)) (hq : m.exec? A q = some m₁) :
    l.Reaches A m m₁ :=
  .single (h.step?.trans hq)

end Listing

/-! ## Quads that can be executed -/

/-- Where a quad may lead: a jump to an address from `low` to `high`. Apart from that the quad has
all operands that it needs, and writes no literal. -/
def Quad.Sound (low high : Nat) : Quad → Prop
  | .operate operation _ right result =>
    (operation = .copy ∨ right.isSome) ∧ ∀ x, result ≠ .number x
  | .jump _ target => ∃ a : Nat, target = .to a ∧ low ≤ a ∧ a ≤ high

theorem Quad.Sound.mono {low high low' high' : Nat} {q : Quad} (h : q.Sound low high)
    (hlow : low' ≤ low) (hhigh : high ≤ high') : q.Sound low' high' := by
  cases q with
  | operate operation left right result => exact h
  | jump test target =>
    obtain ⟨a, ha, hl, hh⟩ := h
    exact ⟨a, ha, Nat.le_trans hlow hl, Nat.le_trans hh hhigh⟩

section

variable {V : Type u} {A : Arithmetic V} {l : Listing} {m : Machine V}

theorem Quad.Sound.exec?_isSome {low high : Nat} {q : Quad} (h : q.Sound low high)
    (hm : m.address < high) : ∃ m', m.exec? A q = some m' ∧ m'.address ≤ high := by
  cases q with
  | operate operation left right result =>
    obtain ⟨hright, hresult⟩ := h
    obtain ⟨value, hvalue⟩ : ∃ v, operation.result? A (left.value A m.vars m.temps)
        (right.map (·.value A m.vars m.temps)) = some v := by
      cases operation with
      | copy => exact ⟨_, rfl⟩
      | apply op =>
        obtain ⟨r, rfl⟩ := Option.isSome_iff_exists.1 (hright.resolve_left nofun)
        exact ⟨_, rfl⟩
    rw [Machine.exec?, hvalue]
    cases result with
    | number x => exact absurd rfl (hresult x)
    | name x => exact ⟨_, rfl, hm⟩
    | temp i => exact ⟨_, rfl, hm⟩
  | jump test target =>
    obtain ⟨a, rfl, -, ha⟩ := h
    rw [Machine.exec?]
    split
    · exact ⟨_, rfl, ha⟩
    · exact ⟨_, rfl, hm⟩

/-- If all quads of a listing are sound, the machine is never stuck: unless it
halts it runs on forever. -/
theorem Listing.diverges_iff (hl : ∀ q ∈ l.quads, q.Sound 0 l.size) (hm : m.address ≤ l.size) :
    l.Diverges A m ↔ ¬ ∃ n, l.HaltsIn A n m := by
  constructor
  · rintro hdiv ⟨n, m', hm', hend⟩
    have hnext := hdiv (n + (0 + 1))
    rw [after?_halted hm' hend 0] at hnext
    cases hnext
  · intro hnever n
    suffices h : ∃ m', l.after? A n m = some m' ∧ m'.address ≤ l.size by
      obtain ⟨m', hm', -⟩ := h
      simp [hm']
    -- The address stays inside of the listing: at its end the machine would have halted.
    induction n with
    | zero => exact ⟨m, rfl, hm⟩
    | succ n ih =>
      obtain ⟨m₁, hm₁, hle⟩ := ih
      have hlt : m₁.address < l.size := Nat.lt_of_le_of_ne hle fun hend => hnever ⟨n, m₁, hm₁, hend⟩
      obtain ⟨q, hq⟩ : ∃ q, l.quads[m₁.address]? = some q := ⟨_, List.getElem?_eq_getElem hlt⟩
      obtain ⟨m₂, hm₂, hle₂⟩ := (hl q (List.mem_of_getElem? hq)).exec?_isSome (A := A) hlt
      refine ⟨m₂, ?_, hle₂⟩
      rw [after?_add, hm₁, Option.bind_some]
      simp [after?, Listing.step?, hq, hm₂]

end

end Quadcode
