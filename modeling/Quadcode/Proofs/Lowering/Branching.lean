import Quadcode.Proofs.Lowering.Correctness
import Quadcode.Proofs.Lowering.Scoping
import Quadcode.Proofs.Machine.Doubles

/-!
# Branching on a test and computing it

The code of a test ends in a jump (`Builder.Jumps`), and the same expression can be computed for
its value (`Builder.Yields`). With doubles for values the jump is taken exactly if the value is
zero, except for a test that asks which of two values is the greater when one of them is no
number: the value is zero then, but the jump makes the negated comparison, which does not hold
either, and so the body is run.
-/

namespace Quadcode

universe u

/-! ## An open jump at the end -/

namespace Listing

variable {V : Type u} {A : Arithmetic V} {l : Listing} {m m₁ m₂ : Machine V}
  {test : Test} {n k : Nat}

/-- A machine can pass a jump that is open, but it cannot take it. -/
theorem address_of_step?_open (hquad : l.quads[m.address]? = some (.jump test .unresolved))
    (h : l.step? A m = some m₁) : m₁.address = m.address + 1 := by
  rw [step?, hquad, Option.bind_some, Machine.exec?] at h
  split at h
  · cases h
  · obtain rfl := Option.some.inj h
    rfl

/-- An open jump at the end of the listing is reached for the last time when it is reached. -/
theorem le_of_open_last (hquad : l.quads[m₁.address]? = some (.jump test .unresolved))
    (hlast : m₁.address + 1 = l.size) (hn : l.after? A n m = some m₁)
    (hk : l.after? A k m = some m₂) (heq : m₂.address = m₁.address) : k ≤ n := by
  by_contra hlt
  obtain ⟨d, rfl⟩ : ∃ d, k = n + (d + 1) := ⟨k - n - 1, by omega⟩
  rw [after?_add, hn, Option.bind_some, after?] at hk
  obtain ⟨m', hstep, hd⟩ := Option.bind_eq_some_iff.1 hk
  have haddress := address_of_step?_open hquad hstep
  have hhalts : l.HaltsIn A 0 m' := ⟨m', rfl, haddress.trans hlast⟩
  obtain ⟨hzero, -⟩ := hhalts.of_after? hd
  obtain rfl : d = 0 := by omega
  obtain rfl := Option.some.inj hd
  omega

theorem Reaches.unique_open_last (h₁ : l.Reaches A m m₁) (h₂ : l.Reaches A m m₂)
    (hquad : l.quads[m₁.address]? = some (.jump test .unresolved)) (hlast : m₁.address + 1 = l.size)
    (heq : m₂.address = m₁.address) : m₁ = m₂ := by
  obtain ⟨n, hn⟩ := h₁
  obtain ⟨k, hk⟩ := h₂
  have hkn : k ≤ n := le_of_open_last hquad hlast hn hk heq
  have hnk : n ≤ k := le_of_open_last (by rwa [heq]) (by rwa [heq]) hk hn heq.symm
  obtain rfl : n = k := Nat.le_antisymm hnk hkn
  exact Option.some.inj (hn.symm.trans hk)

end Listing

/-! ## Both ways to use a test -/

namespace Builder

variable {V : Type u}

/-- The code of the test is appended to what has been built and run from there. It leads to its
jump, which is taken if `taken` is set. -/
def Jumps (A : Arithmetic V) (b : Builder) (test : Expr) (s : Store V) (t : Nat → V)
    (taken : Bool) : Prop :=
  ∃ jump b' failure t', lowerTest test b = .ok jump b' ∧
    b'.quads[jump.address]? = some (.jump failure .unresolved) ∧
    (Listing.mk b'.quads).Reaches A ⟨b.address, s, t⟩ ⟨jump.address, s, t'⟩ ∧
      failure.taken A s t' = taken

/-- The code of the expression is appended to what has been built and run from there. It leads to
its end and gives the value. -/
def Yields (A : Arithmetic V) (b : Builder) (e : Expr) (s : Store V) (t : Nat → V)
    (value : V) : Prop :=
  ∃ operand b' t', lowerExpr e b = .ok operand b' ∧
    (Listing.mk b'.quads).Reaches A ⟨b.address, s, t⟩ ⟨b'.address, s, t'⟩ ∧
      operand.value A s t' = value

variable {A : Arithmetic V} {b : Builder} {s : Store V} {t : Nat → V}

/-- There is one way only for the jump to go. -/
theorem Jumps.unique {test : Expr} {taken taken' : Bool} (h : b.Jumps A test s t taken)
    (h' : b.Jumps A test s t taken') : taken = taken' := by
  obtain ⟨jump, b₁, failure, t₁, hlower, hquad, hreach, rfl⟩ := h
  obtain ⟨jump', b₂, failure', t₂, hlower', hquad', hreach', rfl⟩ := h'
  obtain ⟨rfl, rfl⟩ := EStateM.Result.ok.inj (hlower.symm.trans hlower')
  obtain ⟨rfl, -⟩ := Quad.jump.inj (Option.some.inj (hquad.symm.trans hquad'))
  have hlast : jump.address + 1 = b₁.quads.length := by
    obtain ⟨rfl, rfl⟩ := EStateM.Result.ok.inj ((lowerTest_eq test b).symm.trans hlower)
    simp only [List.length_append, List.length_singleton, Expr.length_testCode]
    rfl
  obtain ⟨-, -, rfl⟩ := Machine.mk.inj (hreach.unique_open_last hreach' hquad hlast rfl)
  rfl

theorem Yields.unique {e : Expr} {value value' : V} (h : b.Yields A e s t value)
    (h' : b.Yields A e s t value') : value = value' := by
  obtain ⟨operand, b₁, t₁, hlower, hreach, rfl⟩ := h
  obtain ⟨operand', b₂, t₂, hlower', hreach', rfl⟩ := h'
  obtain ⟨rfl, rfl⟩ := EStateM.Result.ok.inj (hlower.symm.trans hlower')
  obtain ⟨-, -, rfl⟩ := Machine.mk.inj (hreach.unique hreach' rfl rfl)
  rfl

variable (A b s t)

theorem codeAt_address (code : List Quad) :
    (Listing.mk (b.quads ++ code)).CodeAt b.address code := by
  have hcode := (Listing.mk (b.quads ++ code)).codeAt_zero.right
  rwa [Nat.zero_add] at hcode

theorem jumps_fails (test : Expr) : b.Jumps A test s t (test.fails A s) := by
  have hcode :=
    b.codeAt_address (test.testCode b.temps ++ [.jump (test.failure b.temps) .unresolved])
  obtain ⟨t', hreach, htaken⟩ := test.reaches_testCode (A := A) hcode.left s t
  refine ⟨_, _, test.failure b.temps, t', lowerTest_eq test b, ?_, hreach, htaken⟩
  have hjump := hcode.right.head
  rwa [Expr.length_testCode] at hjump

theorem yields_eval (e : Expr) : b.Yields A e s t (e.eval A s) := by
  obtain ⟨t', hreach, hvalue, -⟩ := e.reaches_code (A := A) (b.codeAt_address (e.code b.temps)) s t
  have haddress : b.address + e.operations = (b.quads ++ e.code b.temps).length := by
    rw [List.length_append, Expr.length_code]
    rfl
  rw [haddress] at hreach
  exact ⟨_, _, t', lowerExpr_eq e b, hreach, hvalue⟩

theorem jumps_iff (test : Expr) (taken : Bool) :
    b.Jumps A test s t taken ↔ taken = test.fails A s :=
  ⟨fun h => h.unique (b.jumps_fails A s t test), fun h => h ▸ b.jumps_fails A s t test⟩

theorem yields_iff (e : Expr) (value : V) : b.Yields A e s t value ↔ value = e.eval A s :=
  ⟨fun h => h.unique (b.yields_eval A s t e), fun h => h ▸ b.yields_eval A s t e⟩

end Builder

namespace Expr

/-- The expression asks which of two values is the greater, and one of them is no number. -/
def Unordered (s : Store Binary64) : Expr → Prop
  | .binary op left right _ =>
    (op = .gt ∨ op = .lt) ∧ (left.eval .double s = .nan ∨ right.eval .double s = .nan)
  | _ => False

theorem fails_eq_isZero_iff (s : Store Binary64) (test : Expr) :
    test.fails .double s = Arithmetic.double.isZero (test.eval .double s) ↔ ¬ test.Unordered s := by
  cases test with
  | number x span => simp [fails, comparison?, Unordered]
  | name x span => simp [fails, comparison?, Unordered]
  | binary op left right span =>
    cases hc : op.comparison? with
    | none =>
      have hop : ¬ (op = .gt ∨ op = .lt) := by
        rintro (rfl | rfl)
        · cases hc
        · cases hc
      simp [fails, comparison?, hc, Unordered, hop]
    | some c =>
      have hcomparison : (Expr.binary op left right span).comparison? = some (c, left, right) :=
        comparison?_eq_some_iff.2 ⟨op, span, rfl, hc⟩
      rw [fails, hcomparison, eval, Arithmetic.double_isZero_apply hc]
      refine (Binary64.holds_negate_iff c _ _).trans ?_
      rw [Unordered]
      cases op with
      | eq | gt | lt =>
        obtain rfl := Option.some.inj hc
        simp
      | add | sub | mul | div | and => cases hc

end Expr

/-- Whatever has been built and whatever the variables are, a test has one value and its jump goes
one way. The jump is taken if and only if the value is zero, as long as the test does not ask which
of two values is the greater when one of them is no number; then it is otherwise. -/
theorem lowerTest_agrees_iff (b : Builder) (test : Expr) (s : Store Binary64) (t : Nat → Binary64) :
    ∃ taken value, (∀ taken', b.Jumps .double test s t taken' ↔ taken' = taken) ∧
      (∀ value', b.Yields .double test s t value' ↔ value' = value) ∧
      (taken = Arithmetic.double.isZero value ↔ ¬ test.Unordered s) :=
  ⟨_, _, b.jumps_iff .double s t test, b.yields_iff .double s t test, test.fails_eq_isZero_iff s⟩

/-- A script that branches on a variable which is no number. -/
def nanScript : String := "var x = (0/0); if (x > 1) \x7b x = 1; \x7d"

/-- The test of `nanScript`. -/
def nanTest : Expr := .binary .gt (.name "x" {}) (.number .one {}) {}

/-- The listing of `nanScript`. -/
def nanListing : Listing where
  quads :=
    [.operate (.apply .div) (.number .zero) (some (.number .zero)) (.temp 0),
      .operate .copy (.temp 0) none (.name "x"),
      .jump (.compare .le (.name "x") (.number .one)) (.to 4),
      .operate .copy (.number .one) none (.name "x")]

/-- The variable is no number when the test is reached, and the test computed there is zero. Its
jump is not taken, and the machine halts with the variable set to one by the body. -/
theorem lowerTest_disagrees_nan :
    compile nanScript = .ok nanListing ∧ ∃ s temps,
      nanListing.Reaches .double ⟨0, fun _ => .zero, fun _ => .zero⟩ ⟨2, s, temps⟩ ∧
      Builder.Yields .double {} nanTest s temps .zero ∧ Arithmetic.double.isZero .zero = true ∧
      Builder.Jumps .double {} nanTest s temps false ∧
      nanListing.Reaches .double ⟨2, s, temps⟩
        ⟨nanListing.size, Function.update s "x" .one, temps⟩ := by
  have hcompile : compile nanScript = .ok nanListing := eq_ok_of_toOption (by decide +kernel)
  have hvalue := Builder.yields_eval .double {} (Function.update (fun _ => .zero) "x" .nan)
    (Function.update (fun _ => .zero) 0 .nan) nanTest
  have hjump := Builder.jumps_fails .double {} (Function.update (fun _ => .zero) "x" .nan)
    (Function.update (fun _ => .zero) 0 .nan) nanTest
  exact ⟨hcompile, _, _, ⟨2, rfl⟩, hvalue, rfl, hjump, ⟨2, rfl⟩⟩

end Quadcode
