import Quadcode.Builder.Lowering
import Quadcode.Proofs.Machine

/-!
# The code of a program, piece by piece

A `Fragment` is code that can be placed at any address and use the temporaries from any number on.
Its size does not depend on either, and none of its jumps leaves it: each leads to an address of the
fragment or right behind it. `Stmt.fragment` gives the code of a statement as a fragment, with every
jump resolved from the start, and `lower_eq` says that this is the code that the builder emits with
its open jumps (`Builder.Emits`).
-/

namespace Quadcode

/-! ## Expressions and tests -/

namespace Expr

theorem comparison?_eq_some_iff {test : Expr} {c : Comparison} {left right : Expr} :
    test.comparison? = some (c, left, right) ↔
      ∃ op span, test = .binary op left right span ∧ op.comparison? = some c := by
  cases test with
  | number value span => simp [comparison?]
  | name y span => simp [comparison?]
  | binary op l r span =>
    simp only [comparison?, Option.map_eq_some_iff, Prod.mk.injEq, binary.injEq]
    constructor
    · rintro ⟨c', hc, rfl, rfl, rfl⟩
      exact ⟨op, span, ⟨rfl, rfl, rfl, rfl⟩, hc⟩
    · rintro ⟨_, _, ⟨rfl, rfl, rfl, rfl⟩, hc⟩
      exact ⟨c, hc, rfl, rfl, rfl⟩

/-- How many operations there are in an expression. Each takes one quad and one temporary. -/
def operations : Expr → Nat
  | .number _ _ => 0
  | .name _ _ => 0
  | .binary _ left right _ => left.operations + right.operations + 1

/-- The operand that holds the value of an expression whose code uses the
temporaries from `k` on. -/
def operand (k : Nat) : Expr → Operand
  | .number value _ => .number value
  | .name x _ => .name x
  | .binary _ left right _ => .temp (k + left.operations + right.operations)

/-- The code of an expression that uses the temporaries from `k` on. -/
def code (k : Nat) : Expr → List Quad
  | .number _ _ => []
  | .name _ _ => []
  | .binary op left right _ =>
    left.code k ++ (right.code (k + left.operations) ++
      [.operate (.apply op) (left.operand k) (some (right.operand (k + left.operations)))
        (.temp (k + left.operations + right.operations))])

/-- How many operations come before the jump of a test; a comparison at the root is
made by the jump itself. -/
def testOperations (test : Expr) : Nat :=
  match test.comparison? with
  | some (_, left, right) => left.operations + right.operations
  | none => test.operations

/-- The code of a test that comes before its jump. -/
def testCode (k : Nat) (test : Expr) : List Quad :=
  match test.comparison? with
  | some (_, left, right) => left.code k ++ right.code (k + left.operations)
  | none => test.code k

/-- When the test fails. -/
def failure (k : Nat) (test : Expr) : Test :=
  match test.comparison? with
  | some (c, left, right) =>
    .compare c.negate (left.operand k) (right.operand (k + left.operations))
  | none => .isZero (test.operand k)

@[simp] theorem length_code (k : Nat) (e : Expr) : (e.code k).length = e.operations := by
  induction e generalizing k with
  | number value span => rfl
  | name x span => rfl
  | binary op left right span ihl ihr => simp [code, operations, ihl, ihr, Nat.add_assoc]

@[simp] theorem length_testCode (k : Nat) (test : Expr) :
    (test.testCode k).length = test.testOperations := by
  unfold testCode testOperations
  split <;> simp

theorem sound_code {k : Nat} {e : Expr} {q : Quad} (h : q ∈ e.code k) (low high : Nat) :
    q.Sound low high := by
  induction e generalizing k with
  | number value span => cases h
  | name x span => cases h
  | binary op left right span ihl ihr =>
    simp only [code, List.mem_append, List.mem_singleton] at h
    rcases h with h | h | rfl
    · exact ihl h
    · exact ihr h
    · exact ⟨.inr rfl, nofun⟩

theorem sound_testCode {k : Nat} {test : Expr} {q : Quad} (h : q ∈ test.testCode k)
    (low high : Nat) : q.Sound low high := by
  unfold testCode at h
  split at h
  · rcases List.mem_append.1 h with h | h
    · exact sound_code h low high
    · exact sound_code h low high
  · exact sound_code h low high

end Expr

/-! ## Fragments -/

/-- Code for any address and any first temporary, whose jumps stay inside. -/
structure Fragment where
  size : Nat
  temps : Nat
  code : Nat → Nat → List Quad
  length_code : ∀ base k, (code base k).length = size
  sound_code : ∀ base k, ∀ q ∈ code base k, q.Sound base (base + size)

namespace Fragment

attribute [simp] length_code

/-- No code at all. -/
def empty : Fragment where
  size := 0
  temps := 0
  code _ _ := []
  length_code _ _ := rfl
  sound_code _ _ _ hq := absurd hq List.not_mem_nil

/-- One fragment after the other. -/
def append (f g : Fragment) : Fragment where
  size := f.size + g.size
  temps := f.temps + g.temps
  code base k := f.code base k ++ g.code (base + f.size) (k + f.temps)
  length_code base k := by simp
  sound_code base k q hq := by
    rcases List.mem_append.1 hq with hq | hq
    · exact (f.sound_code base k q hq).mono (Nat.le_refl _) (by omega)
    · exact (g.sound_code _ _ q hq).mono (by omega) (by omega)

/-- The operations of an expression. -/
def value (e : Expr) : Fragment where
  size := e.operations
  temps := e.operations
  code _ k := e.code k
  length_code _ k := e.length_code k
  sound_code _ _ _ hq := Expr.sound_code hq _ _

/-- Gives a variable the value of an expression. -/
def assign (x : String) (e : Expr) : Fragment where
  size := e.operations + 1
  temps := e.operations
  code _ k := e.code k ++ [.operate .copy (e.operand k) none (.name x)]
  length_code _ k := by simp
  sound_code base k q hq := by
    rcases List.mem_append.1 hq with hq | hq
    · exact Expr.sound_code hq _ _
    · obtain rfl := List.mem_singleton.1 hq
      exact ⟨.inl rfl, nofun⟩

/-- A test, and a fragment that is run only if the test holds. -/
def branch (test : Expr) (body : Fragment) : Fragment where
  size := test.testOperations + 1 + body.size
  temps := test.testOperations + body.temps
  code base k :=
    test.testCode k ++
      .jump (test.failure k) (.to (base + (test.testOperations + 1 + body.size))) ::
      body.code (base + (test.testOperations + 1)) (k + test.testOperations)
  length_code base k := by simp; omega
  sound_code base k q hq := by
    rcases List.mem_append.1 hq with hq | hq
    · exact Expr.sound_testCode hq _ _
    · rcases List.mem_cons.1 hq with rfl | hq
      · exact ⟨_, rfl, by omega, Nat.le_refl _⟩
      · exact (body.sound_code _ _ q hq).mono (by omega) (by omega)

/-- A test, and a fragment that is run again and again until the test fails. -/
def loop (test : Expr) (body : Fragment) : Fragment where
  size := test.testOperations + 1 + body.size + 1
  temps := test.testOperations + body.temps
  code base k :=
    test.testCode k ++
      .jump (test.failure k) (.to (base + (test.testOperations + 1 + body.size + 1))) ::
      (body.code (base + (test.testOperations + 1)) (k + test.testOperations) ++
        [.jump .always (.to base)])
  length_code base k := by simp; omega
  sound_code base k q hq := by
    simp only [List.mem_append, List.mem_cons, List.not_mem_nil, or_false] at hq
    rcases hq with hq | rfl | hq | rfl
    · exact Expr.sound_testCode hq _ _
    · exact ⟨_, rfl, by omega, Nat.le_refl _⟩
    · exact (body.sound_code _ _ q hq).mono (by omega) (by omega)
    · exact ⟨_, rfl, (Nat.le_refl _), by omega⟩

end Fragment

namespace Stmt

mutual

/-- The code of a statement. -/
def fragment : Stmt → Fragment
  | .print value _ => .value value
  | .declare name value _ => .assign name.text value
  | .assign name value _ => .assign name.text value
  | .ifThen test body _ => .branch test (fragmentAll body)
  | .whileDo test body _ => .loop test (fragmentAll body)
  | .forDo initial test step body _ =>
    (fragment initial).append (.loop test ((fragmentAll body).append (fragment step)))
termination_by structural s => s

/-- The code of statements one after the other. -/
def fragmentAll : List Stmt → Fragment
  | [] => .empty
  | s :: rest => (fragment s).append (fragmentAll rest)
termination_by structural body => body

end

end Stmt

/-! ## The builder emits the fragments -/

namespace Builder

/-- Every pending jump has been emitted. -/
def Bounded (b : Builder) : Prop :=
  ∀ a : Nat, a ∈ b.pending → a < b.quads.length

theorem lowerExpr_eq (e : Expr) (b : Builder) :
    lowerExpr e b = .ok (e.operand b.temps)
      { b with quads := b.quads ++ e.code b.temps, temps := b.temps + e.operations } := by
  induction e generalizing b with
  | number value span =>
    simp [lowerExpr, pure, EStateM.pure, Expr.operand, Expr.code, Expr.operations]
  | name x span => simp [lowerExpr, pure, EStateM.pure, Expr.operand, Expr.code, Expr.operations]
  | binary op left right span ihl ihr =>
    simp [lowerExpr, bind, EStateM.bind, pure, EStateM.pure, ihl, ihr, freshTemp, emit,
      Expr.operand, Expr.code, Expr.operations, Nat.add_assoc]

theorem lowerTest_eq (test : Expr) (b : Builder) :
    lowerTest test b = .ok { address := b.quads.length + test.testOperations }
      { quads := b.quads ++ (test.testCode b.temps ++ [.jump (test.failure b.temps) .unresolved])
        temps := b.temps + test.testOperations
        pending := b.pending ++ [b.quads.length + test.testOperations] } := by
  cases h : test.comparison? with
  | none =>
    simp [lowerTest, Expr.testOperations, Expr.testCode, Expr.failure, h, bind, EStateM.bind,
      lowerExpr_eq, reserve, Quad.target?, Builder.address]
  | some comparison =>
    simp [lowerTest, Expr.testOperations, Expr.testCode, Expr.failure, h, bind, EStateM.bind,
      lowerExpr_eq, reserve, Quad.target?, Builder.address, Nat.add_assoc]

theorem lowerAssign_eq (name : Ident) (value : Expr) (b : Builder) :
    lowerAssign name value b = .ok ()
      { b with
        quads := b.quads ++ (Fragment.assign name.text value).code b.quads.length b.temps
        temps := b.temps + value.operations } := by
  simp [lowerAssign, bind, EStateM.bind, pure, EStateM.pure, lowerExpr_eq, emit, Fragment.assign]

/-- Patching the last pending jump resolves it, and leaves all else. -/
theorem patch_eq {pre post : List Quad} {test : Test} {pending : List Address} (temps : Nat)
    (target : Target) (h : ∀ a ∈ pending, a < pre.length) :
    patch { address := pre.length } target
        { quads := pre ++ .jump test .unresolved :: post, temps,
          pending := pending ++ [pre.length] } =
      .ok () { quads := pre ++ .jump test target :: post, temps, pending } := by
  -- All other pending jumps come before this one, so that it is the last entry that is erased.
  have hnot : pre.length ∉ pending := fun hmem => Nat.lt_irrefl _ (h _ hmem)
  simp [patch, List.erase_append_right _ hnot]

/-- Whatever has been built, the action appends the fragment to it and leaves the
pending jumps as they are. -/
def Emits (build : Build Unit) (f : Fragment) : Prop :=
  ∀ b : Builder, b.Bounded → build b = .ok ()
    { b with quads := b.quads ++ f.code b.quads.length b.temps, temps := b.temps + f.temps }

variable {build build' : Build Unit} {f g : Fragment}

theorem emits_pure : Emits (pure ()) .empty := by
  intro b _
  simp [pure, EStateM.pure, Fragment.empty]

theorem Bounded.append {b : Builder} (hb : b.Bounded) (code : List Quad) (temps : Nat) :
    Bounded { b with quads := b.quads ++ code, temps } := by
  intro a ha
  have := hb a ha
  simp only [List.length_append]
  omega

theorem Emits.bind (h : Emits build f) (h' : Emits build' g) :
    Emits (do build; build') (f.append g) := by
  intro b hb
  simp [Bind.bind, EStateM.bind, h b hb, h' _ (hb.append _ _), Fragment.append, Nat.add_assoc]

theorem emits_lowerAssign (name : Ident) (value : Expr) :
    Emits (lowerAssign name value) (.assign name.text value) :=
  fun b _ => lowerAssign_eq name value b

theorem emits_value (value : Expr) : Emits (do let _ ← lowerExpr value) (.value value) := by
  intro b _
  simp [Bind.bind, EStateM.bind, pure, EStateM.pure, lowerExpr_eq, Fragment.value]

/-- The builder once a test has been emitted. -/
abbrev withTest (b : Builder) (test : Expr) : Builder where
  quads := b.quads ++ (test.testCode b.temps ++ [.jump (test.failure b.temps) .unresolved])
  temps := b.temps + test.testOperations
  pending := b.pending ++ [b.quads.length + test.testOperations]

theorem Bounded.withTest {b : Builder} (hb : b.Bounded) (test : Expr) :
    (b.withTest test).Bounded := by
  intro a ha
  simp only [List.length_append, Expr.length_testCode, List.length_singleton]
  rcases List.mem_append.1 ha with ha | ha
  · have := hb a ha
    omega
  · have := List.mem_singleton.1 ha
    omega

/-- The jump of a test is patched when the code behind it is there. -/
theorem patch_withTest {b : Builder} (hb : b.Bounded) (test : Expr) (code : List Quad) (temps : Nat)
    (target : Target) :
    patch { address := b.quads.length + test.testOperations } target
        { b.withTest test with quads := (b.withTest test).quads ++ code, temps } =
      .ok () { b with
        quads := b.quads ++ (test.testCode b.temps ++ .jump (test.failure b.temps) target :: code),
        temps } := by
  have hlt (a : Nat) (ha : a ∈ b.pending) : a < (b.quads ++ test.testCode b.temps).length := by
    have := hb a ha
    simp only [List.length_append]
    omega
  have hpatch := @patch_eq _ code (test.failure b.temps) _ temps target hlt
  simpa using hpatch

theorem emits_lowerBranch (test : Expr) (h : Emits build f) :
    Emits (lowerBranch test build) (.branch test f) := by
  intro b hb
  have hbuild := h _ (hb.withTest test)
  simp only [lowerBranch, Bind.bind, EStateM.bind, lowerTest_eq, hbuild, here, patch_withTest hb]
  simp [Fragment.branch, Builder.address, Nat.add_assoc, Nat.add_comm 1]

theorem emits_lowerLoop (test : Expr) (h : Emits build f) :
    Emits (lowerLoop test build) (.loop test f) := by
  intro b hb
  have hbuild := h _ (hb.withTest test)
  have hpatch := patch_withTest hb test
  simp only [List.append_assoc] at hpatch
  simp only [lowerLoop, Bind.bind, EStateM.bind, lowerTest_eq, hbuild, here, emit,
    List.append_assoc, hpatch]
  simp [Fragment.loop, Builder.address, Nat.add_assoc, Nat.add_comm 1]

mutual

theorem emits_lowerStmt (s : Stmt) : Emits (lowerStmt s) s.fragment := by
  match s with
  | .print value _ => exact emits_value value
  | .declare name value _ => exact emits_lowerAssign name value
  | .assign name value _ => exact emits_lowerAssign name value
  | .ifThen test body _ => exact emits_lowerBranch test (emits_lowerAll body)
  | .whileDo test body _ => exact emits_lowerLoop test (emits_lowerAll body)
  | .forDo initial test step body _ =>
    exact (emits_lowerStmt initial).bind
      (emits_lowerLoop test ((emits_lowerAll body).bind (emits_lowerStmt step)))

theorem emits_lowerAll (body : List Stmt) : Emits (lowerAll body) (Stmt.fragmentAll body) := by
  match body with
  | [] => exact emits_pure
  | s :: rest => exact (emits_lowerStmt s).bind (emits_lowerAll rest)

end

end Builder

/-- The listing of a program is its fragment, placed at the start. -/
theorem lower_eq (program : List Stmt) :
    lower program = { quads := (Stmt.fragmentAll program).code 0 0 } := by
  have hemits := Builder.emits_lowerAll program {} nofun
  simp [lower, Builder.ofProgram, hemits]

theorem size_lower (program : List Stmt) :
    (lower program).size = (Stmt.fragmentAll program).size := by
  simp [lower_eq, Listing.size]

end Quadcode
