import Quadcode.Proofs.Lowering.Fragment

/-!
# Statements are blocks

The code of a statement, wherever the statement stands in a program, is a block with one entry and
one exit: no jump leads from outside into the middle of it, and none leads from inside to anything
but its own addresses and the one right behind. Where a statement stands is given by its
`Surroundings`, a program with a hole. Lowering them with an action in the hole that stops
(`Surroundings.lower`) shows the builder in which the lowering of the statement begins. What the
builder emits with a hole is a fragment that holds the code of the hole and jumps around it
(`Fragment.Holds`), and this is kept when surroundings are put together (`Encloses.comp`). Apart
from that, a jump that is always taken leads back, and one with a test leads on.
-/

namespace Quadcode

/-! ## Where jumps lead -/

/-- If the quad jumps, its target is resolved and as stated for its test. -/
def Quad.Targets (P : Test → Nat → Prop) : Quad → Prop
  | .operate _ _ _ _ => True
  | .jump test target => ∃ a : Nat, target = .to a ∧ P test a

namespace Quad

variable {P Q : Test → Nat → Prop} {q : Quad}

theorem Targets.mono (h : q.Targets P) (hPQ : ∀ test a, P test a → Q test a) : q.Targets Q := by
  cases q with
  | operate operation left right result => trivial
  | jump test target =>
    obtain ⟨a, rfl, ha⟩ := h
    exact ⟨a, rfl, hPQ test a ha⟩

theorem Sound.targets {low high : Nat} (h : q.Sound low high) :
    q.Targets fun _ a => low ≤ a ∧ a ≤ high := by
  cases q with
  | operate operation left right result => trivial
  | jump test target => exact h

/-- A quad that is sound for all bounds does not jump. -/
theorem targets_of_sound (h : ∀ low high, q.Sound low high) : q.Targets P :=
  (h 1 0).targets.mono fun _ a ha => absurd ha (by omega)

end Quad

/-! ## Code within code -/

/-- In the code of `f` is that of `g`, `offset` quads and `temps` temporaries behind the start. No
jump of the rest leads to an address between the first quad of `g` and the end of `g`. -/
def Fragment.Holds (f g : Fragment) (offset temps : Nat) : Prop :=
  ∀ base k, ∃ before after, f.code base k = before ++ g.code (base + offset) (k + temps) ++ after ∧
    before.length = offset ∧
    ∀ q ∈ before ++ after, q.Targets fun _ a => a ≤ base + offset ∨ base + offset + g.size ≤ a

namespace Fragment

theorem holds_self (f : Fragment) : f.Holds f 0 0 := by
  intro base k
  exact ⟨[], [], by simp, rfl, fun _ hq => absurd hq List.not_mem_nil⟩

theorem Holds.trans {f g h : Fragment} {offset offset' temps temps' : Nat}
    (hfg : f.Holds g offset temps) (hgh : g.Holds h offset' temps') :
    f.Holds h (offset + offset') (temps + temps') := by
  intro base k
  obtain ⟨before, after, hf, hbefore, houter⟩ := hfg base k
  obtain ⟨before', after', hg, hbefore', hinner⟩ := hgh (base + offset) (k + temps)
  have hsize : offset' + h.size + after'.length = g.size := by
    have hlength := congrArg List.length hg
    simp only [List.length_append, length_code, hbefore'] at hlength
    exact hlength.symm
  refine ⟨before ++ before', after' ++ after, ?_, ?_, ?_⟩
  · rw [hf, hg]
    simp only [List.append_assoc, Nat.add_assoc]
  · rw [List.length_append, hbefore, hbefore']
  · intro q hq
    -- The quad stands around `g`, and then it jumps around all of `g`, or it stands in `g` and
    -- around `h`.
    have hcases : q ∈ before ++ after ∨ q ∈ before' ++ after' := by
      simp only [List.mem_append] at hq ⊢
      rcases hq with (hq | hq) | hq | hq <;> simp [hq]
    rcases hcases with hq | hq
    · refine (houter q hq).mono fun _ a ha => ?_
      omega
    · refine (hinner q hq).mono fun _ a ha => ?_
      omega

theorem append_holds_left (f g : Fragment) : (f.append g).Holds f 0 0 := by
  intro base k
  refine ⟨[], g.code (base + f.size) (k + f.temps), rfl, rfl, fun q hq => ?_⟩
  exact (g.sound_code _ _ q hq).targets.mono fun _ a ha => .inr ha.1

theorem append_holds_right (f g : Fragment) : (f.append g).Holds g f.size f.temps := by
  intro base k
  refine ⟨f.code base k, [], by simp [append], by simp, fun q hq => ?_⟩
  rw [List.append_nil] at hq
  exact (f.sound_code _ _ q hq).targets.mono fun _ a ha => .inl ha.2

theorem branch_holds (test : Expr) (body : Fragment) :
    (branch test body).Holds body (test.testOperations + 1) test.testOperations := by
  intro base k
  refine ⟨test.testCode k ++
    [.jump (test.failure k) (.to (base + (test.testOperations + 1 + body.size)))], [],
    by simp [branch], by simp, fun q hq => ?_⟩
  simp only [List.append_nil, List.mem_append, List.mem_singleton] at hq
  rcases hq with hq | rfl
  · exact Quad.targets_of_sound (Expr.sound_testCode hq)
  · exact ⟨_, rfl, .inr (by omega)⟩

theorem loop_holds (test : Expr) (body : Fragment) :
    (loop test body).Holds body (test.testOperations + 1) test.testOperations := by
  intro base k
  refine ⟨test.testCode k ++
    [.jump (test.failure k) (.to (base + (test.testOperations + 1 + body.size + 1)))],
    [.jump .always (.to base)], by simp [loop], by simp, fun q hq => ?_⟩
  simp only [List.mem_append, List.mem_singleton] at hq
  rcases hq with (hq | rfl) | rfl
  · exact Quad.targets_of_sound (Expr.sound_testCode hq)
  · exact ⟨_, rfl, .inr (by omega)⟩
  · exact ⟨_, rfl, .inl (by omega)⟩

end Fragment

/-! ## Actions around an action -/

namespace Builder

/-- From every builder the action comes to its hole, `offset` quads and `temps` temporaries further
on, and it fails if the action in the hole fails there. -/
def Reaches (around : Build Unit → Build Unit) (offset temps : Nat) : Prop :=
  ∀ b : Builder, b.Bounded →
    ∃ b' : Builder, b'.Bounded ∧ b'.quads.length = b.quads.length + offset ∧
    b'.temps = b.temps + temps ∧
    ∀ (inner : Build Unit) (e : JumpError) (b'' : Builder), inner b' = .error e b'' →
      around inner b = .error e b''

/-- An action with a hole emits a fragment around the one of the hole. -/
structure Surrounds (around : Build Unit → Build Unit) (wrap : Fragment → Fragment)
    (offset temps : Nat) : Prop where
  emits : ∀ {inner : Build Unit} {f : Fragment}, Emits inner f → Emits (around inner) (wrap f)
  holds : ∀ f, (wrap f).Holds f offset temps
  reaches : Reaches around offset temps

/-- The hole of the action is a block of what the action emits. -/
def Encloses (around : Build Unit → Build Unit) : Prop :=
  ∃ wrap offset temps, Surrounds around wrap offset temps

variable {build : Build Unit} {f : Fragment} {around around' : Build Unit → Build Unit}

theorem encloses_id : Encloses id :=
  ⟨id, 0, 0, fun h => h, Fragment.holds_self, fun b hb => ⟨b, hb, rfl, rfl, fun _ _ _ h => h⟩⟩

theorem Encloses.comp (h : Encloses around) (h' : Encloses around') :
    Encloses (around ∘ around') := by
  obtain ⟨wrap, offset, temps, hs⟩ := h
  obtain ⟨wrap', offset', temps', hs'⟩ := h'
  refine ⟨wrap ∘ wrap', offset + offset', temps + temps', fun hinner => hs.emits (hs'.emits hinner),
    fun f => (hs.holds _).trans (hs'.holds f), fun b hb => ?_⟩
  obtain ⟨b₁, hb₁, haddress, htemps, hstop⟩ := hs.reaches b hb
  obtain ⟨b₂, hb₂, haddress', htemps', hstop'⟩ := hs'.reaches b₁ hb₁
  refine ⟨b₂, hb₂, by omega, by omega, fun inner e b' hinner => ?_⟩
  exact hstop _ e b' (hstop' inner e b' hinner)

theorem Emits.encloses_behind (h : Emits build f) : Encloses fun inner => (do build; inner) := by
  refine ⟨f.append, f.size, f.temps, fun hinner => h.bind hinner, f.append_holds_right,
    fun b hb => ?_⟩
  refine ⟨_, hb.append (f.code b.quads.length b.temps) (b.temps + f.temps), by simp, rfl, ?_⟩
  intro inner e b' hinner
  simp [Bind.bind, EStateM.bind, h b hb, hinner]

theorem Emits.encloses_before (h : Emits build f) : Encloses fun inner => (do inner; build) := by
  refine ⟨(·.append f), 0, 0, fun hinner => hinner.bind h, (·.append_holds_left f), fun b hb => ?_⟩
  refine ⟨b, hb, rfl, rfl, fun inner e b' hinner => ?_⟩
  simp [Bind.bind, EStateM.bind, hinner]

theorem encloses_lowerBranch (test : Expr) : Encloses (lowerBranch test) := by
  refine ⟨.branch test, _, _, emits_lowerBranch test, Fragment.branch_holds test, fun b hb => ?_⟩
  refine ⟨b.withTest test, hb.withTest test, by simp, rfl, fun inner e b' hinner => ?_⟩
  simp [lowerBranch, Bind.bind, EStateM.bind, lowerTest_eq, hinner]

theorem encloses_lowerLoop (test : Expr) : Encloses (lowerLoop test) := by
  refine ⟨.loop test, _, _, emits_lowerLoop test, Fragment.loop_holds test, fun b hb => ?_⟩
  refine ⟨b.withTest test, hb.withTest test, by simp, rfl, fun inner e b' hinner => ?_⟩
  simp [lowerLoop, Bind.bind, EStateM.bind, lowerTest_eq, hinner, here]

end Builder

/-! ## Places in a program -/

/-- What there is of a compound statement around one of the statements in it. -/
inductive Layer where
  | ifThen (test : Expr) (before after : List Stmt) (span : Span)
  | whileDo (test : Expr) (before after : List Stmt) (span : Span)
  | forInitial (test : Expr) (step : Stmt) (body : List Stmt) (span : Span)
  | forBody (initial : Stmt) (test : Expr) (step : Stmt) (before after : List Stmt) (span : Span)
  | forStep (initial : Stmt) (test : Expr) (body : List Stmt) (span : Span)

/-- What there is of a program around a statement: what comes before and after it, or before and
after the compound statement that it stands in, and the layers of the compound statements around
it from the outside in. -/
structure Surroundings where
  before : List Stmt
  layers : List Layer
  after : List Stmt

open Builder

namespace Layer

/-- The compound statement. -/
def plug : Layer → Stmt → Stmt
  | .ifThen test before after span, s => .ifThen test (before ++ s :: after) span
  | .whileDo test before after span, s => .whileDo test (before ++ s :: after) span
  | .forInitial test step body span, s => .forDo s test step body span
  | .forBody initial test step before after span, s =>
    .forDo initial test step (before ++ s :: after) span
  | .forStep initial test body span, s => .forDo initial test s body span

/-- Emits the code of the compound statement, with an action of its own for the statement in it. -/
def lower : Layer → Build Unit → Build Unit
  | .ifThen test before after _, inner => lowerBranch test do
    lowerAll before
    inner
    lowerAll after
  | .whileDo test before after _, inner => lowerLoop test do
    lowerAll before
    inner
    lowerAll after
  | .forInitial test step body _, inner => do
    inner
    lowerLoop test do
      lowerAll body
      lowerStmt step
  | .forBody initial test step before after _, inner => do
    lowerStmt initial
    lowerLoop test do
      lowerAll before
      inner
      lowerAll after
      lowerStmt step
  | .forStep initial test body _, inner => do
    lowerStmt initial
    lowerLoop test do
      lowerAll body
      inner

end Layer

namespace Surroundings

/-- The program. -/
def plug (c : Surroundings) (s : Stmt) : List Stmt :=
  c.before ++ c.layers.foldr Layer.plug s :: c.after

/-- Emits the code of the program, with an action of its own for the statement. -/
def lower (c : Surroundings) (inner : Build Unit) : Build Unit := do
  lowerAll c.before
  c.layers.foldr Layer.lower inner
  lowerAll c.after

end Surroundings

theorem Builder.lowerAll_around (before : List Stmt) (s : Stmt) (after : List Stmt) :
    lowerAll (before ++ s :: after) = (do lowerAll before; lowerStmt s; lowerAll after) := by
  induction before with
  | nil => simp [lowerAll]
  | cons s' before ih => simp [lowerAll, ih]

theorem Layer.lower_lowerStmt (layer : Layer) (s : Stmt) :
    layer.lower (lowerStmt s) = lowerStmt (layer.plug s) := by
  cases layer <;> simp [lower, plug, lowerStmt, lowerAll_around]

theorem Surroundings.lower_lowerStmt (c : Surroundings) (s : Stmt) :
    c.lower (lowerStmt s) = lowerAll (c.plug s) := by
  have hlayers :
      c.layers.foldr Layer.lower (lowerStmt s) = lowerStmt (c.layers.foldr Layer.plug s) := by
    induction c.layers with
    | nil => rfl
    | cons layer layers ih => rw [List.foldr_cons, List.foldr_cons, ih, Layer.lower_lowerStmt]
  rw [Surroundings.lower, Surroundings.plug, lowerAll_around, hlayers]

theorem encloses_layer (layer : Layer) : Encloses layer.lower := by
  have hbody (before after : List Stmt) :
      Encloses fun inner => (do lowerAll before; inner; lowerAll after) :=
    (emits_lowerAll before).encloses_behind.comp (emits_lowerAll after).encloses_before
  cases layer with
  | ifThen test before after span => exact (encloses_lowerBranch test).comp (hbody before after)
  | whileDo test before after span => exact (encloses_lowerLoop test).comp (hbody before after)
  | forInitial test step body span =>
    exact (emits_lowerLoop test ((emits_lowerAll body).bind (emits_lowerStmt step))).encloses_before
  | forBody initial test step before after span =>
    have hrest := ((emits_lowerAll after).bind (emits_lowerStmt step)).encloses_before
    exact (emits_lowerStmt initial).encloses_behind.comp
      ((encloses_lowerLoop test).comp ((emits_lowerAll before).encloses_behind.comp hrest))
  | forStep initial test body span =>
    exact (emits_lowerStmt initial).encloses_behind.comp
      ((encloses_lowerLoop test).comp (emits_lowerAll body).encloses_behind)

theorem encloses_surroundings (c : Surroundings) : Encloses c.lower := by
  have hlayers : Encloses (c.layers.foldr Layer.lower) := by
    induction c.layers with
    | nil => exact encloses_id
    | cons layer layers ih => exact (encloses_layer layer).comp ih
  exact (emits_lowerAll c.before).encloses_behind.comp
    ((emits_lowerAll c.after).encloses_before.comp hlayers)

/-! ## Jumps on and jumps back -/

/-- At the address `a`, the quad does not jump, or it has a test and jumps on, or it
has none and jumps back. -/
abbrev Quad.Directed (a : Nat) (q : Quad) : Prop :=
  q.Targets fun test target => if test = .always then target < a else a < target

/-- All quads of code that begins at `base` are directed. -/
def DirectedFrom (base : Nat) (code : List Quad) : Prop :=
  ∀ p ∈ code.zipIdx base, p.1.Directed p.2

@[simp] theorem directedFrom_nil (base : Nat) : DirectedFrom base [] := by
  simp [DirectedFrom]

@[simp] theorem directedFrom_cons (base : Nat) (q : Quad) (code : List Quad) :
    DirectedFrom base (q :: code) ↔ q.Directed base ∧ DirectedFrom (base + 1) code := by
  simp only [DirectedFrom, List.zipIdx_cons, List.forall_mem_cons]

@[simp] theorem directedFrom_append (base : Nat) (code code' : List Quad) :
    DirectedFrom base (code ++ code') ↔
      DirectedFrom base code ∧ DirectedFrom (base + code.length) code' := by
  simp only [DirectedFrom, List.zipIdx_append, List.forall_mem_append]

theorem directedFrom_of_sound {code : List Quad} (h : ∀ q ∈ code, ∀ low high, q.Sound low high)
    (base : Nat) : DirectedFrom base code := by
  intro p hp
  exact Quad.targets_of_sound (h p.1 (List.fst_mem_of_mem_zipIdx hp))

theorem Expr.failure_ne_always (k : Nat) (test : Expr) : test.failure k ≠ .always := by
  unfold failure
  split <;> simp

theorem Expr.directedFrom_testCode (base k : Nat) (test : Expr) :
    DirectedFrom base (test.testCode k) :=
  directedFrom_of_sound (fun _ hq => sound_testCode hq) base

theorem Expr.directedFrom_code (base k : Nat) (e : Expr) : DirectedFrom base (e.code k) :=
  directedFrom_of_sound (fun _ hq => sound_code hq) base

namespace Fragment

/-- Wherever it is placed, the code is directed. -/
def Directed (f : Fragment) : Prop :=
  ∀ base k, DirectedFrom base (f.code base k)

variable {f g : Fragment}

theorem Directed.append (hf : f.Directed) (hg : g.Directed) : (f.append g).Directed := by
  intro base k
  show DirectedFrom base (f.code base k ++ g.code (base + f.size) (k + f.temps))
  rw [directedFrom_append, f.length_code]
  exact ⟨hf base k, hg _ _⟩

theorem directed_value (e : Expr) : (value e).Directed := fun base k => e.directedFrom_code base k

theorem directed_assign (x : String) (e : Expr) : (assign x e).Directed := by
  intro base k
  simp [assign, e.directedFrom_code, Quad.Targets]

theorem Directed.branch (hf : f.Directed) (test : Expr) : (branch test f).Directed := by
  intro base k
  simp only [Fragment.branch, directedFrom_append, directedFrom_cons, Expr.length_testCode]
  refine ⟨test.directedFrom_testCode base k, ⟨_, rfl, ?_⟩, hf _ _⟩
  simp only [if_neg (test.failure_ne_always k)]
  omega

theorem Directed.loop (hf : f.Directed) (test : Expr) : (loop test f).Directed := by
  intro base k
  simp only [Fragment.loop, directedFrom_append, directedFrom_cons, Expr.length_testCode,
    directedFrom_nil, and_true]
  refine ⟨test.directedFrom_testCode base k, ⟨_, rfl, ?_⟩, hf _ _, ⟨base, rfl, ?_⟩⟩
  · simp only [if_neg (test.failure_ne_always k)]
    omega
  · simp only [if_pos]
    omega

end Fragment

namespace Stmt

mutual

theorem directed_fragment (s : Stmt) : s.fragment.Directed := by
  match s with
  | .print value _ => exact Fragment.directed_value value
  | .declare name value _ | .assign name value _ => exact Fragment.directed_assign name.text value
  | .ifThen test body _ => exact (directed_fragmentAll body).branch test
  | .whileDo test body _ => exact (directed_fragmentAll body).loop test
  | .forDo initial test step body _ =>
    exact (directed_fragment initial).append
      (((directed_fragmentAll body).append (directed_fragment step)).loop test)

theorem directed_fragmentAll (body : List Stmt) : (fragmentAll body).Directed := by
  match body with
  | [] => exact fun base _ => directedFrom_nil base
  | s :: rest => exact (directed_fragment s).append (directed_fragmentAll rest)

end

end Stmt

/-! ## The blocks of a listing -/

/-- The quads that are emitted for a statement anywhere in a program, from the builder `b` in which
its lowering begins to the builder `b'` in which it ends, stand in the listing one after the other.
A jump among them stays among them or goes right behind, and no other jump leads to an address
between. Every jump with a test leads on, and every jump without one leads back. -/
theorem lower_blocks (program : List Stmt) :
    (∀ (c : Surroundings) (s : Stmt), c.plug s = program →
      ∃ (b b' : Builder) (before code after : List Quad),
      c.lower (lowerStmt s) = lowerAll program ∧ (∀ e, c.lower (throw e) {} = .error e b) ∧
      lowerStmt s b = .ok () b' ∧ b'.quads = b.quads ++ code ∧
      (lower program).quads = before ++ code ++ after ∧ before.length = b.address ∧
      (∀ q ∈ code, q.Targets fun _ a => b.address ≤ a ∧ a ≤ b'.address) ∧
      ∀ q ∈ before ++ after, q.Targets fun _ a => a ≤ b.address ∨ b'.address ≤ a) ∧
    ∀ (a : Nat) (q : Quad), (lower program).quads[a]? = some q →
      q.Targets fun test target => if test = .always then target < a else a < target := by
  constructor
  · rintro c s rfl
    obtain ⟨wrap, offset, temps, hsurrounds⟩ := encloses_surroundings c
    obtain ⟨b, hb, haddress, htemps, hstop⟩ := hsurrounds.reaches {} nofun
    obtain ⟨before, after, hcode, hbefore, houter⟩ := hsurrounds.holds s.fragment 0 0
    -- The hole is reached at the very address at which the fragment of the program holds the
    -- statement's own.
    change b.quads.length = 0 + offset at haddress
    change b.temps = 0 + temps at htemps
    rw [← haddress] at hcode houter
    rw [← htemps] at hcode
    have hlisting : (lower (c.plug s)).quads = (wrap s.fragment).code 0 0 := by
      have hemits := hsurrounds.emits (emits_lowerStmt s) {} nofun
      rw [c.lower_lowerStmt] at hemits
      simp [lower, ofProgram, hemits]
    have hend : (b.quads ++ s.fragment.code b.quads.length b.temps).length =
        b.quads.length + s.fragment.size := by
      rw [List.length_append, Fragment.length_code]
    refine ⟨b, _, before, s.fragment.code b.quads.length b.temps, after, c.lower_lowerStmt s,
      fun e => hstop _ e b rfl, emits_lowerStmt s b hb, rfl, hlisting.trans hcode, ?_,
      fun q hq => ?_, fun q hq => ?_⟩
    · rw [hbefore, address, haddress, Nat.zero_add]
    · rw [address, address, hend]
      exact (s.fragment.sound_code _ _ q hq).targets
    · rw [address, address, hend]
      exact houter q hq
  · intro a q hq
    have hdirected := Stmt.directed_fragmentAll program 0 0
    rw [lower_eq] at hq
    exact hdirected (q, a) (List.mem_zipIdx_iff_getElem?.2 hq)

/-- A counting loop with a hole for its body. -/
def nestedSurroundings : Surroundings where
  before := []
  layers := [.forBody (.assign { text := "i" } (.name "a" {}) {}) (.name "i" {})
    (.assign { text := "i" } (.name "b" {}) {}) [] [] {}]
  after := []

/-- A loop for the hole. -/
def nestedLoop : Stmt :=
  .whileDo (.name "x" {}) [.assign { text := "x" } (.name "b" {}) {}] {}

/-- The builder when it comes to the hole. -/
def nestedBuilder : Builder where
  quads := [.operate .copy (.name "a") none (.name "i"), .jump (.isZero (.name "i")) .unresolved]
  pending := [1]

/-- The code of `nestedLoop` in the hole. -/
def nestedCode : List Quad :=
  [.jump (.isZero (.name "x")) (.to 5), .operate .copy (.name "b") none (.name "x"),
    .jump .always (.to 2)]

theorem lower_blocks_nested :
    ∃ before after,
      (lower (nestedSurroundings.plug nestedLoop)).quads = before ++ nestedCode ++ after ∧
      before.length = 2 ∧ (∀ q ∈ nestedCode, q.Targets fun _ a => 2 ≤ a ∧ a ≤ 5) ∧
      ∀ q ∈ before ++ after, q.Targets fun _ a => a ≤ 2 ∨ 5 ≤ a := by
  obtain ⟨b, b', before, code, after, -, hstop, hlower, hquads, hlisting, hbefore, hinside,
      houtside⟩ :=
    (lower_blocks (nestedSurroundings.plug nestedLoop)).1 nestedSurroundings nestedLoop rfl
  have hstart : nestedSurroundings.lower (throw (.notOpen 0)) {} =
      .error (.notOpen 0) nestedBuilder := rfl
  have hend : lowerStmt nestedLoop nestedBuilder =
      .ok () { nestedBuilder with quads := nestedBuilder.quads ++ nestedCode } := rfl
  obtain rfl := (EStateM.Result.error.inj ((hstop _).symm.trans hstart)).2
  obtain rfl := (EStateM.Result.ok.inj (hlower.symm.trans hend)).2
  obtain rfl : nestedCode = code := List.append_cancel_left hquads
  exact ⟨before, after, hlisting, hbefore, hinside, houtside⟩

end Quadcode
