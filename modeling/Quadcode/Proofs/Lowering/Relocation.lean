import Mathlib.Data.List.Perm.Subperm
import Quadcode.Proofs.Lowering.Temporaries

/-!
# Code at another place

Lowering is compositional: behind other code a program has the code of its own listing, with every
target moved on by the length of the other code and every temporary by the number of temporaries in
it (`Quad.relocate`). For fragments this is read off their code (`Fragment.Relocatable`). What
lowering does to a builder does not depend on the jumps that are pending there already
(`Builder.Stable`), so that it holds from any builder.
-/

namespace Quadcode

/-! ## Relocated code -/

/-- The operand that stands for it where the temporaries begin `temps` further on. -/
def Operand.shift (temps : Nat) : Operand → Operand
  | .number value => .number value
  | .name x => .name x
  | .temp i => .temp (i + temps)

/-- The test where the temporaries begin `temps` further on. -/
def Test.shift (temps : Nat) : Test → Test
  | .always => .always
  | .isZero x => .isZero (x.shift temps)
  | .isNonzero x => .isNonzero (x.shift temps)
  | .compare c left right => .compare c (left.shift temps) (right.shift temps)

/-- The target where the code begins `offset` quads further on. -/
def Target.shift (offset : Nat) : Target → Target
  | .unresolved => .unresolved
  | .to a => .to (a + offset)

/-- The quad in code that begins `offset` quads and `temps` temporaries further on. -/
def Quad.relocate (offset temps : Nat) : Quad → Quad
  | .operate operation left right result =>
    .operate operation (left.shift temps) (right.map (Operand.shift temps)) (result.shift temps)
  | .jump test target => .jump (test.shift temps) (target.shift offset)

@[simp] theorem Operand.shift_name (temps : Nat) (x : String) :
    (Operand.name x).shift temps = .name x := rfl

@[simp] theorem Operand.shift_temp (temps i : Nat) :
    (Operand.temp i).shift temps = .temp (i + temps) := rfl

@[simp] theorem Test.shift_always (temps : Nat) : Test.always.shift temps = .always := rfl

@[simp] theorem Target.shift_to (offset a : Nat) :
    (Target.to a).shift offset = .to (a + offset) := rfl

namespace Expr

theorem operand_add (k temps : Nat) (e : Expr) :
    e.operand (k + temps) = (e.operand k).shift temps := by
  cases e with
  | number value span => rfl
  | name x span => rfl
  | binary op left right span =>
    show Operand.temp _ = .temp _
    congr 1
    omega

theorem code_add (k offset temps : Nat) (e : Expr) :
    e.code (k + temps) = (e.code k).map (Quad.relocate offset temps) := by
  induction e generalizing k with
  | number value span => rfl
  | name x span => rfl
  | binary op left right span ihl ihr =>
    simp only [code, List.map_append, List.map_cons, List.map_nil, Quad.relocate, Option.map_some,
      Operand.shift_temp, ← operand_add, ← ihl, ← ihr, Nat.add_right_comm _ temps]

theorem testCode_add (k offset temps : Nat) (test : Expr) :
    test.testCode (k + temps) = (test.testCode k).map (Quad.relocate offset temps) := by
  unfold testCode
  split
  · rw [List.map_append, ← code_add, ← code_add, Nat.add_right_comm]
  · exact test.code_add k offset temps

theorem failure_add (k temps : Nat) (test : Expr) :
    test.failure (k + temps) = (test.failure k).shift temps := by
  unfold failure
  split
  · rw [Test.shift, ← operand_add, ← operand_add, Nat.add_right_comm]
  · rw [Test.shift, ← operand_add]

end Expr

namespace Fragment

/-- Further on the code is the same but for targets and temporaries. -/
def Relocatable (f : Fragment) : Prop :=
  ∀ base k offset temps,
    f.code (base + offset) (k + temps) = (f.code base k).map (Quad.relocate offset temps)

variable {f g : Fragment}

theorem Relocatable.append (hf : f.Relocatable) (hg : g.Relocatable) :
    (f.append g).Relocatable := by
  intro base k offset temps
  simp only [Fragment.append, List.map_append, ← hf base k, ← hg (base + f.size),
    Nat.add_right_comm _ offset, Nat.add_right_comm _ temps]

theorem relocatable_value (e : Expr) : (value e).Relocatable :=
  fun _ k offset temps => e.code_add k offset temps

theorem relocatable_assign (x : String) (e : Expr) : (assign x e).Relocatable := by
  intro base k offset temps
  simp only [assign, List.map_append, List.map_cons, List.map_nil, Quad.relocate, ← e.code_add,
    ← e.operand_add, Option.map_none, Operand.shift_name]

theorem Relocatable.branch (hf : f.Relocatable) (test : Expr) : (branch test f).Relocatable := by
  intro base k offset temps
  simp only [Fragment.branch, List.map_append, List.map_cons, Quad.relocate, ← test.testCode_add,
    ← test.failure_add, ← hf (base + _), Target.shift_to, Nat.add_right_comm _ offset,
    Nat.add_right_comm _ temps]

theorem Relocatable.loop (hf : f.Relocatable) (test : Expr) : (loop test f).Relocatable := by
  intro base k offset temps
  simp only [Fragment.loop, List.map_append, List.map_cons, List.map_nil, Quad.relocate,
    ← test.testCode_add, ← test.failure_add, ← hf (base + _), Target.shift_to, Test.shift_always,
    Nat.add_right_comm _ offset, Nat.add_right_comm _ temps]

end Fragment

namespace Stmt

mutual

theorem relocatable_fragment (s : Stmt) : s.fragment.Relocatable := by
  match s with
  | .print value _ => exact Fragment.relocatable_value value
  | .declare name value _ | .assign name value _ =>
    exact Fragment.relocatable_assign name.text value
  | .ifThen test body _ => exact (relocatable_fragmentAll body).branch test
  | .whileDo test body _ => exact (relocatable_fragmentAll body).loop test
  | .forDo initial test step body _ =>
    exact (relocatable_fragment initial).append
      (((relocatable_fragmentAll body).append (relocatable_fragment step)).loop test)

theorem relocatable_fragmentAll (body : List Stmt) : (fragmentAll body).Relocatable := by
  match body with
  | [] => exact fun _ _ _ _ => rfl
  | s :: rest => exact (relocatable_fragment s).append (relocatable_fragmentAll rest)

end

end Stmt

/-! ## Builders with other pending jumps -/

namespace Builder

/-- The other builder has the same quads and temporaries, and every pending jump of this one. -/
structure Agrees (b other : Builder) : Prop where
  quads : other.quads = b.quads
  temps : other.temps = b.temps
  pending : b.pending.Subperm other.pending

/-- Where the action succeeds it succeeds on a builder with further pending
jumps, with the same result. -/
def Stable {α : Type} (build : Build α) : Prop :=
  ∀ ⦃b other b' : Builder⦄ ⦃a : α⦄, b.Agrees other → build b = .ok a b' →
    ∃ other', build other = .ok a other' ∧ b'.Agrees other'

theorem stable_pure {α : Type} (a : α) : Stable (pure a : Build α) := by
  intro b other b' a' hagrees h
  obtain ⟨rfl, rfl⟩ := EStateM.Result.ok.inj h
  exact ⟨other, rfl, hagrees⟩

theorem Stable.bind {α β : Type} {build : Build α} {next : α → Build β} (h : Stable build)
    (hnext : ∀ a, Stable (next a)) : Stable (build >>= next) := by
  intro b other b' c hagrees hrun
  cases hbuild : build b with
  | error e b₁ =>
    simp only [Bind.bind, EStateM.bind, hbuild] at hrun
    cases hrun
  | ok a b₁ =>
    simp only [Bind.bind, EStateM.bind, hbuild] at hrun
    obtain ⟨other₁, hother, hagrees₁⟩ := h hagrees hbuild
    obtain ⟨other', hother', hagrees'⟩ := hnext a hagrees₁ hrun
    exact ⟨other', by simp only [Bind.bind, EStateM.bind, hother, hother'], hagrees'⟩

theorem stable_here : Stable here := by
  intro b other b' a hagrees h
  obtain ⟨rfl, rfl⟩ := EStateM.Result.ok.inj h
  exact ⟨other, by rw [here, address, hagrees.quads]; rfl, hagrees⟩

theorem stable_emit (q : Quad) : Stable (emit q) := by
  intro b other b' a hagrees h
  obtain ⟨rfl, rfl⟩ := EStateM.Result.ok.inj h
  refine ⟨{ other with quads := other.quads ++ [q] }, ?_, ?_, hagrees.temps, hagrees.pending⟩
  · rw [emit, address, hagrees.quads, address]
  · show other.quads ++ [q] = b.quads ++ [q]
    rw [hagrees.quads]

theorem stable_freshTemp : Stable freshTemp := by
  intro b other b' a hagrees h
  obtain ⟨rfl, rfl⟩ := EStateM.Result.ok.inj h
  refine ⟨{ other with temps := other.temps + 1 }, ?_, hagrees.quads, ?_, hagrees.pending⟩
  · rw [freshTemp, hagrees.temps]
  · show other.temps + 1 = b.temps + 1
    rw [hagrees.temps]

theorem stable_reserve (q : Quad) : Stable (reserve q) := by
  intro b other b' a hagrees h
  unfold reserve at h
  split at h
  · next hq =>
    obtain ⟨rfl, rfl⟩ := EStateM.Result.ok.inj h
    refine ⟨{ other with quads := other.quads ++ [q], pending := other.pending ++ [b.address] }, ?_,
      ?_, hagrees.temps, (List.subperm_append_right _).2 hagrees.pending⟩
    · rw [reserve, if_pos hq, address, hagrees.quads, address]
    · show other.quads ++ [q] = b.quads ++ [q]
      rw [hagrees.quads]
  · cases h

theorem stable_patch (jump : OpenJump) (target : Target) : Stable (patch jump target) := by
  intro b other b' a hagrees h
  unfold patch at h
  split at h
  · next hpending =>
    split at h
    · next test _ hquad =>
      obtain ⟨rfl, rfl⟩ := EStateM.Result.ok.inj h
      have hpending' : jump.address ∈ other.pending := hagrees.pending.subset hpending
      refine ⟨{ other with
        quads := other.quads.set jump.address (.jump test target)
        pending := other.pending.erase jump.address }, ?_, ?_, hagrees.temps,
        hagrees.pending.erase _⟩
      · simp only [patch, if_pos hpending', hagrees.quads, hquad]
      · show other.quads.set _ _ = b.quads.set _ _
        rw [hagrees.quads]
    · cases h
  · cases h

theorem stable_lowerExpr (e : Expr) : Stable (lowerExpr e) := by
  induction e with
  | number value span => exact stable_pure _
  | name x span => exact stable_pure _
  | binary op left right span ihl ihr =>
    exact ihl.bind fun l => ihr.bind fun r => stable_freshTemp.bind fun result =>
      (stable_emit _).bind fun _ => stable_pure result

theorem stable_lowerTest (test : Expr) : Stable (lowerTest test) := by
  unfold lowerTest
  split
  · exact (stable_lowerExpr _).bind fun l => (stable_lowerExpr _).bind fun r => stable_reserve _
  · exact (stable_lowerExpr _).bind fun value => stable_reserve _

theorem stable_lowerAssign (name : Ident) (value : Expr) : Stable (lowerAssign name value) :=
  (stable_lowerExpr value).bind fun _ => (stable_emit _).bind fun _ => stable_pure ()

variable {build : Build Unit}

theorem Stable.lowerBranch (h : Stable build) (test : Expr) : Stable (lowerBranch test build) :=
  (stable_lowerTest test).bind fun skip => h.bind fun _ => stable_here.bind fun _ =>
    stable_patch skip _

theorem Stable.lowerLoop (h : Stable build) (test : Expr) : Stable (lowerLoop test build) :=
  stable_here.bind fun _ => (stable_lowerTest test).bind fun exit => h.bind fun _ =>
    (stable_emit _).bind fun _ =>
    stable_here.bind fun _ => stable_patch exit _

mutual

theorem stable_lowerStmt (s : Stmt) : Stable (lowerStmt s) := by
  match s with
  | .print value _ => exact (stable_lowerExpr value).bind fun _ => stable_pure ()
  | .declare name value _ | .assign name value _ => exact stable_lowerAssign name value
  | .ifThen test body _ => exact (stable_lowerAll body).lowerBranch test
  | .whileDo test body _ => exact (stable_lowerAll body).lowerLoop test
  | .forDo initial test step body _ =>
    exact (stable_lowerStmt initial).bind fun _ =>
      ((stable_lowerAll body).bind fun _ => stable_lowerStmt step).lowerLoop test

theorem stable_lowerAll (body : List Stmt) : Stable (lowerAll body) := by
  match body with
  | [] => exact stable_pure ()
  | s :: rest => exact (stable_lowerStmt s).bind fun _ => stable_lowerAll rest

end

/-- From any builder, the code of a program is that of its listing at another place. -/
theorem lowerAll_relocates (b : Builder) (program : List Stmt) :
    ∃ b', lowerAll program b = .ok () b' ∧
      b'.quads = b.quads ++ (lower program).quads.map (Quad.relocate b.address b.temps) ∧
      b'.temps = b.temps + (tempsWritten (lower program).quads).length := by
  -- without any pending jumps the fragment of the program is emitted
  have hemits := emits_lowerAll program { b with pending := [] } nofun
  have hagrees : Agrees { b with pending := [] } b := ⟨rfl, rfl, List.nil_subperm⟩
  obtain ⟨b', hb', hquads, htemps, -⟩ := stable_lowerAll program hagrees hemits
  have hcode := Stmt.relocatable_fragmentAll program 0 0 b.quads.length b.temps
  rw [Nat.zero_add, Nat.zero_add] at hcode
  refine ⟨b', hb', ?_, ?_⟩
  · rw [hquads, lower_eq, address, ← hcode]
  · rw [htemps, (fresh_lower program).written, List.length_range']

theorem lowerAll_append (p q : List Stmt) : lowerAll (p ++ q) = (do lowerAll p; lowerAll q) := by
  induction p with
  | nil => simp [lowerAll]
  | cons s p ih => simp [lowerAll, ih]

end Builder

/-- The listing of two programs in a row is that of the first one followed by that of the
second one, with all targets moved on by the length of the first listing and all temporaries
by the number of those in it. From any builder the code of a program is that of its listing,
moved on in the same way. -/
theorem lower_append_relocates :
    (∀ p q : List Stmt, (lower (p ++ q)).quads = (lower p).quads ++
      (lower q).quads.map (Quad.relocate (lower p).size (tempsWritten (lower p).quads).length)) ∧
    ∀ (b : Builder) (q : List Stmt), ∃ b', Builder.lowerAll q b = .ok () b' ∧
      b'.quads = b.quads ++ (lower q).quads.map (Quad.relocate b.address b.temps) ∧
      b'.temps = b.temps + (tempsWritten (lower q).quads).length := by
  refine ⟨fun p q => ?_, Builder.lowerAll_relocates⟩
  obtain ⟨b, hb, -, htemps⟩ := Builder.lowerAll_relocates {} p
  obtain ⟨b', hb', hquads, -⟩ := Builder.lowerAll_relocates b q
  have hp : (lower p).quads = b.quads := by rw [lower, Builder.ofProgram, hb]
  have hpq : (lower (p ++ q)).quads = b'.quads := by
    rw [lower, Builder.ofProgram, Builder.lowerAll_append]
    simp only [bind, EStateM.bind, hb, hb']
  rw [hpq, hquads, Listing.size, hp, htemps, hp, Builder.address]
  show _ ++ _ = _
  rw [Nat.zero_add]

end Quadcode
