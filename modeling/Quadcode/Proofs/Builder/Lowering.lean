import Quadcode.Proofs.Builder.Workshop
import Quadcode.Proofs.Lowering.Correctness

/-!
# Lowering on a builder in use

Lowering can be done on any builder that a workshop brings about, with whatever jumps it has
pending. It does not fail, what was there stays as it is, and every jump that is added leads to an
address up to the new end. From an empty builder it gives a listing that passes `validate`, and so
`Builder.finish` hands out that listing.
-/

namespace Quadcode

namespace Quad

/-- If the quad jumps, its target is resolved and lies within `size` quads or right behind them. -/
def Resolved (size : Nat) (q : Quad) : Prop :=
  ∀ target, q.target? = some target → ∃ a : Nat, target = .to a ∧ a ≤ size

theorem Sound.resolved {low high : Nat} {q : Quad} (h : q.Sound low high) : q.Resolved high := by
  intro target htarget
  cases q with
  | operate operation left right result => cases htarget
  | jump test target' =>
    obtain rfl := Option.some.inj htarget
    obtain ⟨a, ha, -, hle⟩ := h
    exact ⟨a, ha, hle⟩

theorem fault?_eq_none_iff {size : Nat} {address : Address} {q : Quad} :
    q.fault? size address = none ↔ q.Resolved size := by
  unfold fault? Resolved
  cases q.target? with
  | none => simp
  | some target => cases target <;> simp

end Quad

theorem validate_eq_ok_iff {quads : List Quad} :
    validate quads = .ok () ↔ ∀ q ∈ quads, q.Resolved quads.length := by
  rw [validate]
  split
  · next e he =>
    obtain ⟨entry, hentry, hfault⟩ := List.exists_of_findSome?_eq_some he
    refine iff_of_false (fun h => by cases h) fun h => ?_
    have hnone : entry.1.fault? quads.length entry.2 = none :=
      Quad.fault?_eq_none_iff.2 (h entry.1 (List.fst_mem_of_mem_zipIdx hentry))
    cases hnone.symm.trans hfault
  · next he =>
    refine iff_of_true rfl fun q hq => ?_
    obtain ⟨address, haddress⟩ := List.getElem?_of_mem hq
    have hentry : (q, address) ∈ quads.zipIdx := List.mem_zipIdx_iff_getElem?.2 haddress
    exact Quad.fault?_eq_none_iff.1 (List.findSome?_eq_none_iff.1 he (q, address) hentry)

namespace Builder

/-- Lowering appends resolved jumps to a consistent builder, and patches no jump
that was there before. -/
theorem Consistent.lowerAll_appends {b : Builder} (h : b.Consistent) (program : List Stmt) :
    ∃ b' code, lowerAll program b = .ok () b' ∧ b'.quads = b.quads ++ code ∧
      b'.pending = b.pending ∧
      ∀ q ∈ code, q.Resolved b'.address := by
  refine ⟨_, _, emits_lowerAll program b h.bounded, rfl, rfl, fun q hq => ?_⟩
  have hsound := (Stmt.fragmentAll program).sound_code b.quads.length b.temps q hq
  rw [address, List.length_append, Fragment.length_code]
  exact hsound.resolved

theorem finish_lowerAll (program : List Stmt) :
    ∃ b, lowerAll program {} = .ok () b ∧ b.finish = .ok (lower program) ∧
      validate (lower program).quads = .ok () := by
  obtain ⟨b, code, hlower, hquads, hpending, hresolved⟩ := consistent_empty.lowerAll_appends program
  have hlisting : lower program = { quads := b.quads } := by rw [lower, ofProgram, hlower]
  rw [List.nil_append] at hquads
  have hvalid : validate b.quads = .ok () := by
    rw [validate_eq_ok_iff]
    intro q hq
    exact hresolved q (hquads ▸ hq)
  refine ⟨b, hlower, ?_, by rw [hlisting, hvalid]⟩
  rw [finish, hpending, hvalid, hlisting]
  rfl

end Builder

/-- On a builder of a workshop, after any steps, lowering succeeds, leaves the quads and the pending
jumps as they are and appends only quads whose jumps lead to an address up to the new end. From the
empty builder, it gives the listing of the program to `Builder.finish`, and the listing is valid. -/
theorem lowerAll_undisturbing (steps : List Workshop.Step) (number : Nat) {b : Builder}
    (h : (({} : Workshop).after steps).builders[number]? = some (some b)) (program : List Stmt) :
    (∃ b' code, Builder.lowerAll program b = .ok () b' ∧ b'.quads = b.quads ++ code ∧
      b'.pending = b.pending ∧
      ∀ q ∈ code, q.Resolved b'.address) ∧
    ∃ b₀, Builder.lowerAll program {} = .ok () b₀ ∧ b₀.finish = .ok (lower program) ∧
      validate (lower program).quads = .ok () :=
  ⟨(Workshop.consistent_start.after steps number b h).lowerAll_appends program,
    Builder.finish_lowerAll program⟩

theorem lowerAll_undisturbing_crossed :
    (({} : Workshop).after Workshop.crossedSteps).builders[0]? =
        some (some
          { quads := [.jump .always (.to 2), .jump .always .unresolved], pending := [1] }) ∧
      ∃ b' code,
        Builder.lowerAll countdown
            { quads := [.jump .always (.to 2), .jump .always .unresolved], pending := [1] } =
          .ok () b' ∧
        b'.quads = [.jump .always (.to 2), .jump .always .unresolved] ++ code ∧ b'.pending = [1] ∧
        ∀ q ∈ code, q.Resolved b'.address :=
  ⟨rfl, (lowerAll_undisturbing Workshop.crossedSteps 0 rfl countdown).1⟩

end Quadcode
