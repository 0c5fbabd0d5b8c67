import Quadcode.Proofs.Lowering.Fragment

/-!
# Pending jumps

In a consistent builder the pending jumps are what their name says: unresolved jumps among the
quads. An action that succeeds either appends to the quads or fills in one pending jump
(`Builder.Move`), and so it keeps a builder consistent, and a quad changes at most once however many
actions follow (`Builder.Moves.getElem?_quads`). On a consistent builder nothing but the pending
jumps decides whether a patch succeeds.
-/

namespace Quadcode

namespace Builder

/-- The pending jumps are listed in the order of their addresses, and each is an
unresolved jump among the quads. -/
structure Consistent (b : Builder) : Prop where
  sorted : b.pending.Pairwise (· < ·)
  unresolved : ∀ a ∈ b.pending, ∃ test, b.quads[a]? = some (.jump test .unresolved)

/-- What an action can do to a builder. A move is labelled with the address and the target of the
pending jump that it fills in, if it does that. -/
inductive Move : Builder → Option (Address × Target) → Builder → Prop
  | append (b : Builder) (code : List Quad) (temps : Nat) :
      Move b none { b with quads := b.quads ++ code, temps }
  | reserve (b : Builder) (test : Test) :
      Move b none { b with
        quads := b.quads ++ [.jump test .unresolved], pending := b.pending ++ [b.address] }
  | fill {b : Builder} {a : Address} {test : Test} (target : Target) (pending : a ∈ b.pending)
      (quad : b.quads[a]? = some (.jump test .unresolved)) :
      Move b (some (a, target)) { b with
        quads := b.quads.set a (.jump test target), pending := b.pending.erase a }

/-- Move after move, with the labels of those that fill in a jump. -/
inductive Moves (b : Builder) : List (Address × Target) → Builder → Prop
  | refl : Moves b [] b
  | step {fills : List (Address × Target)} {fill : Option (Address × Target)} {b' b'' : Builder}
      (moves : Moves b fills b') (move : Move b' fill b'') : Moves b (fills ++ fill.toList) b''

variable {b b' : Builder} {fill : Option (Address × Target)}

theorem Move.refl (b : Builder) : Move b none b := by
  have h := Move.append b [] b.temps
  rwa [List.append_nil] at h

/-! ## Consistent builders -/

theorem consistent_empty : ({} : Builder).Consistent :=
  ⟨.nil, nofun⟩

namespace Consistent

theorem bounded (h : b.Consistent) : b.Bounded := by
  intro a ha
  obtain ⟨test, hquad⟩ := h.unresolved a ha
  exact (List.getElem?_eq_some_iff.1 hquad).1

theorem nodup (h : b.Consistent) : b.pending.Nodup :=
  h.sorted.imp Nat.ne_of_lt

theorem move (h : b.Consistent) (hmove : b.Move fill b') : b'.Consistent := by
  cases hmove with
  | append code temps =>
    refine ⟨h.sorted, fun a ha => ?_⟩
    obtain ⟨test, hquad⟩ := h.unresolved a ha
    exact ⟨test, by rw [List.getElem?_append_left (h.bounded a ha), hquad]⟩
  | reserve test =>
    refine ⟨List.pairwise_append.2 ⟨h.sorted, List.pairwise_singleton _ _, fun a ha c hc => ?_⟩,
      fun a ha => ?_⟩
    · obtain rfl := List.mem_singleton.1 hc
      exact h.bounded a ha
    · rcases List.mem_append.1 ha with ha | ha
      · obtain ⟨test', hquad⟩ := h.unresolved a ha
        exact ⟨test', by rw [List.getElem?_append_left (h.bounded a ha), hquad]⟩
      · obtain rfl := List.mem_singleton.1 ha
        exact ⟨test, List.getElem?_concat_length⟩
  | @fill a test target hpending hquad =>
    refine ⟨h.sorted.sublist List.erase_sublist, fun c hc => ?_⟩
    obtain ⟨hne, hc⟩ := h.nodup.mem_erase_iff.1 hc
    obtain ⟨test', hquad'⟩ := h.unresolved c hc
    exact ⟨test', by rw [List.getElem?_set_ne hne.symm, hquad']⟩

theorem moves {fills : List (Address × Target)} (h : b.Consistent) (hmoves : b.Moves fills b') :
    b'.Consistent := by
  induction hmoves with
  | refl => exact h
  | step _ hmove ih => exact ih.move hmove

/-! ## Actions are moves -/

theorem patch_eq_ok (h : b.Consistent) {jump : OpenJump} (hpending : jump.address ∈ b.pending)
    (target : Target) :
    ∃ b', patch jump target b = .ok () b' ∧ b.Move (some (jump.address, target)) b' := by
  obtain ⟨test, hquad⟩ := h.unresolved _ hpending
  refine ⟨_, ?_, .fill target hpending hquad⟩
  simp only [patch, if_pos hpending, hquad]

theorem lowerAll_eq_ok (h : b.Consistent) (program : List Stmt) :
    ∃ b', lowerAll program b = .ok () b' ∧ b.Move none b' :=
  ⟨_, emits_lowerAll program b h.bounded, .append b _ _⟩

end Consistent

theorem patch_eq_error {jump : OpenJump} (hpending : jump.address ∉ b.pending) (target : Target) :
    patch jump target b = .error (.alreadyPatched jump.address) b :=
  if_neg hpending

theorem reserve_eq_ok (test : Test) (b : Builder) :
    ∃ b', reserve (.jump test .unresolved) b = .ok { address := b.address } b' ∧ b.Move none b' ∧
      b.address ∈ b'.pending :=
  ⟨_, rfl, .reserve b test, List.mem_append_right _ (List.mem_singleton.2 rfl)⟩

theorem reserve_eq_error {q : Quad} (h : ∀ test, q ≠ .jump test .unresolved) (b : Builder) :
    reserve q b = .error (.notOpen b.address) b := by
  refine if_neg fun htarget => ?_
  cases q with
  | operate operation left right result => cases htarget
  | jump test target => exact h test (by rw [Option.some.inj htarget])

/-! ## What becomes of a quad -/

namespace Move

variable {a : Address} {q : Quad} {target : Target}

theorem length_le (hmove : b.Move fill b') : b.quads.length ≤ b'.quads.length := by
  cases hmove <;> simp

theorem getElem?_quads (hmove : b.Move fill b') (hq : b.quads[a]? = some q)
    (ha : ∀ target, fill ≠ some (a, target)) : b'.quads[a]? = some q := by
  obtain ⟨hlt, -⟩ := List.getElem?_eq_some_iff.1 hq
  cases hmove with
  | append code temps => rwa [List.getElem?_append_left hlt]
  | reserve test => rwa [List.getElem?_append_left hlt]
  | @fill c test target hpending hquad =>
    have hne : c ≠ a := fun hca => ha target (by rw [hca])
    rwa [List.getElem?_set_ne hne]

theorem mem_pending_iff (h : b.Consistent) (hmove : b.Move fill b') (ha : a < b.address) :
    a ∈ b'.pending ↔ a ∈ b.pending ∧ ∀ target, fill ≠ some (a, target) := by
  cases hmove with
  | append code temps => simp
  | reserve test =>
    have hne : a ≠ b.address := Nat.ne_of_lt ha
    simp [hne]
  | @fill c test target hpending hquad =>
    rw [h.nodup.mem_erase_iff]
    simp only [ne_eq, Option.some.injEq, Prod.mk.injEq, not_and]
    grind

theorem filled (h : b.Consistent) (hmove : b.Move (some (a, target)) b') :
    a ∈ b.pending ∧ a ∉ b'.pending ∧ ∃ test, b.quads[a]? = some (.jump test .unresolved) ∧
      b'.quads[a]? = some (.jump test target) := by
  have ha : a ∈ b.pending := by cases hmove with | fill _ hpending _ => exact hpending
  refine ⟨ha, fun ha' => ?_, ?_⟩
  · exact ((hmove.mem_pending_iff h (h.bounded a ha)).1 ha').2 target rfl
  · cases hmove with
    | @fill _ test _ _ hquad =>
      obtain ⟨hlt, -⟩ := List.getElem?_eq_some_iff.1 hquad
      exact ⟨test, hquad, List.getElem?_set_self hlt⟩

end Move

theorem filter_fills_of_ne {a : Address} (h : ∀ target, fill ≠ some (a, target))
    (fills : List (Address × Target)) :
    (fills ++ fill.toList).filter (·.1 = a) = fills.filter (·.1 = a) := by
  cases fill with
  | none => rw [Option.toList_none, List.append_nil]
  | some entry =>
    obtain ⟨c, target⟩ := entry
    have hne : c ≠ a := fun hca => h target (by rw [hca])
    simp [List.filter_append, hne]

/-- A quad stays at its address and stays what it is, unless it is a pending jump
and one move fills it in. -/
theorem Moves.getElem?_quads {fills : List (Address × Target)} {a : Address} {q : Quad}
    (h : b.Consistent) (hmoves : b.Moves fills b') (hq : b.quads[a]? = some q) :
    (fills.filter (·.1 = a) = [] ∧ b'.quads[a]? = some q) ∨
      ∃ test target, q = .jump test .unresolved ∧ a ∈ b.pending ∧
        fills.filter (·.1 = a) = [(a, target)] ∧ b'.quads[a]? = some (.jump test target) := by
  -- Along the moves the jump is pending as long as no move has filled it in, and never again after
  -- that.
  suffices hkept :
      (fills.filter (·.1 = a) = [] ∧ b'.quads[a]? = some q ∧ (a ∈ b'.pending ↔ a ∈ b.pending)) ∨
      a ∉ b'.pending ∧ ∃ test target, q = .jump test .unresolved ∧ a ∈ b.pending ∧
        fills.filter (·.1 = a) = [(a, target)] ∧ b'.quads[a]? = some (.jump test target) from
    hkept.imp (fun ⟨hnone, hquad, _⟩ => ⟨hnone, hquad⟩) And.right
  induction hmoves with
  | refl => exact .inl ⟨rfl, hq, Iff.rfl⟩
  | @step fills fill b₁ b₂ hmoves hmove ih =>
    have hb₁ := h.moves hmoves
    by_cases hfill : ∃ target, fill = some (a, target)
    · obtain ⟨target, rfl⟩ := hfill
      obtain ⟨hpending, hgone, test, hquad, hfilled⟩ := hmove.filled hb₁
      rcases ih with ⟨hnone, hkept, hiff⟩ | ⟨hnot, -⟩
      · have hopen : q = .jump test .unresolved := Option.some.inj (hkept.symm.trans hquad)
        exact .inr ⟨hgone, test, target, hopen, hiff.1 hpending,
          by simp [List.filter_append, hnone], hfilled⟩
      · exact absurd hpending hnot
    · rw [not_exists] at hfill
      rw [filter_fills_of_ne hfill]
      rcases ih with ⟨hnone, hkept, hiff⟩ | ⟨hnot, test, target, hopen, hpending, hone, hquad⟩
      · refine .inl ⟨hnone, hmove.getElem?_quads hkept hfill, ?_⟩
        rw [hmove.mem_pending_iff hb₁ (List.getElem?_eq_some_iff.1 hkept).1, hiff]
        exact and_iff_left hfill
      · refine .inr ⟨?_, test, target, hopen, hpending, hone, hmove.getElem?_quads hquad hfill⟩
        rw [hmove.mem_pending_iff hb₁ (List.getElem?_eq_some_iff.1 hquad).1]
        exact fun hboth => hnot hboth.1

end Builder

end Quadcode
