import Mathlib.Data.List.Nodup
import Mathlib.Logic.Function.Basic
import Quadcode.Proofs.Builder.Workshop

/-!
# The order of patches

Jumps can be filled in in any order, and while other quads are being emitted. At each point a
builder is what its emissions alone have made, with some targets filled in (`Builder.filled`):
an emission looks at nothing that a patch changes (`Workshop.perform_emission`), and a patch
changes only the jump that it is for. Which targets are filled in depends on the set of the
patches and not on their order.
-/

namespace Quadcode

/-- The quad with another target, if it is a jump. -/
def Quad.withTarget : Quad → Target → Quad
  | .jump test _, target => .jump test target
  | .operate operation left right result, _ => .operate operation left right result

attribute [ext] Builder

namespace Builder

/-! ## Targets filled in -/

/-- The builder with the given targets filled in. -/
def filled (b : Builder) (given : Address → Option Target) : Builder :=
  { b with
    quads := b.quads.mapIdx fun a q => (given a).elim q q.withTarget
    pending := b.pending.filter fun a => (given a).isNone }

/-- Targets are given only for unresolved jumps among the quads. -/
def Fits (b : Builder) (given : Address → Option Target) : Prop :=
  ∀ a target, given a = some target → ∃ test, b.quads[a]? = some (.jump test .unresolved)

/-- The builder with code and pending jumps appended. -/
def grown (b : Builder) (code : List Quad) (temps : Nat) (pending : List Address) : Builder :=
  { quads := b.quads ++ code, temps, pending := b.pending ++ pending }

variable {b : Builder} {given : Address → Option Target} {a : Address} {target : Target}

theorem address_filled (b : Builder) (given : Address → Option Target) :
    (b.filled given).address = b.address :=
  List.length_mapIdx

theorem getElem?_quads_filled (b : Builder) (given : Address → Option Target) (a : Address) :
    (b.filled given).quads[a]? = b.quads[a]?.map fun q => (given a).elim q q.withTarget :=
  List.getElem?_mapIdx

theorem getElem?_quads_filled_of_none (h : given a = none) :
    (b.filled given).quads[a]? = b.quads[a]? := by
  rw [getElem?_quads_filled, h]
  exact Option.map_id'

theorem mem_pending_filled : a ∈ (b.filled given).pending ↔ a ∈ b.pending ∧ given a = none := by
  simp [filled]

theorem Fits.eq_none (h : b.Fits given) (ha : b.address ≤ a) : given a = none := by
  refine Option.eq_none_iff_forall_ne_some.2 fun target hgiven => ?_
  obtain ⟨test, hquad⟩ := h _ target hgiven
  exact Nat.not_lt_of_le ha (List.getElem?_eq_some_iff.1 hquad).1

theorem Fits.grown (h : b.Fits given) (code : List Quad) (temps : Nat) (pending : List Address) :
    (b.grown code temps pending).Fits given := by
  intro a target hgiven
  obtain ⟨test, hquad⟩ := h _ target hgiven
  exact ⟨test,
    by rw [Builder.grown, List.getElem?_append_left (List.getElem?_eq_some_iff.1 hquad).1, hquad]⟩

/-- What is appended has no target filled in. -/
theorem Fits.filled_grown (h : b.Fits given) {pending : List Address}
    (hpending : ∀ a ∈ pending, b.address ≤ a) (code : List Quad) (temps : Nat) :
    (b.grown code temps pending).filled given = (b.filled given).grown code temps pending := by
  have hcode :
      (code.mapIdx fun i q => (given (i + b.quads.length)).elim q q.withTarget) = code := by
    refine List.ext_getElem? fun i => ?_
    have hnone : given (i + b.quads.length) = none := h.eq_none (Nat.le_add_left _ _)
    rw [List.getElem?_mapIdx, hnone]
    exact Option.map_id'
  have hkept : (pending.filter fun a => (given a).isNone) = pending := by
    refine List.filter_eq_self.2 fun a ha => ?_
    rw [h.eq_none (hpending a ha)]
    rfl
  simp only [filled, Builder.grown, List.mapIdx_append, List.filter_append, hcode, hkept]

/-- Filling in a pending jump is one more target. -/
theorem Fits.update (h : b.Fits given) (hb : b.pending.Nodup) {test : Test}
    (hpending : a ∈ (b.filled given).pending)
    (hquad : (b.filled given).quads[a]? = some (.jump test .unresolved)) (target : Target) :
    b.Fits (Function.update given a (some target)) ∧
      b.filled (Function.update given a (some target)) = { b.filled given with
        quads := (b.filled given).quads.set a (.jump test target)
        pending := (b.filled given).pending.erase a } := by
  have hnone := (mem_pending_filled.1 hpending).2
  rw [getElem?_quads_filled_of_none hnone] at hquad
  constructor
  · intro c target' hgiven
    by_cases hca : c = a
    · exact ⟨test, by rw [hca, hquad]⟩
    · rw [Function.update_of_ne hca] at hgiven
      exact h c target' hgiven
  · ext1
    · refine List.ext_getElem? fun c => ?_
      rw [getElem?_quads_filled, List.getElem?_set]
      by_cases hca : a = c
      · subst hca
        have hlt : a < (b.filled given).quads.length := by
          rw [filled, List.length_mapIdx]
          exact (List.getElem?_eq_some_iff.1 hquad).1
        rw [if_pos rfl, if_pos hlt, hquad, Function.update_self]
        rfl
      · rw [if_neg hca, Function.update_of_ne (Ne.symm hca), getElem?_quads_filled]
    · rfl
    · have hnodup : (b.filled given).pending.Nodup := hb.filter _
      rw [List.Nodup.erase_eq_filter hnodup, filled, filled, List.filter_filter]
      refine List.filter_congr fun c _ => ?_
      by_cases hca : c = a
      · simp [hca]
      · simp [hca]

end Builder

namespace Workshop

/-! ## Actions on one builder -/

/-- The action appends quads. -/
def Action.emits : Action → Bool
  | .emit _ | .reserve _ | .lower _ => true
  | .address | .patch _ _ | .finish => false

/-- The handle that a patch uses. -/
def Action.handle? : Action → Option Nat
  | .patch handle _ => some handle
  | _ => none

/-- The address of the jump that a step is meant to fill in, and the target. -/
def patch? (w : Workshop) : Step → Option (Address × Target)
  | .act _ (.patch handle target) => w.handles[handle]?.map fun jump => (jump.address, target)
  | _ => none

/-- The workshop after actions on its first builder. -/
def afterActions (actions : List Action) : Workshop :=
  ({} : Workshop).after (actions.map (.act 0))

/-- The patches among actions on the first builder, each with the address of
its jump and the target. -/
def patches (actions : List Action) : List (Address × Target) :=
  observe patch? {} (actions.map (.act 0))

variable {w : Workshop} {actions actions' : List Action} {action : Action} {b₀ : Builder}
  {given : Address → Option Target}

theorem afterActions_concat :
    afterActions (actions ++ [action]) = ((afterActions actions).perform (.act 0 action)).2 := by
  rw [afterActions, List.map_append, List.map_singleton, after_concat]
  rfl

theorem fillings_actions_concat :
    ({} : Workshop).fillings 0 ((actions ++ [action]).map (.act 0)) =
      ({} : Workshop).fillings 0 (actions.map (.act 0)) ++
        ((afterActions actions).filling? 0 (.act 0 action)).toList := by
  rw [List.map_append, List.map_singleton, fillings_concat]
  rfl

theorem filter_emits_concat (h : action.emits = false) :
    (actions ++ [action]).filter Action.emits = actions.filter Action.emits := by
  simp [h]

theorem consistent_afterActions (actions : List Action) : (afterActions actions).Consistent :=
  consistent_start.after _

/-- What an emission appends depends only on the next address and the number of temporaries. -/
theorem perform_emission (h : action.emits) (address temps : Nat) :
    ∃ code temps' pending, (∀ a ∈ pending, address ≤ a) ∧
      ∀ {w : Workshop} {number : Nat} {b : Builder}, b.Consistent → b.address = address →
        b.temps = temps →
        w.builders[number]? = some (some b) →
        (w.perform (.act number action)).2.builders[number]? =
          some (some (b.grown code temps' pending)) := by
  cases action with
  | emit q =>
    refine ⟨[q], temps, [], by simp, fun {w number b} _ _ htemps hb => ?_⟩
    rw [perform_act hb, ← htemps, Builder.grown, List.append_nil]
    exact getElem?_put hb _
  | reserve q =>
    by_cases hq : q.target? = some .unresolved
    · refine ⟨[q], temps, [address], by simp, fun {w number b} _ haddress htemps hb => ?_⟩
      rw [perform_act hb, ← htemps, ← haddress]
      simp only [act, Builder.reserve, if_pos hq]
      exact getElem?_put hb _
    · refine ⟨[], temps, [], by simp, fun {w number b} _ _ htemps hb => ?_⟩
      rw [perform_act hb, ← htemps, Builder.grown, List.append_nil, List.append_nil]
      simp only [act, Builder.reserve, if_neg hq]
      exact getElem?_put hb _
  | lower program =>
    refine ⟨(Stmt.fragmentAll program).code address temps, temps + (Stmt.fragmentAll program).temps,
      [], by simp, fun {w number b} hconsistent haddress htemps hb => ?_⟩
    have hlower := Builder.emits_lowerAll program b hconsistent.bounded
    rw [perform_act hb, ← htemps, ← haddress, Builder.grown, List.append_nil]
    simp only [act, run, hlower]
    exact getElem?_put hb _
  | address => cases h
  | patch => cases h
  | finish => cases h

/-! ## Runs retraced -/

/-- The builder after the actions is the one after their emissions alone, with the targets filled in
that the patches have given. -/
structure Retraced (actions : List Action) (b₀ : Builder)
    (given : Address → Option Target) : Prop where
  emitted : (afterActions (actions.filter Action.emits)).builders[0]? = some (some b₀)
  fits : b₀.Fits given
  given_iff : ∀ {a : Address} {target : Target},
    given a = some target ↔ (a, target) ∈ ({} : Workshop).fillings 0 (actions.map (.act 0))
  builder : (afterActions actions).builders[0]? = some (some (b₀.filled given))

theorem retraced_nil : Retraced [] {} fun _ => none where
  emitted := rfl
  fits := nofun
  given_iff := iff_of_false nofun List.not_mem_nil
  builder := rfl

theorem filling?_eq_none_of_emits (h : action.emits) (w : Workshop) :
    w.filling? 0 (.act 0 action) = none := by
  cases action with
  | emit | reserve | lower => rfl
  | address | patch | finish => cases h

theorem Retraced.emission (h : Retraced actions b₀ given) (hemits : action.emits) :
    ∃ b₁, Retraced (actions ++ [action]) b₁ given := by
  obtain ⟨code, temps, pending, hpending, hperform⟩ := perform_emission hemits b₀.address b₀.temps
  refine ⟨b₀.grown code temps pending, ?_, h.fits.grown code temps pending, ?_, ?_⟩
  · rw [List.filter_append, List.filter_cons_of_pos hemits, List.filter_nil, afterActions_concat]
    exact hperform (consistent_afterActions _ 0 b₀ h.emitted) rfl rfl h.emitted
  · intro a target
    rw [fillings_actions_concat, filling?_eq_none_of_emits hemits, Option.toList_none,
      List.append_nil]
    exact h.given_iff
  · rw [h.fits.filled_grown hpending, afterActions_concat]
    exact hperform (consistent_afterActions _ 0 _ h.builder) (b₀.address_filled given) rfl h.builder

theorem Retraced.unmoved (h : Retraced actions b₀ given) (hemits : action.emits = false)
    (hfilling : (afterActions actions).filling? 0 (.act 0 action) = none)
    (hperform : ((afterActions actions).perform (.act 0 action)).2 = afterActions actions) :
    Retraced (actions ++ [action]) b₀ given := by
  refine ⟨?_, h.fits, ?_, ?_⟩
  · rw [filter_emits_concat hemits]
    exact h.emitted
  · intro a target
    rw [fillings_actions_concat, hfilling, Option.toList_none, List.append_nil]
    exact h.given_iff
  · rw [afterActions_concat, hperform]
    exact h.builder

theorem Retraced.patch (h : Retraced actions b₀ given) (handle : Nat) (target : Target) :
    ∃ given', Retraced (actions ++ [.patch handle target]) b₀ given' := by
  have hb := consistent_afterActions actions 0 _ h.builder
  rcases perform_patch hb h.builder handle target with
    ⟨hnone, hperform⟩ | ⟨jump, hjump, ⟨-, hperform⟩ | ⟨b', hmove, hperform⟩⟩
  · exact ⟨given, h.unmoved rfl (by simp only [filling?, hperform]) (by rw [hperform])⟩
  · exact ⟨given, h.unmoved rfl (by simp only [filling?, hperform]) (by rw [hperform])⟩
  · have hfilling : (afterActions actions).filling? 0 (.act 0 (.patch handle target)) =
        some (jump.address, target) := by
      simp only [filling?, hperform, if_true, hjump, Option.map_some]
    cases hmove with
    | fill _ hpending hquad =>
      have hnodup := (consistent_afterActions _ 0 b₀ h.emitted).nodup
      obtain ⟨hfits, hfilled⟩ := h.fits.update hnodup hpending hquad target
      refine ⟨_, ?_, hfits, ?_, ?_⟩
      · rw [filter_emits_concat rfl]
        exact h.emitted
      · intro a target'
        rw [fillings_actions_concat, hfilling, Option.toList_some, List.mem_append,
          List.mem_singleton, ← h.given_iff]
        by_cases ha : a = jump.address
        · have hnone := (Builder.mem_pending_filled.1 hpending).2
          simp [ha, hnone, eq_comm]
        · simp [ha]
      · rw [afterActions_concat, hperform, hfilled]
        exact getElem?_put h.builder _

theorem exists_retraced (hfinish : .finish ∉ actions) : ∃ b₀ given, Retraced actions b₀ given := by
  induction actions using List.reverseRecOn with
  | nil => exact ⟨_, _, retraced_nil⟩
  | append_singleton actions action ih =>
    rw [List.mem_append, not_or] at hfinish
    obtain ⟨b₀, given, h⟩ := ih hfinish.1
    by_cases hemits : action.emits
    · obtain ⟨b₁, h₁⟩ := h.emission hemits
      exact ⟨b₁, given, h₁⟩
    · cases action with
      | emit | reserve | lower => exact absurd rfl hemits
      | address => exact ⟨b₀, given, h.unmoved rfl rfl (by rw [perform_act h.builder]; rfl)⟩
      | patch handle target =>
        obtain ⟨given', h'⟩ := h.patch handle target
        exact ⟨b₀, given', h'⟩
      | finish => exact absurd (List.mem_singleton.2 rfl) hfinish.2

/-! ## Handles used once -/

theorem number_of_issue {number n : Nat} {a : Address}
    (h : w.issue? (.act number action) = some (n, a)) : n = number := by
  unfold issue? at h
  split at h
  · next hstep _ =>
    cases hstep
    exact (Prod.mk.inj (Option.some.inj h)).1.symm
  · cases h

theorem number_of_mem_issues {n : Nat} {a : Address}
    (h : (n, a) ∈ issues (actions.map (.act 0))) : n = 0 := by
  induction actions using List.reverseRecOn with
  | nil => cases h
  | append_singleton actions action ih =>
    rw [List.map_append, List.map_singleton, issues_concat, List.mem_append, Option.mem_toList] at h
    exact h.elim ih number_of_issue

/-- A handle that has not been used before fills in its jump. -/
theorem filling?_eq_patch? (h : Retraced actions b₀ given) {handle : Nat}
    (hunused : handle ∉ actions.filterMap Action.handle?) (target : Target) :
    (afterActions actions).filling? 0 (.act 0 (.patch handle target)) =
      (afterActions actions).patch? (.act 0 (.patch handle target)) := by
  have hledger := ledger (actions.map (.act 0))
  have hb := consistent_afterActions actions 0 _ h.builder
  rcases perform_patch hb h.builder handle target with
    ⟨hnone, hperform⟩ | ⟨jump, hjump, ⟨hnot, hperform⟩ | ⟨b', hmove, hperform⟩⟩
  · simp only [filling?, hperform, patch?, hnone, Option.map_none]
  · refine absurd ?_ hnot
    rw [afterActions, hledger.handles, List.getElem?_map, Option.map_eq_some_iff] at hjump
    obtain ⟨⟨n, a⟩, hissue, rfl⟩ := hjump
    obtain rfl := number_of_mem_issues (List.mem_of_getElem? hissue)
    refine hledger.mem_pending h.builder hissue (fun n target' hstep => hunused ?_)
      fun _ _ _ _ _ hissue' => ?_
    · obtain ⟨action, haction, heq⟩ := List.mem_map.1 hstep
      obtain ⟨-, rfl⟩ := Step.act.inj heq
      exact List.mem_filterMap.2 ⟨_, haction, rfl⟩
    · exact number_of_mem_issues (List.mem_of_getElem? hissue')
  · simp only [filling?, hperform, patch?, if_true]

theorem fillings_eq_patches (hfinish : .finish ∉ actions)
    (honce : (actions.filterMap Action.handle?).Nodup) :
    ({} : Workshop).fillings 0 (actions.map (.act 0)) = patches actions := by
  induction actions using List.reverseRecOn with
  | nil => rfl
  | append_singleton actions action ih =>
    rw [List.mem_append, not_or] at hfinish
    rw [List.filterMap_append, List.nodup_append] at honce
    have hlast : (afterActions actions).filling? 0 (.act 0 action) =
        (afterActions actions).patch? (.act 0 action) := by
      cases action with
      | patch handle target =>
        obtain ⟨b₀, given, h⟩ := exists_retraced hfinish.1
        exact filling?_eq_patch? h
          (fun hused => honce.2.2 _ hused _ (List.mem_singleton.2 rfl) rfl) target
      | address | emit | reserve | lower | finish => rfl
    rw [fillings_actions_concat, hlast, ih hfinish.1 honce.1, patches, patches, List.map_append,
      List.map_singleton, observe_concat]
    rfl

/-- The order of patches does not matter. Take two sequences of actions on one builder that emit the
same in the same order and in which no handle is used twice. If they have the same patches, in
whatever order and wherever between the emissions, they lead to the same builder, and finishing it
gives the same answer. In that builder each of the jumps has its target. -/
theorem patch_order_irrelevant (hfinish : .finish ∉ actions) (hfinish' : .finish ∉ actions')
    (honce : (actions.filterMap Action.handle?).Nodup)
    (honce' : (actions'.filterMap Action.handle?).Nodup)
    (hemissions : actions.filter Action.emits = actions'.filter Action.emits)
    (hpatches : ∀ patch, patch ∈ patches actions ↔ patch ∈ patches actions') :
    (∃ b, (afterActions actions).builders[0]? = some (some b) ∧
      (afterActions actions').builders[0]? = some (some b) ∧
      ∀ a target, (a, target) ∈ patches actions →
        (∃ test, b.quads[a]? = some (.jump test target)) ∧ a ∉ b.pending) ∧
    ((afterActions actions).perform (.act 0 .finish)).1 =
      ((afterActions actions').perform (.act 0 .finish)).1 := by
  obtain ⟨b₀, given, h⟩ := exists_retraced hfinish
  obtain ⟨b₁, given', h'⟩ := exists_retraced hfinish'
  obtain rfl : b₁ = b₀ := by
    have hemitted := h'.emitted
    rw [← hemissions, h.emitted] at hemitted
    exact (Option.some.inj (Option.some.inj hemitted)).symm
  have hgiven {a : Address} {target : Target} : given a = some target ↔
      (a, target) ∈ patches actions := by
    rw [h.given_iff, fillings_eq_patches hfinish honce]
  obtain rfl : given' = given := by
    funext a
    refine Option.ext fun target => ?_
    rw [hgiven, hpatches, h'.given_iff, fillings_eq_patches hfinish' honce']
  refine ⟨⟨_, h.builder, h'.builder, fun a target hpatch => ?_⟩, ?_⟩
  · have hsome := hgiven.2 hpatch
    obtain ⟨test, hquad⟩ := h.fits a target hsome
    constructor
    · exact ⟨test, by rw [Builder.getElem?_quads_filled, hquad, hsome]; rfl⟩
    · rw [Builder.mem_pending_filled, hsome]
      exact fun hpending => nomatch hpending.2
  · rw [perform_act h.builder, perform_act h'.builder]
    rfl

/-- Of two jumps the inner one is patched first, before the last quad is there. -/
def innerFirst : List Action :=
  [.reserve (.jump .always .unresolved), .reserve (.jump .always .unresolved), .patch 1 (.to 3),
    .emit (.jump .always (.to 0)), .patch 0 (.to 2)]

/-- The same, but the outer jump is patched before the inner one is reserved. -/
def outerFirst : List Action :=
  [.reserve (.jump .always .unresolved), .patch 0 (.to 2), .reserve (.jump .always .unresolved),
    .emit (.jump .always (.to 0)), .patch 1 (.to 3)]

theorem patch_order_irrelevant_nested :
    patches innerFirst = [(1, .to 3), (0, .to 2)] ∧ patches outerFirst = [(0, .to 2), (1, .to 3)] ∧
      (∃ b, (afterActions innerFirst).builders[0]? = some (some b) ∧
        (afterActions outerFirst).builders[0]? = some (some b)) ∧
      ((afterActions innerFirst).perform (.act 0 .finish)).1 =
        ((afterActions outerFirst).perform (.act 0 .finish)).1 := by
  have hinner : patches innerFirst = [(1, .to 3), (0, .to 2)] := rfl
  have houter : patches outerFirst = [(0, .to 2), (1, .to 3)] := rfl
  have hpatches : ∀ patch, patch ∈ patches innerFirst ↔ patch ∈ patches outerFirst := by
    intro patch
    rw [hinner, houter]
    simp [or_comm]
  have hfinish : .finish ∉ innerFirst := by simp [innerFirst]
  have hfinish' : .finish ∉ outerFirst := by simp [outerFirst]
  obtain ⟨⟨b, hb, hb', -⟩, hreply⟩ :=
    patch_order_irrelevant hfinish hfinish' (by decide) (by decide) rfl hpatches
  exact ⟨hinner, houter, ⟨b, hb, hb'⟩, hreply⟩

end Workshop

end Quadcode
