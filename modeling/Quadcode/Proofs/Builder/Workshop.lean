import Mathlib.Data.List.Induction
import Quadcode.Builder.Workshop
import Quadcode.Proofs.Builder.Pending

/-!
# What happens in a workshop

However many builders there are, and whichever handles are used on which of them, every builder of a
workshop stays consistent. From the steps alone it can be told which builder gave out a handle
(`Workshop.issues`) and which jumps have been filled in (`Workshop.fillings`). A builder on which
only its own handles are used never refuses one of them that is new.
-/

namespace Quadcode

namespace Workshop

variable {α : Type}

/-! ## Runs -/

/-- The workshop after the steps. -/
def after (w : Workshop) (steps : List Step) : Workshop :=
  steps.foldl (fun w step => (w.perform step).2) w

/-- What there is to see of the steps, each looked at in the workshop in which it is done. -/
def observe (see : Workshop → Step → Option α) (w : Workshop) : List Step → List α
  | [] => []
  | step :: rest => (see w step).toList ++ observe see (w.perform step).2 rest

/-- The pending jump of a builder that a step fills in, by its address, and the target. -/
def filling? (number : Nat) (w : Workshop) (step : Step) : Option (Address × Target) :=
  match step, (w.perform step).1 with
  | .act n (.patch handle target), .address _ =>
    if n = number then w.handles[handle]?.map fun jump => (jump.address, target) else none
  | _, _ => none

/-- The builder that gives out a handle in a step, and the address of the jump. -/
def issue? (w : Workshop) (step : Step) : Option (Nat × Address) :=
  match step, (w.perform step).1 with
  | .act n (.reserve _), .reserved _ address _ => some (n, address)
  | _, _ => none

/-- The jumps of a builder that are filled in, in the order of the steps. -/
def fillings (w : Workshop) (number : Nat) (steps : List Step) : List (Address × Target) :=
  observe (filling? number) w steps

/-- For every handle the builder that gave it out and the address of the jump, in
the order of the handles. -/
def issues (steps : List Step) : List (Nat × Address) :=
  observe issue? {} steps

variable {w : Workshop} {steps : List Step} {step : Step} {number : Nat} {b b' : Builder}

theorem after_concat : w.after (steps ++ [step]) = ((w.after steps).perform step).2 := by
  simp [after]

theorem after_append (later : List Step) : w.after (steps ++ later) = (w.after steps).after later :=
  List.foldl_append

theorem observe_concat (see : Workshop → Step → Option α) :
    observe see w (steps ++ [step]) = observe see w steps ++ (see (w.after steps) step).toList := by
  induction steps generalizing w with
  | nil => simp [observe, after]
  | cons first rest ih => simp [observe, ih, after]

/-! ## One step -/

/-- Every builder that is not finished is consistent. -/
def Consistent (w : Workshop) : Prop :=
  ∀ (number : Nat) (b : Builder), w.builders[number]? = some (some b) → b.Consistent

theorem put_self (h : w.builders[number]? = some (some b)) : w.put number b = w := by
  obtain ⟨hlt, heq⟩ := List.getElem?_eq_some_iff.1 h
  rw [put, ← heq, List.set_getElem_self]

theorem getElem?_put (h : w.builders[number]? = some (some b)) (b' : Builder) :
    (w.put number b').builders[number]? = some (some b') :=
  List.getElem?_set_self (List.getElem?_eq_some_iff.1 h).1

theorem perform_act (h : w.builders[number]? = some (some b)) (action : Action) :
    w.perform (.act number action) = w.act number b action := by
  simp only [perform, h]

/-- Without the builder nothing happens. -/
theorem exists_builder_or (w : Workshop) (number : Nat) :
    (∃ b, w.builders[number]? = some (some b)) ∨
      ∀ action, w.perform (.act number action) = (.noBuilder, w) := by
  rcases h : w.builders[number]? with _ | _ | b
  · exact .inr fun action => by simp only [perform, h]
  · exact .inr fun action => by simp only [perform, h]
  · exact .inl ⟨b, rfl⟩

theorem perform_reserve (h : w.builders[number]? = some (some b)) (q : Quad) :
    w.perform (.act number (.reserve q)) = (.failed (.notOpen b.address), w) ∨
      ∃ b', b.Move none b' ∧ b.address ∈ b'.pending ∧ w.perform (.act number (.reserve q)) =
        (.reserved w.handles.length b.address b'.address,
          { w.put number b' with handles := w.handles ++ [{ address := b.address }] }) := by
  rw [perform_act h]
  by_cases hq : ∃ test, q = .jump test .unresolved
  · obtain ⟨test, rfl⟩ := hq
    obtain ⟨b', hreserve, hmove, hpending⟩ := Builder.reserve_eq_ok test b
    exact .inr ⟨b', hmove, hpending, by simp only [act, hreserve]⟩
  · have hreserve := Builder.reserve_eq_error (fun test heq => hq ⟨test, heq⟩) b
    exact .inl (by simp only [act, hreserve, put_self h])

theorem perform_patch (hb : b.Consistent) (h : w.builders[number]? = some (some b)) (handle : Nat)
    (target : Target) :
    (w.handles[handle]? = none ∧ w.perform (.act number (.patch handle target)) = (.noHandle, w)) ∨
      ∃ jump, w.handles[handle]? = some jump ∧
        ((jump.address ∉ b.pending ∧
            w.perform (.act number (.patch handle target)) =
              (.failed (.alreadyPatched jump.address), w)) ∨
          ∃ b', b.Move (some (jump.address, target)) b' ∧
            w.perform (.act number (.patch handle target)) =
              (.address b'.address, w.put number b')) := by
  rw [perform_act h, act]
  cases hhandle : w.handles[handle]? with
  | none => exact .inl ⟨rfl, rfl⟩
  | some jump =>
    refine .inr ⟨jump, rfl, ?_⟩
    by_cases hpending : jump.address ∈ b.pending
    · obtain ⟨b', hpatch, hmove⟩ := hb.patch_eq_ok hpending target
      exact .inr ⟨b', hmove, by simp only [run, hpatch]⟩
    · exact .inl ⟨hpending, by simp only [run, Builder.patch_eq_error hpending, put_self h]⟩

theorem perform_lower (hb : b.Consistent) (h : w.builders[number]? = some (some b))
    (program : List Stmt) :
    ∃ b', b.Move none b' ∧
      w.perform (.act number (.lower program)) = (.address b'.address, w.put number b') := by
  obtain ⟨b', hlower, hmove⟩ := hb.lowerAll_eq_ok program
  exact ⟨b', hmove, by simp only [perform_act h, act, run, hlower]⟩

/-- A step fills in a jump of a builder if it is a patch of that builder that succeeds. -/
theorem filling?_eq_some {a : Address} {target : Target}
    (h : w.filling? number step = some (a, target)) :
    ∃ handle next, step = .act number (.patch handle target) ∧ (w.perform step).1 = .address next ∧
      w.handles[handle]? = some { address := a } := by
  unfold filling? at h
  split at h
  · next n handle target' next hreply =>
    split at h
    · next hn =>
      obtain ⟨jump, hjump, heq⟩ := Option.map_eq_some_iff.1 h
      obtain ⟨rfl, rfl⟩ := Prod.mk.inj heq
      exact ⟨handle, next, by rw [hn], hreply, hjump⟩
    · cases h
  · cases h

theorem filling?_of_ne {n : Nat} (h : n ≠ number) (action : Action) :
    w.filling? number (.act n action) = none := by
  refine Option.eq_none_iff_forall_ne_some.2 fun entry hfill => ?_
  obtain ⟨handle, next, hstep, -⟩ := filling?_eq_some hfill
  exact h (Step.act.inj hstep).1

/-- An action finishes its builder or makes a move of it. -/
theorem act_builders (hb : b.Consistent) (h : w.builders[number]? = some (some b))
    (action : Action) :
    (w.perform (.act number action)).2.builders = w.builders.set number none ∨
      ∃ b', (w.perform (.act number action)).2.builders = w.builders.set number (some b') ∧
        b.Move (w.filling? number (.act number action)) b' := by
  have hself : w.builders = w.builders.set number (some b) :=
    congrArg Workshop.builders (put_self h).symm
  cases action with
  | address => exact .inr ⟨b, by rw [perform_act h]; exact hself, .refl b⟩
  | emit q => exact .inr ⟨_, by rw [perform_act h]; rfl, .append b [q] b.temps⟩
  | reserve q =>
    rcases perform_reserve h q with hperform | ⟨b', hmove, -, hperform⟩
    · exact .inr ⟨b, by rw [hperform]; exact hself, .refl b⟩
    · exact .inr ⟨b', by rw [hperform]; rfl, hmove⟩
  | patch handle target =>
    rcases perform_patch hb h handle target with
      ⟨-, hperform⟩ | ⟨jump, hjump, ⟨-, hperform⟩ | ⟨b', hmove, hperform⟩⟩
    · refine .inr ⟨b, by rw [hperform]; exact hself, ?_⟩
      simpa only [filling?, hperform] using Builder.Move.refl b
    · refine .inr ⟨b, by rw [hperform]; exact hself, ?_⟩
      simpa only [filling?, hperform] using Builder.Move.refl b
    · refine .inr ⟨b', by rw [hperform]; rfl, ?_⟩
      simpa only [filling?, hperform, if_true, hjump, Option.map_some] using hmove
  | lower program =>
    obtain ⟨b', hmove, hperform⟩ := perform_lower hb h program
    exact .inr ⟨b', by rw [hperform]; rfl, hmove⟩
  | finish => exact .inl (by rw [perform_act h]; rfl)

/-- An action leaves the other builders alone. -/
theorem act_builders_of_ne (hw : w.Consistent) {n : Nat} (hn : n ≠ number) (action : Action) :
    (w.perform (.act n action)).2.builders[number]? = w.builders[number]? := by
  rcases w.exists_builder_or n with ⟨b, hb⟩ | hnone
  · rcases act_builders (hw n b hb) hb action with hset | ⟨b', hset, -⟩
    · rw [hset, List.getElem?_set_ne hn]
    · rw [hset, List.getElem?_set_ne hn]
  · rw [hnone]

/-- A builder that is there after a step is new, or was there before it and has made one move. -/
theorem perform_builder (hw : w.Consistent)
    (h : (w.perform step).2.builders[number]? = some (some b')) :
    (number = w.builders.length ∧ b' = {}) ∨
      ∃ b, w.builders[number]? = some (some b) ∧ b.Move (w.filling? number step) b' := by
  cases step with
  | newBuilder =>
    by_cases hlt : number < w.builders.length
    · rw [perform, List.getElem?_append_left hlt] at h
      exact .inr ⟨b', h, .refl b'⟩
    · rw [perform, List.getElem?_append_right (by omega), List.getElem?_singleton] at h
      split at h
      · next hzero =>
        exact .inl ⟨by omega, (Option.some.inj (Option.some.inj h)).symm⟩
      · cases h
  | act n action =>
    by_cases hn : n = number
    · subst hn
      rcases w.exists_builder_or n with ⟨b, hb⟩ | hnone
      · have hlt := (List.getElem?_eq_some_iff.1 hb).1
        rcases act_builders (hw n b hb) hb action with hset | ⟨b₁, hset, hmove⟩
        · rw [hset, List.getElem?_set_self hlt] at h
          cases h
        · rw [hset, List.getElem?_set_self hlt] at h
          obtain rfl := Option.some.inj (Option.some.inj h)
          exact .inr ⟨b, hb, hmove⟩
      · rw [hnone] at h
        refine .inr ⟨b', h, ?_⟩
        simp only [filling?, hnone]
        exact .refl b'
    · rw [act_builders_of_ne hw hn] at h
      exact .inr ⟨b', h, by rw [filling?_of_ne hn]; exact .refl b'⟩

theorem length_builders_le (hw : w.Consistent) (step : Step) :
    w.builders.length ≤ (w.perform step).2.builders.length := by
  cases step with
  | newBuilder => simp [perform]
  | act n action =>
    rcases w.exists_builder_or n with ⟨b, hb⟩ | hnone
    · rcases act_builders (hw n b hb) hb action with hset | ⟨b₁, hset, -⟩
      · exact Nat.le_of_eq (by rw [hset, List.length_set])
      · exact Nat.le_of_eq (by rw [hset, List.length_set])
    · exact Nat.le_of_eq (by rw [hnone])

theorem Consistent.perform (hw : w.Consistent) (step : Step) : (w.perform step).2.Consistent := by
  intro number b' h
  rcases perform_builder hw h with ⟨-, rfl⟩ | ⟨b, hb, hmove⟩
  · exact Builder.consistent_empty
  · exact (hw number b hb).move hmove

/-! ## Whole runs -/

theorem consistent_start : ({} : Workshop).Consistent := by
  intro number b h
  cases List.mem_singleton.1 (List.mem_of_getElem? h)
  exact Builder.consistent_empty

theorem Consistent.after (hw : w.Consistent) (steps : List Step) : (w.after steps).Consistent := by
  induction steps generalizing w with
  | nil => exact hw
  | cons step rest ih => exact ih (hw.perform step)

theorem length_builders_after_le (hw : w.Consistent) (steps : List Step) :
    w.builders.length ≤ (w.after steps).builders.length := by
  induction steps generalizing w with
  | nil => exact Nat.le_refl _
  | cons step rest ih => exact Nat.le_trans (length_builders_le hw step) (ih (hw.perform step))

/-- Over a run a builder makes the moves that the steps tell. -/
theorem moves_after (hw : w.Consistent) (hb : w.builders[number]? = some (some b))
    (hb' : (w.after steps).builders[number]? = some (some b')) :
    b.Moves (w.fillings number steps) b' := by
  induction steps using List.reverseRecOn generalizing b' with
  | nil =>
    obtain rfl := Option.some.inj (Option.some.inj (hb.symm.trans hb'))
    exact .refl
  | append_singleton steps step ih =>
    rw [after_concat] at hb'
    rw [fillings, observe_concat]
    rcases perform_builder (hw.after steps) hb' with ⟨hnew, -⟩ | ⟨b₁, hb₁, hmove⟩
    · have hlt := (List.getElem?_eq_some_iff.1 hb).1
      have hle := length_builders_after_le hw steps
      omega
    · exact (ih hb₁).step hmove

/-! ## Handles -/

theorem run_handles (b : Builder) (action : Build α) (reply : α → Address → Reply) :
    (w.run number b action reply).2.handles = w.handles := by
  unfold run
  split
  · rfl
  · rfl

theorem perform_handles (w : Workshop) (step : Step) :
    (w.perform step).2.handles = w.handles ++ (w.issue? step).toList.map fun issue =>
      { address := issue.2 } := by
  cases step with
  | newBuilder => exact (List.append_nil _).symm
  | act n action =>
    have hkept (hissue : w.issue? (.act n action) = none)
        (hhandles : (w.perform (.act n action)).2.handles = w.handles) :
        (w.perform (.act n action)).2.handles =
          w.handles ++ (w.issue? (.act n action)).toList.map fun issue =>
            { address := issue.2 } := by
      rw [hissue, hhandles, Option.toList_none, List.map_nil, List.append_nil]
    rcases w.exists_builder_or n with ⟨b, hb⟩ | hnone
    · cases action with
      | address => exact hkept rfl (by rw [perform_act hb]; rfl)
      | emit q => exact hkept rfl (by rw [perform_act hb]; rfl)
      | reserve q =>
        rcases perform_reserve hb q with hperform | ⟨b', -, -, hperform⟩
        · simp [issue?, hperform]
        · simp [issue?, hperform]
      | patch handle target =>
        refine hkept rfl ?_
        rw [perform_act hb, act]
        split
        · rfl
        · exact run_handles b _ _
      | lower program => exact hkept rfl (by rw [perform_act hb]; exact run_handles b _ _)
      | finish => exact hkept rfl (by rw [perform_act hb]; rfl)
    · exact hkept (by simp only [issue?, hnone]) (by rw [hnone])

/-- The jump of a handle that is given out is the last quad of its builder, and it is pending. -/
theorem issue?_eq_some {a : Address} (h : w.issue? step = some (number, a)) :
    ∃ b b', w.builders[number]? = some (some b) ∧ a = b.address ∧
      (w.perform step).2.builders[number]? = some (some b') ∧ a ∈ b'.pending := by
  unfold issue? at h
  split at h
  · next n q handle address next hreply =>
    obtain ⟨rfl, rfl⟩ := Prod.mk.inj (Option.some.inj h)
    rcases w.exists_builder_or n with ⟨b, hb⟩ | hnone
    · rcases perform_reserve hb q with hperform | ⟨b', -, hpending, hperform⟩
      · rw [hperform] at hreply
        cases hreply
      · rw [hperform] at hreply ⊢
        obtain ⟨-, rfl, -⟩ := Reply.reserved.inj hreply
        have hlt := (List.getElem?_eq_some_iff.1 hb).1
        exact ⟨b, b', hb, rfl, List.getElem?_set_self hlt, hpending⟩
    · rw [hnone] at hreply
      cases hreply
  · cases h

/-- What the steps tell about the handles. Each was given out by one builder for one of its
jumps, no two of them for the same jump. The jump is pending, unless some handle to its address
has been used on the builder. -/
structure Ledger (steps : List Step) : Prop where
  handles : (({} : Workshop).after steps).handles =
    (issues steps).map fun issue => { address := issue.2 }
  nodup : (issues steps).Nodup
  emitted : ∀ {n : Nat} {a : Address}, (n, a) ∈ issues steps →
    n < (({} : Workshop).after steps).builders.length ∧
    ∀ b, (({} : Workshop).after steps).builders[n]? = some (some b) → a < b.address
  pending : ∀ {n : Nat} {a : Address} {b : Builder}, (n, a) ∈ issues steps →
    (({} : Workshop).after steps).builders[n]? = some (some b) → a ∈ b.pending ∨
      ∃ handle target m, .act n (.patch handle target) ∈ steps ∧
        (issues steps)[handle]? = some (m, a)

theorem issues_concat :
    issues (steps ++ [step]) = issues steps ++ ((({} : Workshop).after steps).issue? step).toList :=
  observe_concat issue?

theorem fillings_concat :
    w.fillings number (steps ++ [step]) =
      w.fillings number steps ++ ((w.after steps).filling? number step).toList :=
  observe_concat (filling? number)

theorem ledger_nil : Ledger [] where
  handles := rfl
  nodup := .nil
  emitted := nofun
  pending := nofun

/-- A step leaves the jump of a handle pending, unless the step is a patch with a
handle to its address. -/
theorem Ledger.kept (h : Ledger steps) {a : Address} (hissue : (number, a) ∈ issues steps)
    (hb' : ((({} : Workshop).after steps).perform step).2.builders[number]? = some (some b')) :
    a < b'.address ∧ (a ∈ b'.pending ∨ ∃ handle target m,
      .act number (.patch handle target) ∈ steps ++ [step] ∧
        (issues steps)[handle]? = some (m, a)) := by
  obtain ⟨hnumber, hemitted⟩ := h.emitted hissue
  have hw := consistent_start.after steps
  rcases perform_builder hw hb' with ⟨hnew, -⟩ | ⟨b, hb, hmove⟩
  · omega
  have ha := hemitted b hb
  refine ⟨Nat.lt_of_lt_of_le ha hmove.length_le, ?_⟩
  rcases h.pending hissue hb with hpending | ⟨handle, target, m, hstep, hhandle⟩
  · by_cases hfill : ∃ target, (({} : Workshop).after steps).filling? number step = some (a, target)
    · obtain ⟨target, hfill⟩ := hfill
      obtain ⟨handle, -, rfl, -, hhandle⟩ := filling?_eq_some hfill
      rw [h.handles, List.getElem?_map, Option.map_eq_some_iff] at hhandle
      obtain ⟨⟨m, c⟩, hissue', heq⟩ := hhandle
      obtain rfl : c = a := OpenJump.mk.inj heq
      exact .inr ⟨handle, target, m, List.mem_append_right _ (List.mem_singleton.2 rfl), hissue'⟩
    · rw [not_exists] at hfill
      exact .inl ((hmove.mem_pending_iff (hw number b hb) ha).2 ⟨hpending, hfill⟩)
  · exact .inr ⟨handle, target, m, List.mem_append_left _ hstep, hhandle⟩

theorem Ledger.concat (h : Ledger steps) (step : Step) : Ledger (steps ++ [step]) := by
  have hw := consistent_start.after steps
  constructor
  · rw [after_concat, perform_handles, h.handles, issues_concat, List.map_append]
  · rw [issues_concat]
    have hlast : ((({} : Workshop).after steps).issue? step).toList.Nodup := by
      cases (({} : Workshop).after steps).issue? step <;> simp
    refine List.nodup_append.2 ⟨h.nodup, hlast, ?_⟩
    rintro ⟨n, a⟩ hold issue hnew rfl
    obtain ⟨b, -, hb, rfl, -⟩ := issue?_eq_some (Option.mem_toList.1 hnew)
    exact Nat.lt_irrefl _ ((h.emitted hold).2 b hb)
  · intro n a hmem
    rw [issues_concat, List.mem_append, Option.mem_toList] at hmem
    rw [after_concat]
    rcases hmem with hold | hnew
    · exact ⟨Nat.lt_of_lt_of_le (h.emitted hold).1 (length_builders_le hw step),
        fun b hb => (h.kept hold hb).1⟩
    · obtain ⟨b, b', -, rfl, hb', hpending⟩ := issue?_eq_some hnew
      refine ⟨(List.getElem?_eq_some_iff.1 hb').1, fun b'' hb'' => ?_⟩
      obtain rfl := Option.some.inj (Option.some.inj (hb'.symm.trans hb''))
      exact ((hw.perform step) n b' hb').bounded _ hpending
  · intro n a b hmem hb
    rw [issues_concat, List.mem_append, Option.mem_toList] at hmem
    rw [after_concat] at hb
    rcases hmem with hold | hnew
    · refine (h.kept hold hb).2.imp_right ?_
      rintro ⟨handle, target, m, hstep, hhandle⟩
      refine ⟨handle, target, m, hstep, ?_⟩
      rw [issues_concat, List.getElem?_append_left (List.getElem?_eq_some_iff.1 hhandle).1, hhandle]
    · obtain ⟨-, b', -, -, hb', hpending⟩ := issue?_eq_some hnew
      obtain rfl := Option.some.inj (Option.some.inj (hb'.symm.trans hb))
      exact .inl hpending

theorem ledger (steps : List Step) : Ledger steps := by
  induction steps using List.reverseRecOn with
  | nil => exact ledger_nil
  | append_singleton steps step ih => exact ih.concat step

/-! ## The rules of a workshop -/

/-- The rules that builders and handles follow after the steps. -/
structure Disciplined (steps : List Step) : Prop where
  /-- What is pending is an unresolved jump among the quads. -/
  pending_unresolved : ∀ {number : Nat} {b : Builder},
    (({} : Workshop).after steps).builders[number]? = some (some b) →
    ∀ a ∈ b.pending, a < b.address ∧ ∃ test, b.quads[a]? = some (.jump test .unresolved)
  /-- A patch always finds a jump to fill in, or is told that there is
  nothing to fill in any more. -/
  patch_finds_jump : ∀ (number handle : Nat) (target : Target) (a : Address),
    ((({} : Workshop).after steps).perform (.act number (.patch handle target))).1 ≠
      .failed (.notOpen a)
  /-- An action that fails leaves everything as it was. -/
  failed_unchanged : ∀ {number : Nat} {action : Action} {e : JumpError}, action ≠ .finish →
    ((({} : Workshop).after steps).perform (.act number action)).1 = .failed e →
    ((({} : Workshop).after steps).perform (.act number action)).2 = ({} : Workshop).after steps
  /-- A quad stays where it is and as it is, whatever steps are done later, unless it is a pending
  jump. Then its target changes when a patch fills it in, and no more than one does. -/
  quads_kept : ∀ {later : List Step} {number : Nat} {b b' : Builder} {a : Address} {q : Quad},
    (({} : Workshop).after steps).builders[number]? = some (some b) →
    (({} : Workshop).after (steps ++ later)).builders[number]? = some (some b') →
      b.quads[a]? = some q →
    (((({} : Workshop).after steps).fillings number later).filter (·.1 = a) = [] ∧
      b'.quads[a]? = some q) ∨
      ∃ test target, q = .jump test .unresolved ∧ a ∈ b.pending ∧
        ((({} : Workshop).after steps).fillings number later).filter (·.1 = a) = [(a, target)] ∧
        b'.quads[a]? = some (.jump test target)
  /-- A handle that has not been used works on the builder that gave it out, if no handle of another
  builder has been used there. -/
  own_handle_works : ∀ {number handle : Nat} {a : Address} {b : Builder},
    (({} : Workshop).after steps).builders[number]? = some (some b) →
      (issues steps)[handle]? = some (number, a) →
    (∀ n target, .act n (.patch handle target) ∉ steps) →
    (∀ handle' target n a', .act number (.patch handle' target) ∈ steps →
      (issues steps)[handle']? = some (n, a') → n = number) →
    ∀ target, ∃ next,
      ((({} : Workshop).after steps).perform (.act number (.patch handle target))).1 = .address next

theorem perform_patch_ne_notOpen (hw : w.Consistent) (number handle : Nat) (target : Target)
    (a : Address) : (w.perform (.act number (.patch handle target))).1 ≠ .failed (.notOpen a) := by
  rcases w.exists_builder_or number with ⟨b, hb⟩ | hnone
  · rcases perform_patch (hw number b hb) hb handle target with
      ⟨-, hperform⟩ | ⟨jump, -, ⟨-, hperform⟩ | ⟨b', -, hperform⟩⟩
    · rw [hperform]
      nofun
    · rw [hperform]
      nofun
    · rw [hperform]
      nofun
  · rw [hnone]
    nofun

theorem perform_failed (hw : w.Consistent) {action : Action} {e : JumpError}
    (hfinish : action ≠ .finish) (h : (w.perform (.act number action)).1 = .failed e) :
    (w.perform (.act number action)).2 = w := by
  rcases w.exists_builder_or number with ⟨b, hb⟩ | hnone
  · cases action with
    | address =>
      rw [perform_act hb] at h
      cases h
    | emit q =>
      rw [perform_act hb] at h
      cases h
    | reserve q =>
      rcases perform_reserve hb q with hperform | ⟨b', -, -, hperform⟩
      · rw [hperform]
      · rw [hperform] at h
        cases h
    | patch handle target =>
      rcases perform_patch (hw number b hb) hb handle target with
        ⟨-, hperform⟩ | ⟨jump, -, ⟨-, hperform⟩ | ⟨b', -, hperform⟩⟩
      · rw [hperform]
      · rw [hperform]
      · rw [hperform] at h
        cases h
    | lower program =>
      obtain ⟨b', -, hperform⟩ := perform_lower (hw number b hb) hb program
      rw [hperform] at h
      cases h
    | finish => exact absurd rfl hfinish
  · rw [hnone]

theorem Ledger.mem_pending (h : Ledger steps) {handle : Nat} {a : Address}
    (hb : (({} : Workshop).after steps).builders[number]? = some (some b))
    (hissue : (issues steps)[handle]? = some (number, a))
    (hunused : ∀ n target, .act n (.patch handle target) ∉ steps)
    (hown : ∀ handle' target n a', .act number (.patch handle' target) ∈ steps →
      (issues steps)[handle']? = some (n, a') → n = number) : a ∈ b.pending := by
  rcases h.pending (List.mem_of_getElem? hissue) hb with
    hpending | ⟨handle', target, n, hstep, hissue'⟩
  · exact hpending
  · -- Only a handle of the builder itself has been used, and of those just one is for this jump.
    obtain rfl := hown handle' target n a hstep hissue'
    have hlt := (List.getElem?_eq_some_iff.1 hissue).1
    obtain rfl := (List.getElem?_inj hlt h.nodup).1 (hissue.trans hissue'.symm)
    exact absurd hstep (hunused _ target)

theorem perform_patch_of_pending (hb : b.Consistent) (h : w.builders[number]? = some (some b))
    {handle : Nat} {a : Address} (hhandle : w.handles[handle]? = some { address := a })
    (ha : a ∈ b.pending) (target : Target) :
    ∃ next, (w.perform (.act number (.patch handle target))).1 = .address next := by
  rcases perform_patch hb h handle target with
    ⟨hnone, -⟩ | ⟨jump, hjump, ⟨hnot, -⟩ | ⟨b', -, hperform⟩⟩
  · rw [hhandle] at hnone
    cases hnone
  · obtain rfl := Option.some.inj (hhandle.symm.trans hjump)
    exact absurd ha hnot
  · exact ⟨b'.address, by rw [hperform]⟩

/-- The rules hold after any steps, over any number of builders. -/
theorem disciplined (steps : List Step) : Disciplined steps := by
  have hw := consistent_start.after steps
  constructor
  · intro number b hb a ha
    exact ⟨(hw number b hb).bounded a ha, (hw number b hb).unresolved a ha⟩
  · exact perform_patch_ne_notOpen hw
  · exact perform_failed hw
  · intro later number b b' a q hb hb' hq
    rw [after_append] at hb'
    exact (moves_after hw hb hb').getElem?_quads (hw number b hb) hq
  · intro number handle a b hb hissue hunused hown target
    have hpending := (ledger steps).mem_pending hb hissue hunused hown
    have hhandle : (({} : Workshop).after steps).handles[handle]? = some { address := a } := by
      rw [(ledger steps).handles, List.getElem?_map, hissue, Option.map_some]
    exact perform_patch_of_pending (hw number b hb) hb hhandle hpending target

/-- The handle 1 of the builder 1 is used on the builder 0, where it fills in the jump of the handle
0. -/
def crossedSteps : List Step :=
  [.newBuilder, .act 0 (.reserve (.jump .always .unresolved)),
    .act 1 (.reserve (.jump .always .unresolved)), .act 0 (.patch 1 (.to 2)),
    .act 1 (.reserve (.jump .always .unresolved)), .act 0 (.reserve (.jump .always .unresolved))]

theorem disciplined_crossed :
    (issues crossedSteps)[2]? = some (1, 1) ∧
      (∀ target, ∃ next,
        ((({} : Workshop).after crossedSteps).perform (.act 1 (.patch 2 target))).1 =
          .address next) ∧
      ((({} : Workshop).after crossedSteps).perform (.act 0 (.patch 0 (.to 0)))).1 =
        .failed (.alreadyPatched 0) ∧
      ((({} : Workshop).after crossedSteps).perform (.act 0 (.patch 0 (.to 0)))).2 =
        ({} : Workshop).after crossedSteps := by
  have hunused : ∀ n target, .act n (.patch 2 target) ∉ crossedSteps := by simp [crossedSteps]
  have hown : ∀ handle target n a, .act 1 (.patch handle target) ∈ crossedSteps →
      (issues crossedSteps)[handle]? = some (n, a) → n = 1 := by simp [crossedSteps]
  exact ⟨rfl, (disciplined crossedSteps).own_handle_works rfl rfl hunused hown, rfl,
    (disciplined crossedSteps).failed_unchanged nofun rfl⟩

end Workshop

end Quadcode
