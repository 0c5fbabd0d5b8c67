import Mathlib.Order.Bounds.Basic
import Quadcode.Proofs.Builder.Lowering

/-!
# Handing out a listing

A builder hands out its listing if no jump is pending and `validate` finds no fault in the
quads. The two do not look at the same jumps: an unresolved jump may have been emitted as
it is, or be the result of a patch, and is not pending then. But in a builder of a workshop
every pending jump is unresolved, and so `validate` alone decides whether there is a
listing (`Builder.Consistent.finish_eq_ok_iff`), while the pending jumps come first where
there is an error to report.

Which jumps are pending can be told from the steps: those that were reserved and that no patch has
filled in (`Workshop.Unpatched`).
-/

namespace Quadcode

/-! ## The first fault -/

theorem Quad.fault?_eq_some_iff {size : Nat} {address : Address} {q : Quad} {e : JumpError} :
    q.fault? size address = some e ↔
      (q.target? = some .unresolved ∧ e = .unpatched address) ∨
        ∃ target : Address, q.target? = some (.to target) ∧ size < target ∧
          e = .outOfRange address target size := by
  unfold fault?
  cases q.target? with
  | none => simp
  | some target =>
    rcases target with _ | address'
    · simp [eq_comm]
    · by_cases h : size < address' <;> simp [h, eq_comm]

theorem Quad.not_resolved_of_fault? {size : Nat} {address : Address} {q : Quad} {e : JumpError}
    (h : q.fault? size address = some e) : ¬ q.Resolved size := by
  intro hresolved
  have hnone : q.fault? size address = none := Quad.fault?_eq_none_iff.2 hresolved
  cases hnone.symm.trans h

theorem exists_of_findSome?_zipIdx {α β : Type} {xs : List α} {f : α × Nat → Option β} {y : β}
    (h : xs.zipIdx.findSome? f = some y) :
    ∃ i x, xs[i]? = some x ∧ f (x, i) = some y ∧ ∀ j z, j < i → xs[j]? = some z →
      f (z, j) = none := by
  obtain ⟨before, ⟨x, i⟩, later, hsplit, hx, hbefore⟩ := List.findSome?_eq_some_iff.1 h
  have hat : xs.zipIdx[before.length]? = some (x, i) := by simp [hsplit]
  rw [List.getElem?_zipIdx, Option.map_eq_some_iff] at hat
  obtain ⟨x', hx', heq⟩ := hat
  obtain ⟨rfl, rfl⟩ := Prod.mk.inj heq
  rw [Nat.zero_add] at hx
  refine ⟨before.length, x', hx', hx, fun j z hj hz => hbefore (z, j) ?_⟩
  have hj' : xs.zipIdx[j]? = some (z, j) := by simp [List.getElem?_zipIdx, hz]
  rw [hsplit, List.getElem?_append_left hj] at hj'
  exact List.mem_of_getElem? hj'

/-- Every jump in front of the address is resolved. -/
def ResolvedBefore (quads : List Quad) (a : Address) : Prop :=
  ∀ (c : Address) (q : Quad), c < a → quads[c]? = some q → q.Resolved quads.length

theorem validate_eq_error {quads : List Quad} {e : JumpError} (h : validate quads = .error e) :
    ∃ a q, quads[a]? = some q ∧ ResolvedBefore quads a ∧ q.fault? quads.length a = some e := by
  unfold validate at h
  split at h
  · next e' he =>
    obtain rfl := Except.error.inj h
    obtain ⟨a, q, hq, hfault, hbefore⟩ := exists_of_findSome?_zipIdx he
    exact ⟨a, q, hq, fun c q' hc hq' => Quad.fault?_eq_none_iff.1 (hbefore c q' hc hq'), hfault⟩
  · cases h

theorem validate_eq_error_iff {quads : List Quad} {e : JumpError} :
    validate quads = .error e ↔
      ∃ a q, quads[a]? = some q ∧ ResolvedBefore quads a ∧ q.fault? quads.length a = some e := by
  refine ⟨validate_eq_error, ?_⟩
  rintro ⟨a, q, hq, hbefore, hfault⟩
  have hdangles := Quad.not_resolved_of_fault? hfault
  cases hv : validate quads with
  | ok => exact absurd (validate_eq_ok_iff.1 hv q (List.mem_of_getElem? hq)) hdangles
  | error e' =>
    -- Of two first faults neither comes before the other.
    obtain ⟨a', q', hq', hbefore', hfault'⟩ := validate_eq_error hv
    have hdangles' := Quad.not_resolved_of_fault? hfault'
    rcases Nat.lt_trichotomy a a' with hlt | rfl | hlt
    · exact absurd (hbefore' a q hlt hq) hdangles
    · obtain rfl := Option.some.inj (hq.symm.trans hq')
      rw [Option.some.inj (hfault.symm.trans hfault')]
    · exact absurd (hbefore a' q' hlt hq') hdangles'

/-! ## Finishing a builder -/

namespace Builder

variable {b : Builder}

theorem finish_of_pending {a : Address} {rest : List Address} (h : b.pending = a :: rest) :
    b.finish = .error (.unpatched a) := by
  rw [finish, h]

theorem finish_of_none_pending (h : b.pending = []) :
    b.finish = (validate b.quads).map fun _ => { quads := b.quads } := by
  rw [finish, h]

namespace Consistent

theorem pending_eq_nil_of_validate (h : b.Consistent) (hv : validate b.quads = .ok ()) :
    b.pending = [] := by
  refine List.eq_nil_iff_forall_not_mem.2 fun a ha => ?_
  obtain ⟨test, hquad⟩ := h.unresolved a ha
  obtain ⟨target, htarget, -⟩ :=
    validate_eq_ok_iff.1 hv _ (List.mem_of_getElem? hquad) .unresolved rfl
  cases htarget

/-- Validation alone decides whether a builder hands out its quads. -/
theorem finish_eq_ok_iff (h : b.Consistent) {l : Listing} :
    b.finish = .ok l ↔ l = { quads := b.quads } ∧ validate b.quads = .ok () := by
  constructor
  · intro hfinish
    cases hp : b.pending with
    | nil =>
      rw [finish_of_none_pending hp] at hfinish
      cases hv : validate b.quads with
      | ok =>
        rw [hv] at hfinish
        exact ⟨(Except.ok.inj hfinish).symm, rfl⟩
      | error e =>
        rw [hv] at hfinish
        cases hfinish
    | cons a rest =>
      rw [finish_of_pending hp] at hfinish
      cases hfinish
  · rintro ⟨rfl, hv⟩
    rw [finish_of_none_pending (h.pending_eq_nil_of_validate hv), hv]
    rfl

theorem isLeast_of_pending (h : b.Consistent) {a : Address} {rest : List Address}
    (hp : b.pending = a :: rest) : IsLeast {c | c ∈ b.pending} a := by
  have hsorted := h.sorted
  rw [hp, List.pairwise_cons] at hsorted
  refine ⟨by simp [hp], fun c hc => ?_⟩
  rw [Set.mem_ofPred_eq, hp, List.mem_cons] at hc
  rcases hc with rfl | hc
  · exact Nat.le_refl _
  · exact Nat.le_of_lt (hsorted.1 c hc)

/-- The error of a builder is that of its first pending jump, and if there is none that of
the first faulty quad. -/
theorem finish_eq_error_iff (h : b.Consistent) {e : JumpError} :
    b.finish = .error e ↔
      (∃ a, IsLeast {c | c ∈ b.pending} a ∧ e = .unpatched a) ∨
        b.pending = [] ∧ validate b.quads = .error e := by
  cases hp : b.pending with
  | nil =>
    rw [finish_of_none_pending hp]
    cases validate b.quads <;> simp [Except.map, IsLeast]
  | cons a rest =>
    have hleast := h.isLeast_of_pending hp
    rw [finish_of_pending hp, ← hp]
    constructor
    · intro he
      exact .inl ⟨a, hleast, (Except.error.inj he).symm⟩
    · rintro (⟨c, hc, rfl⟩ | ⟨hnil, -⟩)
      · rw [hleast.unique hc]
      · rw [hp] at hnil
        cases hnil

end Consistent

end Builder

/-! ## Which jumps are pending -/

namespace Workshop

variable {w : Workshop} {steps : List Step} {step : Step} {number : Nat} {b b' : Builder}
  {a : Address}

/-- The builder has reserved a jump at the address, and no patch has filled it in. -/
def Unpatched (steps : List Step) (number : Nat) (a : Address) : Prop :=
  (number, a) ∈ issues steps ∧ ∀ target, (a, target) ∉ ({} : Workshop).fillings number steps

theorem eq_of_put {b₁ : Builder} (hb : w.builders[number]? = some (some b))
    (hb' : (w.put number b₁).builders[number]? = some (some b')) : b' = b₁ :=
  Option.some.inj (Option.some.inj (hb'.symm.trans (getElem?_put hb b₁)))

/-- A jump that is pending was so before the step, or is the one that the step has reserved. -/
theorem mem_pending_of_perform (hw : w.Consistent) (hb : w.builders[number]? = some (some b))
    (hb' : (w.perform step).2.builders[number]? = some (some b')) (ha : a ∈ b'.pending) :
    a ∈ b.pending ∨ w.issue? step = some (number, a) := by
  have hsame (h : (w.perform step).2.builders[number]? = w.builders[number]?) : a ∈ b.pending := by
    rw [h, hb] at hb'
    rwa [Option.some.inj (Option.some.inj hb')]
  cases step with
  | newBuilder => exact .inl (hsame (List.getElem?_append_left (List.getElem?_eq_some_iff.1 hb).1))
  | act n action =>
    by_cases hn : n = number
    · subst hn
      cases action with
      | address => exact .inl (hsame (by rw [perform_act hb]; rfl))
      | emit q =>
        rw [perform_act hb] at hb'
        obtain rfl := eq_of_put hb hb'
        exact .inl ha
      | reserve q =>
        rcases perform_reserve hb q with hperform | ⟨b₁, hmove, -, hperform⟩
        · exact .inl (hsame (by rw [hperform]))
        · rw [hperform] at hb'
          obtain rfl := eq_of_put hb hb'
          cases hmove with
          | append => exact .inl ha
          | reserve =>
            refine (List.mem_append.1 ha).imp_right fun ha => ?_
            simp [issue?, hperform, List.mem_singleton.1 ha]
      | patch handle target =>
        rcases perform_patch (hw n b hb) hb handle target with
          ⟨-, hperform⟩ | ⟨jump, -, ⟨-, hperform⟩ | ⟨b₁, hmove, hperform⟩⟩
        · exact .inl (hsame (by rw [hperform]))
        · exact .inl (hsame (by rw [hperform]))
        · rw [hperform] at hb'
          obtain rfl := eq_of_put hb hb'
          cases hmove with
          | fill => exact .inl (List.mem_of_mem_erase ha)
      | lower program =>
        obtain ⟨b₁, -, hlower, -, hpending, -⟩ := (hw n b hb).lowerAll_appends program
        simp only [perform_act hb, act, run, hlower] at hb'
        obtain rfl := eq_of_put hb hb'
        exact .inl (hpending ▸ ha)
      | finish =>
        rw [perform_act hb, act, List.getElem?_set_self (List.getElem?_eq_some_iff.1 hb).1] at hb'
        cases hb'
    · exact .inl (hsame (act_builders_of_ne hw hn action))

theorem mem_pending_perform_iff (hw : w.Consistent) (hb : w.builders[number]? = some (some b))
    (hmove : b.Move (w.filling? number step) b')
    (hb' : (w.perform step).2.builders[number]? = some (some b')) :
    a ∈ b'.pending ↔
      (a ∈ b.pending ∧ ∀ target, w.filling? number step ≠ some (a, target)) ∨
        w.issue? step = some (number, a) := by
  have hconsistent := hw number b hb
  constructor
  · intro ha
    refine (mem_pending_of_perform hw hb hb' ha).imp_left fun hold => ?_
    exact (hmove.mem_pending_iff hconsistent (hconsistent.bounded a hold)).1 ha
  · rintro (hold | hissue)
    · exact (hmove.mem_pending_iff hconsistent (hconsistent.bounded a hold.1)).2 hold
    · obtain ⟨-, b₁, -, -, hb₁, hpending⟩ := issue?_eq_some hissue
      obtain rfl := Option.some.inj (Option.some.inj (hb'.symm.trans hb₁))
      exact hpending

theorem pending_of_filling {target : Target} (hw : w.Consistent)
    (h : w.filling? number step = some (a, target)) :
    ∃ b, w.builders[number]? = some (some b) ∧ a ∈ b.pending := by
  obtain ⟨handle, next, rfl, hreply, hhandle⟩ := filling?_eq_some h
  rcases w.exists_builder_or number with ⟨b, hb⟩ | hnone
  · refine ⟨b, hb, ?_⟩
    rcases perform_patch (hw number b hb) hb handle target with
      ⟨-, hperform⟩ | ⟨jump, hjump, ⟨-, hperform⟩ | ⟨b', hmove, -⟩⟩
    · rw [hperform] at hreply
      cases hreply
    · rw [hperform] at hreply
      cases hreply
    · obtain rfl := Option.some.inj (hhandle.symm.trans hjump)
      exact (hmove.filled (hw number b hb)).1
  · rw [hnone] at hreply
    cases hreply

/-- What the steps tell about the pending jumps. -/
structure Tracked (steps : List Step) : Prop where
  pending : ∀ {n : Nat} {a : Address} {b : Builder},
    (({} : Workshop).after steps).builders[n]? = some (some b) →
    (a ∈ b.pending ↔ Unpatched steps n a)
  filled : ∀ {n : Nat} {a : Address} {target : Target},
    (a, target) ∈ ({} : Workshop).fillings n steps →
    (n, a) ∈ issues steps

theorem tracked_nil : Tracked [] where
  pending {n a b} hb := by
    cases List.mem_singleton.1 (List.mem_of_getElem? hb)
    simp [Unpatched, issues, observe]
  filled h := absurd h List.not_mem_nil

/-- A jump that a step has just reserved has not been filled in. -/
theorem Tracked.unpatched_of_issue (h : Tracked steps)
    (hissue : (({} : Workshop).after steps).issue? step = some (number, a)) :
    Unpatched (steps ++ [step]) number a := by
  refine ⟨by simp [issues_concat, hissue], fun target hmem => ?_⟩
  obtain ⟨b, -, hb, rfl, -⟩ := issue?_eq_some hissue
  rw [fillings_concat, List.mem_append, Option.mem_toList] at hmem
  rcases hmem with hold | hnew
  · exact Nat.lt_irrefl _ (((ledger steps).emitted (h.filled hold)).2 b hb)
  · obtain ⟨handle, next, rfl, -⟩ := filling?_eq_some hnew
    cases hissue

theorem Tracked.concat (h : Tracked steps) (step : Step) : Tracked (steps ++ [step]) := by
  have hw := consistent_start.after steps
  constructor
  · intro n a b' hb'
    rw [after_concat] at hb'
    rcases perform_builder hw hb' with ⟨hnew, rfl⟩ | ⟨b, hb, hmove⟩
    · -- A builder that has just been made has not reserved anything.
      refine iff_of_false List.not_mem_nil fun hunpatched => ?_
      have hissue := hunpatched.1
      rw [issues_concat, List.mem_append, Option.mem_toList] at hissue
      rcases hissue with hold | hissue
      · have := ((ledger steps).emitted hold).1
        omega
      · obtain ⟨b, -, hb, -⟩ := issue?_eq_some hissue
        have := (List.getElem?_eq_some_iff.1 hb).1
        omega
    · rw [mem_pending_perform_iff hw hb hmove hb', h.pending hb]
      constructor
      · rintro (⟨⟨hissue, hfillings⟩, hfill⟩ | hissue)
        · refine ⟨by simp [issues_concat, hissue], fun target hmem => ?_⟩
          rw [fillings_concat, List.mem_append, Option.mem_toList] at hmem
          exact hmem.elim (hfillings target) (hfill target)
        · exact h.unpatched_of_issue hissue
      · rintro ⟨hissue, hfillings⟩
        simp only [fillings_concat, List.mem_append, Option.mem_toList, not_or] at hfillings
        rw [issues_concat, List.mem_append, Option.mem_toList] at hissue
        exact hissue.imp_left fun hold =>
          ⟨⟨hold, fun target => (hfillings target).1⟩, fun target => (hfillings target).2⟩
  · intro n a target hmem
    rw [fillings_concat, List.mem_append, Option.mem_toList] at hmem
    rw [issues_concat, List.mem_append]
    left
    rcases hmem with hold | hnew
    · exact h.filled hold
    · obtain ⟨b, hb, ha⟩ := pending_of_filling hw hnew
      exact ((h.pending hb).1 ha).1

theorem tracked (steps : List Step) : Tracked steps := by
  induction steps using List.reverseRecOn with
  | nil => exact tracked_nil
  | append_singleton steps step ih => exact ih.concat step

/-- What a builder accepts and reports at the end, after any steps in a workshop. It hands out
exactly its quads if each jump among them leads to an address up to the end, which is what
`validate` looks for. Otherwise the error is about the first of its own jumps that is unpatched. If
it has none, it is about the first jump that leads nowhere, unresolved or past the end. -/
theorem finish_reports_first (steps : List Step) (number : Nat) {b : Builder}
    (h : (({} : Workshop).after steps).builders[number]? = some (some b)) :
    (∀ l, b.finish = .ok l ↔ l = { quads := b.quads } ∧ ∀ q ∈ b.quads, q.Resolved b.address) ∧
    (validate b.quads = .ok () ↔ ∀ q ∈ b.quads, q.Resolved b.address) ∧
    ∀ e, b.finish = .error e ↔
      (∃ a, IsLeast {c | Unpatched steps number c} a ∧ e = .unpatched a) ∨
      (∀ a, ¬ Unpatched steps number a) ∧ ∃ a q, b.quads[a]? = some q ∧
        (∀ c q', c < a → b.quads[c]? = some q' → q'.Resolved b.address) ∧
        ((q.target? = some .unresolved ∧ e = .unpatched a) ∨
          ∃ target : Address, q.target? = some (.to target) ∧ b.address < target ∧
            e = .outOfRange a target b.address) := by
  have hb := consistent_start.after steps number b h
  have hpending : {c | Unpatched steps number c} = {c | c ∈ b.pending} :=
    Set.ext fun c => ((tracked steps).pending h).symm
  have hnone : (∀ a, ¬ Unpatched steps number a) ↔ b.pending = [] := by
    rw [List.eq_nil_iff_forall_not_mem]
    exact forall_congr' fun a => not_congr ((tracked steps).pending h).symm
  refine ⟨fun l => ?_, validate_eq_ok_iff, fun e => ?_⟩
  · rw [hb.finish_eq_ok_iff, validate_eq_ok_iff]
    rfl
  · rw [hb.finish_eq_error_iff, validate_eq_error_iff, hpending, hnone]
    simp only [Quad.fault?_eq_some_iff]
    rfl

/-- The jump 0 is patched to be unresolved, so that only the jump 1 is pending. -/
def unresolvedSteps : List Step :=
  [.act 0 (.reserve (.jump .always .unresolved)), .act 0 (.reserve (.jump .always .unresolved)),
    .act 0 (.patch 0 .unresolved), .act 0 (.emit (.jump .always (.to 9)))]

theorem finish_reports_first_unresolved :
    (({} : Workshop).after unresolvedSteps).builders[0]? =
        some (some
          { quads := [.jump .always .unresolved, .jump .always .unresolved, .jump .always (.to 9)],
            pending := [1] }) ∧
      Builder.finish
          { quads := [.jump .always .unresolved, .jump .always .unresolved, .jump .always (.to 9)],
            pending := [1] } =
        .error (.unpatched 1) ∧
      (({} : Workshop).after (unresolvedSteps ++ [.act 0 (.patch 1 (.to 9))])).builders[0]? =
        some (some
          { quads := [.jump .always .unresolved, .jump .always (.to 9), .jump .always (.to 9)] }) ∧
      Builder.finish
          { quads := [.jump .always .unresolved, .jump .always (.to 9), .jump .always (.to 9)] } =
        .error (.unpatched 0) := by
  refine ⟨rfl, ?_, rfl, ?_⟩
  · have hissues : issues unresolvedSteps = [(0, 0), (0, 1)] := rfl
    have hfillings : ({} : Workshop).fillings 0 unresolvedSteps = [(0, .unresolved)] := rfl
    have hleast : IsLeast {c | Unpatched unresolvedSteps 0 c} 1 := by
      simp only [Unpatched, hissues, hfillings]
      refine ⟨by simp, fun c hc => Nat.one_le_iff_ne_zero.2 ?_⟩
      rintro rfl
      exact hc.2 .unresolved (List.mem_singleton.2 rfl)
    exact ((finish_reports_first unresolvedSteps 0 rfl).2.2 _).2 (.inl ⟨1, hleast, rfl⟩)
  · have hissues : issues (unresolvedSteps ++ [.act 0 (.patch 1 (.to 9))]) = [(0, 0), (0, 1)] := rfl
    have hfillings : ({} : Workshop).fillings 0 (unresolvedSteps ++ [.act 0 (.patch 1 (.to 9))]) =
        [(0, .unresolved), (1, .to 9)] := rfl
    have hnone : ∀ a, ¬ Unpatched (unresolvedSteps ++ [.act 0 (.patch 1 (.to 9))]) 0 a := by
      simp only [Unpatched, hissues, hfillings]
      rintro a ⟨hissue, hfilled⟩
      obtain rfl | rfl : a = 0 ∨ a = 1 := by simpa using hissue
      · exact hfilled .unresolved (by simp)
      · exact hfilled (.to 9) (by simp)
    exact ((finish_reports_first (unresolvedSteps ++ [.act 0 (.patch 1 (.to 9))]) 0 rfl).2.2 _).2
      (.inr ⟨hnone, 0, _, rfl, fun c q hc => absurd hc (Nat.not_lt_zero c), .inl ⟨rfl, rfl⟩⟩)

end Workshop

end Quadcode
