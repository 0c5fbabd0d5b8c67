import Quadcode.Proofs.Lowering.Fragment
import Quadcode.Proofs.Meaning

/-!
# Listings compute what programs mean

A fragment realizes a relation between stores if the machine, wherever the fragment stands in a
listing, leads from its start to its end exactly as the relation says, and never halts where the
relation says nothing (`Fragment.Realizes`). The fragments of statements realize the meanings of the
statements, one construct at a time, and so the listing of a program computes the meaning of the
program, non-termination included.
-/

namespace Quadcode

universe u

variable {V : Type u} {A : Arithmetic V} {l : Listing} {base k : Nat}

/-! ## Expressions and tests -/

namespace Expr

theorem value_operand_congr {e : Expr} {t t' : Nat → V} (s : Store V)
    (h : ∀ i < k + e.operations, t' i = t i) :
    (e.operand k).value A s t' = (e.operand k).value A s t := by
  cases e with
  | number x span => rfl
  | name x span => rfl
  | binary op left right span => exact h _ (by simp only [operations]; omega)

/-- The code of an expression computes its value, and leaves all variables and
the temporaries in use. -/
theorem reaches_code (e : Expr) (h : l.CodeAt base (e.code k)) (s : Store V) (t : Nat → V) :
    ∃ t', l.Reaches A ⟨base, s, t⟩ ⟨base + e.operations, s, t'⟩ ∧
      (e.operand k).value A s t' = e.eval A s ∧
      ∀ i < k, t' i = t i := by
  induction e generalizing base k t with
  | number x span => exact ⟨t, .refl _, rfl, fun _ _ => rfl⟩
  | name x span => exact ⟨t, .refl _, rfl, fun _ _ => rfl⟩
  | binary op left right span ihl ihr =>
    rw [code] at h
    have hr := h.right
    rw [length_code] at hr
    have hop := hr.right
    rw [length_code] at hop
    obtain ⟨t₁, hreach₁, hval₁, hkeep₁⟩ := ihl h.left t
    obtain ⟨t₂, hreach₂, hval₂, hkeep₂⟩ := ihr hr.left t₁
    -- The right operand uses temporaries further on, and so the value of the left one is still
    -- there.
    rw [← value_operand_congr s hkeep₂] at hval₁
    refine ⟨Function.update t₂ (k + left.operations + right.operations)
        (A.apply op (left.eval A s) (right.eval A s)),
      (hreach₁.trans hreach₂).trans (hop.reaches ?_), ?_, fun i hi => ?_⟩
    · simp [Machine.exec?, Operation.result?, Machine.write?, hval₁, hval₂, operations,
        Nat.add_assoc]
    · simp [operand, Operand.value, eval]
    · rw [Function.update_of_ne (by omega), hkeep₂ i (by omega), hkeep₁ i hi]

/-- The test fails, as the jump behind its code finds out: a test that compares is left to
the negated comparison. -/
def fails (A : Arithmetic V) (s : Store V) (test : Expr) : Bool :=
  match test.comparison? with
  | some (c, left, right) => A.holds c.negate (left.eval A s) (right.eval A s)
  | none => A.isZero (test.eval A s)

theorem fails_eq_not_isTrue (hA : A.Complements) (s : Store V) (test : Expr) :
    test.fails A s = !test.isTrue A s := by
  cases hc : test.comparison? with
  | none => simp [fails, isTrue, hc]
  | some comparison => simp [fails, isTrue, hc, hA comparison.1]

/-- After the code of a test its jump is taken exactly if the test fails. -/
theorem reaches_testCode (test : Expr) (h : l.CodeAt base (test.testCode k)) (s : Store V)
    (t : Nat → V) :
    ∃ t', l.Reaches A ⟨base, s, t⟩ ⟨base + test.testOperations, s, t'⟩ ∧
      (test.failure k).taken A s t' = test.fails A s := by
  unfold testCode at h
  cases hc : test.comparison? with
  | none =>
    simp only [hc] at h
    obtain ⟨t', hreach, hval, -⟩ := test.reaches_code h s t
    refine ⟨t', ?_, ?_⟩
    · simpa only [testOperations, hc] using hreach
    · simp [failure, fails, hc, Test.taken, hval]
  | some comparison =>
    obtain ⟨c, left, right⟩ := comparison
    simp only [hc] at h
    have hr := h.right
    rw [length_code] at hr
    obtain ⟨t₁, hreach₁, hval₁, -⟩ := left.reaches_code h.left s t
    obtain ⟨t₂, hreach₂, hval₂, hkeep₂⟩ := right.reaches_code hr s t₁
    rw [← value_operand_congr s hkeep₂] at hval₁
    refine ⟨t₂, ?_, ?_⟩
    · simpa only [testOperations, hc, Nat.add_assoc] using hreach₁.trans hreach₂
    · simp [failure, fails, hc, Test.taken, hval₁, hval₂]

/-- A test leads to the quad behind its jump if it holds, and to the target
of the jump if it fails. -/
theorem reaches_test (hA : A.Complements) (test : Expr) {exit : Nat} {code : List Quad}
    (h : l.CodeAt base (test.testCode k ++ .jump (test.failure k) (.to exit) :: code)) (s : Store V)
    (t : Nat → V) :
    ∃ t', l.Reaches A ⟨base, s, t⟩
      ⟨if test.isTrue A s then base + (test.testOperations + 1) else exit, s, t'⟩ := by
  obtain ⟨t', hreach, htaken⟩ := reaches_testCode test h.left s t
  rw [fails_eq_not_isTrue hA] at htaken
  have hjump := h.right
  rw [length_testCode] at hjump
  refine ⟨t', hreach.trans (hjump.reaches ?_)⟩
  cases htrue : test.isTrue A s <;>
    simp [Machine.exec?, htaken, htrue, Target.address?, Nat.add_assoc]

end Expr

/-! ## Fragments -/

/-- From the start of the fragment the machine comes to its end with exactly the stores that the
relation gives, and it can only halt if the relation gives one. The temporaries do not matter. -/
structure Fragment.Realizes (A : Arithmetic V) (f : Fragment)
    (R : Store V → Store V → Prop) : Prop where
  reaches : ∀ {l : Listing} {base k : Nat} {s s' : Store V},
    l.CodeAt base (f.code base k) → R s s' →
    ∀ t, ∃ t', l.Reaches A ⟨base, s, t⟩ ⟨base + f.size, s', t'⟩
  converges : ∀ {l : Listing} {base k n : Nat} {s : Store V} {t : Nat → V},
    l.CodeAt base (f.code base k) →
    l.HaltsIn A n ⟨base, s, t⟩ → ∃ s', R s s'

namespace Fragment

variable {f g : Fragment} {R Q : Store V → Store V → Prop}

theorem realizes_empty : empty.Realizes A (fun s s' => s' = s) where
  reaches _ h t := ⟨t, by rw [h]; exact .refl _⟩
  converges _ _ := ⟨_, rfl⟩

theorem realizes_value (e : Expr) : (value e).Realizes A (fun s s' => some s = some s') where
  reaches {l base k s s'} hcode h t := by
    obtain rfl := Option.some.inj h
    obtain ⟨t', hreach, -⟩ := e.reaches_code hcode s t
    exact ⟨t', hreach⟩
  converges _ _ := ⟨_, rfl⟩

theorem realizes_assign (x : String) (e : Expr) :
    (assign x e).Realizes A (fun s s' => some (Function.update s x (e.eval A s)) = some s') where
  reaches {l base k s s'} hcode h t := by
    obtain rfl := Option.some.inj h
    obtain ⟨t', hreach, hval, -⟩ := e.reaches_code hcode.left s t
    have hcopy := hcode.right
    rw [Expr.length_code] at hcopy
    refine ⟨t', hreach.trans (hcopy.reaches ?_)⟩
    simp [Machine.exec?, Operation.result?, Machine.write?, hval, assign, Nat.add_assoc]
  converges _ _ := ⟨_, rfl⟩

theorem Realizes.append (hf : f.Realizes A R) (hg : g.Realizes A Q) :
    (f.append g).Realizes A (Relation.Comp R Q) where
  reaches {l base k s s'} hcode h t := by
    obtain ⟨s₁, hR, hQ⟩ := h
    have hcode' := hcode.right
    rw [length_code] at hcode'
    obtain ⟨t₁, hreach₁⟩ := hf.reaches hcode.left hR t
    obtain ⟨t₂, hreach₂⟩ := hg.reaches hcode' hQ t₁
    refine ⟨t₂, ?_⟩
    rw [Fragment.append, ← Nat.add_assoc]
    exact hreach₁.trans hreach₂
  converges {l base k n s t} hcode hn := by
    have hcode' := hcode.right
    rw [length_code] at hcode'
    obtain ⟨s₁, hR⟩ := hf.converges hcode.left hn
    obtain ⟨t₁, hreach₁⟩ := hf.reaches hcode.left hR t
    obtain ⟨m, -, hm⟩ := hn.of_reaches hreach₁
    obtain ⟨s', hQ⟩ := hg.converges hcode' hm
    exact ⟨s', s₁, hR, hQ⟩

theorem Realizes.branch (hA : A.Complements) (test : Expr) (hf : f.Realizes A R) :
    (branch test f).Realizes A (Branch (fun s => some (test.isTrue A s)) R) where
  reaches {l base k s s'} hcode h t := by
    obtain ⟨t₁, hreach₁⟩ := test.reaches_test hA hcode s t
    have hbody := hcode.right.tail
    rw [Expr.length_testCode, Nat.add_assoc] at hbody
    rcases h with ⟨htrue, hR⟩ | ⟨hfalse, rfl⟩
    · rw [if_pos (Option.some.inj htrue)] at hreach₁
      obtain ⟨t₂, hreach₂⟩ := hf.reaches hbody hR t₁
      refine ⟨t₂, ?_⟩
      rw [Nat.add_assoc] at hreach₂
      exact hreach₁.trans hreach₂
    · rw [Option.some.inj hfalse] at hreach₁
      exact ⟨t₁, hreach₁⟩
  converges {l base k n s t} hcode hn := by
    obtain ⟨t₁, hreach₁⟩ := test.reaches_test hA hcode s t
    have hbody := hcode.right.tail
    rw [Expr.length_testCode, Nat.add_assoc] at hbody
    cases htest : test.isTrue A s with
    | false => exact ⟨s, .inr ⟨congrArg some htest, rfl⟩⟩
    | true =>
      rw [if_pos htest] at hreach₁
      obtain ⟨m, -, hm⟩ := hn.of_reaches hreach₁
      obtain ⟨s', hR⟩ := hf.converges hbody hm
      exact ⟨s', .inl ⟨congrArg some htest, hR⟩⟩

theorem codeAt_loop {test : Expr} (hcode : l.CodeAt base ((loop test f).code base k)) :
    l.CodeAt (base + (test.testOperations + 1))
        (f.code (base + (test.testOperations + 1)) (k + test.testOperations)) ∧
      l.CodeAt (base + (test.testOperations + 1) + f.size) [.jump .always (.to base)] := by
  have hrest := hcode.right.tail
  rw [Expr.length_testCode, Nat.add_assoc] at hrest
  have hback := hrest.right
  rw [length_code] at hback
  exact ⟨hrest.left, hback⟩

theorem step?_back (h : l.CodeAt k [.jump .always (.to base)]) (s : Store V) (t : Nat → V) :
    l.step? A ⟨k, s, t⟩ = some ⟨base, s, t⟩ :=
  (Listing.CodeAt.step? (m := ⟨k, s, t⟩) h).trans rfl

theorem Realizes.loop (hA : A.Complements) (test : Expr) (hf : f.Realizes A R) :
    (loop test f).Realizes A (Loop (fun s => some (test.isTrue A s)) R) where
  reaches {l base k s s'} hcode h t := by
    obtain ⟨hbody, hback⟩ := codeAt_loop hcode
    -- Induction on the turns; each leads back to the start of the loop with temporaries of its own.
    induction h generalizing t with
    | @done s hfalse =>
      obtain ⟨t₁, hreach₁⟩ := test.reaches_test hA hcode s t
      rw [Option.some.inj hfalse] at hreach₁
      exact ⟨t₁, hreach₁⟩
    | @next s s₁ s' htrue first rest ih =>
      obtain ⟨t₁, hreach₁⟩ := test.reaches_test hA hcode s t
      rw [if_pos (Option.some.inj htrue)] at hreach₁
      obtain ⟨t₂, hreach₂⟩ := hf.reaches hbody first t₁
      obtain ⟨t₃, hreach₃⟩ := ih t₂
      exact ⟨t₃, ((hreach₁.trans hreach₂).trans (.single (step?_back hback s₁ t₂))).trans hreach₃⟩
  converges {l base k n s t} hcode hn := by
    obtain ⟨hbody, hback⟩ := codeAt_loop hcode
    -- The jump back takes a step, and so fewer steps are left for the remaining turns.
    induction n using Nat.strongRecOn generalizing s t with
    | ind n ih =>
      obtain ⟨t₁, hreach₁⟩ := test.reaches_test hA hcode s t
      cases htest : test.isTrue A s with
      | false => exact ⟨s, .done (congrArg some htest)⟩
      | true =>
        rw [if_pos htest] at hreach₁
        obtain ⟨m₁, hle₁, hm₁⟩ := hn.of_reaches hreach₁
        obtain ⟨s₁, hR⟩ := hf.converges hbody hm₁
        obtain ⟨t₂, hreach₂⟩ := hf.reaches hbody hR t₁
        obtain ⟨m₂, hle₂, hm₂⟩ := hm₁.of_reaches hreach₂
        obtain ⟨m₃, hlt, hm₃⟩ := hm₂.of_step (step?_back hback s₁ t₂)
        obtain ⟨s', hrest⟩ := ih m₃ (by omega) hm₃
        exact ⟨s', .next (congrArg some htest) hR hrest⟩

end Fragment

/-! ## Programs -/

namespace Stmt

mutual

theorem realizes_fragment (hA : A.Complements) (s : Stmt) :
    s.fragment.Realizes A (s.Runs (.comparing A)) := by
  match s with
  | .print value _ => exact Fragment.realizes_value value
  | .declare name value _ => exact Fragment.realizes_assign name.text value
  | .assign name value _ => exact Fragment.realizes_assign name.text value
  | .ifThen test body _ =>
    rw [runs_comparing_ifThen]
    exact (realizes_fragmentAll hA body).branch hA test
  | .whileDo test body _ =>
    rw [runs_comparing_whileDo]
    exact (realizes_fragmentAll hA body).loop hA test
  | .forDo initial test step body _ =>
    rw [runs_comparing_forDo]
    exact (realizes_fragment hA initial).append
      (((realizes_fragmentAll hA body).append (realizes_fragment hA step)).loop hA test)

theorem realizes_fragmentAll (hA : A.Complements) (body : List Stmt) :
    (fragmentAll body).Realizes A (RunsAll (.comparing A) body) := by
  match body with
  | [] => exact Fragment.realizes_empty
  | s :: rest => exact (realizes_fragment hA s).append (realizes_fragmentAll hA rest)

end

end Stmt

/-- The machine halts with the stores that the program leads to, and with no others. -/
theorem runsAll_comparing_iff (hA : A.Complements) (program : List Stmt) (s s' : Store V)
    (t : Nat → V) :
    Stmt.RunsAll (.comparing A) program s s' ↔
      ∃ t', (lower program).Reaches A ⟨0, s, t⟩ ⟨(lower program).size, s', t'⟩ := by
  have hrealizes := Stmt.realizes_fragmentAll hA program
  have hcode : (lower program).CodeAt 0 ((Stmt.fragmentAll program).code 0 0) := by
    simpa only [lower_eq] using (lower program).codeAt_zero
  have hreaches {s'} (hrun : Stmt.RunsAll (.comparing A) program s s') :
      ∃ t', (lower program).Reaches A ⟨0, s, t⟩ ⟨(lower program).size, s', t'⟩ := by
    simpa only [size_lower, Nat.zero_add] using hrealizes.reaches hcode hrun t
  refine ⟨hreaches, ?_⟩
  rintro ⟨t', n, hn⟩
  obtain ⟨s₁, hrun⟩ := hrealizes.converges hcode ⟨_, hn, rfl⟩
  obtain ⟨t₁, hreach₁⟩ := hreaches hrun
  have heq := hreach₁.unique ⟨n, hn⟩ rfl rfl
  rwa [← (Machine.mk.inj heq).2.1]

/-- The machine runs on forever exactly if the program leads nowhere. -/
theorem diverges_lower_iff (hA : A.Complements) (program : List Stmt) (s : Store V) (t : Nat → V) :
    (lower program).Diverges A ⟨0, s, t⟩ ↔ ¬ ∃ s', Stmt.RunsAll (.comparing A) program s s' := by
  have hsound : ∀ q ∈ (lower program).quads, q.Sound 0 (lower program).size := by
    rw [size_lower, lower_eq]
    simpa only [Nat.zero_add] using (Stmt.fragmentAll program).sound_code 0 0
  rw [Listing.diverges_iff hsound (Nat.zero_le _), not_iff_not]
  constructor
  · rintro ⟨n, ⟨address, s', t'⟩, hn, rfl⟩
    exact ⟨s', (runsAll_comparing_iff hA program s s' t).2 ⟨t', n, hn⟩⟩
  · rintro ⟨s', hrun⟩
    obtain ⟨t', n, hn⟩ := (runsAll_comparing_iff hA program s s' t).1 hrun
    exact ⟨n, _, hn, rfl⟩

/-- For lawful values the listing of any program computes the program's plain meaning, whatever the
temporaries are at the start: the machine halts with exactly the stores that the program leads to,
and it runs on forever exactly if the program leads nowhere. -/
theorem lower_correct (hA : A.Lawful) (program : List Stmt) (s : Store V) (t : Nat → V) :
    (∀ s', Stmt.RunsAll (.flat A) program s s' ↔
      ∃ t', (lower program).Reaches A ⟨0, s, t⟩ ⟨(lower program).size, s', t'⟩) ∧
    ((¬ ∃ s', Stmt.RunsAll (.flat A) program s s') ↔ (lower program).Diverges A ⟨0, s, t⟩) := by
  rw [Actions.flat_eq_comparing hA]
  exact ⟨fun s' => runsAll_comparing_iff hA.complements program s s' t,
    (diverges_lower_iff hA.complements program s t).symm⟩

/-- Decreases `x` as long as it is positive. -/
def countdown : List Stmt :=
  [.whileDo (.binary .gt (.name "x" {}) (.number (.finite false ⟨0, by decide⟩) {}) {})
    [.assign { text := "x" }
      (.binary .sub (.name "x" {}) (.number (.finite false ⟨1, by decide⟩) {}) {}) {}] {}]

theorem lower_correct_countdown :
    Arithmetic.whole.Lawful ∧ ∃ s' t', s' "x" = 0 ∧ (lower countdown).Reaches Arithmetic.whole
      ⟨0, fun _ => 2, fun _ => 0⟩ ⟨(lower countdown).size, s', t'⟩ := by
  have hrun : Stmt.RunsAll (.flat .whole) countdown (fun _ => 2)
      (Function.update (Function.update (fun _ => 2) "x" 1) "x" 0) :=
    ⟨_, .next rfl ⟨_, ⟨_, rfl, rfl⟩, rfl⟩ (.next rfl ⟨_, ⟨_, rfl, rfl⟩, rfl⟩ (.done rfl)), rfl⟩
  obtain ⟨t', hreach⟩ :=
    ((lower_correct Arithmetic.whole_lawful countdown _ (fun _ => 0)).1 _).1 hrun
  exact ⟨Arithmetic.whole_lawful, _, t', rfl, hreach⟩

end Quadcode
