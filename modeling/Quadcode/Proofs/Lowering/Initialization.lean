import Quadcode.Proofs.Flow
import Quadcode.Proofs.Lowering.Scoping

/-!
# Variables are written before they are read

Whatever path control takes through the listing of an accepted script, a quad that reads a variable
comes after one that writes it. The scopes of the check say at which addresses the variable is known
to be written: where its name is declared. A fragment needs to know no more of the variable at its
start than the scopes before it say, and then it is known at the end if the scopes behind say so
(`Fragment.Initializes`). A jump past a body or out of a loop leads to a place where only the names
from before the body are declared.
-/

namespace Quadcode

/-! ## Names that expressions read -/

namespace Expr

variable {e test : Expr} {scopes : Scopes} {k : Nat} {x : String} {q : Quad}

theorem isDeclared_of_operand (h : scopes.resolveExpr e = .ok ()) (hx : e.operand k = .name x) :
    scopes.isDeclared x = true := by
  cases e with
  | number value span => cases hx
  | name y span =>
    obtain rfl := Operand.name.inj hx
    exact Scopes.resolve_eq_ok_iff.1 h
  | binary op left right span => cases hx

theorem isDeclared_of_code (h : scopes.resolveExpr e = .ok ()) (hq : q ∈ e.code k)
    (hx : .name x ∈ q.operands) : scopes.isDeclared x = true := by
  induction e generalizing k with
  | number value span => cases hq
  | name y span => cases hq
  | binary op left right span ihl ihr =>
    obtain ⟨hl, hr⟩ := Scopes.resolveExpr_binary_eq_ok_iff.1 h
    simp only [code, List.mem_append, List.mem_singleton] at hq
    rcases hq with hq | hq | rfl
    · exact ihl hl hq
    · exact ihr hr hq
    · simp only [Quad.operands, Option.toList_some, List.mem_cons, List.not_mem_nil, or_false] at hx
      rcases hx with hx | hx
      · exact isDeclared_of_operand hl hx.symm
      · exact isDeclared_of_operand hr hx.symm

theorem leads_of_code (hq : q ∈ e.code k) {address next : Nat} (h : q.Leads address next) :
    next = address + 1 := by
  induction e generalizing k with
  | number value span => cases hq
  | name y span => cases hq
  | binary op left right span ihl ihr =>
    simp only [code, List.mem_append, List.mem_singleton] at hq
    rcases hq with hq | hq | rfl
    · exact ihl hq
    · exact ihr hq
    · exact h

theorem isDeclared_of_testCode (h : scopes.resolveExpr test = .ok ()) (hq : q ∈ test.testCode k)
    (hx : .name x ∈ q.operands) : scopes.isDeclared x = true := by
  unfold testCode at hq
  split at hq
  · next c left right hc =>
    obtain ⟨op, span, rfl, -⟩ := comparison?_eq_some_iff.1 hc
    obtain ⟨hl, hr⟩ := Scopes.resolveExpr_binary_eq_ok_iff.1 h
    rcases List.mem_append.1 hq with hq | hq
    · exact isDeclared_of_code hl hq hx
    · exact isDeclared_of_code hr hq hx
  · exact isDeclared_of_code h hq hx

theorem leads_of_testCode (hq : q ∈ test.testCode k) {address next : Nat}
    (h : q.Leads address next) : next = address + 1 := by
  unfold testCode at hq
  split at hq
  · rcases List.mem_append.1 hq with hq | hq
    · exact leads_of_code hq h
    · exact leads_of_code hq h
  · exact leads_of_code hq h

theorem isDeclared_of_failure (h : scopes.resolveExpr test = .ok ()) {target : Target}
    (hx : .name x ∈ (Quad.jump (test.failure k) target).operands) : scopes.isDeclared x = true := by
  unfold failure at hx
  split at hx
  · next c left right hc =>
    obtain ⟨op, span, rfl, -⟩ := comparison?_eq_some_iff.1 hc
    obtain ⟨hl, hr⟩ := Scopes.resolveExpr_binary_eq_ok_iff.1 h
    simp only [Quad.operands, Test.operands, Option.toList_some, List.mem_append,
      List.mem_singleton] at hx
    rcases hx with hx | hx
    · exact isDeclared_of_operand hl hx.symm
    · exact isDeclared_of_operand hr hx.symm
  · simp only [Quad.operands, Test.operands, Option.toList_some, Option.toList_none,
      List.append_nil, List.mem_singleton] at hx
    exact isDeclared_of_operand h hx.symm

end Expr

/-! ## Fragments -/

namespace Fragment

variable {f g : Fragment} {x : Operand} {before mid after : Prop}

/-- Placed anywhere, the fragment reads the operand only where it is known to be written, if
`before` says whether this is known at its start; `after` says so for its end. -/
def Initializes (f : Fragment) (x : Operand) (before after : Prop) : Prop :=
  ∀ base k, ∃ known : Nat → Prop, (known base → before) ∧ (after → known (base + f.size)) ∧
    Guards x known base (f.code base k)

theorem Initializes.weaken (h : f.Initializes x before mid) (himp : after → mid) :
    f.Initializes x before after := by
  intro base k
  obtain ⟨known, hstart, hend, hguards⟩ := h base k
  exact ⟨known, hstart, fun ha => hend (himp ha), hguards⟩

/-- Only what is known inside of the fragment matters. At its end less may be known. -/
theorem guards_congr {known known' : Nat → Prop} {base k : Nat}
    (h : Guards x known base (f.code base k))
    (hinside : ∀ a, base ≤ a → a < base + f.size → (known' a ↔ known a))
    (hend : known' (base + f.size) → known (base + f.size)) :
    Guards x known' base (f.code base k) := by
  have hlt {i : Nat} {q : Quad} (hq : (f.code base k)[i]? = some q) : i < f.size := by
    obtain ⟨hi, -⟩ := List.getElem?_eq_some_iff.1 hq
    rwa [f.length_code] at hi
  constructor
  · intro i q hq hx
    have := hlt hq
    exact (hinside _ (by omega) (by omega)).2 (h.reads hq hx)
  · intro i q next hq hnext hknown
    have := hlt hq
    obtain ⟨hlow, hhigh⟩ :=
      (f.sound_code base k q (List.mem_of_getElem? hq)).leads (by omega) (by omega) hnext
    rw [hinside _ (by omega) (by omega)]
    refine h.flows hq hnext ?_
    by_cases hnextEnd : next = base + f.size
    · rw [hnextEnd] at hknown ⊢
      exact hend hknown
    · exact (hinside next hlow (by omega)).1 hknown

theorem initializes_empty : empty.Initializes x before before :=
  fun _ _ => ⟨fun _ => before, id, id, ⟨nofun, nofun⟩⟩

theorem Initializes.append (hf : f.Initializes x before mid) (hg : g.Initializes x mid after) :
    (f.append g).Initializes x before after := by
  intro base k
  obtain ⟨known₁, hstart₁, hend₁, hguards₁⟩ := hf base k
  obtain ⟨known₂, hstart₂, hend₂, hguards₂⟩ := hg (base + f.size) (k + f.temps)
  refine ⟨fun a => if a < base + f.size then known₁ a else known₂ a, ?_, ?_, ?_⟩
  · intro hknown
    split at hknown
    · exact hstart₁ hknown
    · -- The first fragment is empty, and the two start at one address.
      have hsize : f.size = 0 := by omega
      simp only [hsize, Nat.add_zero] at hstart₂ hend₁
      exact hstart₁ (hend₁ (hstart₂ hknown))
  · intro hafter
    have hsize : base + (f.append g).size = base + f.size + g.size := (Nat.add_assoc _ _ _).symm
    rw [hsize, if_neg (by omega)]
    exact hend₂ hafter
  · refine Guards.append (guards_congr hguards₁ (fun a hlow hhigh => ?_) fun hknown => ?_) ?_
    · rw [if_pos hhigh]
    · rw [if_neg (Nat.lt_irrefl _)] at hknown
      exact hend₁ (hstart₂ hknown)
    · rw [length_code]
      refine guards_congr hguards₂ (fun a hlow hhigh => ?_) fun hknown => ?_
      · rw [if_neg (by omega)]
      · rwa [if_neg (by omega)] at hknown

/-- A body around which there is known what is known at its start and at its end. -/
theorem Initializes.inside (hf : f.Initializes x before before) (start k : Nat) :
    ∃ known : Nat → Prop, (∀ a, a < start ∨ start + f.size ≤ a → (known a ↔ before)) ∧
      (known start → before) ∧
      Guards x known start (f.code start k) := by
  obtain ⟨inner, hstart, hend, hguards⟩ := hf start k
  refine ⟨fun a => if start ≤ a ∧ a < start + f.size then inner a else before, ?_, ?_, ?_⟩
  · intro a ha
    exact iff_of_eq (if_neg (by omega))
  · intro hknown
    split at hknown
    · exact hstart hknown
    · exact hknown
  · refine guards_congr hguards (fun a hlow hhigh => ?_) fun hknown => ?_
    · rw [if_pos ⟨hlow, hhigh⟩]
    · rw [if_neg (by omega)] at hknown
      exact hend hknown

/-! ## Fragments whose names are declared -/

variable {y : String} {scopes : Scopes} {e test : Expr}

theorem guards_code (he : scopes.resolveExpr e = .ok ()) {known : Nat → Prop} {base k : Nat}
    (hknown : ∀ i ≤ e.operations, (known (base + i) ↔ scopes.isDeclared y = true)) :
    Guards (.name y) known base (e.code k) := by
  apply Guards.of_straight (scopes.isDeclared y = true)
  · rwa [Expr.length_code]
  · exact fun q hq _ _ hnext => Expr.leads_of_code hq hnext
  · exact fun q hq hy => Expr.isDeclared_of_code he hq hy

/-- A test reads names that are declared, and no more is known behind it than before. -/
theorem guards_test (htest : scopes.resolveExpr test = .ok ()) {known : Nat → Prop}
    {base exit k : Nat}
    (hhead : ∀ i ≤ test.testOperations, (known (base + i) ↔ scopes.isDeclared y = true))
    (hbody : known (base + (test.testOperations + 1)) → scopes.isDeclared y = true)
    (hexit : known exit → scopes.isDeclared y = true) :
    Guards (.name y) known base (test.testCode k ++ [.jump (test.failure k) (.to exit)]) := by
  apply Guards.append
  · apply Guards.of_straight (scopes.isDeclared y = true)
    · rwa [Expr.length_testCode]
    · exact fun q hq _ _ hnext => Expr.leads_of_testCode hq hnext
    · exact fun q hq hy => Expr.isDeclared_of_testCode htest hq hy
  · rw [Expr.length_testCode]
    have hjump := hhead test.testOperations (Nat.le_refl _)
    apply Guards.singleton
    · exact fun hy => hjump.2 (Expr.isDeclared_of_failure htest hy)
    · intro next hnext hafter
      rcases hnext.of_jump with heq | rfl
      · obtain rfl := Target.to.inj heq
        exact .inl (hjump.2 (hexit hafter))
      · exact .inl (hjump.2 (hbody hafter))

theorem initializes_value (he : scopes.resolveExpr e = .ok ()) :
    (value e).Initializes (.name y) (scopes.isDeclared y = true) (scopes.isDeclared y = true) :=
  fun _ _ => ⟨fun _ => scopes.isDeclared y = true, id, id, guards_code he fun _ _ => Iff.rfl⟩

theorem initializes_assign (x : String) (he : scopes.resolveExpr e = .ok ()) :
    (assign x e).Initializes (.name y) (scopes.isDeclared y = true)
      (scopes.isDeclared y = true ∨ y = x) := by
  intro base k
  -- The copy is the last quad, and only right behind it more is known than before.
  refine ⟨fun a => scopes.isDeclared y = true ∨ (a = base + (e.operations + 1) ∧ y = x), ?_, ?_, ?_⟩
  · rintro (hy | ⟨hbase, -⟩)
    · exact hy
    · omega
  · exact Or.imp_right fun hy => ⟨rfl, hy⟩
  · apply Guards.append
    · refine guards_code he fun i hi => ⟨?_, .inl⟩
      rintro (hy | ⟨hend, -⟩)
      · exact hy
      · omega
    · rw [Expr.length_code]
      apply Guards.singleton
      · intro hy
        simp only [Quad.operands, Option.toList_none, List.mem_singleton] at hy
        exact .inl (Expr.isDeclared_of_operand he hy.symm)
      · rintro next - (hy | ⟨-, rfl⟩)
        · exact .inl (.inl hy)
        · exact .inr rfl

theorem initializes_branch (htest : scopes.resolveExpr test = .ok ())
    (hf : f.Initializes (.name y) (scopes.isDeclared y = true) (scopes.isDeclared y = true)) :
    (branch test f).Initializes (.name y) (scopes.isDeclared y = true)
      (scopes.isDeclared y = true) := by
  intro base k
  obtain ⟨known, houtside, hstart, hguards⟩ :=
    hf.inside (base + (test.testOperations + 1)) (k + test.testOperations)
  have hexit := houtside (base + (test.testOperations + 1 + f.size)) (.inr (by omega))
  refine ⟨known, (houtside base (.inl (by omega))).1, hexit.2, ?_⟩
  simp only [branch]
  rw [List.append_cons]
  apply Guards.append
  · exact guards_test htest (fun i hi => houtside _ (.inl (by omega))) hstart hexit.1
  · rwa [List.length_append, Expr.length_testCode]

theorem initializes_loop (htest : scopes.resolveExpr test = .ok ())
    (hf : f.Initializes (.name y) (scopes.isDeclared y = true) (scopes.isDeclared y = true)) :
    (loop test f).Initializes (.name y) (scopes.isDeclared y = true)
      (scopes.isDeclared y = true) := by
  intro base k
  obtain ⟨known, houtside, hstart, hguards⟩ :=
    hf.inside (base + (test.testOperations + 1)) (k + test.testOperations)
  have hbase := houtside base (.inl (by omega))
  have hback := houtside (base + (test.testOperations + 1) + f.size) (.inr (Nat.le_refl _))
  have hexit := houtside (base + (test.testOperations + 1 + f.size + 1)) (.inr (by omega))
  refine ⟨known, hbase.1, hexit.2, ?_⟩
  simp only [loop]
  rw [List.append_cons]
  apply Guards.append
  · exact guards_test htest (fun i hi => houtside _ (.inl (by omega))) hstart hexit.1
  · rw [List.length_append, Expr.length_testCode]
    apply Guards.append hguards
    rw [length_code]
    apply Guards.singleton
    · intro hy
      cases hy
    · intro next hnext hafter
      obtain rfl := Target.to.inj hnext
      exact .inl (hback.2 (hbase.1 hafter))

end Fragment

/-! ## Programs -/

namespace Stmt

open Scopes

/-- Checked in a scope of its own, a body writes what it declares and needs no more
than the names around it. -/
theorem initializes_nested {body : List Stmt} {scopes scopes' : Scopes} {y : String}
    (hcheck : nested (checkAll body) scopes = .ok () scopes')
    (h : ∀ inner, checkAll body scopes.push = .ok () inner →
      (fragmentAll body).Initializes (.name y) (scopes.push.isDeclared y = true)
        (inner.isDeclared y = true)) :
    (fragmentAll body).Initializes (.name y) (scopes.isDeclared y = true)
      (scopes.isDeclared y = true) := by
  obtain ⟨inner, hbody, -⟩ := nested_eq_ok_iff.1 hcheck
  have hinit := h inner hbody
  rw [isDeclared_push] at hinit
  refine hinit.weaken fun hy => ?_
  rw [eq_afterAll_of_checkAll hbody]
  exact isDeclared_afterAll_of_isDeclared (by rwa [isDeclared_push]) body

mutual

theorem initializes_fragment {stmt : Stmt} {scopes scopes' : Scopes}
    (hcheck : checkStmt stmt scopes = .ok () scopes') (hsteps : stmt.StepsAssign) (y : String) :
    stmt.fragment.Initializes (.name y) (scopes.isDeclared y = true)
      (scopes'.isDeclared y = true) := by
  match stmt with
  | .print value _ =>
    obtain ⟨hvalue, rfl⟩ := inspect_eq_ok_iff.1 hcheck
    exact Fragment.initializes_value hvalue
  | .declare name value span =>
    obtain rfl := eq_after_of_checkStmt hcheck
    obtain ⟨_, h₁, -⟩ := bind_eq_ok_iff.1 hcheck
    obtain ⟨hvalue, rfl⟩ := inspect_eq_ok_iff.1 h₁
    exact (Fragment.initializes_assign name.text hvalue).weaken
      (isDeclared_after_declare _ name value span y).1
  | .assign name value span =>
    obtain ⟨_, h₁, h₂⟩ := bind_eq_ok_iff.1 hcheck
    obtain ⟨-, rfl⟩ := inspect_eq_ok_iff.1 h₁
    obtain ⟨hvalue, rfl⟩ := inspect_eq_ok_iff.1 h₂
    exact (Fragment.initializes_assign name.text hvalue).weaken .inl
  | .ifThen test body span =>
    obtain rfl := eq_after_of_checkStmt hcheck
    obtain ⟨_, h₁, h₂⟩ := bind_eq_ok_iff.1 hcheck
    obtain ⟨htest, rfl⟩ := inspect_eq_ok_iff.1 h₁
    exact Fragment.initializes_branch htest
      (initializes_nested h₂ fun _ hbody => initializes_fragmentAll hbody hsteps y)
  | .whileDo test body span =>
    obtain rfl := eq_after_of_checkStmt hcheck
    obtain ⟨_, h₁, h₂⟩ := bind_eq_ok_iff.1 hcheck
    obtain ⟨htest, rfl⟩ := inspect_eq_ok_iff.1 h₁
    exact Fragment.initializes_loop htest
      (initializes_nested h₂ fun _ hbody => initializes_fragmentAll hbody hsteps y)
  | .forDo initial test step body span =>
    obtain rfl := eq_after_of_checkStmt hcheck
    obtain ⟨hsteps₁, ⟨name, value, span', rfl⟩, hsteps₂⟩ := hsteps
    obtain ⟨_, hheader, -⟩ := nested_eq_ok_iff.1 hcheck
    obtain ⟨header, h₁, hrest⟩ := bind_eq_ok_iff.1 hheader
    obtain ⟨_, h₂, hrest⟩ := bind_eq_ok_iff.1 hrest
    obtain ⟨_, h₃, h₄⟩ := bind_eq_ok_iff.1 hrest
    obtain ⟨htest, rfl⟩ := inspect_eq_ok_iff.1 h₂
    -- An assignment declares nothing, so that the body is checked in the scopes that the step
    -- leaves.
    obtain rfl := eq_after_of_checkStmt h₃
    have hinitial := initializes_fragment h₁ hsteps₁ y
    rw [isDeclared_push] at hinitial
    have hturn :=
      (initializes_nested h₄ fun _ hbody => initializes_fragmentAll hbody hsteps₂ y).append
        (initializes_fragment h₃ trivial y)
    refine (hinitial.append (Fragment.initializes_loop htest hturn)).weaken fun hy => ?_
    rw [eq_after_of_checkStmt h₁]
    exact isDeclared_after_of_isDeclared (by rwa [isDeclared_push]) initial

theorem initializes_fragmentAll {body : List Stmt} {scopes scopes' : Scopes}
    (hcheck : checkAll body scopes = .ok () scopes') (hsteps : StepsAssignAll body) (y : String) :
    (fragmentAll body).Initializes (.name y) (scopes.isDeclared y = true)
      (scopes'.isDeclared y = true) := by
  match body with
  | [] =>
    obtain rfl := (EStateM.Result.ok.inj hcheck).2
    exact Fragment.initializes_empty
  | stmt :: rest =>
    obtain ⟨_, h₁, h₂⟩ := bind_eq_ok_iff.1 hcheck
    exact (initializes_fragment h₁ hsteps.1 y).append (initializes_fragmentAll h₂ hsteps.2 y)

end

end Stmt

/-- On every path of control through the listing of an accepted script, a quad that reads a variable
comes after a quad that writes it. -/
theorem compile_writes_before_reads {source : String} {l : Listing} (h : compile source = .ok l)
    {visited : List Nat} {a : Nat} (hpath : l.Path visited a) {q : Quad} (hq : l.quads[a]? = some q)
    {x : String} (hx : .name x ∈ q.operands) :
    ∃ b ∈ visited, ∃ operation left right,
      l.quads[b]? = some (.operate operation left right (.name x)) := by
  obtain ⟨program, hprogram, rfl⟩ := compile_eq_ok_iff.1 h
  obtain ⟨tokens, -, hchecked⟩ := except_bind_eq_ok_iff.1 hprogram
  obtain ⟨hparse, hnames⟩ := checkedProgramOf_eq_ok_iff.1 hchecked
  obtain ⟨scopes, hcheck⟩ := checkNames_eq_ok_iff.1 hnames
  obtain ⟨known, hstart, -, hguards⟩ :=
    Stmt.initializes_fragmentAll hcheck (stepsAssignAll_of_parse hparse) x 0 0
  have hempty : ¬ known 0 := fun hknown => Bool.false_ne_true (hstart hknown)
  have hlower : (lower program).quads = (Stmt.fragmentAll program).code 0 0 := by rw [lower_eq]
  rw [← hlower] at hguards
  have hknown := hguards.reads hq hx
  rw [Nat.zero_add] at hknown
  obtain ⟨b, hb, q', hq', hresult⟩ := hguards.written hempty hpath hknown
  cases q' with
  | operate operation left right result =>
    obtain rfl := Option.some.inj hresult
    exact ⟨b, hb, operation, left, right, hq'⟩
  | jump test target => cases hresult

/-- A script with a loop that reads and writes its variable. -/
def loopScript : String := "var a = 1; while a \x7b a = (a-1); \x7d"

/-- The listing of `loopScript`. -/
def loopListing : Listing where
  quads :=
    [.operate .copy (.number (.ofRank false 0x3FF0000000000000)) none (.name "a"),
      .jump (.isZero (.name "a")) (.to 5),
      .operate (.apply .sub) (.name "a")
        (some (.number (.ofRank false 0x3FF0000000000000))) (.temp 0),
      .operate .copy (.temp 0) none (.name "a"),
      .jump .always (.to 1)]

/-- Once around the loop and back at its test. -/
theorem compile_writes_before_reads_loop :
    compile loopScript = .ok loopListing ∧ loopListing.Path [0, 1, 2, 3, 4] 1 ∧
      ∃ b ∈ [0, 1, 2, 3, 4], ∃ operation left right,
        loopListing.quads[b]? = some (.operate operation left right (.name "a")) := by
  have hcompile : compile loopScript = .ok loopListing := eq_ok_of_toOption (by decide +kernel)
  have hdeclared : loopListing.Path ([] ++ [0]) 1 := .step .start rfl rfl
  have hentered : loopListing.Path ([0] ++ [1]) 2 := .step hdeclared rfl (Or.inr rfl)
  have hcomputed : loopListing.Path ([0, 1] ++ [2]) 3 := .step hentered rfl rfl
  have hassigned : loopListing.Path ([0, 1, 2] ++ [3]) 4 := .step hcomputed rfl rfl
  have hturn : loopListing.Path ([0, 1, 2, 3] ++ [4]) 1 := .step hassigned rfl rfl
  exact ⟨hcompile, hturn,
    compile_writes_before_reads hcompile hturn (q := .jump (.isZero (.name "a")) (.to 5)) rfl
      (.head _)⟩

end Quadcode
