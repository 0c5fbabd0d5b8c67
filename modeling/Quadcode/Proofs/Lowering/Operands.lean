import Quadcode.Proofs.Fault
import Quadcode.Proofs.Grammar.Vocabulary
import Quadcode.Proofs.Lowering.Scoping
import Quadcode.Proofs.Lowering.Temporaries

/-!
# The operands of a listing

Lowering makes up temporaries and nothing else: every other operand of a listing is a literal or a
name of the program (`Stmt.madeOf_fragmentAll`), and so the value or the text of a token of the
script (`compile_madeOf`). Hence no number in it is NaN and all names are spelled like names
(`compile_sourced`). An operator has both of its operands and a copy has one (`Quad.Regular`).
-/

namespace Quadcode

open Token

namespace Operand

/-- The operand is a temporary, a literal of one kind or a name of another. -/
def Of (literal : Binary64 → Prop) (name : String → Prop) : Operand → Prop
  | .number value => literal value
  | .name x => name x
  | .temp _ => True

theorem Of.mono {literal literal' : Binary64 → Prop} {name name' : String → Prop} {x : Operand}
    (h : x.Of literal name) (hl : ∀ v, literal v → literal' v) (hn : ∀ y, name y → name' y) :
    x.Of literal' name' := by
  cases x with
  | number value => exact hl value h
  | name y => exact hn y h
  | temp i => trivial

end Operand

namespace Quad

/-- The operands that a quad reads or writes. -/
def mentioned (q : Quad) : List Operand :=
  q.operands ++ q.result?.toList

/-- A copy has one operand and an operator has two. -/
def Regular : Quad → Prop
  | .operate .copy _ right _ => right = none
  | .operate (.apply _) _ right _ => right.isSome
  | .jump _ _ => True

/-- The quad is regular, and all operands in it are of one kind. -/
structure MadeOf (P : Operand → Prop) (q : Quad) : Prop where
  regular : q.Regular
  operands : ∀ x ∈ q.mentioned, P x

theorem MadeOf.mono {P Q : Operand → Prop} {q : Quad} (h : q.MadeOf P) (hPQ : ∀ x, P x → Q x) :
    q.MadeOf Q :=
  ⟨h.regular, fun x hx => hPQ x (h.operands x hx)⟩

end Quad

/-- The operands in a listing, as often as they occur. -/
def Listing.operands (l : Listing) : List Operand :=
  l.quads.flatMap Quad.mentioned

/-! ## Expressions and tests -/

variable {literal : Binary64 → Prop} {name : String → Prop} {path : ScopePath}

namespace Expr

theorem of_operand {e : Expr} (hl : ∀ v ∈ e.literals, literal v)
    (hn : ∀ o ∈ e.occurrences path, name o.name.text) (k : Nat) :
    (e.operand k).Of literal name := by
  cases e with
  | number value span => exact hl value (.head _)
  | name x span => exact hn _ (.head _)
  | binary op left right span => trivial

theorem madeOf_code {e : Expr} (hl : ∀ v ∈ e.literals, literal v)
    (hn : ∀ o ∈ e.occurrences path, name o.name.text) (k : Nat) :
    ∀ q ∈ e.code k, q.MadeOf (Operand.Of literal name) := by
  induction e generalizing k with
  | number value span => exact List.forall_mem_nil _
  | name x span => exact List.forall_mem_nil _
  | binary op left right span ihl ihr =>
    rw [literals, List.forall_mem_append] at hl
    rw [occurrences, List.forall_mem_append] at hn
    simp only [code, List.forall_mem_append, List.forall_mem_singleton]
    refine ⟨ihl hl.1 hn.1 k, ihr hl.2 hn.2 _, rfl, fun x hx => ?_⟩
    simp only [Quad.mentioned, Quad.operands, Quad.result?, Option.toList_some, List.mem_append,
      List.mem_cons, List.not_mem_nil, or_false] at hx
    obtain (rfl | rfl) | rfl := hx
    · exact left.of_operand hl.1 hn.1 k
    · exact right.of_operand hl.2 hn.2 _
    · trivial

theorem madeOf_testCode {test : Expr} (hl : ∀ v ∈ test.literals, literal v)
    (hn : ∀ o ∈ test.occurrences path, name o.name.text) (k : Nat) :
    ∀ q ∈ test.testCode k, q.MadeOf (Operand.Of literal name) := by
  unfold testCode
  split
  next c left right hc =>
    obtain ⟨op, span, rfl, -⟩ := comparison?_eq_some_iff.1 hc
    rw [literals, List.forall_mem_append] at hl
    rw [occurrences, List.forall_mem_append] at hn
    exact List.forall_mem_append.2 ⟨madeOf_code hl.1 hn.1 k, madeOf_code hl.2 hn.2 _⟩
  next => exact madeOf_code hl hn k

theorem madeOf_jump_failure {test : Expr} (hl : ∀ v ∈ test.literals, literal v)
    (hn : ∀ o ∈ test.occurrences path, name o.name.text) (k : Nat) (target : Target) :
    (Quad.jump (test.failure k) target).MadeOf (Operand.Of literal name) := by
  refine ⟨trivial, ?_⟩
  unfold failure
  split
  next c left right hc =>
    obtain ⟨op, span, rfl, -⟩ := comparison?_eq_some_iff.1 hc
    rw [literals, List.forall_mem_append] at hl
    rw [occurrences, List.forall_mem_append] at hn
    show ∀ x ∈ [left.operand k, right.operand (k + left.operations)], x.Of literal name
    simp only [List.forall_mem_cons]
    exact ⟨of_operand hl.1 hn.1 k, of_operand hl.2 hn.2 _, List.forall_mem_nil _⟩
  next =>
    show ∀ x ∈ [test.operand k], x.Of literal name
    exact List.forall_mem_singleton.2 (of_operand hl hn k)

end Expr

/-! ## Statements -/

namespace Fragment

variable {f g : Fragment} {P : Operand → Prop}

/-- Wherever the fragment is placed, its quads are made of operands of one kind. -/
def MadeOf (P : Operand → Prop) (f : Fragment) : Prop :=
  ∀ base k, ∀ q ∈ f.code base k, q.MadeOf P

theorem MadeOf.append (hf : f.MadeOf P) (hg : g.MadeOf P) : (f.append g).MadeOf P :=
  fun base k => List.forall_mem_append.2 ⟨hf base k, hg _ _⟩

theorem madeOf_assign {x : String} {e : Expr} (hl : ∀ v ∈ e.literals, literal v)
    (hn : ∀ o ∈ e.occurrences path, name o.name.text) (hx : name x) :
    (assign x e).MadeOf (Operand.Of literal name) := by
  intro base k
  rw [assign, List.forall_mem_append]
  refine ⟨e.madeOf_code hl hn k, List.forall_mem_singleton.2 ⟨rfl, ?_⟩⟩
  show ∀ y ∈ [e.operand k, .name x], y.Of literal name
  simp only [List.forall_mem_cons]
  exact ⟨e.of_operand hl hn k, hx, List.forall_mem_nil _⟩

theorem MadeOf.branch {test : Expr} (hf : f.MadeOf (Operand.Of literal name))
    (hl : ∀ v ∈ test.literals, literal v) (hn : ∀ o ∈ test.occurrences path, name o.name.text) :
    (branch test f).MadeOf (Operand.Of literal name) := by
  intro base k
  rw [Fragment.branch, List.forall_mem_append, List.forall_mem_cons]
  exact ⟨test.madeOf_testCode hl hn k, test.madeOf_jump_failure hl hn k _, hf _ _⟩

theorem MadeOf.loop {test : Expr} (hf : f.MadeOf (Operand.Of literal name))
    (hl : ∀ v ∈ test.literals, literal v) (hn : ∀ o ∈ test.occurrences path, name o.name.text) :
    (loop test f).MadeOf (Operand.Of literal name) := by
  intro base k
  rw [Fragment.loop, List.forall_mem_append, List.forall_mem_cons, List.forall_mem_append,
    List.forall_mem_singleton]
  exact ⟨test.madeOf_testCode hl hn k, test.madeOf_jump_failure hl hn k _, hf _ _, trivial,
    List.forall_mem_nil _⟩

end Fragment

namespace Stmt

mutual

theorem madeOf_fragment {s : Stmt} {path : ScopePath} {n : Nat} (hl : ∀ v ∈ s.literals, literal v)
    (hn : ∀ o ∈ s.occurrences path n, name o.name.text) :
    s.fragment.MadeOf (Operand.Of literal name) := by
  match s with
  | .print value _ => exact fun _ k => value.madeOf_code hl hn k
  | .declare x value _ =>
    rw [occurrences, List.forall_mem_append, List.forall_mem_singleton] at hn
    exact Fragment.madeOf_assign hl hn.1 hn.2
  | .assign x value _ =>
    rw [occurrences, List.forall_mem_cons] at hn
    exact Fragment.madeOf_assign hl hn.2 hn.1
  | .ifThen test body _ =>
    rw [literals, List.forall_mem_append] at hl
    rw [occurrences, List.forall_mem_append] at hn
    exact (madeOf_fragmentAll hl.2 hn.2).branch hl.1 hn.1
  | .whileDo test body _ =>
    rw [literals, List.forall_mem_append] at hl
    rw [occurrences, List.forall_mem_append] at hn
    exact (madeOf_fragmentAll hl.2 hn.2).loop hl.1 hn.1
  | .forDo initial test step body _ =>
    simp only [literals, List.forall_mem_append] at hl
    simp only [occurrences, List.forall_mem_append] at hn
    obtain ⟨⟨⟨hlinitial, hltest⟩, hlstep⟩, hlbody⟩ := hl
    obtain ⟨⟨⟨hninitial, hntest⟩, hnstep⟩, hnbody⟩ := hn
    have hbody := (madeOf_fragmentAll hlbody hnbody).append (madeOf_fragment hlstep hnstep)
    exact (madeOf_fragment hlinitial hninitial).append (hbody.loop hltest hntest)

/-- The operands of the code of statements are temporaries and the literals and
names of the statements. -/
theorem madeOf_fragmentAll {body : List Stmt} {path : ScopePath} {n : Nat}
    (hl : ∀ v ∈ literalsAll body, literal v)
    (hn : ∀ o ∈ occurrencesAll path n body, name o.name.text) :
    (fragmentAll body).MadeOf (Operand.Of literal name) := by
  match body with
  | [] => exact fun _ _ => List.forall_mem_nil _
  | s :: rest =>
    rw [literalsAll, List.forall_mem_append] at hl
    rw [occurrencesAll, List.forall_mem_append] at hn
    exact (madeOf_fragment hl.1 hn.1).append (madeOf_fragmentAll hl.2 hn.2)

end

end Stmt

/-! ## Scripts -/

/-- The quads of an accepted script are made of temporaries, the values of its numbers and
the texts of its names. -/
theorem compile_madeOf {source : String} {l : Listing} (h : compile source = .ok l) :
    ∃ ts, lex source = .ok ts ∧ ∀ q ∈ l.quads, q.MadeOf
      (Operand.Of (fun v => ∃ t ∈ ts, t.numeral? = some v)
        fun x => ∃ t ∈ ts, t.kind = .identifier ∧ t.text = x) := by
  obtain ⟨program, hprogram, rfl⟩ := compile_eq_ok_iff.1 h
  obtain ⟨ts, hts, hchecked⟩ := except_bind_eq_ok_iff.1 hprogram
  obtain ⟨hparse, -⟩ := checkedProgramOf_eq_ok_iff.1 hchecked
  have hliterals : ∀ v ∈ Stmt.literalsAll program, ∃ t ∈ ts, t.numeral? = some v := by
    intro v hv
    rw [← Stmt.literalsAll_bareAll, ← (Grammar.statements_of_parse hparse).literalsAll_eq] at hv
    exact List.mem_filterMap.1 hv
  have hnames : ∀ o ∈ Stmt.occurrencesAll [] 0 program,
      ∃ t ∈ ts, t.kind = .identifier ∧ t.text = o.name.text := by
    intro o ho
    obtain ⟨depth, group, hgroup, -, hin⟩ := (Grammar.placed_of_parse hparse).standsIn ho
    obtain ⟨t, ht, hkind, htext⟩ := hgroup.exists_identifier
    exact ⟨t, hin.subset ht, hkind, htext⟩
  refine ⟨ts, except_mapError_eq_ok_iff.1 hts, ?_⟩
  rw [lower_eq]
  exact Stmt.madeOf_fragmentAll hliterals hnames 0 0

/-- The operand can come from a script: a number is not NaN, and a name is spelled like one. -/
def Operand.Sourced : Operand → Prop :=
  Of (· ≠ .nan) fun x => Kind.identifier.Spells false x.toList

theorem Binary64.ofDecimal_ne_nan (negative : Bool) (d : Decimal) :
    ofDecimal negative d ≠ .nan := by
  unfold ofDecimal ofRank
  split <;> nofun

theorem compile_sourced {source : String} {l : Listing} (h : compile source = .ok l) :
    ∀ q ∈ l.quads, q.MadeOf Operand.Sourced := by
  obtain ⟨ts, hlex, hquads⟩ := compile_madeOf h
  have hspelled := (lex_eq_ok_iff.1 hlex).spelled.of_mem
  intro q hq
  apply (hquads q hq).mono
  intro x hx
  refine hx.mono (fun v hv => ?_) (fun y hy => ?_)
  · obtain ⟨t, ht, hnumeral⟩ := hv
    obtain ⟨hkind, hvalue⟩ := Option.ite_none_right_eq_some.1 hnumeral
    obtain ⟨negative, d, hread⟩ := exists_ofText? (hkind ▸ (hspelled t ht).2)
    rw [hread] at hvalue
    exact Option.some.inj hvalue ▸ Binary64.ofDecimal_ne_nan negative d
  · obtain ⟨t, ht, hkind, rfl⟩ := hy
    exact hkind ▸ (hspelled t ht).2

end Quadcode
