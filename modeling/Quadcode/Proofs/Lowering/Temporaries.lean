import Mathlib.Data.List.Nodup
import Quadcode.Proofs.Flow
import Quadcode.Proofs.Lowering.Blocks

/-!
# Temporaries

The temporaries of a listing are written one after the other, each by one quad, and each is read in
one place at most. Control comes to that place from the quad that writes the temporary and by no
other way: the quads in between do not jump, and no jump leads in between (`Feeds`). So a temporary
is written on every path to the quad that reads it, and in a loop it holds what was computed in the
same turn (`lower_temps_fresh`).

Writes and reads are counted (`tempsWritten`, `operandsRead`): code reads a temporary at most as
often as it writes it, and both numbers add up when code is put together. Where jumps lead is known
from the bounds of fragments.
-/

namespace Quadcode

universe u

/-- The number of a temporary. -/
def Operand.temp? : Operand → Option Nat
  | .temp i => some i
  | .number _ | .name _ => none

/-- The temporary that a quad writes. -/
def Quad.temp? (q : Quad) : Option Nat :=
  q.result?.bind Operand.temp?

/-- The quad works on values and does not jump. -/
def Quad.isOperation : Quad → Bool
  | .operate _ _ _ _ => true
  | .jump _ _ => false

/-- The temporaries that the code writes, in the order of its quads. -/
def tempsWritten (code : List Quad) : List Nat :=
  code.filterMap Quad.temp?

/-- The operands that the code reads, in the order of its quads. -/
def operandsRead (code : List Quad) : List Operand :=
  code.flatMap Quad.operands

@[simp] theorem tempsWritten_append (code code' : List Quad) :
    tempsWritten (code ++ code') = tempsWritten code ++ tempsWritten code' :=
  List.filterMap_append

@[simp] theorem operandsRead_append (code code' : List Quad) :
    operandsRead (code ++ code') = operandsRead code ++ operandsRead code' :=
  List.flatMap_append

/-! ## How often temporaries are written and read -/

namespace Expr

theorem tempsWritten_code (k : Nat) (e : Expr) :
    tempsWritten (e.code k) = List.range' k e.operations := by
  induction e generalizing k with
  | number value span => rfl
  | name x span => rfl
  | binary op left right span ihl ihr =>
    have hlast (i : Nat) (l r : Operand) :
        tempsWritten [.operate (.apply op) l (some r) (.temp i)] = List.range' i 1 :=
      rfl
    rw [code, operations, tempsWritten_append, tempsWritten_append, ihl, ihr, hlast,
      Nat.add_assoc k, ← List.append_assoc, List.range'_append_1, List.range'_append_1]

theorem tempsWritten_testCode (k : Nat) (test : Expr) :
    tempsWritten (test.testCode k) = List.range' k test.testOperations := by
  unfold testCode testOperations
  split
  · rw [tempsWritten_append, tempsWritten_code, tempsWritten_code, List.range'_append_1]
  · exact tempsWritten_code k test

/-- The operand that holds the value is not read yet: it can be read once more. -/
theorem count_operandsRead_code (k i : Nat) (e : Expr) :
    (operandsRead (e.code k)).count (.temp i) + [e.operand k].count (.temp i) ≤
      (tempsWritten (e.code k)).count i := by
  induction e generalizing k with
  | number value span => simp [code, operand, operandsRead]
  | name x span => simp [code, operand, operandsRead]
  | binary op left right span ihl ihr =>
    have hl := ihl k
    have hr := ihr (k + left.operations)
    have hwritten (j : Nat) (l r : Operand) :
        (tempsWritten [.operate (.apply op) l (some r) (.temp j)]).count i =
          [Operand.temp j].count (.temp i) := by
      simp [tempsWritten, Quad.temp?, Quad.result?, Operand.temp?, List.count_cons]
    have hread (j : Nat) (l r : Operand) :
        operandsRead [.operate (.apply op) l (some r) (.temp j)] = [l] ++ [r] :=
      rfl
    simp only [code, tempsWritten_append, operandsRead_append, List.count_append, hwritten, hread]
    simp only [operand.eq_3]
    omega

theorem count_operandsRead_test (k i : Nat) (test : Expr) (target : Target) :
    (operandsRead (test.testCode k ++ [.jump (test.failure k) target])).count (.temp i) ≤
      (tempsWritten (test.testCode k)).count i := by
  have hone (x : Operand) : operandsRead [.jump (.isZero x) target] = [x] := rfl
  have htwo (c : Comparison) (l r : Operand) :
      operandsRead [.jump (.compare c l r) target] = [l] ++ [r] := rfl
  unfold testCode failure
  split
  · next c left right _ =>
    have hl := left.count_operandsRead_code k i
    have hr := right.count_operandsRead_code (k + left.operations) i
    simp only [tempsWritten_append, operandsRead_append, List.count_append, htwo]
    omega
  · simpa only [operandsRead_append, List.count_append, hone] using test.count_operandsRead_code k i

end Expr

/-! ## From the write to the read -/

/-- In code placed at `base`, the quad number `d` writes the temporary, and control comes to the
quad number `u` only straight from there. -/
structure Feeds (base : Nat) (code : List Quad) (i d u : Nat) : Prop where
  written : ∃ operation left right, code[d]? = some (.operate operation left right (.temp i))
  before : d < u
  straight : ∀ a, d ≤ a → a < u → ∃ q, code[a]? = some q ∧ q.isOperation
  around : ∀ q ∈ code, q.Targets fun _ target => target ≤ base + d ∨ base + u < target

/-- Every temporary that the code, placed at `base`, reads is written in it, and control
comes straight from there. -/
def Fed (base : Nat) (code : List Quad) : Prop :=
  ∀ u q i, code[u]? = some q → .temp i ∈ q.operands → ∃ d, Feeds base code i d u

theorem Quad.targets_of_isOperation {P : Test → Nat → Prop} {q : Quad} (h : q.isOperation) :
    q.Targets P := by
  cases q with
  | operate operation left right result => trivial
  | jump test target => cases h

namespace Feeds

variable {base i d u : Nat}

/-- Code inside of other code, if no jump of the rest leads into it. -/
theorem within {before code after : List Quad} (h : Feeds (base + before.length) code i d u)
    (hu : u < code.length)
    (hrest : ∀ q ∈ before ++ after, q.Targets fun _ target =>
      target ≤ base + before.length ∨ base + before.length + code.length ≤ target) :
    Feeds base (before ++ code ++ after) i (before.length + d) (before.length + u) := by
  have hshift {a : Nat} {q : Quad} (hq : code[a]? = some q) :
      (before ++ code ++ after)[before.length + a]? = some q := by
    obtain ⟨ha, -⟩ := List.getElem?_eq_some_iff.1 hq
    rw [List.append_assoc, List.getElem?_append_right (by omega), Nat.add_sub_cancel_left,
      List.getElem?_append_left ha, hq]
  refine ⟨?_, Nat.add_lt_add_left h.before _, fun a hda hau => ?_, fun q hq => ?_⟩
  · obtain ⟨operation, left, right, hq⟩ := h.written
    exact ⟨operation, left, right, hshift hq⟩
  · obtain ⟨q, hq, hoperation⟩ := h.straight (a - before.length) (by omega) (by omega)
    have hsame := hshift hq
    rw [Nat.add_sub_cancel' (by omega)] at hsame
    exact ⟨q, hsame, hoperation⟩
  · rw [List.append_assoc, List.mem_append, List.mem_append] at hq
    rcases hq with hq | hq | hq
    · exact (hrest q (List.mem_append_left _ hq)).mono fun _ target ht => by omega
    · exact (h.around q hq).mono fun _ target ht => by omega
    · exact (hrest q (List.mem_append_right _ hq)).mono fun _ target ht => by omega

/-- A quad comes straight behind one that writes a temporary. -/
theorem of_written {operation : Operation} {left : Operand} {right : Option Operand}
    {init mid : List Quad} {q : Quad} (hinit : ∀ q ∈ init, q.isOperation)
    (hmid : ∀ q ∈ mid, q.isOperation)
    (htarget : q.Targets fun _ target =>
      target ≤ base ∨ base + (init.length + 1 + mid.length) < target) :
    Feeds base (init ++ .operate operation left right (.temp i) :: mid ++ [q]) i init.length
      (init.length + 1 + mid.length) := by
  have hall : ∀ q ∈ init ++ .operate operation left right (.temp i) :: mid, q.isOperation := by
    simp only [List.forall_mem_append, List.forall_mem_cons]
    exact ⟨hinit, rfl, hmid⟩
  refine ⟨⟨operation, left, right, by simp⟩, by omega, fun a _ hau => ?_, fun q' hq' => ?_⟩
  · have ha : a < (init ++ .operate operation left right (.temp i) :: mid).length := by
      simp only [List.length_append, List.length_cons]
      omega
    rw [List.getElem?_append_left ha]
    exact ⟨_, List.getElem?_eq_getElem ha, hall _ (List.getElem_mem ha)⟩
  · rw [List.mem_append, List.mem_singleton] at hq'
    rcases hq' with hq' | rfl
    · exact Quad.targets_of_isOperation (hall q' hq')
    · exact htarget.mono fun _ target ht => by omega

end Feeds

namespace Fed

variable {base : Nat} {code code' : List Quad}

theorem append (h : Fed base code) (h' : Fed (base + code.length) code')
    (hcode : ∀ q ∈ code, q.Targets fun _ target =>
      target ≤ base + code.length ∨ base + code.length + code'.length ≤ target)
    (hcode' : ∀ q ∈ code', q.Targets fun _ target => target ≤ base ∨ base + code.length ≤ target) :
    Fed base (code ++ code') := by
  intro u q i hq hi
  by_cases hu : u < code.length
  · rw [List.getElem?_append_left hu] at hq
    obtain ⟨d, hd⟩ := h u q i hq hi
    have hfeeds := @Feeds.within base i d u [] code code' hd hu hcode'
    simp only [List.nil_append, List.length_nil, Nat.zero_add] at hfeeds
    exact ⟨d, hfeeds⟩
  · rw [List.getElem?_append_right (by omega)] at hq
    obtain ⟨hlt, -⟩ := List.getElem?_eq_some_iff.1 hq
    obtain ⟨d, hd⟩ := h' _ q i hq hi
    have hfeeds := @Feeds.within base i d _ code code' [] hd hlt (by rwa [List.append_nil])
    rw [List.append_nil, Nat.add_sub_cancel' (by omega)] at hfeeds
    exact ⟨_, hfeeds⟩

/-- A quad that reads what has been written before it. -/
theorem concat {q : Quad} (h : Fed base code)
    (hreads : ∀ i, .temp i ∈ q.operands → ∃ d, Feeds base (code ++ [q]) i d code.length)
    (htarget : q.Targets fun _ target => target ≤ base ∨ base + code.length < target) :
    Fed base (code ++ [q]) := by
  intro u q' i hq' hi
  by_cases hu : u < code.length
  · rw [List.getElem?_append_left hu] at hq'
    obtain ⟨d, hd⟩ := h u q' i hq' hi
    have hrest : ∀ q' ∈ [] ++ [q],
        q'.Targets fun _ target => target ≤ base ∨ base + code.length ≤ target := by
      intro q' hq'
      rw [List.nil_append, List.mem_singleton] at hq'
      subst hq'
      exact htarget.mono fun _ target ht => by omega
    have hfeeds := @Feeds.within base i d u [] code [q] hd hu hrest
    simp only [List.nil_append, List.length_nil, Nat.zero_add] at hfeeds
    exact ⟨d, hfeeds⟩
  · obtain ⟨hlt, hget⟩ := List.getElem?_eq_some_iff.1 hq'
    obtain rfl : u = code.length := by
      rw [List.length_append, List.length_singleton] at hlt
      omega
    rw [List.getElem_concat_length rfl] at hget
    subst hget
    exact hreads i hi

end Fed

/-! ## Expressions and tests -/

namespace Expr

variable {base k : Nat}

theorem isOperation_of_code {e : Expr} : ∀ q ∈ e.code k, q.isOperation := by
  induction e generalizing k with
  | number value span => exact fun _ hq => nomatch hq
  | name x span => exact fun _ hq => nomatch hq
  | binary op left right span ihl ihr =>
    simp only [code, List.forall_mem_append, List.forall_mem_singleton]
    exact ⟨ihl, ihr, rfl⟩

/-- The temporary that holds the value is written by the last quad of the code. -/
theorem exists_written {e : Expr} {i : Nat} (h : e.operand k = .temp i) :
    ∃ init operation left right, e.code k = init ++ [.operate operation left right (.temp i)] := by
  cases e with
  | number value span => cases h
  | name x span => cases h
  | binary op left right span =>
    obtain rfl := Operand.temp.inj h
    refine ⟨left.code k ++ right.code (k + left.operations), .apply op, left.operand k,
      some (right.operand (k + left.operations)), ?_⟩
    rw [code, List.append_assoc]

/-- A quad behind the code of an expression reads its value straight. -/
theorem feeds_operand {e : Expr} {i : Nat} (he : e.operand k = .temp i)
    (before mid : List Quad) {q : Quad} (hbefore : ∀ q ∈ before, q.isOperation)
    (hmid : ∀ q ∈ mid, q.isOperation)
    (htarget : q.Targets fun _ target =>
      target ≤ base ∨ base + (before ++ e.code k ++ mid).length < target) :
    ∃ d, Feeds base (before ++ e.code k ++ mid ++ [q]) i d (before ++ e.code k ++ mid).length := by
  have hcode := e.isOperation_of_code (k := k)
  obtain ⟨init, operation, left, right, heq⟩ := exists_written he
  rw [heq] at hcode htarget ⊢
  have hlength : (before ++ (init ++ [Quad.operate operation left right (.temp i)]) ++ mid).length =
      (before ++ init).length + 1 + mid.length := by
    simp only [List.length_append, List.length_singleton]
    omega
  have hinit : ∀ q ∈ before ++ init, q.isOperation :=
    List.forall_mem_append.2 ⟨hbefore, (List.forall_mem_append.1 hcode).1⟩
  rw [hlength] at htarget ⊢
  have hfeeds := @Feeds.of_written base i operation left right _ _ _ hinit hmid htarget
  exact ⟨(before ++ init).length, by simpa using hfeeds⟩

/-- The code of two expressions and a quad that reads both values. -/
theorem fed_pair {left right : Expr} {q : Quad} (hl : Fed base (left.code k))
    (hr : Fed (base + left.operations) (right.code (k + left.operations)))
    (hq : ∀ x ∈ q.operands, x = left.operand k ∨ x = right.operand (k + left.operations))
    (htarget : q.Targets fun _ target =>
      target ≤ base ∨ base + (left.operations + right.operations) < target) :
    Fed base (left.code k ++ right.code (k + left.operations) ++ [q]) := by
  have hleft := left.isOperation_of_code (k := k)
  have hright := right.isOperation_of_code (k := k + left.operations)
  have hlength : (left.code k ++ right.code (k + left.operations)).length =
      left.operations + right.operations := by
    simp
  rw [← hlength] at htarget
  apply Fed.concat
  · apply hl.append (by rwa [length_code])
    · exact fun q hq => Quad.targets_of_isOperation (hleft q hq)
    · exact fun q hq => Quad.targets_of_isOperation (hright q hq)
  · intro i hi
    rcases hq _ hi with hx | hx
    · exact feeds_operand hx.symm [] _ (by simp) hright htarget
    · have hfeeds := feeds_operand hx.symm _ [] hleft (by simp) (by rwa [List.append_nil])
      rwa [List.append_nil] at hfeeds
  · exact htarget

/-- The code of an expression and a quad that reads its value. -/
theorem fed_single {e : Expr} {q : Quad} (he : Fed base (e.code k))
    (hq : ∀ x ∈ q.operands, x = e.operand k)
    (htarget : q.Targets fun _ target => target ≤ base ∨ base + e.operations < target) :
    Fed base (e.code k ++ [q]) := by
  rw [← e.length_code k] at htarget
  apply he.concat
  · intro i hi
    have hfeeds := feeds_operand (hq _ hi).symm [] [] (by simp) (by simp)
      (by rwa [List.nil_append, List.append_nil])
    rwa [List.nil_append, List.append_nil] at hfeeds
  · exact htarget

theorem fed_code (base k : Nat) (e : Expr) : Fed base (e.code k) := by
  induction e generalizing base k with
  | number value span => exact fun _ _ _ hq => nomatch hq
  | name x span => exact fun _ _ _ hq => nomatch hq
  | binary op left right span ihl ihr =>
    rw [code, ← List.append_assoc]
    refine fed_pair (ihl base k) (ihr _ _) (fun x hx => ?_) trivial
    simpa [Quad.operands] using hx

theorem fed_test {test : Expr} {exit : Nat} (hexit : base + test.testOperations < exit) :
    Fed base (test.testCode k ++ [.jump (test.failure k) (.to exit)]) := by
  unfold testCode failure
  unfold testOperations at hexit
  split
  · next c left right hc =>
    simp only [hc] at hexit
    refine fed_pair (fed_code _ _ _) (fed_code _ _ _) (fun x hx => ?_) ⟨exit, rfl, .inr hexit⟩
    simpa [Quad.operands, Test.operands] using hx
  · next hc =>
    simp only [hc] at hexit
    refine fed_single (fed_code _ _ _) (fun x hx => ?_) ⟨exit, rfl, .inr hexit⟩
    simpa [Quad.operands, Test.operands] using hx

end Expr

/-! ## Fragments -/

/-- Code placed at `base` that writes `n` temporaries from `k` on, one after the other, reads each
of them at most once, and comes straight from the write to the read. -/
structure Fresh (base k n : Nat) (code : List Quad) : Prop where
  written : tempsWritten code = List.range' k n
  read : ∀ i, (operandsRead code).count (.temp i) ≤ (tempsWritten code).count i
  fed : Fed base code

theorem Fresh.append {base k n n' : Nat} {code code' : List Quad} (h : Fresh base k n code)
    (h' : Fresh (base + code.length) (k + n) n' code')
    (hcode : ∀ q ∈ code, q.Targets fun _ target =>
      target ≤ base + code.length ∨ base + code.length + code'.length ≤ target)
    (hcode' : ∀ q ∈ code', q.Targets fun _ target => target ≤ base ∨ base + code.length ≤ target) :
    Fresh base k (n + n') (code ++ code') where
  written := by rw [tempsWritten_append, h.written, h'.written, List.range'_append_1]
  read i := by
    simp only [tempsWritten_append, operandsRead_append, List.count_append]
    exact Nat.add_le_add (h.read i) (h'.read i)
  fed := h.fed.append h'.fed hcode hcode'

theorem Expr.fresh_code (base k : Nat) (e : Expr) : Fresh base k e.operations (e.code k) where
  written := e.tempsWritten_code k
  read i := Nat.le_trans (Nat.le_add_right _ _) (e.count_operandsRead_code k i)
  fed := e.fed_code base k

/-- A test and the code that its jump leads around. -/
theorem Expr.fresh_test {base k n exit : Nat} {test : Expr} {code : List Quad}
    (h : Fresh (base + (test.testOperations + 1)) (k + test.testOperations) n code)
    (hcode : ∀ q ∈ code, q.Targets fun _ target =>
      target ≤ base ∨ base + (test.testOperations + 1) ≤ target)
    (hexit : exit = base + (test.testOperations + 1) + code.length) :
    Fresh base k (test.testOperations + n)
      (test.testCode k ++ .jump (test.failure k) (.to exit) :: code) := by
  have hlength : (test.testCode k ++ [Quad.jump (test.failure k) (.to exit)]).length =
      test.testOperations + 1 := by
    simp
  have hwritten : tempsWritten (test.testCode k ++ [.jump (test.failure k) (.to exit)]) =
      tempsWritten (test.testCode k) := by
    rw [tempsWritten_append]
    exact List.append_nil _
  have htest : Fresh base k test.testOperations
      (test.testCode k ++ [.jump (test.failure k) (.to exit)]) := by
    refine ⟨?_, fun i => ?_, fed_test (by omega)⟩
    · rw [hwritten, tempsWritten_testCode]
    · rw [hwritten]
      exact test.count_operandsRead_test k i _
  rw [List.append_cons]
  apply htest.append
  · rwa [hlength]
  · intro q hq
    rw [hlength]
    rw [List.mem_append, List.mem_singleton] at hq
    rcases hq with hq | rfl
    · exact Quad.targets_of_sound (sound_testCode hq)
    · exact ⟨exit, rfl, .inr (by omega)⟩
  · rwa [hlength]

namespace Fragment

/-- Placed anywhere, the fragment is fresh. -/
def Fresh (f : Fragment) : Prop :=
  ∀ base k, Quadcode.Fresh base k f.temps (f.code base k)

variable {f g : Fragment}

theorem fresh_empty : empty.Fresh :=
  fun _ _ => ⟨rfl, fun _ => Nat.le_refl _, fun _ _ _ hq => nomatch hq⟩

theorem Fresh.append (hf : f.Fresh) (hg : g.Fresh) : (f.append g).Fresh := by
  intro base k
  apply (hf base k).append
  · rw [f.length_code]
    exact hg _ _
  · intro q hq
    rw [f.length_code]
    exact (f.sound_code base k q hq).targets.mono fun _ target ht => .inl ht.2
  · intro q hq
    rw [f.length_code]
    exact (g.sound_code _ _ q hq).targets.mono fun _ target ht => .inr ht.1

theorem fresh_value (e : Expr) : (value e).Fresh :=
  fun base k => e.fresh_code base k

theorem fresh_assign (x : String) (e : Expr) : (assign x e).Fresh := by
  intro base k
  have hwritten (v : Operand) : tempsWritten [.operate .copy v none (.name x)] = [] := rfl
  have hread (v : Operand) : operandsRead [.operate .copy v none (.name x)] = [v] := rfl
  refine ⟨?_, fun i => ?_, Expr.fed_single (e.fed_code base k) (fun v hv => ?_) trivial⟩
  · simp only [assign, tempsWritten_append, hwritten, List.append_nil, e.tempsWritten_code]
  · simpa only [assign, tempsWritten_append, operandsRead_append, List.count_append, hwritten,
      hread, List.append_nil]
      using e.count_operandsRead_code k i
  · simpa [Quad.operands] using hv

theorem Fresh.branch (hf : f.Fresh) (test : Expr) : (branch test f).Fresh := by
  intro base k
  apply Expr.fresh_test (hf _ _)
  · intro q hq
    exact (f.sound_code _ _ q hq).targets.mono fun _ target ht => .inr ht.1
  · rw [length_code]
    omega

theorem Fresh.loop (hf : f.Fresh) (test : Expr) : (loop test f).Fresh := by
  intro base k
  have hback (start k : Nat) : Quadcode.Fresh start k 0 [.jump .always (.to base)] := by
    refine ⟨rfl, fun _ => Nat.le_refl _, fun u q i hq hi => ?_⟩
    obtain rfl := List.mem_singleton.1 (List.mem_of_getElem? hq)
    cases hi
  have hbody (start k : Nat) (hstart : base ≤ start) :
      Quadcode.Fresh start k f.temps (f.code start k ++ [.jump .always (.to base)]) := by
    apply (hf start k).append (hback _ _)
    · intro q hq
      rw [f.length_code]
      exact (f.sound_code _ _ q hq).targets.mono fun _ target ht => .inl ht.2
    · intro q hq
      obtain rfl := List.mem_singleton.1 hq
      exact ⟨base, rfl, .inl hstart⟩
  apply Expr.fresh_test (hbody _ _ (by omega))
  · intro q hq
    rw [List.mem_append, List.mem_singleton] at hq
    rcases hq with hq | rfl
    · exact (f.sound_code _ _ q hq).targets.mono fun _ target ht => .inr ht.1
    · exact ⟨base, rfl, .inl (Nat.le_refl _)⟩
  · rw [List.length_append, length_code, List.length_singleton]
    omega

end Fragment

namespace Stmt

mutual

theorem fresh_fragment (s : Stmt) : s.fragment.Fresh := by
  match s with
  | .print value _ => exact Fragment.fresh_value value
  | .declare name value _ | .assign name value _ => exact Fragment.fresh_assign name.text value
  | .ifThen test body _ => exact (fresh_fragmentAll body).branch test
  | .whileDo test body _ => exact (fresh_fragmentAll body).loop test
  | .forDo initial test step body _ =>
    exact (fresh_fragment initial).append
      (((fresh_fragmentAll body).append (fresh_fragment step)).loop test)

theorem fresh_fragmentAll (body : List Stmt) : (fragmentAll body).Fresh := by
  match body with
  | [] => exact Fragment.fresh_empty
  | s :: rest => exact (fresh_fragment s).append (fresh_fragmentAll rest)

end

end Stmt

theorem fresh_lower (program : List Stmt) :
    Fresh 0 0 (Stmt.fragmentAll program).temps (lower program).quads := by
  rw [lower_eq]
  exact Stmt.fresh_fragmentAll program 0 0

/-! ## Paths and runs -/

/-- Where no jump leads, control comes from the address before. -/
theorem Quad.Leads.eq_succ {q : Quad} {d u a next : Nat} (h : q.Leads a next)
    (haround : q.Targets fun _ target => target ≤ d ∨ u < target) (hd : d < next) (hu : next ≤ u) :
    next = a + 1 := by
  cases q with
  | operate operation left right result => exact h
  | jump test target =>
    obtain ⟨b, rfl, hb⟩ := haround
    rcases h.of_jump with heq | heq
    · obtain rfl := Target.to.inj heq
      omega
    · exact heq

namespace Feeds

variable {l : Listing} {i d u : Nat}

/-- Every path to the read comes straight from the write. -/
theorem path (h : Feeds 0 l.quads i d u) {visited : List Nat} {a : Nat} (hpath : l.Path visited a)
    (hd : d ≤ a) (hu : a ≤ u) :
    ∃ before, l.Path before d ∧ visited = before ++ List.range' d (a - d) := by
  have haround := h.around
  simp only [Nat.zero_add] at haround
  induction hpath with
  | start =>
    obtain rfl : d = 0 := by omega
    exact ⟨[], .start, rfl⟩
  | @step visited a next q hpath hq hnext ih =>
    by_cases hdn : d = next
    · subst hdn
      exact ⟨visited ++ [a], hpath.step hq hnext, by simp⟩
    · have hsucc := hnext.eq_succ (haround q (List.mem_of_getElem? hq)) (by omega) hu
      subst hsucc
      obtain ⟨before, hbefore, rfl⟩ := ih (by omega) (by omega)
      refine ⟨before, hbefore, ?_⟩
      rw [List.append_assoc, Nat.succ_sub (by omega), List.range'_1_concat,
        Nat.add_sub_cancel' (by omega)]

end Feeds

/-- A quad that does not write a temporary leaves its value. -/
theorem Machine.temps_of_exec? {V : Type u} {A : Arithmetic V} {m m' : Machine V}
    {q : Quad} {i : Nat} (h : m.exec? A q = some m') (hq : q.temp? ≠ some i) :
    m'.temps i = m.temps i := by
  cases q with
  | operate operation left right result =>
    obtain ⟨value, -, hwrite⟩ := Option.bind_eq_some_iff.1 h
    cases result with
    | number x => cases hwrite
    | name x =>
      obtain rfl := Option.some.inj hwrite
      rfl
    | temp j =>
      obtain rfl := Option.some.inj hwrite
      have hne : i ≠ j := fun hij => hq (by rw [hij]; rfl)
      exact Function.update_of_ne hne _ _
  | jump test target =>
    rw [Machine.exec?] at h
    split at h
    · obtain ⟨a, -, rfl⟩ := Option.map_eq_some_iff.1 h
      rfl
    · obtain rfl := Option.some.inj h
      rfl

/-- Temporaries that are written one after the other are written by one quad each. -/
theorem eq_of_temp? {code : List Quad} {k n a b i : Nat} {q q' : Quad}
    (h : tempsWritten code = List.range' k n) (ha : code[a]? = some q) (hb : code[b]? = some q')
    (hq : q.temp? = some i) (hq' : q'.temp? = some i) : a = b := by
  have hnodup : (tempsWritten code).Nodup := by
    rw [h]
    exact List.nodup_range'
  have hpairs := List.pairwise_iff_getElem.1 (List.pairwise_filterMap.1 hnodup)
  obtain ⟨hlta, rfl⟩ := List.getElem?_eq_some_iff.1 ha
  obtain ⟨hltb, rfl⟩ := List.getElem?_eq_some_iff.1 hb
  rcases Nat.lt_trichotomy a b with hab | hab | hab
  · exact absurd rfl (hpairs a b hlta hltb hab i hq i hq')
  · exact hab
  · exact absurd rfl (hpairs b a hltb hlta hab i hq' i hq)

/-- A machine that comes to the read has made a step at the write, and since then the temporary has
the value that this step gave it. -/
theorem Feeds.run {V : Type u} {A : Arithmetic V} {l : Listing} {i d u n k count : Nat}
    {m m' : Machine V} (h : Feeds 0 l.quads i d u)
    (hwritten : tempsWritten l.quads = List.range' k count) (hm : m.address ≤ d)
    (hrun : l.after? A n m = some m') (hd : d < m'.address) (hu : m'.address ≤ u) :
    ∃ j m₁ m₂, j + (m'.address - d) = n ∧ l.after? A j m = some m₁ ∧ m₁.address = d ∧
      l.step? A m₁ = some m₂ ∧
      l.after? A (m'.address - d - 1) m₂ = some m' ∧ m'.temps i = m₂.temps i := by
  have haround := h.around
  simp only [Nat.zero_add] at haround
  obtain ⟨operation, left, right, hwrite⟩ := h.written
  induction n generalizing m' with
  | zero =>
    obtain rfl := Option.some.inj hrun
    omega
  | succ n ih =>
    rw [Listing.after?_add] at hrun
    obtain ⟨m₁, hm₁, hlast⟩ := Option.bind_eq_some_iff.1 hrun
    have hstep : l.step? A m₁ = some m' := by simpa [Listing.after?] using hlast
    obtain ⟨q, hq, hexec⟩ := Option.bind_eq_some_iff.1 hstep
    have hsucc := (Machine.leads_of_exec? hexec).eq_succ (haround q (List.mem_of_getElem? hq)) hd hu
    by_cases hdm : m₁.address = d
    · refine ⟨n, m₁, m', by omega, hm₁, hdm, hstep, ?_, rfl⟩
      rw [show m'.address - d - 1 = 0 by omega]
      rfl
    · obtain ⟨j, m₂, m₃, hj, hm₂, haddress, hstep₂, hm₃, htemp⟩ := ih hm₁ (by omega) (by omega)
      refine ⟨j, m₂, m₃, by omega, hm₂, haddress, hstep₂, ?_, ?_⟩
      · rw [show m'.address - d - 1 = m₁.address - d - 1 + 1 by omega, Listing.after?_add, hm₃,
          Option.bind_some, hlast]
      · -- the quad that was just passed is not the one that writes the temporary
        have hother : q.temp? ≠ some i := fun hi => hdm (eq_of_temp? hwritten hq hwrite hi rfl)
        rw [Machine.temps_of_exec? hexec hother, htemp]

/-- The quads of a listing that write temporaries write the first, the second and so on. Each
temporary is read in at most one place, and there control comes straight from the one quad that
writes it. So every path to the read ends with the way from the write to it, and a machine reads the
value that it has computed on that way. -/
theorem lower_temps_fresh (program : List Stmt) :
    ∃ count, tempsWritten (lower program).quads = List.range count ∧
      (∀ i, (operandsRead (lower program).quads).count (.temp i) ≤ 1) ∧
      ∀ i u q, (lower program).quads[u]? = some q → .temp i ∈ q.operands →
        ∃ d, Feeds 0 (lower program).quads i d u ∧
          (∀ visited, (lower program).Path visited u →
            ∃ before, (lower program).Path before d ∧ visited = before ++ List.range' d (u - d)) ∧
          ∀ (V : Type u) (A : Arithmetic V) (n : Nat) (m m' : Machine V), m.address = 0 →
            (lower program).after? A n m = some m' → m'.address = u →
            ∃ j m₁ m₂, j + (u - d) = n ∧ (lower program).after? A j m = some m₁ ∧ m₁.address = d ∧
              (lower program).step? A m₁ = some m₂ ∧
                (lower program).after? A (u - d - 1) m₂ = some m' ∧
              m'.temps i = m₂.temps i := by
  have hfresh := fresh_lower program
  refine ⟨_, hfresh.written.trans List.range_eq_range'.symm, fun i => ?_, fun i u q hq hi => ?_⟩
  · apply Nat.le_trans (hfresh.read i)
    rw [hfresh.written]
    exact List.nodup_iff_count_le_one.1 List.nodup_range' i
  · obtain ⟨d, hfeeds⟩ := hfresh.fed u q i hq hi
    have hlt := hfeeds.before
    refine ⟨d, hfeeds,
      fun visited hpath => hfeeds.path hpath (Nat.le_of_lt hlt) (Nat.le_refl u), ?_⟩
    intro V A n m m' hm hrun hm'
    subst hm'
    exact hfeeds.run hfresh.written (by omega) hrun hlt (Nat.le_refl _)

/-- A loop whose test and whose body each compute a difference. -/
def differenceLoop : List Stmt :=
  [.whileDo (.binary .lt (.binary .sub (.name "x" {}) (.name "y" {}) {}) (.name "z" {}) {})
    [.assign { text := "x" } (.binary .sub (.name "x" {}) (.name "y" {}) {}) {}] {}]

/-- The second turn reads the difference that it has computed itself. -/
theorem lower_temps_fresh_turn :
    (lower differenceLoop).quads[1]? = some (.jump (.compare .ge (.temp 0) (.name "z")) (.to 5)) ∧
      (lower differenceLoop).Path [0, 1, 2, 3, 4, 0] 1 ∧
      ∃ d before, Feeds 0 (lower differenceLoop).quads 0 d 1 ∧
        (lower differenceLoop).Path before d ∧
        [0, 1, 2, 3, 4, 0] = before ++ List.range' d (1 - d) := by
  have hread : (lower differenceLoop).quads[1]? =
      some (.jump (.compare .ge (.temp 0) (.name "z")) (.to 5)) := rfl
  have htested : (lower differenceLoop).Path ([0] ++ [1]) 2 :=
    .step (.step .start rfl rfl) rfl (Or.inr rfl)
  have hturned : (lower differenceLoop).Path ([0, 1, 2, 3] ++ [4]) 0 :=
    .step (.step (.step htested rfl rfl) rfl rfl) rfl rfl
  have hagain : (lower differenceLoop).Path ([0, 1, 2, 3, 4] ++ [0]) 1 := .step hturned rfl rfl
  obtain ⟨_, -, -, hfresh⟩ := lower_temps_fresh.{0} differenceLoop
  obtain ⟨d, hfeeds, hpath, -⟩ := hfresh 0 1 _ hread (.head _)
  obtain ⟨before, hbefore, heq⟩ := hpath _ hagain
  exact ⟨hread, hagain, d, before, hfeeds, hbefore, heq⟩

end Quadcode
