import Quadcode.Proofs.Machine

/-!
# Control flow

Where control can pass from a quad is read off the quad alone: a jump on a test may go either way,
whatever the values are (`Quad.Leads`). A path follows these steps from the start of a listing
(`Listing.Path`), and every run of the machine is one (`Listing.Reaches.path`).

That an operand is written on every path to the quads that read it is shown by a set of addresses at
which it is known to be written (`Guards`). Each quad is looked at once, and the paths come in only
with `Guards.written`.
-/

namespace Quadcode

universe u

namespace Quad

/-- The operands that a quad reads. -/
def operands : Quad → List Operand
  | .operate _ left right _ => left :: right.toList
  | .jump test _ => test.operands.1.toList ++ test.operands.2.toList

/-- The operand that a quad writes. -/
def result? : Quad → Option Operand
  | .operate _ _ _ result => some result
  | .jump _ _ => none

/-- Control can pass from the quad, at `address`, to `next`. -/
def Leads (address next : Nat) : Quad → Prop
  | .operate _ _ _ _ => next = address + 1
  | .jump .always target => target = .to next
  | .jump _ target => target = .to next ∨ next = address + 1

theorem Leads.of_jump {address next : Nat} {test : Test} {target : Target}
    (h : (jump test target).Leads address next) : target = .to next ∨ next = address + 1 := by
  cases test with
  | always => exact .inl h
  | isZero x => exact h
  | isNonzero x => exact h
  | compare c left right => exact h

theorem Sound.leads {low high address next : Nat} {q : Quad} (h : q.Sound low high)
    (hlow : low ≤ address) (hhigh : address < high) (hnext : q.Leads address next) :
    low ≤ next ∧ next ≤ high := by
  cases q with
  | operate operation left right result =>
    rw [Leads] at hnext
    omega
  | jump test target =>
    obtain ⟨a, rfl, hla, hah⟩ := h
    rcases hnext.of_jump with heq | heq
    · obtain rfl := Target.to.inj heq
      exact ⟨hla, hah⟩
    · omega

end Quad

/-! ## Paths -/

namespace Listing

/-- A path of control from the start of the listing: the addresses that it has visited, in order,
and the address at which it is now. -/
inductive Path (l : Listing) : List Nat → Nat → Prop
  | start : Path l [] 0
  | step {visited : List Nat} {a next : Nat} {q : Quad} (path : Path l visited a)
      (quad : l.quads[a]? = some q) (leads : q.Leads a next) : Path l (visited ++ [a]) next

end Listing

theorem Target.address?_eq_some_iff {target : Target} {a : Address} :
    target.address? = some a ↔ target = .to a := by
  cases target <;> simp [address?]

namespace Machine

variable {V : Type u} {A : Arithmetic V} {m m' : Machine V}

theorem address_of_write? {value : V} {result : Operand} (h : m.write? value result = some m') :
    m'.address = m.address + 1 := by
  cases result with
  | number x => cases h
  | name x =>
    obtain rfl := Option.some.inj h
    rfl
  | temp i =>
    obtain rfl := Option.some.inj h
    rfl

theorem leads_of_exec? {q : Quad} (h : m.exec? A q = some m') : q.Leads m.address m'.address := by
  cases q with
  | operate operation left right result =>
    obtain ⟨value, -, hwrite⟩ := Option.bind_eq_some_iff.1 h
    exact address_of_write? hwrite
  | jump test target =>
    have hgo : (test.taken A m.vars m.temps = true ∧ target = .to m'.address) ∨
        (test.taken A m.vars m.temps = false ∧ m'.address = m.address + 1) := by
      rw [Machine.exec?] at h
      split at h
      · next htaken =>
        obtain ⟨a, ha, rfl⟩ := Option.map_eq_some_iff.1 h
        exact .inl ⟨htaken, Target.address?_eq_some_iff.1 ha⟩
      · next htaken =>
        obtain rfl := Option.some.inj h
        exact .inr ⟨by simpa using htaken, rfl⟩
    cases test with
    | always =>
      rcases hgo with ⟨-, ht⟩ | ⟨htaken, -⟩
      · exact ht
      · cases htaken
    | isZero x => exact hgo.imp And.right And.right
    | isNonzero x => exact hgo.imp And.right And.right
    | compare c left right => exact hgo.imp And.right And.right

end Machine

/-- What the machine reaches from the start lies at the end of a path. -/
theorem Listing.Reaches.path {V : Type u} {A : Arithmetic V} {l : Listing} {m m' : Machine V}
    (h : l.Reaches A m m') (hm : m.address = 0) : ∃ visited, l.Path visited m'.address := by
  obtain ⟨n, hn⟩ := h
  induction n generalizing m' with
  | zero =>
    obtain rfl := Option.some.inj hn
    exact ⟨[], hm ▸ .start⟩
  | succ n ih =>
    rw [Listing.after?_add] at hn
    obtain ⟨m₁, hm₁, hlast⟩ := Option.bind_eq_some_iff.1 hn
    obtain ⟨visited, hpath⟩ := ih hm₁
    obtain ⟨m₂, hstep, hm₂⟩ := Option.bind_eq_some_iff.1 hlast
    obtain rfl := Option.some.inj hm₂
    obtain ⟨q, hq, hexec⟩ := Option.bind_eq_some_iff.1 hstep
    exact ⟨_, hpath.step hq (Machine.leads_of_exec? hexec)⟩

/-! ## Operands that are known to be written -/

/-- The code, placed at `base`, reads the operand only where it is known to be
written. Where control passes to such an address the operand was known before, or the
quad just passed writes it. -/
structure Guards (x : Operand) (known : Nat → Prop) (base : Nat) (code : List Quad) : Prop where
  reads : ∀ {i : Nat} {q : Quad}, code[i]? = some q → x ∈ q.operands → known (base + i)
  flows : ∀ {i : Nat} {q : Quad} {next : Nat}, code[i]? = some q → q.Leads (base + i) next →
    known next →
    known (base + i) ∨ q.result? = some x

namespace Guards

variable {x : Operand} {known : Nat → Prop} {base : Nat} {code code' : List Quad}

/-- On a path to an address where the operand is known to be written there is
a quad that writes it. -/
theorem written {l : Listing} (h : Guards x known 0 l.quads) (hstart : ¬ known 0)
    {visited : List Nat} {a : Nat} (hpath : l.Path visited a) (ha : known a) :
    ∃ b ∈ visited, ∃ q, l.quads[b]? = some q ∧ q.result? = some x := by
  induction hpath with
  | start => exact absurd ha hstart
  | @step visited a next q hpath hq hnext ih =>
    have hflow := h.flows hq (by rwa [Nat.zero_add]) ha
    rw [Nat.zero_add] at hflow
    rcases hflow with hknown | hresult
    · obtain ⟨b, hb, hwrites⟩ := ih hknown
      exact ⟨b, List.mem_append_left _ hb, hwrites⟩
    · exact ⟨a, List.mem_append_right _ (List.mem_singleton.2 rfl), q, hq, hresult⟩

theorem append (h : Guards x known base code) (h' : Guards x known (base + code.length) code') :
    Guards x known base (code ++ code') := by
  -- A quad of the second part has the same address whether it is counted from the start or from the
  -- seam.
  have hsplit {i : Nat} {q : Quad} (hq : (code ++ code')[i]? = some q) :
      code[i]? = some q ∨ ∃ j, code'[j]? = some q ∧ base + i = base + code.length + j := by
    by_cases hi : i < code.length
    · exact .inl (by rwa [List.getElem?_append_left hi] at hq)
    · rw [List.getElem?_append_right (by omega)] at hq
      exact .inr ⟨i - code.length, hq, by omega⟩
  constructor
  · intro i q hq hx
    rcases hsplit hq with hq | ⟨j, hq, hj⟩
    · exact h.reads hq hx
    · rw [hj]
      exact h'.reads hq hx
  · intro i q next hq hnext hknown
    rcases hsplit hq with hq | ⟨j, hq, hj⟩
    · exact h.flows hq hnext hknown
    · rw [hj] at hnext ⊢
      exact h'.flows hq hnext hknown

theorem singleton {q : Quad} (hreads : x ∈ q.operands → known base)
    (hflows : ∀ next, q.Leads base next → known next → known base ∨ q.result? = some x) :
    Guards x known base [q] := by
  have hzero {i : Nat} {q' : Quad} (hq : [q][i]? = some q') : i = 0 ∧ q' = q := by
    obtain ⟨hi, rfl⟩ := List.getElem?_eq_some_iff.1 hq
    obtain rfl : i = 0 := by simpa using hi
    exact ⟨rfl, rfl⟩
  constructor
  · intro i q' hq hx
    obtain ⟨rfl, rfl⟩ := hzero hq
    exact hreads hx
  · intro i q' next hq hnext hknown
    obtain ⟨rfl, rfl⟩ := hzero hq
    exact hflows next hnext hknown

/-- Code without jumps throughout which one thing is known about the operand. -/
theorem of_straight (before : Prop) (hknown : ∀ i ≤ code.length, (known (base + i) ↔ before))
    (hleads : ∀ q ∈ code, ∀ address next, q.Leads address next → next = address + 1)
    (hreads : ∀ q ∈ code, x ∈ q.operands → before) : Guards x known base code := by
  have hlt {i : Nat} {q : Quad} (hq : code[i]? = some q) : i < code.length :=
    (List.getElem?_eq_some_iff.1 hq).1
  constructor
  · intro i q hq hx
    exact (hknown i (Nat.le_of_lt (hlt hq))).2 (hreads q (List.mem_of_getElem? hq) hx)
  · intro i q next hq hnext hafter
    rw [hleads q (List.mem_of_getElem? hq) _ _ hnext] at hafter
    exact .inl ((hknown i (Nat.le_of_lt (hlt hq))).2 ((hknown (i + 1) (hlt hq)).1 hafter))

end Guards

end Quadcode
