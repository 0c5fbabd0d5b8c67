import Quadcode.Listing

/-!
# Building listings

A `Builder` collects quads. A jump whose target is not known yet is emitted open
(`Builder.reserve`), and its target is filled in later, once (`Builder.patch`). The builder
remembers which jumps are pending, in the order of their addresses, and does not give out the
listing before none is left (`Builder.finish`).

The operations are actions on the builder that may fail; what they leave behind is
the builder also then.
-/

namespace Quadcode

/-- The quads so far, how many temporaries they use, and the addresses of the pending jumps. -/
structure Builder where
  quads : List Quad := []
  temps : Nat := 0
  pending : List Address := []
deriving DecidableEq, Repr, Inhabited

/-- A handle to a jump that was emitted open. It is the address of the jump and nothing else. -/
structure OpenJump where
  address : Address
deriving DecidableEq, Repr

/-- An action on a builder. -/
abbrev Build := EStateM JumpError Builder

namespace Builder

/-- The address of the next quad. -/
def address (b : Builder) : Address :=
  b.quads.length

/-- The address of the next quad. -/
def here : Build Address := fun b =>
  .ok b.address b

/-- Appends a quad and gives its address. -/
def emit (q : Quad) : Build Address := fun b =>
  .ok b.address { b with quads := b.quads ++ [q] }

/-- Gives a temporary that has not been used. -/
def freshTemp : Build Operand := fun b =>
  .ok (.temp b.temps) { b with temps := b.temps + 1 }

/-- Appends a jump whose target is unresolved and gives a handle to it. Fails for any other quad. -/
def reserve (q : Quad) : Build OpenJump := fun b =>
  if q.target? = some .unresolved then
    .ok { address := b.address }
      { b with quads := b.quads ++ [q], pending := b.pending ++ [b.address] }
  else .error (.notOpen b.address) b

/-- Fills in the target of a pending jump, which is then pending no more. Its address is struck off
first, also if no jump is found there. -/
def patch (jump : OpenJump) (target : Target) : Build Unit := fun b =>
  if jump.address ∈ b.pending then
    let struck := { b with pending := b.pending.erase jump.address }
    match b.quads[jump.address]? with
    | some (.jump test _) =>
      .ok () { struck with quads := b.quads.set jump.address (.jump test target) }
    | _ => .error (.notOpen jump.address) struck
  else .error (.alreadyPatched jump.address) b

/-- The listing of all quads. Fails at the first pending jump, and then at the first
jump that leads nowhere. -/
def finish (b : Builder) : Except JumpError Listing :=
  match b.pending with
  | address :: _ => .error (.unpatched address)
  | [] => (validate b.quads).map fun _ => { quads := b.quads }

end Builder

end Quadcode
