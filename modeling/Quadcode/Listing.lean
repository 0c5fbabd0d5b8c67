import Quadcode.Quad

/-!
# Listings

A listing is a finished sequence of quads, numbered from zero. `validate` looks for the first jump
that leads nowhere: one whose target is unresolved, or lies past the end of the listing. The address
right behind the last quad is a target too; a jump there ends the program.
-/

namespace Quadcode

/-- What is wrong with a jump. -/
inductive JumpError where
  | unpatched (address : Address)
  | notOpen (address : Address)
  | alreadyPatched (address : Address)
  | outOfRange (address target : Address) (size : Nat)
deriving DecidableEq, Repr

/-- What is wrong, in words. -/
def JumpError.message : JumpError → String
  | .unpatched address => "jump at " ++ address.repr ++ " was never backpatched"
  | .notOpen address => "quaternion at " ++ address.repr ++ " is not a pending jump"
  | .alreadyPatched address => "jump at " ++ address.repr ++ " was already backpatched"
  | .outOfRange address target size =>
    "jump at " ++ address.repr ++ " targets " ++ target.repr ++ ", outside 0..=" ++ size.repr

/-- What is wrong with a quad at `address` among `size` quads. -/
def Quad.fault? (size : Nat) (address : Address) (q : Quad) : Option JumpError :=
  match q.target? with
  | some .unresolved => some (.unpatched address)
  | some (.to target) => if size < target then some (.outOfRange address target size) else none
  | none => none

/-- Fails at the first quad with which something is wrong. -/
def validate (quads : List Quad) : Except JumpError Unit :=
  match quads.zipIdx.findSome? fun (q, address) => q.fault? quads.length address with
  | some e => .error e
  | none => .ok ()

/-- A finished sequence of quads. -/
structure Listing where
  quads : List Quad := []
deriving DecidableEq, Repr

namespace Listing

/-- How many quads there are. -/
def size (l : Listing) : Nat :=
  l.quads.length

/-- The text of a listing, a line for each quad: its address as `number` writes
it, a tab and the quad. -/
def textWith (number : Address → String) (l : Listing) : String :=
  String.join (l.quads.zipIdx.map fun (q, address) => number address ++ "\t" ++ q.text ++ "\n")

/-- The text of a listing. -/
def text (l : Listing) : String :=
  l.textWith Nat.repr

end Listing

end Quadcode
