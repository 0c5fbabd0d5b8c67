import Quadcode.Builder.Lowering

/-!
# Several builders at once

A workshop holds builders and the handles that they have given out, both numbered from zero in the
order in which they were made. A handle may be used on any builder. Finishing a builder takes it out
of the workshop, and so each later step on it is refused.
-/

namespace Quadcode

/-- The builders, `none` where one is finished, and the handles given out. -/
structure Workshop where
  builders : List (Option Builder) := [some {}]
  handles : List OpenJump := []
deriving Repr

namespace Workshop

/-- Something that can be done with one builder. -/
inductive Action where
  | address
  | emit (q : Quad)
  | reserve (q : Quad)
  | patch (handle : Nat) (target : Target)
  | lower (program : List Stmt)
  | finish
deriving Repr

/-- One thing that can be done in a workshop. -/
inductive Step where
  | newBuilder
  | act (builder : Nat) (action : Action)
deriving Repr

/-- What a step tells. -/
inductive Reply where
  | builder (number : Nat)
  | address (next : Address)
  | emitted (address next : Address)
  | reserved (handle : Nat) (address next : Address)
  | listing (l : Listing)
  | failed (e : JumpError)
  | noBuilder
  | noHandle
deriving Repr

/-- The workshop with the builder of the given number replaced. -/
def put (w : Workshop) (number : Nat) (b : Builder) : Workshop :=
  { w with builders := w.builders.set number (some b) }

/-- Runs an action on the builder `b` of the given number; `reply` says what its result and
the next address tell. -/
def run (w : Workshop) (number : Nat) (b : Builder) (action : Build α)
    (reply : α → Address → Reply) : Reply × Workshop :=
  match action b with
  | .ok a b' => (reply a b'.address, w.put number b')
  | .error e b' => (.failed e, w.put number b')

/-- Does an action with the builder `b` of the given number. -/
def act (w : Workshop) (number : Nat) (b : Builder) : Action → Reply × Workshop
  | .address => (.address b.address, w)
  | .emit q => w.run number b (Builder.emit q) .emitted
  | .reserve q =>
    match Builder.reserve q b with
    | .ok jump b' =>
      (.reserved w.handles.length jump.address b'.address,
        { w.put number b' with handles := w.handles ++ [jump] })
    | .error e b' => (.failed e, w.put number b')
  | .patch handle target =>
    match w.handles[handle]? with
    | none => (.noHandle, w)
    | some jump => w.run number b (Builder.patch jump target) fun _ => .address
  | .lower program => w.run number b (Builder.lowerAll program) fun _ => .address
  | .finish =>
    let reply := match b.finish with
      | .ok l => .listing l
      | .error e => .failed e
    (reply, { w with builders := w.builders.set number none })

/-- Does one step. -/
def perform (w : Workshop) : Step → Reply × Workshop
  | .newBuilder => (.builder w.builders.length, { w with builders := w.builders ++ [some {}] })
  | .act number action =>
    match w.builders[number]? with
    | some (some b) => w.act number b action
    | _ => (.noBuilder, w)

end Workshop

end Quadcode
