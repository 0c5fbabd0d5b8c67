/-!
# Places in a source text

A `Position` is a point in a source text, a `Span` a stretch of it. Offsets and columns count
bytes of the UTF-8 form of the text, and lines, columns and offsets start at zero. `Position.step`
is the only rule by which positions move: a line feed begins a new line, and any other character
adds its width to the column.
-/

namespace Quadcode

/-- A stretch of the source: its bytes from `start` to before `stop`, and the line
and column of `start`. -/
structure Span where
  start : Nat := 0
  stop : Nat := 0
  line : Nat := 0
  column : Nat := 0
deriving DecidableEq, Repr, Inhabited

/-- The stretch from the start of `a` to the stop of `b`. -/
def Span.upTo (a b : Span) : Span :=
  { a with stop := b.stop }

/-- Line and column, as messages name a place. -/
def Span.place (s : Span) : String :=
  s.line.repr ++ ":" ++ s.column.repr

/-- A point in the source. -/
structure Position where
  offset : Nat := 0
  line : Nat := 0
  column : Nat := 0
deriving DecidableEq, Repr, Inhabited

namespace Position

/-- The position behind the character `c` at `p`. -/
def step (p : Position) (c : Char) : Position :=
  if c = '\n' then { offset := p.offset + 1, line := p.line + 1, column := 0 }
  else { offset := p.offset + c.utf8Size, line := p.line, column := p.column + c.utf8Size }

/-- The position behind the text `cs` at `p`. -/
def advance (p : Position) (cs : List Char) : Position :=
  cs.foldl step p

/-- The stretch of the text `cs` at `p`. -/
def spanOf (p : Position) (cs : List Char) : Span :=
  { start := p.offset, stop := (p.advance cs).offset, line := p.line, column := p.column }

@[simp]
theorem advance_nil (p : Position) : p.advance [] = p :=
  rfl

@[simp]
theorem advance_cons (p : Position) (c : Char) (cs : List Char) :
    p.advance (c :: cs) = (p.step c).advance cs :=
  rfl

@[simp]
theorem advance_append (p : Position) (cs ds : List Char) :
    p.advance (cs ++ ds) = (p.advance cs).advance ds :=
  List.foldl_append

end Position

end Quadcode
