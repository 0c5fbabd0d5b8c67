import Quadcode.Fault

/-!
# Reports

A report shows a fault in its source: the fault's code and message, the place, the line
with the faulty stretch underlined, the label under it on an arrow from its middle, and the
note, all inside a frame.

The source is taken to be plain text, in which a character is a byte wide, and the stretch to lie on
one line. A tab is as wide as it takes to reach a column that is a multiple of four.
-/

namespace Quadcode

/-- Which parts of a report are coloured. -/
structure Palette where
  /-- Headline, frame and source line. -/
  frame : Bool
  /-- Names in the label and the note. -/
  names : Bool
deriving DecidableEq, Repr

/-- The line of a source that a report shows. -/
structure Excerpt where
  /-- The number of the line, from zero. -/
  line : Nat
  /-- How many characters come before the line. -/
  offset : Nat
  /-- The line without blanks at its end. -/
  text : List Char
deriving DecidableEq, Repr

namespace Excerpt

/-- The line that holds the character number `offset`. -/
def ofOffset (source : List Char) (offset : Nat) : Excerpt :=
  let before := source.take offset
  let left := (before.reverse.takeWhile (· ≠ '\n')).reverse
  let right := (source.drop offset).takeWhile (· ≠ '\n')
  { line := before.count '\n'
    offset := offset - left.length
    text := ((left ++ right).reverse.dropWhile Char.isWhitespace).reverse }

/-- The width of the column `c`. -/
def width (e : Excerpt) (c : Nat) : Nat :=
  if e.text[c]? = some '\t' then 4 - c % 4 else 1

/-- The first `count` columns, each drawn as its head and as many tails as its
width leaves room for. -/
def draw (e : Excerpt) (count : Nat) (column : Nat → String × String) : String :=
  String.join ((List.range count).map fun c =>
    (column c).1 ++ String.join (List.replicate (e.width c - 1) (column c).2))

end Excerpt

/-- `count` blanks. -/
def blanks (count : Nat) : String :=
  String.ofList (List.replicate count ' ')

/-- A fault with all that is needed to show it. -/
structure Report where
  fault : Fault
  palette : Palette
  file : String
  excerpt : Excerpt
deriving DecidableEq, Repr

namespace Report

/-- Text of the drawing in a style. -/
def paint (r : Report) (style : Style) (text : String) : String :=
  style.paint r.palette.frame text

/-- The column where the faulty stretch begins. -/
def first (r : Report) : Nat :=
  r.fault.span.start - r.excerpt.offset

/-- The column behind the faulty stretch. -/
def last (r : Report) : Nat :=
  r.fault.span.stop - r.excerpt.offset

/-- The column from which the arrow to the label starts. -/
def middle (r : Report) : Nat :=
  (r.first + r.last) / 2

/-- The column belongs to the faulty stretch. -/
def isFaulty (r : Report) (c : Nat) : Bool :=
  r.first ≤ c ∧ c < r.last

/-- The number of the line, from one. -/
def number (r : Report) : String :=
  (r.excerpt.line + 1).repr

/-- What stands in front of a line of the frame. -/
def indent (r : Report) : String :=
  blanks (r.number.length + 2)

/-- What stands in front of a line below the source line. -/
def margin (r : Report) : String :=
  " " ++ r.paint .rule (blanks (r.number.length + 1) ++ "│") ++ " "

/-- Code and message of the fault. -/
def headline (r : Report) : String :=
  r.paint .failure ("[" ++ r.fault.code ++ "] Error:") ++ " " ++ r.fault.message

/-- The upper edge of the frame, with the place of the fault. -/
def place (r : Report) : String :=
  r.indent ++ r.paint .margin "╭" ++ r.paint .margin "─" ++ r.paint .margin "[" ++ " " ++
    r.file ++ ":" ++ r.number ++ ":" ++ (r.first + 1).repr ++ " " ++ r.paint .margin "]"

/-- A column of the source line. -/
def sourceColumn (r : Report) (c : Nat) : String × String :=
  let style : Style := if r.isFaulty c then .failure else .source
  let shown := match r.excerpt.text[c]? with
    | some '\t' => " "
    | some char => String.singleton char
    | none => ""
  (r.paint style shown, r.paint style " ")

/-- The source line, with the faulty stretch in its own colour. -/
def sourceLine (r : Report) : String :=
  " " ++ r.paint .margin (r.number ++ " │") ++ " " ++
    r.excerpt.draw r.excerpt.text.length r.sourceColumn

/-- A column of the line that underlines the faulty stretch; an empty
stretch shows only its arrow. -/
def underlineColumn (r : Report) (c : Nat) : String × String :=
  if r.isFaulty c then (r.paint .failure (if c = r.middle then "┬" else "─"), r.paint .failure "─")
  else if c = r.middle then (r.paint .failure "│", r.paint .failure " ")
  else (" ", " ")

/-- A column of the line with the arrow to the label. -/
def arrowColumn (r : Report) (c : Nat) : String × String :=
  if c = r.middle then (r.paint .failure "╰", r.paint .failure "─")
  else if r.middle < c then (r.paint .failure "─", r.paint .failure "─")
  else (" ", " ")

/-- The label on its arrow. -/
def labelLine (r : Report) : String :=
  r.margin ++ r.excerpt.draw (r.last + 2) r.arrowColumn ++ " " ++
    Phrase.render r.palette.names r.fault.label

/-- The note, if the fault has one, below an empty line. -/
def noteLines (r : Report) : List String :=
  match r.fault.note? with
  | some note =>
    [r.margin, r.margin ++ r.paint .note "Note" ++ ": " ++ Phrase.render r.palette.names note]
  | none => []

/-- The lower edge of the frame. -/
def foot (r : Report) : String :=
  r.paint .margin (String.join (List.replicate (r.number.length + 2) "─") ++ "╯")

/-- The lines of a report. -/
def lines (r : Report) : List String :=
  [r.headline, r.place, r.indent ++ r.paint .margin "│", r.sourceLine,
    r.margin ++ r.excerpt.draw (r.last + 2) r.underlineColumn, r.labelLine] ++
    r.noteLines ++ [r.foot]

/-- The text of a report. -/
def text (r : Report) : String :=
  String.join (r.lines.map fun line => line ++ "\n")

end Report

/-- The report of a fault in a source that is called `file`. -/
def Fault.report (fault : Fault) (palette : Palette) (file source : String) : String :=
  Report.text { fault, palette, file, excerpt := Excerpt.ofOffset source.toList fault.span.start }

end Quadcode
