/-!
# Coloured text

Terminal escapes around a text, and phrases in which some pieces stand out. Whether colours are used
is decided only when a phrase is written.
-/

namespace Quadcode

/-- The ways in which a text can be shown, each by its terminal code. -/
inductive Style where
  | failure
  | heading
  | margin
  | rule
  | source
  | note
  | name
  | faint
deriving DecidableEq, Repr

/-- The terminal code of a style. -/
def Style.code : Style → String
  | .failure => "31"
  | .heading => "1;31"
  | .margin => "38;5;246"
  | .rule => "38;5;240"
  | .source => "38;5;249"
  | .note => "38;5;115"
  | .name => "33"
  | .faint => "2"

/-- The text in a style, or bare if colours are off. -/
def Style.paint (style : Style) (color : Bool) (text : String) : String :=
  if color then "\x1b[" ++ style.code ++ "m" ++ text ++ "\x1b[0m" else text

/-- A piece of a phrase. -/
inductive Piece where
  | plain (text : String)
  | name (text : String)
deriving DecidableEq, Repr

/-- A piece, with names standing out if colours are on. -/
def Piece.render (color : Bool) : Piece → String
  | .plain text => text
  | .name text => Style.name.paint color text

/-- A text of which some pieces stand out. -/
abbrev Phrase := List Piece

/-- The text of a phrase. -/
def Phrase.render (color : Bool) (phrase : Phrase) : String :=
  String.join (phrase.map (Piece.render color))

end Quadcode
