import Quadcode.Compile
import Quadcode.Folder
import Quadcode.Report

/-!
# The command line

What the arguments ask for (`Request.ofArguments?`), and what is answered once the file is read
(`Settings.respond`): an exit status and the texts on the two output streams. How a file is
read is a parameter of the whole (`Response.ofArguments`); `Folder.respond` takes the files
from a folder that is given.
-/

namespace Quadcode

/-- The result of the pipeline that is to be printed. -/
inductive Output where
  | tokens
  | program
  | listing
deriving DecidableEq, Repr

/-- The output of a given name. -/
def Output.ofName? : String → Option Output
  | "tokens" => some .tokens
  | "ast" => some .program
  | "ir" => some .listing
  | _ => none

/-- What to do with one file. -/
structure Settings where
  file : String
  output : Output := .listing
  color : Bool := true
deriving DecidableEq, Repr

/-- What the arguments ask for. -/
inductive Request where
  | version
  | help
  | compile (settings : Settings)
deriving DecidableEq, Repr

/-! ## Arguments -/

/-- What one argument is. -/
inductive Argument where
  | endOfOptions
  | version
  | help
  | noColor
  /-- The output that is asked for; if the value is missing, it is the next argument. -/
  | emit (value : Option String)
  | file (name : String)
  | unknown
deriving DecidableEq, Repr

/-- What an argument is by its text. Short options can stand together, and the
first of them decides. -/
def Argument.ofText (text : String) : Argument :=
  match text with
  | "--" => .endOfOptions
  | "--version" => .version
  | "--help" => .help
  | "--no-color" => .noColor
  | "--emit" => .emit none
  | _ =>
    let cs := text.toList
    if "--emit=".toList.isPrefixOf cs then .emit (some (String.ofList (cs.drop 7)))
    else
      match cs with
      | '-' :: 'V' :: _ => .version
      | '-' :: 'h' :: _ => .help
      | '-' :: _ :: _ => .unknown
      | _ => .file text

/-- The arguments read so far. -/
structure Arguments where
  file : Option String := none
  output : Option Output := none
  noColor : Bool := false
deriving DecidableEq, Repr

namespace Arguments

/-- Takes a file name; there is only one, and it is not empty. -/
def takeFile? (a : Arguments) (name : String) : Option Arguments :=
  if a.file.isNone ∧ name ≠ "" then some { a with file := some name } else none

/-- Takes the name of an output; there is at most one. -/
def takeOutput? (a : Arguments) (name : String) : Option Arguments :=
  if a.output.isNone then
    (Output.ofName? name).map fun output => { a with output := some output }
  else none

/-- Takes the switch that turns colours off; there is at most one. -/
def takeNoColor? (a : Arguments) : Option Arguments :=
  if a.noColor then none else some { a with noColor := true }

/-- The request, once all arguments are read; a file must be among them. -/
def request? (a : Arguments) : Option Request :=
  a.file.map fun file =>
    .compile { file, output := a.output.getD .listing, color := !a.noColor }

/-- Reads further arguments from left to right. The first one that asks for the version or for help
decides, unless one before it is refused. -/
def read? (a : Arguments) : List String → Option Request
  | [] => a.request?
  | arg :: rest =>
    match Argument.ofText arg with
    | .endOfOptions => (rest.foldlM takeFile? a).bind request?
    | .version => some .version
    | .help => some .help
    | .noColor => a.takeNoColor?.bind fun a => a.read? rest
    | .emit (some name) => (a.takeOutput? name).bind fun a => a.read? rest
    | .emit none =>
      match rest with
      | name :: rest => (a.takeOutput? name).bind fun a => a.read? rest
      | [] => none
    | .file name => (a.takeFile? name).bind fun a => a.read? rest
    | .unknown => none
termination_by structural args => args

end Arguments

/-- What the arguments ask for, if they ask for something. -/
def Request.ofArguments? (args : List String) : Option Request :=
  Arguments.read? {} args

/-! ## Answers -/

/-- The text of a file from its bytes. -/
def decodeSource (bytes : ByteArray) : Except ReadError String :=
  match String.fromUTF8? bytes with
  | some source => .ok source
  | none => .error .notText

/-- An exit status and what is written. -/
structure Response where
  exit : Nat := 0
  stdout : String := ""
  stderr : String := ""
deriving DecidableEq, Repr

/-- The name and version of the program. -/
def versionText : String :=
  "tetrad 0.1.0\n"

/-- How the program is called. -/
def usageText : String :=
  "Usage: tetrad [--emit tokens|ast|ir] [--no-color] FILE\n"

/-- The answer to arguments that ask for nothing. -/
def Response.usageError : Response :=
  { exit := 2, stderr := usageText }

namespace Settings

/-- A line of a listing as it is printed: the address in faint letters, a tab and the quad. -/
def listingLine (s : Settings) (address : Address) (q : Quad) : String :=
  Style.faint.paint s.color address.repr ++ "\t" ++ q.text ++ "\n"

/-- The text of the output that is asked for. -/
def outputText (s : Settings) (source : String) : Except Fault String := do
  let tokens ← tokensOf source
  match s.output with
  | .tokens => pure (String.join (tokens.map fun t => t.describe ++ "\n"))
  | .program => do
    let program ← checkedProgramOf tokens
    pure (String.join (program.map fun stmt => stmt.render ++ "\n"))
  | .listing => do
    let program ← checkedProgramOf tokens
    pure (String.join ((lower program).quads.mapIdx s.listingLine))

/-- The answer for a file, given its contents. -/
def respond (s : Settings) : Except ReadError String → Response
  | .error e =>
    { exit := 1
      stderr := Style.heading.paint s.color "error:" ++ " failed to read " ++ s.file ++ ": " ++
        e.message ++ "\n" }
  | .ok source =>
    match s.outputText source with
    | .ok text => { stdout := text }
    | .error fault =>
      { exit := 1, stderr := fault.report { frame := s.color, names := s.color } s.file source }

end Settings

/-- The answer to the arguments, where `read` gives the bytes of a file. -/
def Response.ofArguments [Monad m] (read : String → m (Except ReadError ByteArray))
    (args : List String) : m Response :=
  match Request.ofArguments? args with
  | none => pure .usageError
  | some .version => pure { stdout := versionText }
  | some .help => pure { stdout := usageText }
  | some (.compile settings) => do
    let contents ← read settings.file
    pure (settings.respond (contents.bind decodeSource))

/-- The answer to the arguments in a working folder. -/
def Folder.respond (f : Folder) (args : List String) : Response :=
  Id.run (Response.ofArguments (fun path => pure (f.read path)) args)

end Quadcode
