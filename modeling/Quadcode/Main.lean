import Quadcode.CommandLine

/-!
# The program

Reads the arguments and the file, and prints the answer.
-/

namespace Quadcode

/-- The number of a system error, which is given with either sign. -/
def errorNumber (code : UInt32) : UInt32 :=
  min code (-code)

/-- The error of the system as the reason why a file is not read. -/
def ReadError.ofSystem (e : IO.Error) : ReadError :=
  match e with
  | .noFileOrDirectory _ _ _ => .missing
  | .inappropriateType _ code _ | .invalidArgument _ code _ =>
    match errorNumber code with
    | 20 => .notFolder
    | 21 => .isFolder
    | 36 => .nameTooLong
    | _ => .other (toString e)
  | _ => .other (toString e)

/-- The bytes of a file. -/
def readBytes (file : String) : IO (Except ReadError ByteArray) := do
  try
    return .ok (← IO.FS.readBinFile file)
  catch e =>
    return .error (.ofSystem e)

end Quadcode

/-- Prints the answer to the arguments and gives its exit status. -/
def main (args : List String) : IO UInt32 := do
  let response ← Quadcode.Response.ofArguments Quadcode.readBytes args
  IO.print response.stdout
  IO.eprint response.stderr
  return response.exit.toUInt32
