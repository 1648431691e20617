import LuaTyping.Command

/-!
# The command line

Reads the file that the command is given, runs the command, prints what it says and exits with its
code.
-/

set_option autoImplicit false

namespace LuaTyping.Command

/-- What is printed when the command cannot finish its work. -/
def Failure.text : Failure → String
  | .noFileNamed => "no file is given"
  | .fileMissing => "the file cannot be read"
  | .syntaxError (.unexpectedCharacter line column) => s!"unexpected character at {line}:{column}"
  | .syntaxError .unexpectedEnd => "unexpected end of the text"
  | .fault f letters =>
    match (f.message.run letters).1 with
    | .ok (some m) => s!"the check cannot go on: {m}"
    | _ => "the check cannot go on"

/-- What a file holds, if it can be read. -/
def readFile? (file : String) : IO (Option String) := do
  try
    return some (← IO.FS.readFile file)
  catch _ =>
    return none

/-- Checks the program file named in the arguments. -/
def execute (args : List String) : IO UInt32 := do
  let contents ← match (Options.ofArgs args).file with
    | none => pure none
    | some file => readFile? file
  let outcome := run args fun _ => contents
  (← IO.getStdout).putStr outcome.output
  match outcome.ending with
  | .ok code => return code.toUInt32
  | .error f =>
    IO.eprintln f.text
    return 1

end LuaTyping.Command

/-- The program. -/
def main (args : List String) : IO UInt32 := LuaTyping.Command.execute args
