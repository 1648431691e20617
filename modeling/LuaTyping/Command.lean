import LuaTyping.Check.Report
import LuaTyping.Grammar.Parse
import LuaTyping.Text.Lines

/-!
# The command

The command checks one program file. Its arguments are the file's name and `--debug`, in any order;
of several names the last one counts. It prints the first error, or that there is none, or with
`--debug` the type of what the program returns.

## Main definitions

* `Command.Options` — the arguments.
* `Command.check` — the check of a program text.
* `Command.run` — the whole command, given what a file holds.
-/

set_option autoImplicit false

namespace LuaTyping.Command

/-- The arguments of the command. -/
structure Options where
  file : Option String
  debug : Bool

/-- Reads the arguments. -/
def Options.ofArgs (args : List String) : Options :=
  args.foldl
    (fun o a => if a == "--debug" then { o with debug := true } else { o with file := some a })
    ⟨none, false⟩

/-- Why the command cannot finish its work. -/
inductive Failure where
  | noFileNamed
  | fileMissing
  | syntaxError (e : SyntaxError)
  | fault (f : Fault) (letters : Letters)

/-- How the command ends: with an exit code or a failure. -/
structure Outcome where
  ending : Except Failure Nat
  output : String

/-- Checks a program text of the given name. -/
def check (file : String) (debug : Bool) (text : String) : Outcome :=
  match parse file text with
  | .error e => ⟨.error (.syntaxError e), ""⟩
  | .ok program =>
    let shown : Check String := do
      let i ← Check.infer program
      if debug then Check.naming i.type.render else return s!"No issues found in {file}"
    let (r, s) := shown.run Session.initial
    match r with
    | .ok line => ⟨.ok 0, s.printed ++ line ++ "\n"⟩
    | .error (.report l m) => ⟨.ok 1, s.printed ++ s!"{l.text}: {m}\n"⟩
    | .error (.fault f) => ⟨.error (.fault f s.letters), s.printed⟩

/-- Runs the command with the given arguments; `contents` says what a file holds. -/
def run (args : List String) (contents : String → Option String) : Outcome :=
  let o := Options.ofArgs args
  match o.file with
  | none => ⟨.error .noFileNamed, ""⟩
  | some file =>
    match contents file with
    | none => ⟨.error .fileMissing, ""⟩
    | some text => check file o.debug (String.ofList (Text.unifyLineEnds text.toList))

end LuaTyping.Command
