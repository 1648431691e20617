import LuaTyping.Grammar.Derivation

/-!
# Reading a program text

A text is read as a chunk if the grammar has a derivation of it. Otherwise the place up to which it
can be read at all is in error: a character that nothing can go on with, or the end of the text.

## Main definitions

* `SyntaxError` — why a text cannot be read.
* `parse` — the syntax tree of a program text.
-/

set_option autoImplicit false

namespace LuaTyping

/-- Why a text cannot be read. -/
inductive SyntaxError where
  /-- The text cannot go on with the character at this place. -/
  | unexpectedCharacter (line column : Nat)
  /-- The text ends too early. -/
  | unexpectedEnd
  deriving DecidableEq, Repr

/-- The place up to which the text belongs to the program: blanks at its end do not. -/
def programEnd (chart : Array Column) (size : Nat) : Option Nat :=
  (List.range (size + 1)).reverse.find? fun stop => Chart.has chart stop ⟨.program, 0, 1, 0⟩

/-- The syntax tree of a program text in a file of the given name. -/
def parse (file : String) (text : String) : Except SyntaxError Node :=
  let cs := text.toList
  let size := cs.length
  let chart := Chart.ofText cs
  let suffixes := (List.range (size + 1)).map cs.drop |>.toArray
  let suffix := fun place => (suffixes[place]?).getD []
  if chart.reach < size then
    let (line, column) := lineColumn 1 1 cs chart.reach
    .error (.unexpectedCharacter line column)
  else
    let tree := do
      let stop ← programEnd chart.columns size
      if (skipBlanks stop (suffix stop)).1 = size then
        let d ← Chart.derivation? suffix chart.columns (60 * (size + 1)) .program 0 stop
        match ← d.piece? file cs with
        | .node n => some n
        | _ => none
      else none
    match tree with
    | some n => .ok n
    | none => .error .unexpectedEnd

end LuaTyping
