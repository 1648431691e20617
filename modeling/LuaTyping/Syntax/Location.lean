/-!
# Places in a program text

A place is a file with a line and a column, both counted from one. Things that stand nowhere in the
text, such as an empty chunk, are given the line and column zero.
-/

set_option autoImplicit false

namespace LuaTyping

/-- A place in a program text. -/
structure Location where
  file : String
  line : Nat
  column : Nat
  deriving DecidableEq, Repr, Inhabited

namespace Location

/-- The place of what stands nowhere in a file's text. -/
def nowhere (file : String) : Location := ⟨file, 0, 0⟩

/-- A place as it is shown in reports. -/
def text (l : Location) : String := s!"{l.file}:{l.line}:{l.column}"

end Location

end LuaTyping
