/-!
# Line ends

A file may end its lines with a carriage return, a line feed, or both. Inside the program a line
ends with a line feed.
-/

set_option autoImplicit false

namespace LuaTyping.Text

/-- A text with every line end written as one line feed. -/
def unifyLineEnds : List Char → List Char
  | [] => []
  | '\r' :: '\n' :: cs => '\n' :: unifyLineEnds cs
  | '\r' :: cs => '\n' :: unifyLineEnds cs
  | c :: cs => c :: unifyLineEnds cs

end LuaTyping.Text
