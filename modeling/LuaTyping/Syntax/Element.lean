/-!
# Places of parts of a text

A part of a text that has been read is a lexeme or a tree of parts. A tree that does not say itself
where it stands is where its first part is.

## Main definitions

* `Element` — a part of a text, or something that is none.
* `Element.place` — where a part stands.
-/

set_option autoImplicit false

namespace LuaTyping

/-- A part of a text, or something that is none, by the way it is shown. -/
inductive Element where
  | lexeme (text : String) (line column : Option Int)
  | tree (parts : List Element) (place : Option (Int × Option Int))
  | foreign (shown : String)

/-- Why something has no place. -/
inductive PlaceError where
  /-- A lexeme does not say where it stands. -/
  | unplaced
  /-- A tree that does not say where it stands has no parts. -/
  | noParts
  /-- What was asked for is no part of a text. -/
  | foreign (shown : String)

namespace PlaceError

/-- What is said about a missing place. -/
def message : PlaceError → String
  | unplaced => ""
  | noParts => "list index out of range"
  | foreign shown => s!"get_loc: Argument must be either a Token or a Tree, got {shown}"

end PlaceError

namespace Element

/-- A column as it is shown. -/
def columnText : Option Int → String
  | some c => toString c
  | none => "None"

/-- Where a part of a file stands. -/
def place (file : String) : Element → Except PlaceError String
  | .lexeme _ (some l) (some c) => .ok s!"{file}:{l}:{c}"
  | .lexeme _ _ _ => .error .unplaced
  | .tree _ (some (l, c)) => .ok s!"{file}:{l}:{columnText c}"
  | .tree [] none => .error .noParts
  | .tree (e :: _) none => e.place file
  | .foreign shown => .error (.foreign shown)

end Element

end LuaTyping
