import LuaTyping.Types.Fault

/-!
# Letters for type variables

When types are shown, their variables are given letters in the order in which they are first shown.
The letters last: a variable keeps its letter for all later texts. When the letters are used up,
a further variable is shown by its own name.

## Main definitions

* `Letters` — the letters given so far.
* `Naming` — computations that may give letters or end in a fault; letters given before
  a fault stay given.
-/

set_option autoImplicit false

namespace LuaTyping

/-- The letters given to variables so far, in the order in which they were given. -/
abbrev Letters := List (String × Char)

/-- The letters in the order in which they are given. -/
def alphabet : List Char := "abcdefghijklmnopqrstuvwyxz".toList

/-- A computation that may show types, and so give letters to variables. -/
abbrev Naming := ExceptT Fault (StateM Letters)

namespace Letters

/-- The text of a variable, and the letters given after it was shown. -/
def give (letters : Letters) (x : String) : String × Letters :=
  match letters.lookup x with
  | some c => ("'" ++ String.singleton c, letters)
  | none =>
    match alphabet.drop letters.length with
    | [] => ("'" ++ x, letters)
    | c :: _ => ("'" ++ String.singleton c, letters ++ [(x, c)])

end Letters

namespace Naming

/-- A computation that shows nothing. -/
def ofExcept {α : Type} (r : Except Fault α) : Naming α := fun letters => (r, letters)

/-- The text of a variable. -/
def showVar (x : String) : Naming String := fun letters =>
  let (text, letters) := Letters.give letters x
  (.ok text, letters)

end Naming

end LuaTyping
