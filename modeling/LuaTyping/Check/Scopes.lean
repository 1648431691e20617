import LuaTyping.Types.Basic

/-!
# Scopes

The names that are bound at a place of a program: local ones in nested frames, the innermost first,
and global ones. A name that is assigned to without being local becomes local and global at once,
and both have one type: a change of the table that one of them names is a change of the other's.

That is the only sharing there is: otherwise types are values. A change of a table that a name has
reaches no other occurrence of the table: not in the checks that a boolean type holds (where tables
are shared objects, narrowing a name also changes the type that a stored check wants), and not at a
second place of the scopes. Theorems are about scopes in which no other table is shared.

## Main definitions

* `Scopes` — the bindings.
* `Scopes.local?`, `Scopes.global?` — the type of a name.
* `Scopes.bind`, `Scopes.bindGlobal` — new bindings.
* `Scopes.update` — a change of the type of a local name where it is bound.
* `Scopes.locals` — the local names that can be seen, with their types.
-/

set_option autoImplicit false

namespace LuaTyping

/-- What a local name is bound to: a type of its own, or the type of the global name. -/
inductive Binding where
  | own (type : Ty)
  | shared

/-- The local names that one block of a program binds. -/
abbrev Frame := List (String × Binding)

/-- The names that are bound at a place of a program. -/
structure Scopes where
  frames : List Frame
  globals : List (String × Ty)

/-- Enters a value under a name, in place of an earlier one. -/
def enterName {α : Type} (x : String) (a : α) : List (String × α) → List (String × α)
  | [] => [(x, a)]
  | (y, b) :: rest => if y == x then (y, a) :: rest else (y, b) :: enterName x a rest

namespace Scopes

/-- The type of a global name. -/
def global? (s : Scopes) (x : String) : Option Ty := s.globals.lookup x

/-- The innermost binding of a local name. -/
def binding? (s : Scopes) (x : String) : Option Binding := s.frames.findSome? (·.lookup x)

/-- The type that a binding of a name stands for. -/
def resolve (s : Scopes) (x : String) : Binding → Option Ty
  | .own t => some t
  | .shared => s.global? x

/-- The type of a local name. -/
def local? (s : Scopes) (x : String) : Option Ty := (s.binding? x).bind (s.resolve x)

/-- Whether a name is local. -/
def isLocal (s : Scopes) (x : String) : Bool := (s.local? x).isSome

/-- Enters a binding into the innermost frame. -/
def enter (s : Scopes) (x : String) (b : Binding) : Scopes :=
  match s.frames with
  | [] => { s with frames := [[(x, b)]] }
  | frame :: rest => { s with frames := enterName x b frame :: rest }

/-- Binds a local name in the innermost frame. -/
def bind (s : Scopes) (x : String) (t : Ty) : Scopes := s.enter x (.own t)

/-- Binds a name that is local in the innermost frame and global, with one type. -/
def bindGlobal (s : Scopes) (x : String) (t : Ty) : Scopes :=
  { s.enter x .shared with globals := enterName x t s.globals }

/-- Changes the type of a local name in the innermost frame that binds it. -/
def updateFrames (x : String) (t : Ty) : List Frame → List Frame
  | [] => []
  | frame :: rest =>
    if (frame.lookup x).isSome then enterName x (.own t) frame :: rest
    else frame :: updateFrames x t rest

/-- Changes the type of a local name where it is bound: in its frame, or in the global scope if it
shares its type with the global name. -/
def update (s : Scopes) (x : String) (t : Ty) : Scopes :=
  match s.binding? x with
  | none => s
  | some (.own _) => { s with frames := updateFrames x t s.frames }
  | some .shared => { s with globals := enterName x t s.globals }

/-- Opens an empty frame. -/
def push (s : Scopes) : Scopes := { s with frames := [] :: s.frames }

/-- Closes the innermost frame. -/
def pop (s : Scopes) : Scopes := { s with frames := s.frames.drop 1 }

/-- The local names that can be seen, each once, with their types. -/
def locals (s : Scopes) : List (String × Ty) :=
  let names := (s.frames.flatMap fun frame => frame.map Prod.fst).eraseDups
  names.filterMap fun x => (s.local? x).map fun t => (x, t)

/-- The variables that are free in the types of the local names. -/
def freeVars (s : Scopes) : List String := s.locals.flatMap fun (_, t) => t.freeVars

end Scopes

end LuaTyping
