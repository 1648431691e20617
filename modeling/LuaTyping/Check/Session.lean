import LuaTyping.Check.Scopes
import LuaTyping.Types.Instantiate
import LuaTyping.Types.Join

/-!
# Sessions

Checking a program changes a session: the letters and the fresh variables used so far, the names
that are bound, the names that are about to be, and what was printed. Checking stops at the first
report about the program, or at a fault; what the session has become by then stays.

## Main definitions

* `Session` — the state of a check.
* `Stop` — why a check stops.
* `Check` — computations that check something.
* `Check.inScope` — a computation in a scope of its own.
-/

set_option autoImplicit false

namespace LuaTyping

/-- The state of a check. -/
structure Session where
  letters : Letters
  supply : Supply
  scopes : Scopes
  /-- The names that have been assigned to so far, in order; a use of one that is not bound is taken
  for a recursive call. -/
  pending : List String
  /-- The text printed so far. -/
  printed : String

namespace Session

/-- The type scheme of a function that takes anything and gives a string. -/
def describing (x : String) : Ty :=
  .all x (.function (.tuple [.var x]) (.tuple [.string]) .nil none)

/-- The global names that every program starts with. -/
def library : List (String × Ty) :=
  [("tostring", describing "t1"),
   ("type", describing "t2"),
   ("print", .all "t3" (.function (.tuple []) (.tuple [.string]) (.var "t3") (some (.flag true))))]

/-- The session that a program starts with; the library has taken three variables. -/
def initial : Session :=
  { letters := []
    supply := ⟨3, []⟩
    scopes := ⟨[[]], library⟩
    pending := []
    printed := "" }

/-- The session for a further program: the local names and what was printed are gone. -/
def next (s : Session) : Session :=
  { s with scopes := { s.scopes with frames := [[]] }, pending := [], printed := "" }

end Session

/-- Why a check stops. -/
inductive Stop where
  /-- The program has an error at a place. -/
  | report (location : Location) (message : String)
  /-- The check cannot go on. -/
  | fault (f : Fault)

/-- A computation that checks something. The session survives a stop. -/
abbrev Check := ExceptT Stop (StateM Session)

namespace Check

/-- Reports an error in the program. -/
def report {α : Type} (l : Location) (message : String) : Check α := throw (.report l message)

/-- Stops with a fault. -/
def fault {α : Type} (f : Fault) : Check α := throw (.fault f)

/-- The outcome of a computation that may end in a fault. -/
def ofExcept {α : Type} : Except Fault α → Check α
  | .ok a => pure a
  | .error f => fault f

/-- Runs a computation that may give letters to variables. -/
def naming {α : Type} (x : Naming α) : Check α := fun s =>
  let (r, letters) := x s.letters
  (r.mapError .fault, { s with letters })

/-- A fresh type variable. -/
def fresh : Check Ty := fun s =>
  let (t, supply) := s.supply.fresh
  (.ok t, { s with supply })

/-- An instance of a type scheme. -/
def instantiate (t : Ty) : Check Ty := fun s =>
  let (u, supply) := t.instantiate s.supply
  (.ok u, { s with supply })

/-- A type quantified over the variables that are free in no type of a local name. -/
def generalize (t : Ty) : Check Ty := do return t.generalize (← get).scopes.freeVars

/-- The scopes at this point. -/
def scopes : Check Scopes := do return (← get).scopes

/-- Binds a local name. -/
def bind (x : String) (t : Ty) : Check Unit :=
  modify fun s => { s with scopes := s.scopes.bind x t }

/-- Runs a computation in a scope of its own, which is closed however the computation ends. -/
def inScope {α : Type} (x : Check α) : Check α := fun s =>
  let (r, s) := x { s with scopes := s.scopes.push }
  (r, { s with scopes := s.scopes.pop })

/-- The composition of two substitutions. -/
def compose (s t : Subst) : Check Subst := naming (s.compose t)

/-- Applies a substitution. -/
def apply (s : Subst) (t : Ty) : Check Ty := ofExcept (s.apply t)

/-- Unifies two types, and reports at a place if they do not unify. -/
def unifyAt (l : Location) (a b : Ty) : Check (Subst × Unified) := do
  let u ← naming (unify a b)
  match u.outcome with
  | .ok s => return (s, u)
  | .error m => report l m

/-- Unifies two types; no substitution if they do not unify. -/
def unifyOrNot (a b : Ty) : Check (Subst × Unified) := do
  let u ← naming (unify a b)
  match u.outcome with
  | .ok s => return (s, u)
  | .error _ => return (.empty, u)

/-- A member of a list that has to be there. -/
def member {α : Type} (l : List α) (k : Nat) : Check α :=
  match l[k]? with
  | some a => pure a
  | none => fault .outOfRange

end Check

/-- What is inferred of a syntax tree: what its variables stand for, and its type. -/
structure Inferred where
  subst : Subst
  type : Ty

/-- An operation that infers the type of a syntax tree. -/
abbrev Inference := Node → Check Inferred

end LuaTyping
