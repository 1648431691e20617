import LuaTyping.Types.Fault

/-!
# Substitutions

A substitution binds type variables to types and says whether the code that it came from has
returned. Applying one follows bindings until no bound variable is left. A binding chain longer than
the number of bindings goes round in a circle, so the application stops there with the fault
`endless`.

Keys of tables are not changed by a substitution.

## Main definitions

* `Subst` — substitutions, with their bindings in order of entry.
* `Subst.apply` — the application to a type.
* `Subst.applyScheme` — the application below the quantifiers of a type scheme.
* `Subst.override` — composition in which later bindings replace earlier ones.
-/

set_option autoImplicit false

namespace LuaTyping

namespace Ty

mutual

/-- Replaces the variables of a type, except in the keys of tables. -/
def replaceVars (f : String → Except Fault Ty) : Ty → Except Fault Ty
  | .var x => f x
  | .con c args v checks => do return .con c (← replaceVarsList f args) v checks
  | .table fields => do return .table (← replaceVarsFields f fields)
  | .union left right => do return .union (← left.replaceVars f) (← right.replaceVars f)
  | .all x body => .error (.unknownType (.all x body))

/-- Replaces the variables of some types. -/
def replaceVarsList (f : String → Except Fault Ty) : List Ty → Except Fault (List Ty)
  | [] => .ok []
  | t :: ts => do return (← t.replaceVars f) :: (← replaceVarsList f ts)

/-- Replaces the variables of the values of some fields. -/
def replaceVarsFields (f : String → Except Fault Ty) :
    List (Ty × Ty) → Except Fault (List (Ty × Ty))
  | [] => .ok []
  | (k, v) :: rest => do return (k, ← v.replaceVars f) :: (← replaceVarsFields f rest)

end

end Ty

/-- A substitution. -/
structure Subst where
  bindings : List (String × Ty)
  returning : Bool := false

namespace Subst

/-- The substitution that binds nothing. -/
def empty : Subst := ⟨[], false⟩

/-- The substitution that binds one variable. -/
def single (x : String) (t : Ty) : Subst := ⟨[(x, t)], false⟩

/-- The type that a variable is bound to. -/
def find? (s : Subst) (x : String) : Option Ty := s.bindings.lookup x

/-- Enters a binding into a list: in place of the one for the same variable, else at the end. -/
def enter (x : String) (t : Ty) : List (String × Ty) → List (String × Ty)
  | [] => [(x, t)]
  | (y, u) :: rest => if y == x then (y, t) :: rest else (y, u) :: enter x t rest

/-- Follows the bindings of the variables of a type, at most `depth` of them in a row. They are
followed from the type `origin`. -/
def follow (bindings : List (String × Ty)) (origin : Ty) : Nat → Ty → Except Fault Ty
  | 0, t => t.replaceVars fun x =>
    match bindings.lookup x with
    | none => .ok (.var x)
    | some _ => .error (.endless (c := .bindings bindings origin))
  | depth + 1, t => t.replaceVars fun x =>
    match bindings.lookup x with
    | none => .ok (.var x)
    | some u => follow bindings origin depth u

/-- Applies a substitution to a type until no bound variable is left outside the keys of tables. -/
def apply (s : Subst) (t : Ty) : Except Fault Ty := follow s.bindings t s.bindings.length t

/-- Applies a substitution below the quantifiers of a type scheme, whose body has to be, and to
stay, a variable or a constructor. -/
def applyScheme (s : Subst) : Ty → Except Fault Ty
  | .all x body => do return .all x (← s.applyScheme body)
  | .var x => do
    match ← s.apply (.var x) with
    | .var y => return .var y
    | .con c args v checks => return .con c args v checks
    | _ => .error .unmet
  | .con c args v checks => s.apply (.con c args v checks)
  | _ => .error .unmet

/-- Adds the bindings of `t` to those of `s`, with `s` applied to their types; a binding of `t`
takes the place of one of `s`. -/
def override (s t : Subst) : Except Fault Subst := do
  let bindings ← t.bindings.foldlM (fun known (x, u) => do return enter x (← s.apply u) known)
    s.bindings
  return ⟨bindings, s.returning || t.returning⟩

end Subst

end LuaTyping
