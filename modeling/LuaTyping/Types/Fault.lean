import LuaTyping.Types.Basic

/-!
# Faults

A fault ends a computation that cannot go on. It is no report about a program: it says that the
checker met something that it was not made for, or that a computation would never end.
-/

set_option autoImplicit false

namespace LuaTyping

/-- How a computation goes round in a circle. -/
inductive Circle where
  /-- It goes deeper than any computation of its kind that comes to an end. -/
  | depth
  /-- These bindings, followed from the variables of this type, lead back to where they were. -/
  | bindings (bindings : List (String × Ty)) (type : Ty)

/-- The reasons why a computation cannot go on. -/
inductive Fault where
  /-- What the checker takes for granted at this point does not hold. -/
  | unmet
  /-- A quantified type stands where only plain types may. -/
  | unknownType (type : Ty)
  /-- There is no rule for this. -/
  | notImplemented (what : String)
  /-- A list of types has too few members. -/
  | outOfRange
  /-- A name that is assigned to is not bound. -/
  | unboundName (name : String)
  /-- A type has no components where some are needed. -/
  | noComponents
  /-- A value is of a kind that the operation on it does not take. -/
  | wrongKind
  /-- The computation goes round in a circle. -/
  | endless {c : Circle}

namespace Ty

/-- The first component of a nest of tuples. -/
def flatten : Ty → Except Fault Ty
  | .con c args v checks =>
    if c = "tuple" then
      match args with
      | [] => .error .outOfRange
      | first :: _ => first.flatten
    else .ok (.con c args v checks)
  | t => .ok t

end Ty

end LuaTyping
