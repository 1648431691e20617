import LuaTyping.Syntax.Tree

/-!
# Types: shapes, size, variables

## Main definitions

* `Ty.number`, `string`, `boolean`, `nil`, `tuple`, `function` — the common types.
* `Ty.size` — the number of nodes of a type.
* `Ty.freeVars` — the variables of a type that no quantifier binds, keys of tables
  included.
* `Ty.members` — the alternatives of a union.
* `Ty.broaden` — the type with its literal values forgotten.
* `Ty.generalize` — quantification over the variables that a context leaves free.
-/

set_option autoImplicit false

namespace LuaTyping

namespace Ty

/-! ## Common types -/

/-- A type without arguments and without a literal value. -/
def plain (name : String) : Ty := .con name [] none []

/-- The type of numbers. -/
def number : Ty := plain "number"

/-- The type of strings. -/
def string : Ty := plain "string"

/-- The type of truth values. -/
def boolean : Ty := plain "boolean"

/-- The type of the absent value. -/
def nil : Ty := plain "nil"

/-- The type of several values in a row. -/
def tuple (args : List Ty) : Ty := .con "tuple" args none []

/-- A function type with its parameters, result and variable arguments. -/
def function (params result rest : Ty) (value : Option Literal) : Ty :=
  .con "function" [params, result, rest] value []

/-- A type narrowed down to one value. -/
def literal (name : String) (value : Literal) : Ty := .con name [] (some value) []

/-- The components of a tuple type. -/
def tupleArgs? : Ty → Option (List Ty)
  | .con "tuple" args _ _ => some args
  | _ => none

/-- The types that a type counts as: the components of a tuple, and any other type as itself. -/
def components (t : Ty) : List Ty := t.tupleArgs?.getD [t]

/-- Whether a type is exactly the plain type of the absent value. -/
def isPlainNil : Ty → Bool
  | .con "nil" [] none [] => true
  | _ => false

/-- Whether a type is a constructor with the given name. -/
def isNamed (name : String) : Ty → Bool
  | .con c _ _ _ => c == name
  | _ => false

/-! ## Size -/

mutual

/-- The number of nodes of a type; those of checks are not counted. -/
def size : Ty → Nat
  | .var _ => 1
  | .con _ args _ _ => sizeList args + 1
  | .table fields => sizeFields fields + 1
  | .union left right => left.size + right.size + 1
  | .all _ body => body.size + 1

/-- The number of nodes of some types. -/
def sizeList : List Ty → Nat
  | [] => 0
  | t :: ts => t.size + sizeList ts

/-- The number of nodes of some fields. -/
def sizeFields : List (Ty × Ty) → Nat
  | [] => 0
  | (k, v) :: rest => k.size + v.size + sizeFields rest

end

/-! ## Variables -/

mutual

/-- The variables that no quantifier binds, in order of appearance and perhaps repeated. -/
def freeVars : Ty → List String
  | .var x => [x]
  | .con _ args _ _ => freeVarsList args
  | .table fields => freeVarsFields fields
  | .union left right => left.freeVars ++ right.freeVars
  | .all x body => body.freeVars.filter (· != x)

/-- The free variables of some types. -/
def freeVarsList : List Ty → List String
  | [] => []
  | t :: ts => t.freeVars ++ freeVarsList ts

/-- The free variables of some fields. -/
def freeVarsFields : List (Ty × Ty) → List String
  | [] => []
  | (k, v) :: rest => k.freeVars ++ v.freeVars ++ freeVarsFields rest

end

/-- Quantifies a type over its free variables that are not in `fixed`. -/
def generalize (t : Ty) (fixed : List String) : Ty :=
  let names := (t.freeVars.filter fun x => !fixed.contains x).eraseDups
  names.foldl (fun body x => .all x body) t

/-! ## Unions, literals, tuples -/

/-- The alternatives of a type, from left to right; a type that is no union is its only one. -/
def members : Ty → List Ty
  | .union left right => left.members ++ right.members
  | t => [t]

mutual

/-- A type with its literal values forgotten. The fields of tables keep theirs. -/
def broaden : Ty → Ty
  | .con c args _ checks => .con c (broadenList args) none checks
  | .union left right => .union left.broaden right.broaden
  | t => t

/-- Some types with their literal values forgotten. -/
def broadenList : List Ty → List Ty
  | [] => []
  | t :: ts => t.broaden :: broadenList ts

end

/-- Whether every key of a table is a number, so that it can be shown as an array. -/
def isArray (fields : List (Ty × Ty)) : Bool :=
  fields.all fun (k, _) => k.isNamed "number"

end Ty

end LuaTyping
