import LuaTyping.Types.Unify

/-!
# Joining types, and taking one from another

The join of two types covers both. Types of one name are joined into one, argument by argument;
tables are joined field by field, a field that only one of them has becoming optional; any other two
types become a union.

Subtracting a type from a union leaves out the alternatives that extend it.

## Main definitions

* `Ty.join` — the join of two types.
* `Ty.subtract` — what is left of a type without another.
-/

set_option autoImplicit false

namespace LuaTyping

/-- The value of the last field whose key covers `k`. -/
def lastCovering (k : Ty) (found : Option Ty) : List (Ty × Ty) → Naming (Option Ty)
  | [] => pure found
  | (l, v) :: rest => do
    if ← k.fits l then lastCovering k (some v) rest else lastCovering k found rest

/-- Adds to `kept` the fields whose keys it does not cover, each joined with the field of the other
table, or with the absent value where there is none. -/
def joinFields (join : Ty → Ty → Naming Ty) (other kept : List (Ty × Ty)) :
    List (Ty × Ty) → Naming (List (Ty × Ty))
  | [] => pure kept
  | (k, v) :: rest => do
    let found ← lastCovering k none other
    if ← kept.anyM fun (l, _) => k.fits l then joinFields join other kept rest
    else
      let t ← join v (found.getD Ty.nil)
      joinFields join other (kept ++ [(k, t)]) rest

/-- Joins two lists of types member by member as far as both go. -/
def joinLists (join : Ty → Ty → Naming Ty) : List Ty → List Ty → Naming (List Ty)
  | a :: as, b :: bs => do return (← join a b) :: (← joinLists join as bs)
  | _, _ => pure []

namespace Ty

/-- The join of two types, by recursion to a given depth. -/
def joinTo : Nat → Ty → Ty → Naming Ty
  | 0, _, _ => throw (.endless (c := .depth))
  | depth + 1, a, b =>
    match a, b with
    | .var x, .var y => if x = y then pure (.var x) else pure (.union (.var x) (.var y))
    | .con c as v checks, .con d bs w more => do
      if c = d then
        if (match v, w with | some x, some y => !x.equal y | _, _ => false) then
          return .union (.con c as v checks) (.con d bs w more)
        else return .con c (← joinLists (joinTo depth) as bs) v (checks ++ more)
      else return .union (.con c as v checks) (.con d bs w more)
    | .table fields, .table more => do
      let kept ← joinFields (joinTo depth) more [] fields
      return .table (← joinFields (joinTo depth) fields kept more)
    | a, b => pure (.union a b)

/-- The join of two types. Each step goes down into one of them, so their sizes bound the depth. -/
def join (a b : Ty) : Naming Ty := joinTo (a.size + b.size) a b

/-- What is left of a union without the alternatives that extend `b`; the last one stays if all
do. A type that is no union is left as it is. -/
def subtract (a b : Ty) : Naming Ty :=
  match a with
  | .union left right => do
    if ← left.fits b then right.subtract b
    else if ← right.fits b then left.subtract b
    else return .union (← left.subtract b) (← right.subtract b)
  | a => pure a

end Ty

end LuaTyping
