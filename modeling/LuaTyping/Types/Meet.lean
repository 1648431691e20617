import LuaTyping.Types.Naming
import LuaTyping.Types.Subst

/-!
# The common part of two types

The meet of two types is what both allow; two types may have none. Of a union, the first alternative
that has a meet decides. The meet of two tables has the fields of both, a field whose key is covered
by an earlier one being dropped.

Composing two substitutions that bind the same variable binds it to the meet of the two types, and
is a fault when they have none.

Everything here takes as a parameter the test `covers k l`, by which a key `k` is covered by the
key `l`.

## Main definitions

* `Ty.meetWith` — the meet of two types.
* `Subst.composeWith` — the composition of substitutions.
-/

set_option autoImplicit false

namespace LuaTyping

/-- A test whether one type is covered by another. -/
abbrev Covers := Ty → Ty → Naming Bool

/-- Keeps the fields whose keys are covered by no key kept before them. -/
def separateFields (covers : Covers) (kept : List (Ty × Ty)) :
    List (Ty × Ty) → Naming (List (Ty × Ty))
  | [] => pure kept
  | (k, v) :: rest => do
    if ← kept.anyM fun (l, _) => covers k l then separateFields covers kept rest
    else separateFields covers (kept ++ [(k, v)]) rest

/-- Combines two lists of types member by member as far as both go, unless some pair has no
combination. -/
def meetLists (meet : Ty → Ty → Naming (Option Ty)) :
    List Ty → List Ty → Naming (Option (List Ty))
  | a :: as, b :: bs => do
    match ← meet a b with
    | none => return none
    | some c =>
      match ← meetLists meet as bs with
      | none => return none
      | some cs => return some (c :: cs)
  | _, _ => pure (some [])

namespace Ty

/-- The meet of two types, by recursion to a given depth. -/
def meetTo (covers : Covers) : Nat → Ty → Ty → Naming (Option Ty)
  | 0, _, _ => throw (.endless (c := .depth))
  | depth + 1, a, b =>
    match a, b with
    | .var _, b => pure (some b)
    | a, .var _ => pure (some a)
    | a, .union left right => do
      match ← meetTo covers depth a left with
      | some t => return some t
      | none => meetTo covers depth a right
    | .union left right, b => do
      match ← meetTo covers depth b left with
      | some t => return some t
      | none => meetTo covers depth b right
    | .table fields, .table more => do
      return some (.table (← separateFields covers [] (fields ++ more)))
    | .con c as v checks, .con d bs _ more => do
      if c = d then
        match ← meetLists (meetTo covers depth) as bs with
        | none => return none
        | some args => return some (.con c args v (checks ++ more))
      else return none
    | _, _ => pure none

/-- The meet of two types. Each step goes down into one of them, so their sizes bound the depth. -/
def meetWith (covers : Covers) (a b : Ty) : Naming (Option Ty) :=
  meetTo covers (a.size + b.size) a b

end Ty

namespace Subst

/-- Adds bindings to those of a substitution: a variable that is bound already gets the meet of
both types, any other the type with the substitution applied to it. -/
def composeBindings (covers : Covers) (s : Subst) (known : List (String × Ty)) :
    List (String × Ty) → Naming (List (String × Ty))
  | [] => pure known
  | (x, t) :: rest => do
    match known.lookup x with
    | some u =>
      match ← Ty.meetWith covers t u with
      | none => throw .unmet
      | some m => composeBindings covers s (enter x m known) rest
    | none =>
      let t ← Naming.ofExcept (s.apply t)
      composeBindings covers s (enter x t known) rest

/-- The composition of two substitutions, `t` first. -/
def composeWith (covers : Covers) (s t : Subst) : Naming Subst := do
  return ⟨← composeBindings covers s s.bindings t.bindings, s.returning || t.returning⟩

end Subst

end LuaTyping
