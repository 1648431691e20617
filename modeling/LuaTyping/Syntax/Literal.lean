import LuaTyping.Number.Decimal

/-!
# Literal values

The value that a type may be narrowed down to: a number, a text, or a truth value. On a function
type a truth value says whether the function takes a variable number of arguments.

Truth values count as the numbers one and zero when literals are compared.
-/

set_option autoImplicit false

namespace LuaTyping

/-- A literal value. -/
inductive Literal where
  | number (value : Binary64)
  | text (value : String)
  | flag (value : Bool)
  deriving DecidableEq, Repr

namespace Literal

/-- The number that a literal counts as in a comparison. -/
def number? : Literal → Option Binary64
  | number d => some d
  | flag b => some (Binary64.ofNat b.toNat)
  | text _ => none

/-- Equality of literals: numeric where both count as numbers, of texts otherwise. -/
def equal : Literal → Literal → Bool
  | text s, text t => s == t
  | text _, _ => false
  | _, text _ => false
  | a, b =>
    match a.number?, b.number? with
    | some x, some y => x.equal y
    | _, _ => false

/-- Whether a literal counts as true: all do but the false flag, zero and the empty text. -/
def holds : Literal → Bool
  | number d => !d.isZero
  | text s => s != ""
  | flag b => b

/-- A literal as plain text. -/
def plain : Literal → String
  | number d => d.text
  | text s => s
  | flag b => if b then "True" else "False"

end Literal

end LuaTyping
