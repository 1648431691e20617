/-!
# Double-precision numbers, exactly

A number literal of a program is a double. All that the checker asks of one is how it is read,
whether two are equal, whether it is whole, and how it is written, so a double is kept here as the
exact value `significand · 2 ^ exponent` and every operation is arithmetic on natural numbers.

## Main definitions

* `Binary64` — the doubles, with both infinities and one not-a-number.
* `Binary64.ofRatio` — the double nearest to a fraction, a tie going to the even
  significand.
* `Binary64.equal` — numeric equality: the two zeros are equal, and not-a-number differs
  from itself.
* `Binary64.whole?` — the integer that a double is, if it is one.

## Implementation notes

Every finite double has one representation: either the significand has 53 bits, or the exponent is
`-1074`, the smallest there is. `Binary64.ofRatio` keeps to it, so equality of nonzero doubles is
equality of representations.
-/

set_option autoImplicit false

namespace LuaTyping

/-- A double: `significand · 2 ^ exponent` with a sign, an infinity, or not-a-number. -/
inductive Binary64 where
  | finite (negative : Bool) (significand : Nat) (exponent : Int)
  | infinite (negative : Bool)
  | notANumber
  deriving DecidableEq, Repr, Inhabited

namespace Binary64

/-- The exponent of the smallest double, and of zero. -/
def minExponent : Int := -1074

/-- The largest exponent of a double whose significand has 53 bits. -/
def maxExponent : Int := 971

/-- Zero with a sign. -/
def zero (negative : Bool) : Binary64 := .finite negative 0 minExponent

/-- The quotient of two natural numbers rounded to the nearest one, a tie to the even one. -/
def roundQuotient (num den : Nat) : Nat :=
  let q := num / den
  let r := num % den
  if 2 * r < den then q
  else if den < 2 * r then q + 1
  else if q % 2 = 0 then q else q + 1

/-- The fraction `num / den` measured in units of `2 ^ e`, as a numerator and a denominator. -/
def inUnits (num den : Nat) (e : Int) : Nat × Nat :=
  (num * Nat.pow 2 (-e).toNat, den * Nat.pow 2 e.toNat)

/-- The exponent with which the fraction `num / den` has a significand of 53 bits, or the smallest
exponent where that one is smaller still. -/
def exponentFor (num den : Nat) : Int :=
  let guess : Int := (Nat.log2 num : Int) - (Nat.log2 den : Int) - 53
  let (n, d) := inUnits num den guess
  let exact := if n < d * Nat.pow 2 53 then guess else guess + 1
  max exact minExponent

/-- The double with the given significand, at most `2 ^ 53`, and exponent. -/
def assemble (negative : Bool) (significand : Nat) (e : Int) : Binary64 :=
  let (m, e) := if significand = Nat.pow 2 53 then (Nat.pow 2 52, e + 1) else (significand, e)
  if maxExponent < e then .infinite negative else .finite negative m e

/-- The double nearest to `num / den`, a tie going to the even significand; what is too large
becomes an infinity. -/
def ofRatio (negative : Bool) (num den : Nat) : Binary64 :=
  if num = 0 then zero negative
  else
    let e := exponentFor num den
    let (n, d) := inUnits num den e
    assemble negative (roundQuotient n d) e

/-- The double nearest to a natural number. -/
def ofNat (n : Nat) : Binary64 := ofRatio false n 1

/-- Numeric equality: the sign of zero does not count, and not-a-number equals nothing. -/
def equal : Binary64 → Binary64 → Bool
  | .finite s m e, .finite s' m' e' => (m == m' && e == e') && (m == 0 || s == s')
  | .infinite s, .infinite s' => s == s'
  | _, _ => false

/-- Whether a double is one of the two zeros. -/
def isZero : Binary64 → Bool
  | .finite _ m _ => m == 0
  | _ => false

/-- The integer that a double is, if it is a whole number. -/
def whole? : Binary64 → Option Int
  | .finite s m e =>
    let n : Option Nat :=
      if 0 ≤ e then some (m * Nat.pow 2 e.toNat)
      else
        let unit := Nat.pow 2 (-e).toNat
        if m % unit = 0 then some (m / unit) else none
    n.map fun n => if s then -(n : Int) else (n : Int)
  | _ => none

end Binary64

end LuaTyping
