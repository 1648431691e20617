import LuaTyping.Number.Binary64

/-!
# Decimal notation of doubles

Reading takes the double nearest to a decimal. Writing takes the fewest digits that read back to
the same double and, of those, the ones nearest to it; they are written positionally as long as
the decimal exponent is at least `-4` and below `16`, and with an exponent otherwise.

## Main definitions

* `Decimal` — a decimal `digits · 10 ^ scale`.
* `Decimal.nearest` — the double nearest to a decimal.
* `Binary64.shortest` — the shortest decimal that reads back to a finite double.
* `Binary64.read?`, `Binary64.text` — the written form of a double.
-/

set_option autoImplicit false

namespace LuaTyping

/-- The decimal `digits · 10 ^ scale`. -/
structure Decimal where
  digits : Nat
  scale : Int
  deriving DecidableEq, Repr

namespace Decimal

/-- The double nearest to a decimal. -/
def nearest (negative : Bool) (d : Decimal) : Binary64 :=
  Binary64.ofRatio negative (d.digits * Nat.pow 10 d.scale.toNat) (Nat.pow 10 (-d.scale).toNat)

/-- Drops the trailing zeros of the digits, at most `fuel` of them. -/
def trim : Nat → Decimal → Decimal
  | 0, d => d
  | fuel + 1, d =>
    if d.digits ≠ 0 ∧ d.digits % 10 = 0 then trim fuel ⟨d.digits / 10, d.scale + 1⟩ else d

/-- The number that a list of decimal digits writes. -/
def ofDigits (ds : List Nat) : Nat := ds.foldl (fun n d => 10 * n + d) 0

end Decimal

namespace Binary64

/-! ## The fewest digits that read back -/

/-- The set of reals that round to a double, in quarters of its unit: the double itself is
`center`, and the ends belong to the interval exactly when the significand is even. -/
structure Interval where
  low : Nat
  center : Nat
  high : Nat
  closed : Bool

/-- The interval of the double `m · 2 ^ e`. Below a power of two the doubles are twice as close. -/
def interval (m : Nat) (e : Int) : Interval :=
  { low := if m = Nat.pow 2 52 ∧ minExponent < e then 4 * m - 1 else 4 * m - 2
    center := 4 * m
    high := 4 * m + 2
    closed := m % 2 = 0 }

/-- Whether the fraction `num / den` lies in an interval. -/
def Interval.contains (i : Interval) (num den : Nat) : Bool :=
  if i.closed then i.low * den ≤ num && num ≤ i.high * den
  else i.low * den < num && num < i.high * den

/-- Of the two multiples of `10 ^ scale` around the double `m · 2 ^ e`, the nearer one that reads
back to it, a tie going to the even multiple. -/
def onGrid? (m : Nat) (e scale : Int) : Option Decimal :=
  let i := interval m e
  -- A multiple `k` of the grid is `k * up / down` quarters of a unit.
  let quarter := e - 2
  let up := Nat.pow 10 scale.toNat * Nat.pow 2 (-quarter).toNat
  let down := Nat.pow 10 (-scale).toNat * Nat.pow 2 quarter.toNat
  let k := i.center * down / up
  let below := i.contains (k * up) down
  let above := i.contains ((k + 1) * up) down
  let center := i.center * down
  match below, above with
  | true, false => some ⟨k, scale⟩
  | false, true => some ⟨k + 1, scale⟩
  | true, true =>
    let gapBelow := center - k * up
    let gapAbove := (k + 1) * up - center
    if gapBelow < gapAbove then some ⟨k, scale⟩
    else if gapAbove < gapBelow then some ⟨k + 1, scale⟩
    else some ⟨if k % 2 = 0 then k else k + 1, scale⟩
  | false, false => none

/-- The first grid, of those with `places` digits before the scale `top`, that has a decimal which
reads back. -/
def searchGrid (m : Nat) (e top : Int) : List Nat → Option Decimal
  | [] => none
  | places :: rest =>
    match onGrid? m e (top - places) with
    | some d => some d
    | none => searchGrid m e top rest

/-- The number of digits before the point of a fraction, at most one too many. -/
def decimalTop (num den : Nat) : Int :=
  if den ≤ num then (Nat.toDigits 10 (num / den)).length
  else 1 - (Nat.toDigits 10 (den / num)).length + 1

/-- The decimal with the fewest digits that reads back to the double `m · 2 ^ e`; 17 digits always
suffice. -/
def shortest (m : Nat) (e : Int) : Decimal :=
  if m = 0 then ⟨0, 0⟩
  else
    let top := decimalTop (m * Nat.pow 2 e.toNat) (Nat.pow 2 (-e).toNat)
    let d := (searchGrid m e top (List.range 20)).getD ⟨m, 0⟩
    d.trim 400

/-! ## Layout -/

/-- Digits in positional notation, `point` of them before the point, with at least one digit on
each side of it. -/
def positional (digits : String) (point : Int) : String :=
  let n := digits.length
  if point ≤ 0 then "0." ++ String.ofList (List.replicate (-point).toNat '0') ++ digits
  else if (n : Int) ≤ point then
    digits ++ String.ofList (List.replicate (point.toNat - n) '0') ++ ".0"
  else
    String.ofList (digits.toList.take point.toNat) ++ "." ++
      String.ofList (digits.toList.drop point.toNat)

/-- Digits with one of them before the point and an exponent of at least two digits. -/
def scientific (digits : String) (exponent : Int) : String :=
  let mantissa := match digits.toList with
    | [] => ""
    | [c] => String.singleton c
    | c :: cs => String.ofList (c :: '.' :: cs)
  let size := toString exponent.natAbs
  let padded := if exponent.natAbs < 10 then "0" ++ size else size
  mantissa ++ "e" ++ (if exponent < 0 then "-" else "+") ++ padded

/-- The written form of a double. -/
def text : Binary64 → String
  | .notANumber => "nan"
  | .infinite s => if s then "-inf" else "inf"
  | .finite s m e =>
    let d := shortest m e
    let digits := toString d.digits
    let point : Int := digits.length + d.scale
    let body :=
      if d.digits = 0 then "0.0"
      else if -4 < point ∧ point ≤ 16 then positional digits point
      else scientific digits (point - 1)
    if s then "-" ++ body else body

/-! ## Reading -/

/-- The value of an ASCII digit. -/
def asciiDigit? (c : Char) : Option Nat :=
  if c.isDigit then some (c.toNat - '0'.toNat) else none

/-- Splits leading digits off a text, with `digit?` to tell them. -/
def spanDigits (digit? : Char → Option Nat) : List Char → List Nat × List Char
  | [] => ([], [])
  | c :: cs =>
    match digit? c with
    | some d => let (ds, rest) := spanDigits digit? cs; (d :: ds, rest)
    | none => ([], c :: cs)

/-- Splits a leading minus sign off a text. -/
def splitSign : List Char → Bool × List Char
  | '-' :: cs => (true, cs)
  | '+' :: cs => (false, cs)
  | cs => (false, cs)

/-- The decimal exponent at the end of a number's text, zero when there is none. -/
def readExponent? : List Char → Option Int
  | [] => some 0
  | c :: cs =>
    if c = 'e' ∨ c = 'E' then
      let (neg, cs) := splitSign cs
      match spanDigits asciiDigit? cs with
      | ([], _) => none
      | (ds, []) =>
        let n : Int := Decimal.ofDigits ds
        some (if neg then -n else n)
      | _ => none
    else none

/-- Reads a number: a sign, digits, optionally a point with more digits, optionally an exponent.
The characters that count as digits, and their values, are those of `digit?`. -/
def readWith? (digit? : Char → Option Nat) (s : String) : Option Binary64 :=
  let (neg, cs) := splitSign s.toList
  let (whole, rest) := spanDigits digit? cs
  let (fraction, rest) := match rest with
    | '.' :: more => spanDigits digit? more
    | _ => ([], rest)
  if whole.isEmpty && fraction.isEmpty then none
  else
    (readExponent? rest).map fun x =>
      Decimal.nearest neg ⟨Decimal.ofDigits (whole ++ fraction), x - fraction.length⟩

/-- Reads the written form of a double. -/
def read? (s : String) : Option Binary64 :=
  if s = "inf" then some (.infinite false)
  else if s = "-inf" then some (.infinite true)
  else if s = "nan" then some .notANumber
  else readWith? asciiDigit? s

end Binary64

end LuaTyping
