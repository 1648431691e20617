import LuaTyping.Check.Path

/-!
# Narrowing by conditions

A condition that compares a variable or a path with something narrows its type in the branches: to
the common part of both types where the condition holds, and to what is left without the other type
where it does not.

## Main definitions

* `Check.typeNamed?` — the type that the standard `type` function names by a string.
* `Check.comparisonChecks` — what a comparison lets conclude about its operands.
* `Check.narrowTo`, `Check.narrowFrom` — narrowing in the two branches.
* `Check.narrowByTest` — narrowing by a condition alone, in the scope at hand.
-/

set_option autoImplicit false

namespace LuaTyping.Check

/-- The type that the standard `type` function names by a string; a function has fresh types. -/
def typeNamed? (name : String) : Check (Option Ty) := do
  match name with
  | "number" => return some .number
  | "string" => return some .string
  | "boolean" => return some .boolean
  | "nil" => return some .nil
  | "table" => return some (.table [])
  | "function" =>
    let params ← fresh
    let result ← fresh
    let rest ← fresh
    return some (.function params result rest none)
  | _ => return none

/-- What a comparison of two expressions of the given types lets conclude: a variable or a path is
compared with the other side, and `type` of one with the type that a string names, unless `type` is
a local name. -/
def comparisonChecks (left right : Node) (a b : Ty) : Check (List Checked) := do
  let ofLeft := if left.isPlace then [(left, b)] else []
  let ofRight := if right.isPlace then [(right, a)] else []
  let ofTest ← match left, right with
    | .call _ (.var _ "type") [arg], .string _ name => do
      if arg.isPlace && !(← scopes).isLocal "type" then
        match ← typeNamed? name with
        | some t => pure [(arg, t)]
        | none => pure []
      else pure []
    | _, _ => pure []
  return ofLeft ++ ofRight ++ ofTest

/-- Gives a variable or a path a narrower type. -/
def restrict (infer : Inference) (place : Node) (t : Ty) : Check Unit :=
  match place with
  | .var _ x => bind x t
  | place => assignPath infer place t

/-- Narrows by checks where a condition holds. -/
def narrowTo (infer : Inference) (l : Location) : List Checked → Check Unit
  | [] => pure ()
  | (place, t) :: rest => do
    let now ← infer place
    match ← naming (now.type.meet t) with
    | none =>
      let shown ← naming now.type.render
      let other ← naming t.render
      report l s!"Attempting to narrow type `{shown}` into `{other}`` results in a `never` type"
    | some u =>
      restrict infer place u
      narrowTo infer l rest

/-- Narrows by checks where a condition does not hold. -/
def narrowFrom (infer : Inference) : List Checked → Check Unit
  | [] => pure ()
  | (place, t) :: rest => do
    let now ← infer place
    let u ← naming (now.type.subtract t)
    restrict infer place u
    narrowFrom infer rest

/-- Narrows a variable by the type that a string names. -/
def narrowByName (infer : Inference) (l : Location) (arg : Node) (x name : String) :
    Check Unit := do
  let now ← infer arg
  match ← typeNamed? name with
  | none => fault (.notImplemented name)
  | some t =>
    match ← naming (now.type.meet t) with
    | none =>
      let shown ← naming now.type.render
      let other ← naming t.render
      report l (s!"Attempting to narrow down type `{shown}` to `{other}` " ++
        "will result in a `never` type")
    | some u => bind x u

/-- Narrows a variable by the type of an expression that it equals. -/
def narrowByValue (infer : Inference) (l : Location) (left : Node) (x : String) (right : Node) :
    Check Unit := do
  let value ← infer right
  let now ← infer left
  let a := now.type.broaden
  let b := value.type.broaden
  match ← naming (a.meet b) with
  | none =>
    let shown ← naming a.render
    let other ← naming b.render
    report l s!"Attempting to compare two distinct types: `{shown}` and `{other}`"
  | some u => bind x u

/-- Narrows by the condition of a statement alone, in the scope at hand: by a test with the standard
`type` function, or by an equality with a variable on the left. Any other condition does nothing. -/
def narrowByTest (infer : Inference) (l : Location) (condition : Node) : Check Unit := do
  match condition with
  | .binary _ left .equal right =>
    match left with
    | .call _ (.var _ "type") args =>
      if (← scopes).isLocal "type" then pure ()
      else
        match args with
        | [.var la x] =>
          match right with
          | .string _ name => narrowByName infer l (.var la x) x name
          | _ => pure ()
        | _ => fault .unmet
    | .var lv x => narrowByValue infer l (.var lv x) x right
    | _ => pure ()
  | _ => pure ()

end LuaTyping.Check
