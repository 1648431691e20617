import LuaTyping.Check.Expression

/-!
# The types of calls

A call is checked twice: the function's type against the type that the call wants, and the
parameters against the arguments. An argument that is a tuple counts as several.
-/

set_option autoImplicit false

namespace LuaTyping.Check

/-- The types of expressions one after the other, each spread into those that it counts as, and what
the expressions conclude. -/
def inferEach (infer : Inference) (spread : Node → Ty → Check (List Ty)) (s : Subst)
    (types : List Ty) : List Node → Check (Subst × List Ty)
  | [] => pure (s, types)
  | expr :: rest => do
    let e ← infer expr
    let more ← spread expr e.type
    let s ← compose e.subst s
    inferEach infer spread s (types ++ more) rest

/-- The broadened types of arguments, a tuple counting as several. -/
def inferArgs (infer : Inference) : Subst → List Ty → List Node → Check (Subst × List Ty) :=
  inferEach infer fun _ t => pure (t.components.map Ty.broaden)

/-- The common type of variable arguments. -/
def inferRest (l : Location) (found : Option Ty) : List Ty → Check (Option Ty)
  | [] => pure found
  | t :: ts => do
    let (s, u) ← unifyAt l t (found.getD t.broaden)
    inferRest l (some (← apply s u.right).broaden) ts

/-- The type that a call wants of its function. -/
def wanted (types : List Ty) (result : Ty) : Ty := .function (.tuple types) result .nil none

/-- The arguments of a constructor. -/
def argsOf : Ty → List Ty
  | .con _ args _ _ => args
  | _ => []

/-- The type of a call of something whose type is not known yet. -/
def callUnknown (l : Location) (x : String) (f args : Subst) (types : List Ty) (result : Ty) :
    Check Inferred := do
  let (s, _) ← unifyAt l (wanted (types.map Ty.broaden) result) (.var x)
  let all ← compose s (← compose f args)
  let own ← compose s f
  return ⟨all, ← apply own result⟩

/-- Splits the arguments of a call into those for parameters and, for a function that takes any
number of them, the common type of the others. -/
def splitArgs (l : Location) (fargs : List Ty) (value : Option Literal) (types : List Ty) :
    Check (List Ty × Option Ty) := do
  if (value.map fun v => v.equal (.flag true)).getD false then
    match ← member fargs 0 with
    | .con _ params _ _ =>
      let rest ← inferRest l none (types.drop params.length)
      return (types.take params.length, rest)
    | _ => fault .unmet
  else return (types, none)

/-- Binds the variable arguments of a function, unless it has none. -/
def bindRest (rest : Option Ty) (fargs : List Ty) (s : Subst) : Check Subst := do
  match rest with
  | none => return s
  | some t =>
    let r ← member fargs 2
    if r.isPlainNil then return s
    else
      match r with
      | .var y => compose (.single y t) s
      | _ => fault .unmet

/-- The type of a call of a function whose type is a constructor. -/
def callKnown (l : Location) (callee : Ty) (value : Option Literal) (f args : Subst)
    (types : List Ty) (result : Ty) : Check Inferred := do
  let (types, rest) ← splitArgs l (argsOf callee) value types
  let (s, u) ← unifyAt l (wanted types result) callee
  let types := argsOf ((argsOf u.left).headD (.tuple types))
  let fargs := argsOf u.right
  let params ← member fargs 0
  let (t, w) ← unifyAt l params (.tuple types)
  let t ← bindRest rest (w.left :: fargs.drop 1) t
  let all ← compose t (← compose s (← compose f args))
  return ⟨all, ← apply all result⟩

/-- The type of a call. -/
def inferCall (infer : Inference) (l : Location) (callee : Node) (args : List Node) :
    Check Inferred := do
  let (s, types) ← inferArgs infer .empty [] args
  let result ← fresh
  let f ← infer callee
  match ← ofExcept f.type.flatten with
  | .var x => callUnknown l x f.subst s types result
  | .con c fargs value checks =>
    callKnown l (.con c fargs value checks) value f.subst s types result
  | _ => fault .unmet

end LuaTyping.Check
