import LuaTyping.Check.Narrow

/-!
# The types of expressions

The rules for variables, table constructors, index expressions, operators and function expressions.
Each takes the inference of its parts as a parameter.
-/

set_option autoImplicit false

namespace LuaTyping.Check

/-- The type of a value that needs no other. -/
def ofType (t : Ty) : Inferred := ⟨.empty, t⟩

/-- The type of a variable: an instance of what its name is bound to, a local name first. -/
def inferVar (l : Location) (x : String) : Check Inferred := do
  let s ← get
  match s.scopes.local? x with
  | some t => return ofType (← instantiate t)
  | none =>
    match s.scopes.global? x with
    | some t => return ofType (← instantiate t)
    | none =>
      if s.pending.contains x then
        report l (s!"Unbound function name: `{x}`, did you mean to call it recursively? " ++
          "If so, try adding a return-type annotation")
      else report l s!"Unbound identifier: `{x}`"

/-- The type of the variable arguments. -/
def inferVararg (l : Location) : Check Inferred := do
  match (← scopes).local? "..." with
  | none => report l "Cannot use vararg (...) outside of a vararg-function"
  | some t =>
    let u ← instantiate t
    return ⟨.single "..." u, u⟩

/-! ## Tables -/

/-- Enters a field into the type of a table: a field whose key covers the new one becomes one for
both values, and otherwise the field is added. -/
def enterField (k v : Ty) : List (Ty × Ty) → Check (List (Ty × Ty))
  | [] => pure [(k, v)]
  | (l, w) :: rest => do
    if ← naming (k.fits l) then
      let u ← naming (unify v w)
      match u.outcome with
      | .error _ => return (l, ← naming (u.left.join u.right)) :: rest
      | .ok s => return (l, ← apply s u.right.broaden) :: rest
    else return (l, w) :: (← enterField k v rest)

/-- The type of a table constructor whose first fields have been entered. -/
def inferFields (infer : Inference) (s : Subst) (types : List (Ty × Ty)) :
    List (Node × Node) → Check Inferred
  | [] => pure ⟨s, .table types⟩
  | (key, .vararg l) :: rest => do
    match key with
    | .number _ _ =>
      let more ← infer (.vararg l)
      match more.type with
      | .table fields =>
        let s ← compose more.subst s
        let (_, t) ← member fields 0
        inferFields infer s (types ++ [(.number, t)]) rest
      | _ => fault .unmet
    | _ => fault .unmet
  | (key, value) :: rest => do
    let k ← infer key
    let v ← infer value
    let s ← compose k.subst s
    let s ← compose v.subst s
    inferFields infer s (← enterField k.type v.type types) rest

/-- The type of an index expression. -/
def inferIndex (infer : Inference) (l : Location) (object key : Node) : Check Inferred := do
  let o ← infer object
  let k ← infer key
  let result ← fresh
  let (s, _) ← unifyAt l (.table [(k.type, result)]) o.type
  let s ← compose s (← compose k.subst o.subst)
  return ⟨s, ← apply s result⟩

/-! ## Operators -/

/-- The type of an expression with a unary operator. -/
def inferUnary (infer : Inference) (l : Location) (op : UnaryOp) (value : Node) :
    Check Inferred := do
  let v ← infer value
  let t ← ofExcept v.type.flatten
  let demand (wanted result : Ty) : Check Inferred := do
    let (s, _) ← unifyAt l t wanted
    return ⟨← compose s v.subst, result⟩
  match op with
  | .negate => demand .number .number
  | .length => demand (.union (.table []) .string) .number
  | .not => demand .boolean .boolean
  | .other _ => fault .unmet

/-- The type of an expression with a binary operator that wants both operands of one type. -/
def inferUniform (left right : Node) (a b : Inferred) (wanted result : Ty) : Check Inferred := do
  let (s, _) ← unifyAt left.location a.type wanted
  let (t, _) ← unifyAt right.location b.type wanted
  let both ← compose a.subst b.subst
  return ⟨← compose s (← compose t both), result⟩

/-- The type of a comparison, with its checks. -/
def inferComparison (left right : Node) (a b : Inferred) : Check Inferred := do
  let (s, u) ← unifyOrNot a.type b.type
  let again ← naming (unify u.left u.right)
  let s ← match again.outcome with
    | .ok t => compose t s
    | .error _ => pure s
  let checks ← comparisonChecks left right again.left again.right
  let s ← compose a.subst (← compose b.subst s)
  return ⟨s, .con "boolean" [] none checks⟩

/-- The checks that a type carries, if it is a constructor. -/
def checksOf : Ty → Check (List Checked)
  | .con _ _ _ checks => pure checks
  | _ => fault .unmet

/-- The type of a conjunction or a disjunction, with the checks of both operands. -/
def inferConnective (left right : Node) (a b : Inferred) : Check Inferred := do
  let (s, u) ← unifyAt left.location a.type .boolean
  let (t, w) ← unifyAt right.location b.type .boolean
  let first ← apply s u.left
  let second ← apply t w.left
  let checks ← checksOf first
  let more ← checksOf second
  let both ← compose a.subst b.subst
  return ⟨← compose s (← compose t both), .con "boolean" [] none (checks ++ more)⟩

/-- The type of an expression with a binary operator. -/
def inferBinary (infer : Inference) (left : Node) (op : BinaryOp) (right : Node) :
    Check Inferred := do
  let a ← infer left
  let a : Inferred := ⟨a.subst, ← ofExcept a.type.flatten⟩
  let b ← infer right
  let b : Inferred := ⟨b.subst, ← ofExcept b.type.flatten⟩
  match op.family? with
  | some .arithmetic => inferUniform left right a b .number .number
  | some .ordering => inferUniform left right a b .number .boolean
  | some .joining => inferUniform left right a b .string .string
  | some .comparison => inferComparison left right a b
  | some .connective => inferConnective left right a b
  | none => fault .unmet

/-! ## Functions -/

/-- Binds parameters to fresh types. -/
def bindParams : List String → Check (List Ty)
  | [] => pure []
  | x :: xs => do
    let t ← fresh
    bind x t
    return t :: (← bindParams xs)

/-- Binds the variable arguments, if there are any, to a table of a fresh type. -/
def bindVararg (isVararg : Bool) : Check Ty := do
  if isVararg then
    let t ← fresh
    bind "..." (.table [(.number, t)])
    return t
  else return .nil

/-- The result type that an annotation of a function gives. -/
def annotated : Node → Check (Option Ty)
  | .resultNote _ t => pure t
  | _ => fault .noComponents

/-- The type of a function expression. With an annotated result, a named function may call
itself. -/
def inferFunction (infer : Inference) (l : Location) (params : List String) (isVararg : Bool)
    (body : Node) (name : Option String) (note : Node) : Check Inferred := inScope do
  let types := Ty.tuple (← bindParams params)
  let rest ← bindVararg isVararg
  let wanted ← annotated note
  match wanted, name with
  | some result, some x => bind x (.function types result .nil none)
  | _, _ => pure ()
  let b ← infer body
  let types ← apply b.subst types
  let result ← match wanted with
    | none => pure b.type
    | some wanted => do
      let (s, u) ← unifyAt l b.type wanted
      apply s u.right
  return ⟨b.subst, .function types result rest (some (.flag isVararg))⟩

end LuaTyping.Check
