import LuaTyping.Check.Session

/-!
# Assigning to a path

An assignment to an index expression changes the type of the table that the expression names, inside
the type of the local name that the path begins with. A key that the table has keeps its kind of
value; a key that it does not have is added.

The table is changed at this one path: where an object stands at two places of a type, or in a check
that a boolean type holds, the other occurrence stays as it is. The keys that an assignment passes
are compared with `Ty.fits`, which does not say how it leaves them: a bare function result in a key
or in a type that a message shows may be put into a tuple, and that is not recorded here.

## Main definitions

* `Check.assignField` — what an assignment does to the fields of a table.
* `Check.changeAt` — a change at the end of a path.
* `Check.assignPath` — the assignment of a type to an index expression.
-/

set_option autoImplicit false

namespace LuaTyping.Check

/-- The local name that a path begins with, and the types of its keys. -/
def pathOf (infer : Inference) : Node → Check (String × List Ty)
  | .var _ x => do
    match (← scopes).local? x with
    | none => fault (.unboundName x)
    | some (.all _ (.all _ _)) => fault .unmet
    | some _ => return (x, [])
  | .index _ object key => do
    let (x, keys) ← pathOf infer object
    let k ← infer key
    return (x, keys ++ [k.type])
  | _ => fault .unmet

/-- Changes the fields that cover a key to the broadened value, if it unifies with what they have.
Also says whether there was one, and the value as it is afterwards. -/
def replaceFields (l : Location) (key value : Ty) :
    List (Ty × Ty) → Check (List (Ty × Ty) × Bool × Ty)
  | [] => pure ([], false, value)
  | (k, v) :: rest => do
    if ← naming (key.fits k) then
      let (s, u) ← unifyAt l value v.broaden
      let w ← apply s u.left.broaden
      let (fields, _, value) ← replaceFields l key u.left rest
      return ((k, w) :: fields, true, value)
    else
      let (fields, found, value) ← replaceFields l key value rest
      return ((k, v) :: fields, found, value)

/-- The fields of a table after an assignment. -/
def assignField (l : Location) (key value : Ty) (fields : List (Ty × Ty)) :
    Check (List (Ty × Ty)) := do
  let (replaced, found, _) ← replaceFields l key value fields
  if found then return replaced else return fields ++ [(key, value)]

/-- Changes the fields of the table at the end of a path. A key that is not there is passed over,
and what is no table at the end of the path is left as it is. -/
def changeAt (change : List (Ty × Ty) → Check (List (Ty × Ty))) : List Ty → Ty → Check Ty
  | [], .table fields => do return .table (← change fields)
  | [], t => pure t
  | key :: keys, .table fields => do
    match ← naming (splitField Ty.fits key [] fields) with
    | some (before, (k, v), after) =>
      return .table (before ++ (k, ← changeAt change keys v) :: after)
    | none => changeAt change keys (.table fields)
  | _ :: _, _ => fault .unmet

/-- Assigns a type to an index expression. On any other expression it does nothing. -/
def assignPath (infer : Inference) (target : Node) (value : Ty) : Check Unit := do
  match target with
  | .index l _ _ =>
    let (x, keys) ← pathOf infer target
    match (← scopes).local? x, keys.getLast? with
    | some t, some key =>
      let change := changeAt (assignField l key value) keys.dropLast
      let changed ← match t with
        | .all y body => do pure (Ty.all y (← change body))
        | t => change t
      modify fun s => { s with scopes := s.scopes.update x changed }
    | _, _ => fault .unmet
  | _ => pure ()

end LuaTyping.Check
