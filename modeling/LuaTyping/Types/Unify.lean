import LuaTyping.Types.Meet

/-!
# Unification, and the text of types

Unification and the text of a type are defined together. A failed unification explains itself with
the texts of types; and the text of a union or an array leaves out the members that unify with an
earlier one.

Unification is directed: `unify a b` asks whether a value of type `a` can be used where `b` is
wanted. It compares function results as tuples: a bare result is put into a tuple of one component,
and stays in it. So a unification returns, beside its outcome, both types as they are afterwards;
they differ from the given ones at most in such results.

This is kept for what unification itself descends into, keys that it tests included. Where a type
is only tested or shown (`Ty.fits`, `Ty.render`, and `Ty.meet`, `Subst.compose` and the changes of
tables that use them as tests), the types are values and stay as they are: a result inside them that
the test puts into a tuple is bare afterwards.

## Main definitions

* `Unified` — the outcome of a unification.
* `unifyStep`, `renderStep` — one step of unification and of showing a type,
  in terms of the same operations on smaller types.
* `unify` — unification.
* `Ty.fits` — whether one type can be used where another is wanted; a variable only
  where the same variable is.
* `Ty.render` — the text of a type.
* `Ty.meet`, `Subst.compose` — with `fits` as the test on keys.

## Implementation notes

The recursion is bounded by a depth. `unify` and `Ty.render` start it high enough for the types at
hand: a step into a type makes it smaller, a result that is put into a tuple grows by one, and keys
of tables are compared anew at most as often as tables are nested in keys.
-/

set_option autoImplicit false

namespace LuaTyping

/-- The outcome of unifying two types: a substitution, or a text that says why there is none, and
both types as they are afterwards. -/
structure Unified where
  outcome : Except String Subst
  left : Ty
  right : Ty

namespace Unified

/-- Whether the types unify. -/
def succeeds (u : Unified) : Bool :=
  match u.outcome with
  | .ok _ => true
  | .error _ => false

/-- The outcome with the two types exchanged. -/
def swap (u : Unified) : Unified := ⟨u.outcome, u.right, u.left⟩

end Unified

/-- An operation that unifies two types. -/
abbrev Unifier := Ty → Ty → Naming Unified

/-- An operation that shows a type. -/
abbrev Renderer := Ty → Naming String

/-- Whether `a` can be used where `b` is wanted, a variable only where the same variable is. -/
def fitsBy (unify : Unifier) : Covers
  | .var x, .var y => pure (x == y)
  | .var _, _ => pure false
  | _, .var _ => pure false
  | a, b => do return (← unify a b).succeeds

/-- A test of two types, with both as they are after it. -/
structure Tested where
  holds : Bool
  left : Ty
  right : Ty

/-- The same test, which also returns both types as they are afterwards. -/
def testBy (unify : Unifier) : Ty → Ty → Naming Tested
  | .var x, .var y => pure ⟨x == y, .var x, .var y⟩
  | .var x, b => pure ⟨false, .var x, b⟩
  | a, .var y => pure ⟨false, a, .var y⟩
  | a, b => do
    let u ← unify a b
    return ⟨u.succeeds, u.left, u.right⟩

/-! ## Unifying lists and fields -/

/-- The outcome of unifying two lists: a substitution or a text that says why there is none, and
both lists as they are afterwards. -/
structure UnifiedLists where
  outcome : Except String Subst
  left : List Ty
  right : List Ty

/-- Unifies two lists member by member as far as both go, and combines each member's substitution
with what was found before it. -/
def unifyLists (unify : Unifier) (combine : Subst → Subst → Naming Subst) (s : Subst) :
    List Ty → List Ty → Naming UnifiedLists
  | a :: as, b :: bs => do
    let u ← unify a b
    match u.outcome with
    | .error m => return ⟨.error m, u.left :: as, u.right :: bs⟩
    | .ok found =>
      let s ← combine found s
      let rest ← unifyLists unify combine s as bs
      return ⟨rest.outcome, u.left :: rest.left, u.right :: rest.right⟩
  | as, bs => pure ⟨.ok s, as, bs⟩

/-- The first field whose key covers `k`: the fields before it, the field, and those after it. -/
def splitField (covers : Covers) (k : Ty) (before : List (Ty × Ty)) :
    List (Ty × Ty) → Naming (Option (List (Ty × Ty) × (Ty × Ty) × List (Ty × Ty)))
  | [] => pure none
  | field :: rest => do
    if ← covers k field.1 then return some (before, field, rest)
    else splitField covers k (before ++ [field]) rest

/-- Looks for the first field whose key covers `k`: the key as it is after the tests, the fields that
were passed over, and those from the one that was found, with their keys as they are then. -/
def seekField (unify : Unifier) (k : Ty) (passed : List (Ty × Ty)) :
    List (Ty × Ty) → Naming (Ty × List (Ty × Ty) × List (Ty × Ty))
  | [] => pure (k, passed, [])
  | (l, w) :: rest => do
    let t ← testBy unify k l
    if t.holds then return (t.left, passed, (t.right, w) :: rest)
    else seekField unify t.left (passed ++ [(t.right, w)]) rest

/-- The outcome of unifying the fields of two tables. -/
structure UnifiedFields where
  outcome : Except String Subst
  left : List (Ty × Ty)
  right : List (Ty × Ty)

/-- Unifies the fields of a wanted table with those of a given one. Every wanted field has to be
found by its key, and the value that is there to unify with the wanted one. -/
def unifyFields (unify : Unifier) (render : Renderer) (s : Subst) (given : List (Ty × Ty)) :
    List (Ty × Ty) → Naming UnifiedFields
  | [] => pure ⟨.ok s, [], given⟩
  | (k, v) :: rest => do
    match ← seekField unify k [] given with
    | (k, given, []) =>
      let key ← render k
      let table ← render (.table given)
      return ⟨.error s!"Field `{key}` expected on type `{table}`, but was not found",
        (k, v) :: rest, given⟩
    | (k, before, (l, w) :: after) =>
      let u ← unify w v
      let given := before ++ (l, u.left) :: after
      match u.outcome with
      | .error m => return ⟨.error m, (k, u.right) :: rest, given⟩
      | .ok found =>
        let s ← found.composeWith (fitsBy unify) s
        let fields ← unifyFields unify render s given rest
        return ⟨fields.outcome, (k, u.right) :: fields.left, fields.right⟩

/-! ## Functions -/

/-- The result of a function on the wanting side, put into a tuple unless it is a tuple or a
variable. -/
def wrapLeft : Ty → Ty
  | .var x => .var x
  | t => if t.isNamed "tuple" then t else .tuple [t]

/-- The result of a function on the given side, put into a tuple unless it is one; against a
variable on the other side, variables and constructors are left as they are. -/
def wrapRight (other : Ty) : Ty → Ty
  | .var x =>
    match other with
    | .var _ => .var x
    | _ => if x = "tuple" then .var x else .tuple [.var x]
  | .con c args v checks =>
    match other with
    | .var _ => .con c args v checks
    | _ => if c = "tuple" then .con c args v checks else .tuple [.con c args v checks]
  | t => .tuple [t]

/-- Unifies two function types with the same number of arguments: the parameters against the
direction, then the results. -/
def unifyFunctions (unify : Unifier) (v w : Option Literal) (checks more : List Checked) :
    List Ty → List Ty → Naming Unified
  | .con c ps pv pchecks :: as, .con d qs qv qchecks :: bs => do
    let compose := Subst.composeWith (fitsBy unify)
    let params ← unifyLists (fun p q => do return (← unify q p).swap) compose .empty ps qs
    let p := Ty.con c params.left pv pchecks
    let q := Ty.con d params.right qv qchecks
    match params.outcome with
    | .error m =>
      let left := Ty.con "function" (p :: as) v checks
      let right := Ty.con "function" (q :: bs) w more
      return ⟨.error m, left, right⟩
    | .ok s =>
      match as, bs with
      | r :: as, r' :: bs =>
        let r := wrapLeft r
        let r' := wrapRight r r'
        let u ← unify r r'
        let left := Ty.con "function" (p :: u.left :: as) v checks
        let right := Ty.con "function" (q :: u.right :: bs) w more
        match u.outcome with
        | .error m => return ⟨.error m, left, right⟩
        | .ok found => return ⟨.ok (← compose found s), left, right⟩
      | _, _ => throw .outOfRange
  | [], _ => throw .outOfRange
  | _, [] => throw .outOfRange
  | _, _ => throw .unmet

/-! ## One step of unification -/

/-- Unifies two constructors. -/
def unifyConstructors (unify : Unifier) (render : Renderer)
    (c : String) (as : List Ty) (v : Option Literal) (checks : List Checked)
    (d : String) (bs : List Ty) (w : Option Literal) (more : List Checked) : Naming Unified := do
  let a := Ty.con c as v checks
  let b := Ty.con d bs w more
  let differ : Naming Unified := do
    let left ← render a
    let right ← render b
    return ⟨.error s!"Type `{left}` does not extend type `{right}`", a, b⟩
  if c ≠ d then
    return ⟨.error s!"Types dont unify: Expected `{d}`, got `{c}`", a, b⟩
  else if as.length ≠ bs.length then
    let left ← render a
    let right ← render b
    return ⟨.error s!"Types dont unify: Expected `{left}`, but got `{right}`", a, b⟩
  else if (match v, w with | some x, some y => !x.equal y | _, _ => false) then differ
  else if c = "function" then unifyFunctions unify v w checks more as bs
  else
    match v, w with
    | none, some (.flag true) => throw .unmet
    | none, some _ => differ
    | _, _ =>
      -- Each member's substitution takes the place of those found before it.
      let latest := fun (found _ : Subst) => found.composeWith (fitsBy unify) found
      let u ← unifyLists unify latest .empty as bs
      return ⟨u.outcome, .con c u.left v checks, .con d u.right w more⟩

/-- One step of unification. -/
def unifyStep (unify : Unifier) (render : Renderer) : Unifier
  | .var x, .var y =>
    if x = y then pure ⟨.ok .empty, .var x, .var y⟩
    else pure ⟨.ok (.single y (.var x)), .var x, .var y⟩
  | a, .var y => pure ⟨.ok (.single y a), a, .var y⟩
  | .var x, b => pure ⟨.ok (.single x b), .var x, b⟩
  | .union left right, b => do
    let u ← unify left b
    match u.outcome with
    | .error m => return ⟨.error m, .union u.left right, u.right⟩
    | .ok s =>
      let w ← unify right u.right
      match w.outcome with
      | .error m => return ⟨.error m, .union u.left w.left, w.right⟩
      | .ok t =>
        return ⟨.ok (← s.composeWith (fitsBy unify) t), .union u.left w.left, w.right⟩
  | a, .union left right => do
    let u ← unify a left
    let w ← unify u.left right
    let after := Ty.union u.right w.right
    match u.outcome, w.outcome with
    | .error m, .error _ => return ⟨.error m, w.left, after⟩
    | .ok s, .error _ => return ⟨.ok s, w.left, after⟩
    | .error _, .ok t => return ⟨.ok t, w.left, after⟩
    | .ok s, .ok t => return ⟨.ok (← t.composeWith (fitsBy unify) s), w.left, after⟩
  | .table wanted, .table given => do
    let u ← unifyFields unify render .empty given wanted
    return ⟨u.outcome, .table u.left, .table u.right⟩
  | .con c as v checks, .con d bs w more => unifyConstructors unify render c as v checks d bs w more
  | a, b => do
    let left ← render a
    let right ← render b
    return ⟨.error s!"Types dont unify: `{left}` and `{right}`", a, b⟩

/-! ## One step of showing a type -/

/-- The texts of some types. -/
def renderAll (render : Renderer) : List Ty → Naming (List String)
  | [] => pure []
  | t :: ts => do return (← render t) :: (← renderAll render ts)

/-- Puts a text that has blanks into parentheses, unless it begins with a brace or a quote. -/
def parenthesize (s : String) : String :=
  if s.contains ' ' && !(s.startsWith "\x7b" || s.startsWith "\"") then s!"({s})" else s

/-- The literal value of a type, as it is shown. -/
def renderLiteral (name : String) (value : Literal) : Option (Except Fault String) :=
  match name with
  | "string" => some (.ok s!"\"{value.plain}\"")
  | "number" =>
    match value with
    | .text _ => some (.error .wrongKind)
    | .number d => some (.ok ((d.whole?.map fun n => toString n).getD d.text))
    | .flag b => some (.ok (if b then "1" else "0"))
  | "boolean" => some (.ok (if value.holds then "true" else "false"))
  | _ => none

/-- The text of a function type. -/
def renderFunction (render : Renderer) (args : List Ty) (value : Option Literal) :
    Naming String := do
  match args with
  | [] => throw .outOfRange
  | .con _ params _ _ :: rest =>
    let shown ← renderAll render params
    let isVararg := (value.map Literal.holds).getD false
    let shown ← if isVararg then
        match rest with
        | _ :: t :: _ => do
          let more ← render t
          pure (shown ++ ["..." ++ more])
        | _ => throw .outOfRange
      else pure shown
    let list := ", ".intercalate shown
    match rest with
    | [] => throw .outOfRange
    | result :: _ =>
      let result ← match result.tupleArgs? with
        | some results => do pure (", ".intercalate (← renderAll render results))
        | none => render result
      let list := if params.length = 1 then list else s!"({list})"
      return s!"{list} -> {result}"
  | _ :: _ => throw .noComponents

/-- The types that are not the same as one kept before them, in the form in which they are kept. -/
def distinctBy (same : Covers) (keep : Ty → Ty) (kept : List Ty) : List Ty → Naming (List Ty)
  | [] => pure kept
  | t :: ts => do
    if ← kept.anyM (same t) then distinctBy same keep kept ts
    else distinctBy same keep (kept ++ [keep t]) ts

/-- The text of a table as an array, if all its values have one type. -/
def renderArray (unify : Unifier) (render : Renderer) (fields : List (Ty × Ty)) :
    Naming (Option String) := do
  let same t k := do return (← unify t k).succeeds
  let kept ← distinctBy same Ty.broaden [] (fields.map Prod.snd)
  match ← renderAll render kept with
  | [] => return some "[]"
  | [element] => return some s!"{element}[]"
  | _ => return none

/-- The texts of the fields of a table. -/
def renderFields (render : Renderer) : List (Ty × Ty) → Naming (List String)
  | [] => pure []
  | (k, v) :: rest => do
    let key ← match k with
      | .con "string" _ (some value) _ => pure value.plain
      | _ => do
        let key ← render k
        pure s!"[{key}]"
    let value ← render v
    return s!"{key}: {value}" :: (← renderFields render rest)

/-- One step of showing a type. -/
def renderStep (unify : Unifier) (render : Renderer) : Renderer
  | .var x => Naming.showVar x
  | .con c args value _ => do
    match value.bind (renderLiteral c) with
    | some r => Naming.ofExcept r
    | none =>
      if c = "function" then renderFunction render args value
      else
        let shown ← renderAll render args
        let list := ", ".intercalate shown
        if c = "tuple" then return (if args.length = 1 then list else s!"({list})")
        else return (if args.isEmpty then c else s!"{c}<{list}>")
  | .table fields => do
    let array ← if Ty.isArray fields then renderArray unify render fields else pure none
    match array with
    | some text => return text
    | none =>
      let list := ", ".intercalate (← renderFields render fields)
      return "\x7b" ++ list ++ "\x7d"
  | .union left right => do
    if left.isNamed "nil" then return parenthesize (← render right) ++ "?"
    else if right.isNamed "nil" then return parenthesize (← render left) ++ "?"
    else
      let kept ← distinctBy (fitsBy unify) id [] (Ty.union left right).members
      return " | ".intercalate ((← renderAll render kept).map parenthesize)
  | .all x body => do
    let text ← render body
    return s!"forall {x}. {text}"

/-! ## The recursion -/

mutual

/-- Unification by recursion to a given depth. -/
def unifyTo : Nat → Unifier
  | 0, _, _ => throw (.endless (c := .depth))
  | depth + 1, a, b => unifyStep (unifyTo depth) (renderTo depth) a b

/-- The text of a type by recursion to a given depth. -/
def renderTo : Nat → Renderer
  | 0, _ => throw (.endless (c := .depth))
  | depth + 1, t => renderStep (unifyTo depth) (renderTo depth) t

end

/-- A depth that suffices for types of the given total size. -/
def depthFor (size : Nat) : Nat := 2 * (2 * size + 1) * (size + 1)

/-- Unifies two types: a value of the first is to be used where the second is wanted. -/
def unify (a b : Ty) : Naming Unified := unifyTo (depthFor (a.size + b.size)) a b

namespace Ty

/-- The text of a type. -/
def render (t : Ty) : Naming String := renderTo (depthFor t.size) t

/-- Whether `a` can be used where `b` is wanted, a variable only where the same variable is. -/
def fits (a b : Ty) : Naming Bool := fitsBy unify a b

/-- The meet of two types. -/
def meet (a b : Ty) : Naming (Option Ty) := meetWith fits a b

/-- The text of a table as an array, if all its values have one type. -/
def renderAsArray (fields : List (Ty × Ty)) : Naming (Option String) :=
  renderArray unify render fields

end Ty

/-- The composition of two substitutions, `t` first. -/
def Subst.compose (s t : Subst) : Naming Subst := s.composeWith Ty.fits t

end LuaTyping
