import LuaTyping.Check.Call

/-!
# The types of statements and chunks

A statement has the type of what it returns, a tuple, or of the absent value. The type of a chunk
joins what its statements return.
-/

set_option autoImplicit false

namespace LuaTyping.Check

/-! ## Declarations and assignments -/

/-- The types of expressions in a row, a tuple counting as several. -/
def inferExprs (infer : Inference) : Subst → List Ty → List Node → Check (Subst × List Ty) :=
  inferEach infer fun _ t => pure t.components

/-- Puts a name on the list of those assigned to. -/
def await (x : String) : Check Unit := modify fun s => { s with pending := s.pending ++ [x] }

/-- The declared name as it is shown in reports. -/
def showDeclared : DeclaredName → String
  | .bare x => x
  | .variable l x => s!"Var(location={l.text}, name='{x}')"

/-- Binds a declared name. -/
def bindDeclared (name : DeclaredName) (t : Ty) : Check Unit :=
  match name with
  | .bare x => bind x t
  | .variable _ _ => fault .wrongKind

/-- The tuple of types of the annotation of a declaration. -/
def annotatedTuple : Node → Check (Ty × List Ty)
  | .typeNote _ t =>
    match t.tupleArgs? with
    | some args => pure (t, args)
    | none => fault .unmet
  | _ => fault .noComponents

/-- Binds declared names to types, from the one with the given number on. An annotated name is bound
to the whole annotation. -/
def bindNames (l : Location) (note : Option Node) (types : List Ty) (number : Nat) :
    List DeclaredName → Check Unit
  | [] => pure ()
  | name :: rest => do
    match note with
    | some note =>
      let (tuple, annotated) ← annotatedTuple note
      let t ← member types number
      let a ← member annotated number
      if ← naming (t.fits a) then
        bindDeclared name (← generalize tuple)
      else
        let wanted ← naming a.render
        let given ← naming t.render
        report l (s!"Type mismatch between annotation `{wanted}` and " ++
          s!"`{showDeclared name}`, expected `{wanted}`, got `{given}`")
    | none =>
      let t ← member types number
      bindDeclared name (← generalize t)
    bindNames l note types (number + 1) rest

/-- A local declaration. -/
def inferDeclare (infer : Inference) (l : Location) (names : List DeclaredName)
    (exprs : List Node) (note : Option Node) : Check Inferred := do
  names.forM fun
    | .variable _ x => await x
    | .bare _ => pure ()
  let (s, types) ← inferExprs infer .empty [] exprs
  bindNames l note types 0 names
  return ⟨s, .nil⟩

/-- Assigns a type to a name: a local name keeps its kind, any other becomes local and global. -/
def assignName (l : Location) (x : String) (types : List Ty) (number : Nat) : Check Unit := do
  match (← scopes).local? x with
  | some t =>
    let existing ← instantiate t
    let given ← member types number
    let (s, u) ← unifyAt l given existing.broaden
    bind x (← generalize (← apply s u.left))
  | none =>
    let t ← generalize (← member types number)
    modify fun s => { s with scopes := s.scopes.bindGlobal x t }

/-- Assigns types to targets, from the one with the given number on. -/
def assignTargets (infer : Inference) (l : Location) (types : List Ty) (number : Nat) :
    List Node → Check Unit
  | [] => pure ()
  | target :: rest => do
    match target with
    | .var _ x => assignName l x types number
    | target => assignPath infer target (← member types number)
    assignTargets infer l types (number + 1) rest

/-- An assignment. -/
def inferAssign (infer : Inference) (l : Location) (targets exprs : List Node) :
    Check Inferred := do
  targets.forM fun
    | .var _ x => await x
    | _ => pure ()
  let (s, types) ← inferExprs infer .empty [] exprs
  assignTargets infer l types 0 targets
  return ⟨s, .nil⟩

/-! ## Returning -/

/-- The components of the innermost of nested tuples, none for a type that is no tuple. -/
def innermost (t : Ty) : Except Fault (List Ty) :=
  match t with
  | .con c args _ _ =>
    if c = "tuple" then
      match args with
      | [] => .error .outOfRange
      | first :: rest =>
        match innermost first with
        | .error f => .error f
        | .ok [] => .ok (first :: rest)
        | .ok inner => .ok inner
    else .ok []
  | _ => .ok []

/-- The types that an expression adds to what is returned: the components of a tuple, or the values
of the variable arguments. -/
def returned (expr : Node) (t : Ty) : Check (List Ty) := do
  match ← ofExcept (innermost t) with
  | [] =>
    match expr with
    | .vararg _ =>
      match t with
      | .table fields => return fields.map Prod.snd
      | _ => fault .unmet
    | _ => return [t]
  | args => return args

/-- The types of the expressions that are returned. -/
def inferReturned (infer : Inference) : Subst → List Ty → List Node → Check (Subst × List Ty) :=
  inferEach infer returned

/-- A return statement. -/
def inferReturn (infer : Inference) (exprs : List Node) : Check Inferred := do
  let (s, types) ← inferReturned infer .empty [] exprs
  return ⟨{ s with returning := true }, .tuple types⟩

/-- A request to show a type. -/
def inferReveal (infer : Inference) (l : Location) (expr : Node) : Check Inferred := do
  let e ← infer expr
  let shown ← naming e.type.render
  modify fun s => { s with printed := s.printed ++ s!"{l.text} (@reveal): {shown}\n" }
  return ofType .nil

/-! ## Branches -/

/-- The checks of a condition's type. -/
def conditionChecks : Ty → List Checked
  | .con _ _ _ checks => checks
  | _ => []

/-- A conditional statement. The branch where the condition does not hold starts from the scope that
the other branch was narrowed in. It returns only if both branches do. -/
def inferBranch (infer : Inference) (l : Location) (condition body : Node)
    (otherwise : Option Node) : Check Inferred := do
  let c ← inScope (infer condition)
  let _ ← unifyAt l c.type .boolean
  inScope do
    let checks := conditionChecks c.type
    narrowTo infer l checks
    let b ← infer body
    match otherwise with
    | none => return ⟨{ b.subst with returning := false }, ← apply c.subst b.type⟩
    | some other =>
      narrowFrom infer checks
      let e ← infer other
      let s ← compose e.subst b.subst
      let (t, u) ← unifyOrNot e.type b.type.broaden
      let joined ← naming (u.left.join b.type)
      let type ← apply c.subst (← apply t joined)
      return ⟨{ s with returning := b.subst.returning && e.subst.returning }, type⟩

/-! ## Chunks -/

/-- Joins the components of what is returned so far with those of a further return; a component that
is new may be absent. -/
def joinReturns : List Ty → List Ty → Naming (List Ty)
  | a :: as, b :: bs => do return (← a.join b) :: (← joinReturns as bs)
  | as, [] => pure as
  | [], bs => pure (bs.map fun b => .union b .nil)

/-- A tuple with other components. -/
def withArgs (args : List Ty) : Ty → Ty
  | .con c _ v checks => .con c args v checks
  | t => t

/-- What the statements of a chunk have come to: what they conclude, what has been returned, and
whether a statement returned in every case. -/
structure Progress where
  subst : Subst
  result : Option Ty
  returned : Bool

/-- Adds what a statement of tuple type returns. One that may go on has to return what the others
do; one that returns in every case is joined with them. -/
def addReturn (l : Location) (p : Progress) (i : Inferred) : Check Progress := do
  let result := p.result.getD i.type
  if i.subst.returning then
    let (s, u) ← unifyOrNot i.type result.broaden
    let result := if p.result.isNone then u.left else result
    let args ← naming (joinReturns (argsOf result) (argsOf u.left))
    let result ← apply s (withArgs args result)
    return { p with result := some result, returned := true }
  else
    let (_, u) ← unifyAt l i.type result.broaden
    return { p with result := some (if p.result.isNone then u.left else result) }

/-- Whether a statement is a call, whose type is not what the chunk returns. -/
def isCall : Node → Bool
  | .call _ _ _ => true
  | _ => false

/-- Infers the statements of a chunk. -/
def inferStatements (infer : Inference) (l : Location) (p : Progress) :
    List Node → Check Progress
  | [] => pure p
  | statement :: rest => do
    let i ← infer statement
    let p ← if i.type.isNamed "tuple" && !isCall statement then addReturn l p i else pure p
    let s ← compose i.subst p.subst
    inferStatements infer l { p with subst := s } rest

/-- Joins what the return statement of a chunk returns with what its statements did. -/
def addLast (result : Option Ty) (last : Ty) : Check Ty := do
  match result with
  | none => return last
  | some result =>
    let (s, u) ← unifyOrNot last result.broaden
    let result ← apply s result.broaden
    if u.left.isNamed "tuple" then
      let args ← naming (joinReturns (argsOf result) (argsOf u.left))
      return withArgs args result
    else fault .unmet

/-- A chunk, in a scope of its own. Without a return statement, what its statements return may be
absent, unless one of them returned in every case. -/
def inferChunk (infer : Inference) (l : Location) (statements : List Node) (last : Option Node) :
    Check Inferred := inScope do
  let p ← inferStatements infer l ⟨.empty, none, false⟩ statements
  match last with
  | some last =>
    let i ← infer last
    let result ← addLast p.result i.type
    let s ← compose i.subst p.subst
    return ⟨{ s with returning := true }, result⟩
  | none =>
    match p.result with
    | none => return ⟨{ p.subst with returning := false }, .tuple []⟩
    | some result =>
      let result := if p.returned then result
        else .tuple ((argsOf result).map fun t => .union t .nil)
      return ⟨{ p.subst with returning := true }, result⟩

end LuaTyping.Check
