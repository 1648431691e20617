import LuaTyping.Check.Infer
import LuaTyping.Proofs.Computation

set_option autoImplicit false

/-!
# Steps that do not look at the scopes

Much of what a check does is put together from four kinds of steps: it shows and compares types,
draws variables, stops, and notes that a name is assigned to. Such computations neither look at the
scopes nor change them. This file says which operations are of this kind.

## Main definitions

* `Check.Scopeless` — computations that are put together from such steps.

## Main results

* `Check.Scopeless.outcome_withScopes` — such a computation comes to the same in any
  scopes, and leaves them as they are.
-/

namespace LuaTyping.Check

/-- Computations that are put together from steps that do not look at the scopes. -/
inductive Scopeless : {α : Type} → Check α → Prop
  | pure {α : Type} (a : α) : Scopeless (pure a)
  | throw {α : Type} (e : Stop) : Scopeless (throw e : Check α)
  | naming {α : Type} (x : Naming α) : Scopeless (naming x)
  | fresh : Scopeless fresh
  | await (x : String) : Scopeless (await x)
  | bind {α β : Type} {x : Check α} {f : α → Check β} :
      Scopeless x → (∀ a, Scopeless (f a)) → Scopeless (x >>= f)

variable {α β : Type} {l : Location}

/-- In other scopes, such a computation comes to the same, and it leaves them as they are. -/
theorem Scopeless.outcome_withScopes {x : Check α} (h : Scopeless x) (σ : Session) (s : Scopes) :
    outcome x { σ with scopes := s } =
      ((outcome x σ).1, { (outcome x σ).2 with scopes := s }) := by
  induction h generalizing σ with
  | pure | throw | naming | fresh | await => rfl
  | @bind α β x f _ _ ih ihf =>
    rw [outcome_bind, outcome_bind, ih]
    rcases outcome x σ with ⟨e | a, σ'⟩
    · rfl
    · exact ihf a σ'

/-- It leaves the scopes as they are, and the register too. -/
theorem Scopeless.scopes_eq {x : Check α} (h : Scopeless x) (σ : Session) :
    (outcome x σ).2.scopes = σ.scopes ∧ (outcome x σ).2.supply.shared = σ.supply.shared := by
  induction h generalizing σ with
  | pure | throw | naming | fresh | await => exact ⟨rfl, rfl⟩
  | @bind α β x f _ _ ih ihf =>
    have hx := ih σ
    rw [outcome_bind]
    rcases hout : outcome x σ with ⟨e | a, σ'⟩ <;> rw [hout] at hx
    · exact hx
    · exact ⟨(ihf a σ').1.trans hx.1, (ihf a σ').2.trans hx.2⟩

/-! ## The operations -/

lemma scopeless_fault (f : Fault) : Scopeless (fault f : Check α) := .throw _

lemma scopeless_report (l : Location) (m : String) : Scopeless (report l m : Check α) := .throw _

lemma scopeless_ite {c : Prop} [Decidable c] {x y : Check α} (hx : Scopeless x) (hy : Scopeless y) :
    Scopeless (if c then x else y) := by
  split
  · exact hx
  · exact hy

lemma scopeless_ofExcept (e : Except Fault α) : Scopeless (ofExcept e) := by
  cases e with
  | ok a => exact Scopeless.pure a
  | error f => exact scopeless_fault f

lemma scopeless_apply (s : Subst) (t : Ty) : Scopeless (apply s t) := scopeless_ofExcept _

lemma scopeless_compose (s t : Subst) : Scopeless (compose s t) := Scopeless.naming _

lemma scopeless_member (as : List α) (k : Nat) : Scopeless (member as k) := by
  unfold member
  split
  · exact .pure _
  · exact scopeless_fault _

lemma scopeless_unifyAt (l : Location) (a b : Ty) : Scopeless (unifyAt l a b) := by
  refine (Scopeless.naming _).bind fun u => ?_
  split
  · exact .pure _
  · exact scopeless_report _ _

lemma scopeless_unifyOrNot (a b : Ty) : Scopeless (unifyOrNot a b) := by
  refine (Scopeless.naming _).bind fun u => ?_
  split <;> exact .pure _

lemma scopeless_forM {f : α → Check Unit} (h : ∀ a, Scopeless (f a)) :
    ∀ as : List α, Scopeless (as.forM f)
  | [] => .pure _
  | a :: as => (h a).bind fun _ => scopeless_forM h as

lemma scopeless_enterField {k v : Ty} {fields : List (Ty × Ty)} :
    Scopeless (enterField k v fields) := by
  induction fields with
  | nil => exact .pure _
  | cons f rest ih =>
    refine (Scopeless.naming _).bind fun b => scopeless_ite ?_ (ih.bind fun _ => .pure _)
    refine (Scopeless.naming _).bind fun u => ?_
    split
    · exact (Scopeless.naming _).bind fun _ => .pure _
    · exact (scopeless_apply _ _).bind fun _ => .pure _

lemma scopeless_typeNamed? (name : String) : Scopeless (typeNamed? name) := by
  unfold typeNamed?
  split
  case h_6 =>
    exact Scopeless.fresh.bind fun _ => Scopeless.fresh.bind fun _ =>
      Scopeless.fresh.bind fun _ => .pure _
  all_goals exact .pure _

/-- The type of an operation whose operand has to be of a certain type. -/
def demand (l : Location) (s : Subst) (t wanted result : Ty) : Check Inferred := do
  let (s', _) ← unifyAt l t wanted
  return ⟨← compose s' s, result⟩

lemma scopeless_demand {s : Subst} {t wanted result : Ty} :
    Scopeless (demand l s t wanted result) :=
  (scopeless_unifyAt _ _ _).bind fun _ => (scopeless_compose _ _).bind fun _ => .pure _

/-- The type of a comparison, once its operands have been unified. -/
def comparisonOf (left right : Node) (a b : Inferred) (t u : Ty) (s : Subst) : Check Inferred := do
  let checks ← comparisonChecks left right t u
  let s ← compose a.subst (← compose b.subst s)
  return ⟨s, .con "boolean" [] none checks⟩

lemma scopeless_inferUniform (left right : Node) (a b : Inferred) (wanted result : Ty) :
    Scopeless (inferUniform left right a b wanted result) :=
  (scopeless_unifyAt _ _ _).bind fun _ => (scopeless_unifyAt _ _ _).bind fun _ =>
    (scopeless_compose _ _).bind fun _ => (scopeless_compose _ _).bind fun _ =>
      (scopeless_compose _ _).bind fun _ => .pure _

lemma scopeless_checksOf (t : Ty) : Scopeless (checksOf t) := by
  unfold checksOf
  split
  · exact .pure _
  · exact scopeless_fault _

lemma scopeless_inferConnective (left right : Node) (a b : Inferred) :
    Scopeless (inferConnective left right a b) :=
  (scopeless_unifyAt _ _ _).bind fun _ => (scopeless_unifyAt _ _ _).bind fun _ =>
    (scopeless_apply _ _).bind fun _ => (scopeless_apply _ _).bind fun _ =>
      (scopeless_checksOf _).bind fun _ => (scopeless_checksOf _).bind fun _ =>
        (scopeless_compose _ _).bind fun _ => (scopeless_compose _ _).bind fun _ =>
          (scopeless_compose _ _).bind fun _ => .pure _

lemma scopeless_annotated (note : Node) : Scopeless (annotated note) := by
  unfold annotated
  split
  · exact .pure _
  · exact scopeless_fault _

/-- The type of a function from that of its body. -/
def functionOf (l : Location) (isVararg : Bool) (types : List Ty) (rest : Ty) (wanted : Option Ty)
    (b : Inferred) : Check Inferred := do
  let types ← apply b.subst (.tuple types)
  let result ← match wanted with
    | none => pure b.type
    | some wanted => do
      let (s, u) ← unifyAt l b.type wanted
      apply s u.right
  return ⟨b.subst, .function types result rest (some (.flag isVararg))⟩

lemma scopeless_functionOf {isVararg : Bool} {types : List Ty} {rest : Ty} {wanted : Option Ty}
    (b : Inferred) : Scopeless (functionOf l isVararg types rest wanted b) := by
  refine (scopeless_apply _ _).bind fun _ => ?_
  cases wanted with
  | none => exact .pure _
  | some wanted =>
    exact (scopeless_unifyAt _ _ _).bind fun _ => (scopeless_apply _ _).bind fun _ => .pure _

lemma scopeless_inferRest {found : Option Ty} {ts : List Ty} :
    Scopeless (inferRest l found ts) := by
  induction ts generalizing found with
  | nil => exact .pure _
  | cons t ts ih =>
    exact (scopeless_unifyAt _ _ _).bind fun _ => (scopeless_apply _ _).bind fun _ => ih

lemma scopeless_callUnknown (x : String) (f args : Subst) (types : List Ty) (result : Ty) :
    Scopeless (callUnknown l x f args types result) :=
  (scopeless_unifyAt _ _ _).bind fun _ => (scopeless_compose _ _).bind fun _ =>
    (scopeless_compose _ _).bind fun _ => (scopeless_compose _ _).bind fun _ =>
      (scopeless_apply _ _).bind fun _ => .pure _

lemma scopeless_splitArgs (fargs types : List Ty) (value : Option Literal) :
    Scopeless (splitArgs l fargs value types) := by
  refine scopeless_ite ((scopeless_member _ _).bind fun p => ?_) (.pure _)
  split
  · exact scopeless_inferRest.bind fun _ => .pure _
  · exact scopeless_fault _

lemma scopeless_bindRest (rest : Option Ty) (fargs : List Ty) (s : Subst) :
    Scopeless (bindRest rest fargs s) := by
  cases rest with
  | none => exact .pure _
  | some t =>
    refine (scopeless_member _ _).bind fun p => scopeless_ite (.pure _) ?_
    split
    · exact scopeless_compose _ _
    · exact scopeless_fault _

lemma scopeless_callKnown (callee : Ty) (value : Option Literal) (f args : Subst) (types : List Ty)
    (result : Ty) : Scopeless (callKnown l callee value f args types result) :=
  (scopeless_splitArgs _ _ _).bind fun _ => (scopeless_unifyAt _ _ _).bind fun _ =>
    (scopeless_member _ _).bind fun _ => (scopeless_unifyAt _ _ _).bind fun _ =>
      (scopeless_bindRest _ _ _).bind fun _ => (scopeless_compose _ _).bind fun _ =>
        (scopeless_compose _ _).bind fun _ => (scopeless_compose _ _).bind fun _ =>
          (scopeless_apply _ _).bind fun _ => .pure _

lemma scopeless_replaceFields {key value : Ty} {fields : List (Ty × Ty)} :
    Scopeless (replaceFields l key value fields) := by
  induction fields generalizing value with
  | nil => exact .pure _
  | cons f rest ih =>
    refine (Scopeless.naming _).bind fun _ => scopeless_ite ?_ (ih.bind fun _ => .pure _)
    exact (scopeless_unifyAt _ _ _).bind fun _ => (scopeless_apply _ _).bind fun _ =>
      ih.bind fun _ => .pure _

lemma scopeless_assignField {key value : Ty} {fields : List (Ty × Ty)} :
    Scopeless (assignField l key value fields) :=
  scopeless_replaceFields.bind fun _ => scopeless_ite (.pure _) (.pure _)

lemma scopeless_changeAt {change : List (Ty × Ty) → Check (List (Ty × Ty))}
    (h : ∀ fields, Scopeless (change fields)) {keys : List Ty} {t : Ty} :
    Scopeless (changeAt change keys t) := by
  induction keys generalizing t with
  | nil =>
    cases t with
    | table fields => exact (h fields).bind fun _ => .pure _
    | _ => exact .pure _
  | cons key keys ih =>
    cases t with
    | table fields =>
      refine (Scopeless.naming _).bind fun o => ?_
      split
      · exact ih.bind fun _ => .pure _
      · exact ih
    | _ => exact scopeless_fault _

lemma scopeless_annotatedTuple (note : Node) : Scopeless (annotatedTuple note) := by
  unfold annotatedTuple
  split
  · split
    · exact .pure _
    · exact scopeless_fault _
  · exact scopeless_fault _

/-- The type of a conditional statement from those of its condition and its branches. -/
def joinBranches (c b e : Inferred) : Check Inferred := do
  let s ← compose e.subst b.subst
  let (t, u) ← unifyOrNot e.type b.type.broaden
  let joined ← naming (u.left.join b.type)
  let type ← apply c.subst (← apply t joined)
  return ⟨{ s with returning := b.subst.returning && e.subst.returning }, type⟩

lemma scopeless_joinBranches (c b e : Inferred) : Scopeless (joinBranches c b e) :=
  (scopeless_compose _ _).bind fun _ => (scopeless_unifyOrNot _ _).bind fun _ =>
    (Scopeless.naming _).bind fun _ => (scopeless_apply _ _).bind fun _ =>
      (scopeless_apply _ _).bind fun _ => .pure _

lemma scopeless_returned (expr : Node) (t : Ty) : Scopeless (returned expr t) := by
  refine (scopeless_ofExcept _).bind fun ts => ?_
  split
  · split
    · split
      · exact .pure _
      · exact scopeless_fault _
    · exact .pure _
  · exact .pure _

lemma scopeless_addReturn (p : Progress) (i : Inferred) : Scopeless (addReturn l p i) :=
  scopeless_ite ((scopeless_unifyOrNot _ _).bind fun _ => (Scopeless.naming _).bind fun _ =>
    (scopeless_apply _ _).bind fun _ => .pure _)
    ((scopeless_unifyAt _ _ _).bind fun _ => .pure _)

lemma scopeless_addLast (result : Option Ty) (last : Ty) : Scopeless (addLast result last) := by
  cases result with
  | none => exact .pure _
  | some result =>
    refine (scopeless_unifyOrNot _ _).bind fun _ => (scopeless_apply _ _).bind fun _ =>
      scopeless_ite ?_ (scopeless_fault _)
    exact (Scopeless.naming _).bind fun _ => .pure _

end LuaTyping.Check
