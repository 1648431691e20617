import LuaTyping.Proofs.Conditions

set_option autoImplicit false

/-!
# What the branches know

A conditional statement narrows the variables that its condition tests before it infers its
branches. It does so in one scope for both branches: the checks of the condition narrow a variable
to what they allow, the first branch is inferred, and then the same checks narrow the variable
once more, from the type that it has by then, before the other branch is inferred. A union has been
narrowed to one of its alternatives at this point, from which nothing can be taken. So the other
branch knows of the variable what the condition says, not the contrary.

In the first branch the variable has what its type has in common with every name that is tested.
Tests for inequality and disjunctions count as their contraries do.

## Main results

* `Check.else_branch_sees_tested` — the type of a tested variable in the last branch.
* `Check.returned_narrowed_iff` — the type of a tested variable in the first branch.
* `Check.condition_keeps_cases_iff` — when every case is kept in the first branch.
-/

namespace LuaTyping

namespace Scopes

variable {s : Scopes} {x : String}

lemma enterName_enterName {α : Type} {a b : α} {frame : List (String × α)} :
    enterName x b (enterName x a frame) = enterName x b frame := by
  induction frame with
  | nil => simp [enterName]
  | cons e frame ih =>
    by_cases h : e.1 = x
    · simp [enterName, h]
    · simp [enterName, h, ih]

lemma bind_bind (t u : Ty) : (s.bind x t).bind x u = s.bind x u := by
  obtain ⟨frames, globals⟩ := s
  cases frames with
  | nil => simp [bind, enter, enterName]
  | cons frame rest => simp [bind, enter, enterName_enterName]

end Scopes

namespace Check

open Naming Ty

variable {σ : Session} {x name : String} {T U t u : Ty} {l lx : Location} {names : List String}
  {checks rest : List Checked}

/-! ## Narrowing by checks -/

/-- A check gives a variable what its type has in common with what the name stands for. -/
lemma outcome_narrowTo_cons (hx : σ.scopes.local? x = some U) (hU : U.Scalar) (ht : Named name t)
    (hu : U.restrictTo name = some u) (depth : Nat) :
    outcome (narrowTo (inferTo (depth + 1)) l ((.var lx x, t) :: rest)) σ =
      outcome (narrowTo (inferTo (depth + 1)) l rest)
        { σ with scopes := σ.scopes.bind x u } := by
  have hvar : outcome (inferTo (depth + 1) (.var lx x)) σ = (.ok (ofType U), σ) :=
    outcome_inferVar hx hU.ground
  have hmeet : outcome (naming (U.meet t)) σ = (.ok (some u), σ) := by
    rw [hU.meet_named ht, hu, outcome_naming_pure]
  have hbind : outcome (bind x u) σ = (.ok (), { σ with scopes := σ.scopes.bind x u }) := rfl
  simp only [narrowTo, outcome_bind, hvar, ofType, hmeet, restrict, hbind]

/-- A check that leaves nothing of a type does not succeed. -/
lemma narrowTo_cons_ne_ok (hx : σ.scopes.local? x = some U) (hU : U.Scalar) (ht : Named name t)
    (hu : U.restrictTo name = none) (depth : Nat) (σ' : Session) :
    outcome (narrowTo (inferTo (depth + 1)) l ((.var lx x, t) :: rest)) σ ≠ (.ok (), σ') := by
  intro h
  obtain ⟨now, σ₁, hnow, h⟩ := bind_eq_ok.1 h
  have hvar : outcome (inferTo (depth + 1) (.var lx x)) σ = (.ok (ofType U), σ) :=
    outcome_inferVar hx hU.ground
  obtain ⟨rfl, rfl⟩ : ofType U = now ∧ σ = σ₁ := by simpa using hvar.symm.trans hnow
  obtain ⟨m, σ₂, hm, h⟩ := bind_eq_ok.1 h
  change outcome (naming (U.meet t)) σ = _ at hm
  rw [hU.meet_named ht, hu, outcome_naming_pure] at hm
  obtain ⟨rfl, rfl⟩ : none = m ∧ σ = σ₂ := by simpa using hm
  obtain ⟨shown, σ₃, _, h⟩ := bind_eq_ok.1 h
  obtain ⟨other, σ₄, _, h⟩ := bind_eq_ok.1 h
  cases h

/-- Checks of a variable narrow it to what its type has in common with all the names. -/
lemma outcome_narrowTo (hx : σ.scopes.local? x = some U) (hU : U.Scalar)
    (hchecks : ChecksFor x names checks) (hT : U.narrowed names = some T) (depth : Nat) :
    ∃ s, outcome (narrowTo (inferTo (depth + 1)) l checks) σ = (.ok (), { σ with scopes := s }) ∧
      s.local? x = some T := by
  induction hchecks generalizing σ U with
  | nil =>
    cases hT
    exact ⟨σ.scopes, rfl, hx⟩
  | @cons n k names checks hk _ ih =>
    obtain ⟨⟨lx, hplace⟩, ht⟩ := hk
    obtain ⟨p, t⟩ := k
    obtain rfl : p = .var lx x := hplace
    rw [Ty.narrowed, List.foldlM_cons] at hT
    obtain ⟨u, hu, hT⟩ := Option.bind_eq_some_iff.1 hT
    rw [outcome_narrowTo_cons hx hU ht hu]
    exact ih Scopes.local?_bind_self (hU.restrictTo_eq_some hu).2.1 hT

/-- Checks that leave nothing of a type do not succeed. -/
lemma narrowTo_ne_ok (hx : σ.scopes.local? x = some U) (hU : U.Scalar)
    (hchecks : ChecksFor x names checks) (hT : U.narrowed names = none) (depth : Nat)
    (σ' : Session) : outcome (narrowTo (inferTo (depth + 1)) l checks) σ ≠ (.ok (), σ') := by
  induction hchecks generalizing σ U with
  | nil => cases hT
  | @cons n k names checks hk _ ih =>
    obtain ⟨⟨lx, hplace⟩, ht⟩ := hk
    obtain ⟨p, t⟩ := k
    obtain rfl : p = .var lx x := hplace
    rw [Ty.narrowed, List.foldlM_cons] at hT
    cases hu : U.restrictTo n with
    | none => exact narrowTo_cons_ne_ok hx hU ht hu depth σ'
    | some u =>
      rw [hu] at hT
      rw [outcome_narrowTo_cons hx hU ht hu]
      exact ih Scopes.local?_bind_self (hU.restrictTo_eq_some hu).2.1 hT

/-- Nothing is taken from a type that is no union. -/
lemma outcome_narrowFrom {c : String} {v : Option Literal} {ks : List Checked}
    (hx : σ.scopes.local? x = some (.con c [] v ks)) (depth : Nat) :
    outcome (narrowFrom (inferTo (depth + 1)) [(.var lx x, t)]) σ =
      (.ok (), { σ with scopes := σ.scopes.bind x (.con c [] v ks) }) := by
  have hvar : outcome (inferTo (depth + 1) (.var lx x)) σ = (.ok (ofType (.con c [] v ks)), σ) :=
    outcome_inferVar hx (ground_con_iff.2 (by simp))
  have hsubtract : outcome (naming ((Ty.con c [] v ks).subtract t)) σ =
      (.ok (.con c [] v ks), σ) := rfl
  have hbind : outcome (bind x (.con c [] v ks)) σ =
      (.ok (), { σ with scopes := σ.scopes.bind x (.con c [] v ks) }) := rfl
  simp only [narrowFrom, outcome_bind, hvar, ofType, hsubtract, restrict, hbind, outcome_pure]

/-! ## The parts of a conditional statement -/

/-- Runs a computation in a scope that is open already, and closes it however the computation
ends. -/
def closing {α : Type} (y : Check α) : Check α := fun s =>
  let (r, s) := y s
  (r, { s with scopes := s.scopes.pop })

lemma outcome_inScope_eq_closing {α : Type} (y : Check α) :
    outcome (inScope y) σ = outcome (closing y) { σ with scopes := σ.scopes.push } := rfl

lemma outcome_closing_bind {α β : Type} {y : Check α} {f : α → Check β} {σ' : Session} {a : α}
    (h : outcome y σ = (.ok a, σ')) :
    outcome (closing (y >>= f)) σ = outcome (closing (f a)) σ' := by
  have hbind : outcome (y >>= f) σ = outcome (f a) σ' := by rw [outcome_bind, h]
  exact congrArg (fun p : Except Stop β × Session =>
    (p.1, { p.2 with scopes := p.2.scopes.pop })) hbind

lemma exists_of_closing {α : Type} {y : Check α} {σ' : Session} {a : α}
    (h : outcome (closing y) σ = (.ok a, σ')) : ∃ τ, outcome y σ = (.ok a, τ) :=
  ⟨(outcome y σ).2, Prod.ext (congrArg Prod.fst h : (outcome y σ).1 = .ok a) rfl⟩

/-- The last branch, and what it is joined with: what is known of the condition and of the first
branch. -/
def inferLast (infer : Inference) (c b : Inferred) (other : Node) : Check Inferred := do
  let e ← infer other
  let s ← compose e.subst b.subst
  let (t, u) ← unifyOrNot e.type b.type.broaden
  let joined ← naming (u.left.join b.type)
  let type ← apply c.subst (← apply t joined)
  return ⟨{ s with returning := b.subst.returning && e.subst.returning }, type⟩

/-- The branches, with the checks that they are narrowed by. -/
def inferBranches (infer : Inference) (l : Location) (checks : List Checked) (c : Inferred)
    (body : Node) (otherwise : Option Node) : Check Inferred := do
  narrowTo infer l checks
  let b ← infer body
  match otherwise with
  | none => return ⟨{ b.subst with returning := false }, ← apply c.subst b.type⟩
  | some other =>
    narrowFrom infer checks
    inferLast infer c b other

lemma inferBranch_eq (infer : Inference) (l : Location) (condition body : Node)
    (otherwise : Option Node) :
    inferBranch infer l condition body otherwise = (do
      let c ← inScope (infer condition)
      let _ ← unifyAt l c.type .boolean
      inScope (inferBranches infer l (conditionChecks c.type) c body otherwise)) := rfl

/-- The condition is inferred in a scope of its own, and is accepted. -/
lemma outcome_inferBranch {C : Condition NameTest} {condition : Node}
    (hC : C.Written (NameTest.Written x) condition) (h : Testable x U σ.scopes) (hU : U.Scalar)
    {depth : Nat} (hdepth : condition.size ≤ depth) (body : Node) (otherwise : Option Node) :
    ∃ c σ₁ checks, ChecksFor x (knownNames C) checks ∧ σ₁.scopes = σ.scopes ∧
      outcome (inferBranch (inferTo depth) l condition body otherwise) σ =
        outcome (inScope (inferBranches (inferTo depth) l checks c body otherwise)) σ₁ := by
  obtain ⟨c, σ₁, hc, hconcludes⟩ := (succeeds_infer_condition hC
    (σ := { σ with scopes := σ.scopes.push }) h.push hU hdepth).exists_eq
  obtain ⟨checks, htype, hchecks⟩ := hconcludes.type
  have hcondition : outcome (inScope (inferTo depth condition)) σ =
      (.ok c, { σ₁ with scopes := σ₁.scopes.pop }) := by
    rw [outcome_inScope, hc]
  have hunify : outcome (unifyAt l c.type .boolean) { σ₁ with scopes := σ₁.scopes.pop } =
      (.ok (.empty, ⟨.ok .empty, .con "boolean" [] none checks, .boolean⟩),
        { σ₁ with scopes := σ₁.scopes.pop }) := by
    rw [htype]
    rfl
  have hsame : conditionChecks c.type = checks := by rw [htype]; rfl
  refine ⟨c, { σ₁ with scopes := σ₁.scopes.pop }, checks, hchecks,
    congrArg Scopes.pop hconcludes.scopes, ?_⟩
  simp only [inferBranch_eq, outcome_bind, hcondition, hunify, hsame]

/-! ## The last branch -/

lemma outcome_infer_empty (lk : Location) (depth : Nat) :
    outcome (inferTo (depth + 1) (.chunk lk [] none)) σ =
      (.ok ⟨.empty, .tuple []⟩, σ) := rfl

/-- **The last branch sees what was tested**. Let `x` be bound to a union `U` of simple values, some
of which have the name that a test `type(x) == "name"` is for and some of which do not, and `type`
to the standard function. Then the inference of `if type(x) == "name" then else other end` comes to
the branch `other` with all names as they were but for `x`, which has a type `T` that exactly those
alternatives of `U` extend that have the tested name. The others are those that are left of `U`
without the tested type.

**Proof sketch.** The test succeeds with one check, by which `x` is narrowed to the first
alternative of the tested name. The first branch binds nothing. The check is then used a second
time, on this alternative, and what is no union stays as it is. -/
theorem else_branch_sees_tested {test : Node} (htest : (NameTest.is name).Written x test)
    (hU : U.Scalar) (h : Testable x U σ.scopes) (hnamed : ∃ m ∈ U.members, m.isNamed name = true)
    (hothers : ∃ m ∈ U.members, m.isNamed name = false) (lk : Location) (elseifs : List Node)
    (other : Node) :
    ∃ T V c depth τ,
      depthFor (.branch l test (.chunk lk [] none) elseifs (some other)) = depth + 1 ∧
      outcome (infer (.branch l test (.chunk lk [] none) elseifs (some other))) σ =
        outcome (closing (inferLast (inferTo depth) c ⟨.empty, .tuple []⟩ other)) τ ∧
      τ.scopes = σ.scopes.push.bind x T ∧
      (∀ m ∈ U.members, m.fits T = pure (m.isNamed name)) ∧
      U.subtract (.plain name) = pure V ∧
      V.members = U.members.filter fun m => !m.isNamed name := by
  obtain ⟨T, hT⟩ := Option.isSome_iff_exists.1 (hU.isSome_restrictTo_iff.2 hnamed)
  obtain ⟨⟨v, ks, rfl⟩, hscalar, hmem⟩ := hU.restrictTo_eq_some hT
  obtain ⟨V, hV, hmembers⟩ := hU.subtract_named hothers []
  have hname : knownNames (.test (.is name)) = [name] := by
    have hknown : name ∈ typeNames := by
      simp only [scalarNames, typeNames, List.mem_cons, List.not_mem_nil, or_false] at hmem ⊢
      tauto
    simp [knownNames, Condition.tests, NameTest.name, hknown]
  set depth := 2 * (Node.branch l test (.chunk lk [] none) elseifs (some other)).size + 998
    with hdepth
  have hsize : test.size ≤ depth + 1 := by
    simp only [hdepth, Node.size]
    omega
  obtain ⟨c, σ₁, checks, hchecks, hscopes, hbranch⟩ := outcome_inferBranch (l := l)
    (.test htest) h hU hsize (.chunk lk [] none) (some other)
  rw [hname] at hchecks
  obtain ⟨⟨p, t⟩, checks, ⟨⟨lx, hplace⟩, ht⟩, hrest, rfl⟩ := List.forall₂_cons_left_iff.1 hchecks
  obtain rfl := List.forall₂_nil_left_iff.1 hrest
  obtain rfl : p = .var lx x := hplace
  have hx : (σ₁.scopes.push).local? x = some U := hscopes ▸ h.push.local?
  have hbound : (σ₁.scopes.push.bind x (.con name [] v ks)).local? x = some (.con name [] v ks) :=
    Scopes.local?_bind_self
  refine ⟨_, V, c, depth + 1, { σ₁ with scopes := σ₁.scopes.push.bind x (.con name [] v ks) },
    rfl, ?_, by rw [hscopes], fun m hm => hU.fits_restrictTo hT hm, hV, hmembers⟩
  refine hbranch.trans ?_
  rw [outcome_inScope_eq_closing]
  have hto : outcome (narrowTo (inferTo (depth + 1)) l [(.var lx x, t)])
      { σ₁ with scopes := σ₁.scopes.push } =
        (.ok (), { σ₁ with scopes := σ₁.scopes.push.bind x (.con name [] v ks) }) :=
    outcome_narrowTo_cons (σ := { σ₁ with scopes := σ₁.scopes.push }) hx hU ht hT depth
  have hfrom : outcome (narrowFrom (inferTo (depth + 1)) [(.var lx x, t)])
      { σ₁ with scopes := σ₁.scopes.push.bind x (.con name [] v ks) } = _ :=
    outcome_narrowFrom hbound depth
  rw [Scopes.bind_bind] at hfrom
  unfold inferBranches
  rw [outcome_closing_bind hto, outcome_closing_bind (outcome_infer_empty lk depth),
    outcome_closing_bind hfrom]

/-! ### A number or a string -/

/-- A number or a string. -/
def numberOrString : Ty := .union .number .string

lemma scalar_numberOrString : numberOrString.Scalar :=
  .union (.con _ (by decide) (by simp)) (.con _ (by decide) (by simp))

lemma testable_numberOrString : Testable "x" numberOrString (sessionWith numberOrString).scopes :=
  ⟨local?_sessionWith _, scalar_numberOrString.single, rfl, rfl⟩

/-- The test `type(x) == "number"`. -/
def numberTest : Node :=
  .binary default (.call default (.var default "type") [.var default "x"]) .equal
    (.string default "number")

/-- The block `y = x`. -/
def keepX : Node :=
  .chunk default [.assign default [.var default "y"] [.var default "x"]] none

/-- The last branch of a test for numbers sees a number where a string is left. -/
theorem else_branch_sees_tested_number :
    numberOrString.Scalar ∧
      Testable "x" numberOrString (sessionWith numberOrString).scopes ∧
      (∃ m ∈ numberOrString.members, m.isNamed "number" = true) ∧
      (∃ m ∈ numberOrString.members, m.isNamed "number" = false) ∧
      ∃ T V c depth τ,
        outcome (infer (.branch default numberTest (.chunk default [] none) [] (some keepX)))
            (sessionWith numberOrString) =
          outcome (closing (inferLast (inferTo depth) c ⟨.empty, .tuple []⟩ keepX)) τ ∧
        τ.scopes = (sessionWith numberOrString).scopes.push.bind "x" T ∧
        (∀ m ∈ numberOrString.members, m.fits T = pure (m.isNamed "number")) ∧
        numberOrString.subtract .number = pure V ∧
        V.members = numberOrString.members.filter fun m => !m.isNamed "number" := by
  have hnamed : ∃ m ∈ numberOrString.members, m.isNamed "number" = true :=
    ⟨.number, by simp [numberOrString, members, number, string, plain], rfl⟩
  have hothers : ∃ m ∈ numberOrString.members, m.isNamed "number" = false :=
    ⟨.string, by simp [numberOrString, members, number, string, plain], rfl⟩
  have htest : (NameTest.is "number").Written "x" numberTest := .is _ _ _ _ _ _
  obtain ⟨T, V, c, depth, τ, -, h⟩ := else_branch_sees_tested (l := default) htest
    scalar_numberOrString testable_numberOrString hnamed hothers default [] keepX
  exact ⟨scalar_numberOrString, testable_numberOrString, hnamed, hothers, T, V, c, depth, τ, h⟩

/-- Where a number or a string is tested for a number, the last branch can give `x`, which has to be
a string there, to another name, and this name has a type that strings do not extend. -/
theorem else_branch_not_complement :
    ∃ i σ' T, outcome (infer (.branch default numberTest (.chunk default [] none) [] (some keepX)))
        (sessionWith numberOrString) = (.ok i, σ') ∧
      σ'.scopes.global? "y" = some T ∧ Ty.string ∈ numberOrString.members ∧
      Ty.string.isNamed "number" = false ∧
      (outcome (Ty.string.fits T) []).1.toOption = some false := by
  obtain ⟨i, σ', h⟩ := exists_of_isOk
    (x := infer (.branch default numberTest (.chunk default [] none) [] (some keepX)))
    (s := sessionWith numberOrString) (by decide +kernel)
  have hy : ((outcome (infer (.branch default numberTest (.chunk default [] none) [] (some keepX)))
      (sessionWith numberOrString)).2.scopes.global? "y").map
        (fun T => (outcome (Ty.string.fits T) []).1.toOption) = some (some false) := by
    decide +kernel
  rw [h] at hy
  obtain ⟨T, hT, hfits⟩ := Option.map_eq_some_iff.1 hy
  exact ⟨i, σ', T, h, hT, by simp [numberOrString, members, number, string, plain], rfl, hfits⟩

/-! ## The first branch -/

section FirstBranch

variable {C : Condition NameTest} {condition block : Node}

lemma outcome_infer_returnBlock (hblock : ReturnBlock x block) (hx : σ.scopes.local? x = some T)
    (hT : T.Scalar) (depth : Nat) :
    ∃ b σ', outcome (inferTo (depth + 3) block) σ = (.ok b, σ') ∧ b.type = .tuple [T] :=
  Succeeds.exists_eq (hblock.ensures_infer hx hT.single depth)

/-- What a statement returns in its first branch is what the type of a variable has in common with
all names that are tested, and the statement succeeds only if there is something. -/
theorem returned_narrowed_iff (hC : C.Written (NameTest.Written x) condition)
    (hblock : ReturnBlock x block) (hU : U.Scalar) (h : Testable x U σ.scopes) (t : Ty) :
    (∃ i σ', outcome (infer (.branch l condition block [] none)) σ = (.ok i, σ') ∧ i.type = t) ↔
      ∃ T, U.narrowed (knownNames C) = some T ∧ t = .tuple [T] := by
  have hsize : condition.size ≤
      2 * (Node.branch l condition block [] none).size + 996 + 3 := by
    simp only [Node.size]
    omega
  obtain ⟨c, σ₁, checks, hchecks, hscopes, hbranch⟩ := outcome_inferBranch (l := l) hC h hU hsize
    block none
  set depth := 2 * (Node.branch l condition block [] none).size + 996
  have hx : (σ₁.scopes.push).local? x = some U := hscopes ▸ h.push.local?
  have heq : outcome (infer (.branch l condition block [] none)) σ =
      outcome (closing (inferBranches (inferTo (depth + 3)) l checks c block none))
        { σ₁ with scopes := σ₁.scopes.push } := hbranch
  rw [heq]
  cases hT : U.narrowed (knownNames C) with
  | none =>
    refine ⟨?_, fun ⟨T, hsome, _⟩ => nomatch hsome⟩
    rintro ⟨i, σ', hok, -⟩
    obtain ⟨σ₂, hok⟩ := exists_of_closing hok
    obtain ⟨_, σ₃, hto, -⟩ := bind_eq_ok.1 hok
    exact (narrowTo_ne_ok (σ := { σ₁ with scopes := σ₁.scopes.push }) hx hU hchecks hT _ σ₃
      hto).elim
  | some T =>
    obtain ⟨s, hto, hnarrowed⟩ := outcome_narrowTo (σ := { σ₁ with scopes := σ₁.scopes.push })
      (l := l) hx hU hchecks hT (depth + 2)
    have hscalar := hU.narrowed hT
    obtain ⟨b, σ₂, hb, htype⟩ := outcome_infer_returnBlock (σ := { σ₁ with scopes := s }) hblock
      hnarrowed hscalar depth
    have htuple : (Ty.tuple [T]).Ground :=
      within_tuple_iff.2 (List.forall_mem_singleton.2 hscalar.ground)
    have happly : outcome (apply c.subst b.type) σ₂ = (.ok (.tuple [T]), σ₂) := by
      rw [htype]
      exact apply_eq_ok.2 ⟨htuple.apply c.subst, rfl⟩
    unfold inferBranches
    rw [outcome_closing_bind hto, outcome_closing_bind hb]
    dsimp only
    rw [outcome_closing_bind happly]
    constructor
    · rintro ⟨i, σ', hok, rfl⟩
      obtain rfl := Except.ok.inj (Prod.mk.inj hok).1
      exact ⟨T, rfl, rfl⟩
    · rintro ⟨T', hT', rfl⟩
      obtain rfl := Option.some.inj hT'
      exact ⟨_, _, rfl, rfl⟩

/-- **When narrowing keeps every case**. Let `x` be bound to a union `U` of simple values, and let a
condition be made of tests for and against names of types, with `and` and `or`. If some alternatives
of `U` make the condition true, then `if condition then return x end` is to succeed, and all of
these alternatives are to extend what it returns for `x`. This is so if the condition is true for
none of them; if no test is for a name that tests know; and otherwise if and only if all those tests
are for one name, and only alternatives of this name make the condition true. The type that is
returned is what `U` has in common with all tested names, whatever the tests ask and however they
are joined. An alternative also counts as kept where the test against the whole type stops with a
fault, but the one against an alternative of it says yes (`Ty.Extends`).

**Proof sketch.** By `returned_narrowed_iff` the statement returns `U` if no known name is tested.
If all known names that are tested are the same, it returns the first alternative of this name,
which only alternatives of this name extend; and if they are not, it does not succeed. -/
theorem condition_keeps_cases_iff (hC : C.Written (NameTest.Written x) condition)
    (hblock : ReturnBlock x block) (hU : U.Scalar) (h : Testable x U σ.scopes) :
    (∀ T, (∃ i σ', outcome (infer (.branch l condition block [] none)) σ = (.ok i, σ') ∧
        i.type = .tuple [T]) ↔ U.narrowed (knownNames C) = some T) ∧
      (((∃ m ∈ U.members, C.holds (NameTest.holds m) = true) →
          ∃ i σ' T, outcome (infer (.branch l condition block [] none)) σ = (.ok i, σ') ∧
            i.type = .tuple [T] ∧
              ∀ m ∈ U.members, C.holds (NameTest.holds m) = true → m.Extends T) ↔
        (∀ m ∈ U.members, C.holds (NameTest.holds m) = false) ∨ knownNames C = [] ∨
          ∃ n, (∀ n' ∈ knownNames C, n' = n) ∧
            ∀ m ∈ U.members, C.holds (NameTest.holds m) = true → m.isNamed n = true) := by
  have hreturned : ∀ T, (∃ i σ', outcome (infer (.branch l condition block [] none)) σ =
      (.ok i, σ') ∧ i.type = .tuple [T]) ↔ U.narrowed (knownNames C) = some T := by
    intro T
    rw [returned_narrowed_iff hC hblock hU h]
    simp [Ty.tuple]
  refine ⟨hreturned, fun hkeeps => ?_, fun hcases hsome => ?_⟩
  · by_cases hnone : ∀ m ∈ U.members, C.holds (NameTest.holds m) = false
    · exact .inl hnone
    · push Not at hnone
      obtain ⟨i, σ', T, hok, htype, hextends⟩ := hkeeps (by simpa using hnone)
      have hT := (hreturned T).1 ⟨i, σ', hok, htype⟩
      rcases hU.narrowed_eq_some_iff.1 hT with ⟨hnames, -⟩ | ⟨n, -, hall, hn⟩
      · exact .inr (.inl hnames)
      · exact .inr (.inr ⟨n, hall, fun m hm hholds =>
          (hU.extends_restrictTo_iff hn hm).1 (hextends m hm hholds)⟩)
  · obtain ⟨T, hT, hextends⟩ : ∃ T, U.narrowed (knownNames C) = some T ∧
        ∀ m ∈ U.members, C.holds (NameTest.holds m) = true → m.Extends T := by
      by_cases hnames : knownNames C = []
      · exact ⟨U, hU.narrowed_eq_some_iff.2 (.inl ⟨hnames, rfl⟩),
          fun m hm _ => hU.extends_of_mem hm⟩
      · obtain ⟨m, hm, hholds⟩ := hsome
        rcases hcases with hnone | hnil | ⟨n, hall, honly⟩
        · exact absurd hholds (by simp [hnone m hm])
        · exact absurd hnil hnames
        · obtain ⟨n', hn'⟩ := List.exists_mem_of_ne_nil _ hnames
          obtain rfl := hall n' hn'
          obtain ⟨T, hT⟩ := Option.isSome_iff_exists.1
            (hU.isSome_restrictTo_iff.2 ⟨m, hm, honly m hm hholds⟩)
          exact ⟨T, hU.narrowed_eq_some_iff.2 (.inr ⟨_, hn', hall, hT⟩), fun m' hm' hholds' =>
            (hU.extends_restrictTo_iff hT hm').2 (honly m' hm' hholds')⟩
    obtain ⟨i, σ', hok, htype⟩ := (hreturned T).2 hT
    exact ⟨i, σ', T, hok, htype, hextends⟩

end FirstBranch

/-- The condition `type(x) == "number" or type(x) == "number" and type(x) ~= "thread"`. -/
def numberOrThread : Condition NameTest :=
  .either (.test (.is "number")) (.both (.test (.is "number")) (.test (.isNot "thread")))

/-- The test `type(x) ~= "name"`. -/
def differsTest (name : String) : Node :=
  .binary default (.call default (.var default "type") [.var default "x"]) .notEqual
    (.string default name)

/-- Tests for numbers, and against a name that tests do not know, keep the only case they are true
for. -/
theorem condition_keeps_cases_number :
    numberOrString.Scalar ∧
      Testable "x" numberOrString (sessionWith numberOrString).scopes ∧
      (∃ m ∈ numberOrString.members, numberOrThread.holds (NameTest.holds m) = true) ∧
      ∃ i σ' T, outcome (infer (.branch default (.binary default numberTest .or
            (.binary default numberTest .and (differsTest "thread"))) returnX [] none))
          (sessionWith numberOrString) = (.ok i, σ') ∧ i.type = .tuple [T] ∧
        ∀ m ∈ numberOrString.members, numberOrThread.holds (NameTest.holds m) = true →
          m.Extends T := by
  have hsome : ∃ m ∈ numberOrString.members, numberOrThread.holds (NameTest.holds m) = true :=
    ⟨.number, by simp [numberOrString, members, number, string, plain], by decide⟩
  refine ⟨scalar_numberOrString, testable_numberOrString, hsome, ?_⟩
  refine (condition_keeps_cases_iff (C := numberOrThread)
    (.either _ (.test (.is _ _ _ _ _ _)) (.both _ (.test (.is _ _ _ _ _ _))
      (.test (.isNot _ _ _ _ _ _)))) (.mk _ _ _) scalar_numberOrString
      testable_numberOrString).2.2 (.inr (.inr ⟨"number", by decide, ?_⟩)) hsome
  simp only [numberOrString, members, number, string, plain, List.cons_append, List.nil_append,
    List.mem_cons, List.not_mem_nil, or_false, forall_eq_or_imp, forall_eq]
  decide

/-- A number or a string that is no number is a string, but what is returned for it is a type that
strings do not extend. -/
theorem condition_drops_case :
    Ty.string ∈ numberOrString.members ∧
      (Condition.test (.isNot "number")).holds (NameTest.holds .string) = true ∧
      ∃ i σ' T, outcome (infer (.branch default (differsTest "number") returnX [] none))
          (sessionWith numberOrString) = (.ok i, σ') ∧ i.type = .tuple [T] ∧
        ¬ Ty.string.Extends T := by
  have hrestrict : numberOrString.restrictTo "number" = some .number := rfl
  have hmem : Ty.string ∈ numberOrString.members := by
    simp [numberOrString, members, number, string, plain]
  obtain ⟨i, σ', hok, htype⟩ := (returned_narrowed_iff (C := .test (.isNot "number")) (l := default)
    (.test (.isNot _ _ _ _ _ _)) (.mk _ _ _) scalar_numberOrString testable_numberOrString
    (.tuple [.number])).2 ⟨.number, rfl, rfl⟩
  refine ⟨hmem, rfl, i, σ', .number, hok, htype, fun hextends => ?_⟩
  cases (scalar_numberOrString.extends_restrictTo_iff hrestrict hmem).1 hextends

end Check

end LuaTyping
