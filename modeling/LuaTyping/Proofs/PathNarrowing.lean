import LuaTyping.Proofs.BranchNarrowing
import LuaTyping.Proofs.PathTests

set_option autoImplicit false

/-!
# What narrowing leaves behind

A conditional statement narrows variables by binding them anew in the scope of its branches, and
these bindings end with it. It narrows a path by an assignment, which changes the type of the local
table that the path begins with. This change stays after the statement, whichever branch is taken:
the other branch narrows the path once more, but from the type that it has been narrowed to.

So after a statement whose conditions, branches and checks hold no assignments, only the types of
tables can differ. If its condition is made of tests of property paths of records, every tested path
has the type that it was tested for, with its literal value forgotten; so all types are as before
exactly if every tested path had one type without a literal value.

## Main definitions

* `Node.Assignless` — a tree holds no assignments.

## Main results

* `Check.ensures_narrowTo_paths`, `Check.ensures_narrowFrom_paths` — narrowing
  by the tests of a condition, in the two branches.
* `Check.path_narrowing_remains` — what a conditional statement without assignments leaves
  behind.
-/

namespace LuaTyping

namespace Node

/-- Whether a tree is an assignment. -/
def isAssign : Node → Bool
  | assign .. => true
  | _ => false

/-- A tree holds no assignments, and its comparisons and the checks in its annotations are about
certain places. -/
structure Assignless (place : Node → Prop) (t : Node) : Prop where
  formed : ∃ ρ, t.Formed (·.Within (.about place)) ρ
  assignless : ∀ m ∈ t.subtrees, m.isAssign = false
  compared : ∀ l a op b, binary l a op b ∈ t.subtrees → op.family? = some .comparison →
    ∀ p ∈ comparedPlaces a b, place p

variable {place : Node → Prop} {t : Node}

lemma Assignless.part (h : t.Assignless place) : ∀ m ∈ t.parts, m.Assignless place := by
  intro m hm
  obtain ⟨_, ht⟩ := h.formed
  obtain ⟨ρ, _, hm', _⟩ := ht.part m hm
  have hsubset := subtrees_subset_of_mem_parts m hm
  exact ⟨⟨ρ, hm'⟩, fun k hk => h.assignless k (hsubset hk),
    fun l a op b hk => h.compared l a op b (hsubset hk)⟩

lemma Assignless.suits (h : t.Assignless place) : t.Suits (.about place) 0 := by
  obtain ⟨_, ht⟩ := h.formed
  refine ht.suits (fun _ => id) ?_
  rintro l left op right rfl hop
  exact h.compared l left op right (mem_subtrees _) hop

lemma Assignless.obeys (h : t.Assignless place) (r : Reach) : t.Obeys r := by
  cases t with
  | assign => exact nomatch h.assignless _ (mem_subtrees _)
  | _ => trivial

lemma Assignless.admits (h : t.Assignless place) (r : Reach) : Check.Admits (.about place) r 0 t :=
  ⟨everywhere_of (fun _ hm => Assignless.suits hm) (fun _ hm => hm.part) h,
    everywhere_of (fun _ hm => Assignless.obeys hm r) (fun _ hm => hm.part) h⟩

end Node

lemma PropertyPath.assignless {place : Node → Prop} {x : String} {path : List String} {p : Node}
    (h : PropertyPath x path p) : p.Assignless place := by
  refine ⟨⟨_, h.formed⟩, fun m hm => ?_, fun l a op b hm => ?_⟩
  · obtain ⟨_, _, rfl⟩ | ⟨_, _, _, rfl⟩ | ⟨_, _, rfl⟩ := h.mem_subtrees_cases hm <;> rfl
  · obtain ⟨_, _, hm⟩ | ⟨_, _, _, hm⟩ | ⟨_, _, hm⟩ := h.mem_subtrees_cases hm <;> cases hm

namespace Check

open Naming Ty

/-! ## Statements without assignments -/

/-- Without assignments, no name comes up, and local names whose types hold no fields keep them. -/
lemma assignless_moves {place : Node → Prop} {n : Node} {σ : Session} (hn : n.Assignless place)
    (hbinding : n.isBinding = false) (hplaces : ∀ p, place p → p.Assignless place)
    (hσ : σ.Within (.about place)) (depth : Nat) :
    σ.scopes.Moves ⟨fun _ => False, fun _ => False, True⟩
      (outcome (inferTo depth n) σ).2.scopes := by
  have hbinds : n.BindsIn fun _ => False := by
    obtain ⟨_, hformed⟩ := hn.formed
    refine hformed.bindsIn fun x hx => ?_
    rw [Node.binds_eq_nil hbinding] at hx
    exact absurd hx List.not_mem_nil
  exact ((inferTo_confined (fun p hp => ⟨(hplaces p hp).admits _, fun _ _ _ _ => trivial⟩) depth
    (hn.admits _) hbinds).session hσ (Nat.zero_le _)).moves

/-! ## Narrowing by the tests of a condition -/

variable {place : Node → Prop} {σ σ₁ : Session} {l : Location} {env : String → Option Ty}
  {tests : List PathTest} {checks : List Checked}

/-- The innermost frame is empty, and the names have certain types. -/
structure Sees (env : String → Option Ty) (s : Scopes) : Prop where
  empty : s.frames.head? = some []
  local? : ∀ y, s.local? y = env y

variable {s : Scopes}

lemma sees_push (s : Scopes) : Sees s.local? s.push :=
  ⟨rfl, fun _ => Scopes.local?_cons_of_none rfl⟩

lemma Sees.pop (h : Sees env s) (y : String) : s.pop.local? y = env y := by
  obtain ⟨frames, globals⟩ := s
  obtain ⟨rest, rfl⟩ := List.head?_eq_some_iff.1 h.empty
  rw [← h.local? y]
  exact (Scopes.local?_cons_of_none rfl).symm

lemma Sees.unmoved (h : Sees env σ.scopes) (hσ : Unmoved place σ σ₁) : Sees env σ₁.scopes :=
  ⟨hσ.frames ▸ h.empty, fun y => (hσ.local? y).trans (h.local? y)⟩

lemma Sees.update {x : String} {T u : Ty} (h : Sees env s) (hx : env x = some T) :
    Sees (Function.update env x (some u)) (s.update x u) := by
  have hlocal := (h.local? x).trans hx
  refine ⟨?_, fun y => ?_⟩
  · obtain ⟨frames, globals⟩ := s
    obtain ⟨rest, rfl⟩ := List.head?_eq_some_iff.1 h.empty
    rw [Scopes.update_cons_of_none rfl]
    rfl
  · by_cases hy : y = x
    · rw [hy, Function.update_self, Scopes.local?_update_self hlocal]
    · rw [Function.update_of_ne hy, Scopes.local?_update_of_ne hy, h.local? y]

lemma narrow_eq_update {a : PathTest} {T : Ty} (h : env a.root = some T) :
    a.narrow env = Function.update env a.root (some (T.modifyAt (pick a.name) a.path)) := by
  funext y
  by_cases hy : y = a.root
  · rw [hy, PathTest.narrow_root h, Function.update_self]
  · rw [PathTest.narrow_of_ne hy, Function.update_of_ne hy]

lemma restrict_path {infer : Inference} {x : String} {path : List String} {p : Node} {t : Ty}
    (hp : PropertyPath x path p) (hpath : path ≠ []) :
    restrict infer p t = assignPath infer p t := by
  cases hp with
  | root => exact absurd rfl hpath
  | field => rfl

/-- The checks of tests narrow the tested paths one after the other, and each has one type without
a literal value then. -/
theorem ensures_narrowTo_paths (hchecks : List.Forall₂ PathTest.Checks tests checks)
    (hleads : ∀ a ∈ tests, a.Leads env) (hsees : Sees env σ.scopes) (depth : Nat) :
    Ensures (narrowTo (inferTo depth) l checks) σ (fun _ σ' =>
      Sees (tests.foldl PathTest.narrow env) σ'.scopes ∧
        ∀ a ∈ tests, a.Settled (tests.foldl PathTest.narrow env)) fun _ _ => True := by
  induction hchecks generalizing σ env with
  | nil => exact ⟨hsees, by simp⟩
  | @cons a k tests checks hk _ ih =>
    obtain ⟨p, t⟩ := k
    have ha := hleads a (by simp)
    have hrest : ∀ b ∈ tests, b.Leads (a.narrow env) := fun b hb =>
      (hleads b (by simp [hb])).narrow ha
    obtain ⟨T, U, hT, hground, hrec, hU, hscalar⟩ := id ha
    have hx := (hsees.local? a.root).trans hT
    refine .bind (ensures_infer_path hk.path hx hground hrec hU depth) ?_
    rintro now σ₁ ⟨htype, hscopes⟩
    rw [htype]
    have hmeet : Ensures (naming (U.meet t)) σ₁ (fun r σ' => (∀ u, r = some u →
        u.Scalar ∧ u.broaden = U.pick a.name ∧ ∃ ks, U.pick a.name = .con a.name [] none ks) ∧
          σ'.scopes = σ₁.scopes) fun _ _ => True := by
      refine (ensures_naming fun letters => ?_).imp (fun _ _ => id) fun _ _ _ => trivial
      unfold Ensures
      rcases houtcome : outcome (U.meet t) letters with ⟨f | r, letters'⟩
      · trivial
      · rintro u rfl
        exact hk.aims hscalar houtcome
    refine .bind hmeet ?_
    rintro (_ | u) σ₂ ⟨hu, hscopes'⟩
    · exact .bind .nothing fun _ _ _ => .bind .nothing fun _ _ _ => .throw trivial
    · obtain ⟨huscalar, hbroad, ks, hpick⟩ := hu u rfl
      dsimp only
      rw [restrict_path hk.path hk.ne_nil]
      have hσ₂ : σ₂.scopes = σ.scopes := hscopes'.trans hscopes
      refine .bind (ensures_assignPath hk.path hk.ne_nil (hσ₂ ▸ hx) hground hrec hU
        huscalar.simple depth) fun _ σ₃ h₃ => ?_
      have hsame : T.modifyAt (fun _ => u.broaden) a.path = T.modifyAt (pick a.name) a.path :=
        modifyAt_congr hrec hU hbroad
      have hnow : Sees (a.narrow env) σ₃.scopes := by
        rw [h₃, hσ₂, hsame, narrow_eq_update hT]
        exact hsees.update hT
      have hsettled : a.Settled (a.narrow env) :=
        ⟨_, a.name, ks, PathTest.narrow_root hT, hpick ▸ at?_modifyAt_self hU⟩
      refine (ih hrest hnow).imp (fun _ σ₄ ⟨hfinal, hall⟩ => ⟨hfinal, ?_⟩) fun _ _ => id
      exact List.forall_mem_cons.2 ⟨hsettled.foldl (ha.narrow ha) hrest, hall⟩

/-- From a path that has one type without a literal value nothing is taken. -/
theorem ensures_narrowFrom_paths (hchecks : List.Forall₂ PathTest.Checks tests checks)
    (hleads : ∀ a ∈ tests, a.Leads env) (hsettled : ∀ a ∈ tests, a.Settled env)
    (hsees : Sees env σ.scopes) (depth : Nat) :
    Ensures (narrowFrom (inferTo depth) checks) σ (fun _ σ' => Sees env σ'.scopes)
      fun _ _ => True := by
  induction hchecks generalizing σ with
  | nil => exact hsees
  | @cons a k tests checks hk _ ih =>
    obtain ⟨p, t⟩ := k
    obtain ⟨T, U, hT, hground, hrec, hU, hscalar⟩ := hleads a (by simp)
    obtain ⟨T', c, ks, hT', hU'⟩ := hsettled a (by simp)
    obtain rfl : T = T' := Option.some.inj (hT.symm.trans hT')
    obtain rfl : U = .con c [] none ks := Option.some.inj (hU.symm.trans hU')
    have hx := (hsees.local? a.root).trans hT
    refine .bind (ensures_infer_path hk.path hx hground hrec hU depth) ?_
    rintro now σ₁ ⟨htype, hscopes⟩
    rw [htype]
    refine .bind_of_eq (a := .con c [] none ks) rfl ?_
    rw [restrict_path hk.path hk.ne_nil]
    refine .bind (ensures_assignPath hk.path hk.ne_nil (hscopes ▸ hx) hground hrec hU
      hscalar.simple depth) fun _ σ₂ h₂ => ?_
    refine ih (fun b hb => hleads b (by simp [hb])) (fun b hb => hsettled b (by simp [hb])) ?_
    have hsame : T.modifyAt (fun _ => (Ty.con c [] none ks).broaden) a.path = T :=
      modifyAt_eq_self hrec hU rfl
    rw [h₂, hscopes, hsame]
    have hupdate := hsees.update (u := T) hT
    rwa [← hT, Function.update_eq_self] at hupdate

/-! ## The statement -/

lemma Unmoved.push_pop {τ : Session} (h : Unmoved place { σ with scopes := σ.scopes.push } τ) :
    Unmoved place σ { τ with scopes := τ.scopes.pop } :=
  ⟨congrArg (List.drop 1) h.frames, h.globals,
    h.within.start, h.within.shared, h.within.scopes.pop⟩

lemma Keeps.ensures_within {α : Type} {y : Check α} {r : Reach} {Q : Nat → α → Prop}
    (h : Keeps (.about place) r 0 y Q) (hσ : σ.Within (.about place)) :
    Ensures y σ (fun _ σ' => σ'.Within (.about place)) fun _ _ => True := by
  have hwithin := (h.session hσ (Nat.zero_le _)).within
  unfold Ensures
  rcases houtcome : outcome y σ with ⟨e | a, σ'⟩ <;> rw [houtcome] at hwithin
  · trivial
  · exact hwithin

section Statement

variable (hvars : ∀ l x, place (.var l x))
  (hplaces : ∀ p, place p → p.isIndex = false ∧ p.Sealed place [])
include hvars hplaces

/-- Narrowing by tests keeps checks to their places. -/
lemma infersPlace_of_checks (hchecks : List.Forall₂ PathTest.Checks tests checks) (depth : Nat) :
    ∀ k ∈ checks, InfersPlace (.about place) .any 0 (inferTo depth) k.1 ∧
      k.2.Within (.about place) := by
  intro k hk
  obtain ⟨a, _, ha⟩ : ∃ a ∈ tests, a.Checks k := by
    induction hchecks with
    | nil => exact absurd hk List.not_mem_nil
    | cons h _ ih =>
      rcases List.mem_cons.1 hk with rfl | hk
      · exact ⟨_, List.mem_cons_self, h⟩
      · obtain ⟨a, hmem, ha⟩ := ih hk
        exact ⟨a, List.mem_cons_of_mem _ hmem, ha⟩
  have hany : ∀ {t : Node}, t.Sealed place [] → t.isBinding = false →
      Infers (.about place) .any 0 (inferTo depth) t := fun ht hbinding =>
    (sealed_confined hvars hplaces ht hbinding depth).mono (fun _ _ => trivial) (fun _ _ => trivial)
      fun _ => trivial
  refine ⟨⟨hany ha.path.sealed ha.path.isBinding, fun key hkey => ?_, fun _ _ _ _ => trivial⟩,
    ha.unchecked.mono (Permit.about_le fun _ => False.elim)⟩
  obtain ⟨lk, v, rfl⟩ := ha.path.exists_string key hkey
  exact hany (string_sealed lk v) rfl

/-- The branches find the tested paths narrowed, and leave them so. -/
lemma ensures_inferBranches_paths {c : Inferred} {body : Node} {otherwise : Option Node}
    (hchecks : List.Forall₂ PathTest.Checks tests checks) (hleads : ∀ a ∈ tests, a.Leads env)
    (hsees : Sees env σ.scopes) (hσ : σ.Within (.about place))
    (hbody : body.Sealed place [] ∧ body.isBinding = false)
    (hother : ∀ o, otherwise = some o → o.Sealed place [] ∧ o.isBinding = false) (depth : Nat) :
    Ensures (inferBranches (inferTo depth) l checks c body otherwise) σ (fun _ σ' =>
      Sees (tests.foldl PathTest.narrow env) σ'.scopes ∧
        ∀ a ∈ tests, a.Settled (tests.foldl PathTest.narrow env)) fun _ _ => True := by
  have hkeeps := infersPlace_of_checks hvars hplaces hchecks depth
  refine .bind (.both (ensures_narrowTo_paths hchecks hleads hsees depth)
    ((narrowTo_keeps hkeeps).ensures_within hσ)) ?_
  rintro _ σ₁ ⟨⟨hsees₁, hsettled⟩, hσ₁⟩
  refine .bind (ensures_sealed hvars hplaces hbody.1 hbody.2 hσ₁ depth) fun b σ₂ h₂ => ?_
  have hsees₂ := hsees₁.unmoved h₂
  cases otherwise with
  | none =>
    refine .bind ((still_apply _ _).unmoved h₂.within) fun _ σ₃ h₃ => ?_
    exact .pure ⟨hsees₂.unmoved h₃, hsettled⟩
  | some other =>
    obtain ⟨hsealed, hbinding⟩ := hother other rfl
    have hleads' : ∀ a ∈ tests, a.Leads (tests.foldl PathTest.narrow env) := fun a ha =>
      (hleads a ha).foldl hleads
    refine .bind (.both (ensures_narrowFrom_paths hchecks hleads' hsettled hsees₂ depth)
      ((narrowFrom_keeps hkeeps).ensures_within h₂.within)) ?_
    rintro _ σ₃ ⟨hsees₃, hσ₃⟩
    refine .bind (ensures_sealed hvars hplaces hsealed hbinding hσ₃ depth) fun e σ₄ h₄ => ?_
    refine ((scopeless_joinBranches c b e).still.unmoved h₄.within).imp (fun _ σ₅ h₅ => ?_) fun _ _ => id
    exact ⟨hsees₃.unmoved (h₄.trans h₅), hsettled⟩

/-- A conditional statement on tests of paths leaves the tested paths narrowed. -/
lemma ensures_inferBranch_paths {C : Condition PathTest} {condition body : Node}
    {otherwise : Option Node} (hC : C.Written (PathTest.Written place) condition)
    (hleads : ∀ a ∈ knownTests C, a.Leads σ.scopes.local?) (htype : σ.scopes.local? "type" = none)
    (hσ : σ.Within (.about place)) (hbody : body.Sealed place [] ∧ body.isBinding = false)
    (hother : ∀ o, otherwise = some o → o.Sealed place [] ∧ o.isBinding = false) (depth : Nat) :
    Ensures (inferBranch (inferTo depth) l condition body otherwise) σ (fun _ σ' =>
      σ'.scopes.local? = (knownTests C).foldl PathTest.narrow σ.scopes.local? ∧
        ∀ a ∈ knownTests C, a.Settled ((knownTests C).foldl PathTest.narrow σ.scopes.local?))
      fun _ _ => True := by
  have hpush : (σ.scopes.push).local? = σ.scopes.local? := funext (sees_push σ.scopes).local?
  have hwithin : ({ σ with scopes := σ.scopes.push } : Session).Within (.about place) :=
    ⟨hσ.start, hσ.shared, hσ.scopes.push⟩
  rw [inferBranch_eq]
  refine .bind (ensures_inScope (R := Concluded place (knownTests C) σ)
    (ensures_infer_pathCondition hvars hplaces hC (σ := { σ with scopes := σ.scopes.push })
      (hpush ▸ hleads) (hpush ▸ htype) hwithin depth)
    fun c τ h => ⟨h.type, h.unmoved.push_pop⟩) fun c σ₁ h₁ => ?_
  obtain ⟨checks, hc, hchecks⟩ := h₁.type
  refine .bind ((still_unifyAt _ _ _).unmoved h₁.unmoved.within) fun _ σ₂ h₂ => ?_
  rw [hc]
  have hsame : (σ₂.scopes).local? = σ.scopes.local? := funext (h₁.unmoved.trans h₂).local?
  have hwithin₂ : ({ σ₂ with scopes := σ₂.scopes.push } : Session).Within (.about place) :=
    ⟨h₂.within.start, h₂.within.shared, h₂.within.scopes.push⟩
  refine ensures_inScope (ensures_inferBranches_paths hvars hplaces
    (σ := { σ₂ with scopes := σ₂.scopes.push }) hchecks hleads (hsame ▸ sees_push σ₂.scopes)
    hwithin₂ hbody hother depth) ?_
  rintro _ τ ⟨hsees, hsettled⟩
  exact ⟨funext hsees.pop, hsettled⟩

end Statement

/-- A conditional statement tests property paths of records, and does nothing else to the types of
names: its branches neither assign nor compare paths, and neither do the places that the checks in
the session are on. The standard function `type` is not hidden. -/
structure TestsPaths (place : Node → Prop) (C : Condition PathTest) (condition body : Node)
    (otherwise : Option Node) (σ : Session) : Prop where
  vars : ∀ l x, place (.var l x)
  places : ∀ p, place p → p.isIndex = false ∧ p.Sealed place []
  within : σ.Within (.about place)
  standard : σ.scopes.local? "type" = none
  written : C.Written (PathTest.Written place) condition
  leads : ∀ a ∈ knownTests C, a.Leads σ.scopes.local?
  body : body.Sealed place [] ∧ body.isBinding = false
  otherwise : ∀ o, otherwise = some o → o.Sealed place [] ∧ o.isBinding = false

/-- The type of `{f = {g = u}}`. -/
def recordOf (u : Ty) : Ty := .table [(nameKey "f", .table [(nameKey "g", u)])]

/-- The session in which `o` has the type of `{f = {g = u}}` for a number or a string `u`, and `n`
is a number. -/
def sessionWithRecord : Session :=
  Session.withLocals [("o", .own (recordOf numberOrString)), ("n", .own .number)]

/-- The path `o.f.g`. -/
def pathOFG : Node :=
  .index default (.index default (.var default "o") (.string default "f")) (.string default "g")

/-- The condition `type(o.f.g) == "string" and o.f.g ~= "a"`. -/
def stringNotA : Node :=
  .binary default
    (.binary default (.call default (.var default "type") [pathOFG]) .equal
      (.string default "string"))
    .and (.binary default pathOFG .notEqual (.string default "a"))

/-- Its two tests. -/
def stringTests : Condition PathTest :=
  .both (.test ⟨"o", ["f", "g"], "string"⟩) (.test ⟨"o", ["f", "g"], "string"⟩)

/-- A block without statements. -/
def emptyBlock : Node := .chunk default [] none

lemma emptyBlock_sealed {place : Node → Prop} : emptyBlock.Sealed place [] :=
  ⟨⟨⟨_, .chunk _ (by simp) (by simp)⟩, fun _ => id⟩,
    by simp [emptyBlock, Node.subtrees, Node.subtreesList, Node.subtreesOption, Node.Pathless]⟩

lemma propertyPath_pathOFG : PropertyPath "o" ["f", "g"] pathOFG :=
  .field _ _ "g" (.field _ _ "f" (.root _))

lemma sessionWithRecord_within {place : Node → Prop} : sessionWithRecord.Within (.about place) := by
  refine Session.withLocals_within ?_
  simp [recordOf, numberOrString, nameKey, literal, Ty.number, Ty.string, Ty.plain, FieldsWithin,
    ChecksWithin, Permit.about]

lemma testsPaths_stringNotA :
    TestsPaths (fun p => ∃ l x, p = .var l x) stringTests stringNotA emptyBlock (some emptyBlock)
      sessionWithRecord where
  vars l x := ⟨l, x, rfl⟩
  places p := by
    rintro ⟨l, x, rfl⟩
    exact ⟨rfl, var_sealed l x⟩
  within := sessionWithRecord_within
  standard := rfl
  written := .both _ (.test (.named _ _ _ _ _ rfl (by simp) propertyPath_pathOFG))
    (.test (.equals _ rfl (by simp) propertyPath_pathOFG rfl (string_sealed _ _) (by simp)))
  leads := by
    have hleads : PathTest.Leads sessionWithRecord.scopes.local? ⟨"o", ["f", "g"], "string"⟩ := by
      refine ⟨recordOf numberOrString, numberOrString, rfl, ?_, ?_, rfl, scalar_numberOrString⟩
      · simp [recordOf, Ground, FieldsWithin, ChecksWithin, nameKey, literal, numberOrString,
          Ty.number, Ty.string, Ty.plain, Permit.closed]
      · have hrecord : ∀ (k : String) (t : Ty), Record [(nameKey k, t)] := fun k t =>
          ⟨by simp, by simp⟩
        exact ⟨hrecord _ _, by simpa using ⟨hrecord _ _, by simp [Records]⟩⟩
    intro a ha
    simp only [knownTests, stringTests, Condition.tests, List.cons_append, List.nil_append] at ha
    have := List.mem_of_mem_filter ha
    simp only [List.mem_cons, or_self, List.not_mem_nil, or_false] at this
    exact this ▸ hleads
  body := ⟨emptyBlock_sealed, rfl⟩
  otherwise := by
    rintro o ho
    cases ho
    exact ⟨emptyBlock_sealed, rfl⟩

lemma stringNotABranch_assignless :
    (Node.branch default stringNotA emptyBlock [] (some emptyBlock)).Assignless
      fun p => ∃ path, PropertyPath "o" path p := by
  have hpath : pathOFG.Formed (·.Within (.about fun p => ∃ path, PropertyPath "o" path p)) .expr :=
    propertyPath_pathOFG.formed
  have hblock : emptyBlock.Formed (·.Within (.about fun p => ∃ path, PropertyPath "o" path p))
      .chunk := .chunk _ (by simp) (by simp)
  refine ⟨⟨_, .branch _ (.binary _ _ (.binary _ _ (.call _ (.var _ _) (by simpa using hpath))
    (.string _ _)) (.binary _ _ hpath (.string _ _))) hblock (by simp) ?_⟩, by decide, ?_⟩
  · rintro o ho
    exact Option.some.inj ho ▸ hblock
  · intro l a op b hmem hop p hp
    simp only [stringNotA, emptyBlock, pathOFG, Node.subtrees, Node.subtreesList,
      Node.subtreesOption, List.mem_cons, List.mem_append, List.not_mem_nil, reduceCtorEq,
      Node.binary.injEq, or_false, false_or] at hmem
    rcases hmem with ⟨-, -, rfl, -⟩ | ⟨-, rfl, -, rfl⟩ | ⟨-, rfl, -, rfl⟩
    · cases hop
    all_goals
      obtain rfl := List.mem_singleton.1 hp
      exact ⟨_, propertyPath_pathOFG⟩

/-- The statement `if type(o.f) == "number" then end`. -/
def fieldBranch : Node :=
  .branch default
    (.binary default (.call default (.var default "type")
      [.index default (.var default "o") (.string default "f")]) .equal (.string default "number"))
    emptyBlock [] none

end Check

end LuaTyping
