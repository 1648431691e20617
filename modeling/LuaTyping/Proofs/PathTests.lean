import LuaTyping.Proofs.Records
import LuaTyping.Proofs.ScopeLeaks

set_option autoImplicit false

/-!
# Tests of property paths

A condition can test property paths, by the name of a type or by a value of it. If the paths lead
through records to unions of simple values, then such a condition concludes with one check for each
test for a known name, on the tested path, and changes nothing itself. This file says what the tests
make of the types of the names: each replaces what its path leads to by the first alternative of the
tested name, and leaves everything else as it is.

## Main definitions

* `Check.Unmoved` — names have the types that they had.
* `Ty.pick` — what a test makes of a type.
* `PathTest` — a test of a property path, `PathTest.Written` — the syntax trees
  for it, `PathTest.narrow` — what it makes of the types of names.
* `PathTest.Settled` — a path leads to one type without a literal value.

## Main results

* `Check.ensures_infer_pathCondition` — what is inferred of a condition.
-/

namespace LuaTyping

/-! ## Trees that leave everything as it is -/

namespace Check

open Naming Ty

section Sealed

variable {place : Node → Prop} {σ σ₁ σ₂ : Session}

/-- The names have the types that they had, and checks are still about certain places. -/
structure Unmoved (place : Node → Prop) (σ σ' : Session) : Prop where
  frames : σ'.scopes.frames = σ.scopes.frames
  globals : ∀ x, σ'.scopes.global? x = σ.scopes.global? x
  within : σ'.Within (.about place)

lemma Unmoved.trans (h : Unmoved place σ σ₁) (h' : Unmoved place σ₁ σ₂) : Unmoved place σ σ₂ :=
  ⟨h'.frames.trans h.frames, fun x => (h'.globals x).trans (h.globals x), h'.within⟩

lemma Unmoved.local? (h : Unmoved place σ σ₁) (x : String) :
    σ₁.scopes.local? x = σ.scopes.local? x :=
  Scopes.local?_congr (by rw [Scopes.binding?, Scopes.binding?, h.frames]) (h.globals x)

lemma Still.unmoved {α : Type} {y : Check α} (h : Still y) (hσ : σ.Within (.about place)) :
    Ensures y σ (fun _ σ' => Unmoved place σ σ') fun _ _ => True := by
  have hscopes := (h σ).1
  have hwithin := h.within hσ
  unfold Ensures
  rcases houtcome : outcome y σ with ⟨e | a, σ'⟩ <;> rw [houtcome] at hscopes hwithin
  · trivial
  · exact ⟨congrArg Scopes.frames hscopes, fun x => congrArg (Scopes.global? · x) hscopes, hwithin⟩

variable (hvars : ∀ l x, place (.var l x))
  (hplaces : ∀ p, place p → p.isIndex = false ∧ p.Sealed place [])
include hvars hplaces

lemma sealed_confined {t : Node} (ht : t.Sealed place []) (hbinding : t.isBinding = false)
    (depth : Nat) :
    Infers (.about place) ⟨fun _ => False, (· ∈ []), False⟩ 0 (inferTo depth) t := by
  refine inferTo_confined (fun p hp => ?_) depth (ht.admits hvars _) ?_
  · obtain ⟨hindex, hp⟩ := hplaces p hp
    exact ⟨hp.admits hvars _, fun l o k h => nomatch h ▸ hindex⟩
  · obtain ⟨_, hformed⟩ := ht.formed
    refine hformed.bindsIn fun x hx => ?_
    rw [Node.binds_eq_nil hbinding] at hx
    exact absurd hx List.not_mem_nil

/-- A tree that neither assigns nor compares paths leaves everything as it is. -/
lemma ensures_sealed {t : Node} (ht : t.Sealed place []) (hbinding : t.isBinding = false)
    (hσ : σ.Within (.about place)) (depth : Nat) :
    Ensures (inferTo depth t) σ (fun _ σ' => Unmoved place σ σ') fun _ _ => True := by
  refine (sealed_confined hvars hplaces ht hbinding depth σ hσ (Nat.zero_le _)).imp ?_
    fun _ _ _ => trivial
  rintro _ σ' ⟨⟨hwithin, -, hmoves⟩, -⟩
  exact ⟨hmoves.frames_eq id fun _ => id, fun x => hmoves.global?_eq id List.not_mem_nil, hwithin⟩

end Sealed

end Check

/-! ## What a test makes of a type -/

namespace Ty

variable {name c : String} {T U u t : Ty} {v : Option Literal} {checks : List Checked}

/-- What a test for a name makes of a union of simple values: the first alternative of this name,
with its literal value forgotten. A union that has none is left as it is. -/
def pick (name : String) (t : Ty) : Ty :=
  ((t.members.find? (isNamed name)).map fun m => .con name [] none (Check.conditionChecks m)).getD t

/-- A meet with the type leaves of a union of simple values what a test for a name picks, apart from
its literal value. -/
def Aims (name : String) (t : Ty) : Prop :=
  ∀ {U u : Ty} {k k' : Letters}, U.Scalar → outcome (U.meet t) k = (.ok (some u), k') →
    u.Scalar ∧ u.broaden = U.pick name ∧ ∃ ks, U.pick name = .con name [] none ks

lemma Scalar.pick (h : U.Scalar) : (U.pick name).Scalar := by
  unfold Ty.pick
  cases hm : U.members.find? (isNamed name) with
  | none => exact h
  | some m =>
    obtain ⟨c, v, checks, rfl, hc, _⟩ := h.exists_con_of_mem (List.mem_of_find?_eq_some hm)
    have hnamed : (Ty.con c [] v checks).isNamed name = true := List.find?_some hm
    obtain rfl : c = name := beq_iff_eq.1 hnamed
    exact .con _ hc (by simp)

lemma pick_con : (Ty.con c [] none checks).pick name = .con c [] none checks := by
  by_cases hc : c = name <;> simp [pick, members, isNamed, hc, Check.conditionChecks]

lemma Ground.pick (h : t.Ground) : (t.pick name).Ground := by
  unfold Ty.pick
  cases t.members.find? (isNamed name) with
  | none => exact h
  | some m => exact ground_con_iff.2 (by simp)

lemma Scalar.ne_table (h : U.Scalar) (fields : List (Ty × Ty)) : U ≠ .table fields := by
  cases h <;> exact nofun

/-- A meet with a type without arguments leaves what its name picks. -/
lemma Scalar.broaden_meetCon (hU : U.Scalar) (h : U.meetCon name v [] = some u) :
    u.broaden = U.pick name ∧ ∃ ks, U.pick name = .con name [] none ks := by
  cases hU with
  | @con c w checks =>
    rw [meetCon] at h
    split at h
    · rename_i hc
      cases h
      subst hc
      simp [Ty.pick, members, isNamed, Check.conditionChecks, Ty.broaden, broadenList]
    · cases h
  | union =>
    obtain ⟨m, hm, rfl⟩ := Option.map_eq_some_iff.1 h
    simp [Ty.pick, hm, Ty.broaden, broadenList]

lemma aims_con (hv : ∀ x, v = some x → x.equal x = true) : Aims name (.con name [] v []) := by
  intro U u k k' hU h
  have hmeet : U.meet (.con name [] v []) = pure (U.meetCon name v []) :=
    hU.meetTo_meetCon (Nat.le_add_right _ _) v
  rw [hmeet, outcome_pure] at h
  have hu := Except.ok.inj (Prod.mk.inj h).1
  exact ⟨(hU.meetCon_eq_some hv hu).2.1, hU.broaden_meetCon hu⟩

lemma Named.aims (h : Named name t) : Aims name t := by
  intro U u k k' hU hmeet
  rw [hU.meet_named h, outcome_pure] at hmeet
  have hu := Except.ok.inj (Prod.mk.inj hmeet).1
  exact ⟨(hU.restrictTo_eq_some hu).2.1, hU.broaden_meetCon hu⟩

end Ty

/-! ## Tests of property paths -/

/-- A test whether what a property path leads to has a type of some name. -/
structure PathTest where
  root : String
  path : List String
  name : String

namespace PathTest

open Ty

variable {env : String → Option Ty} {a b : PathTest}

/-- The path leads through records to a union of simple values, if names have certain types. -/
def Leads (env : String → Option Ty) (a : PathTest) : Prop :=
  ∃ T U, env a.root = some T ∧ T.Ground ∧ T.Records a.path ∧ T.at? a.path = some U ∧ U.Scalar

/-- The path leads to one type without a literal value. -/
def Settled (env : String → Option Ty) (a : PathTest) : Prop :=
  ∃ T c ks, env a.root = some T ∧ T.at? a.path = some (.con c [] none ks)

/-- The types of names after a test: what the path leads to is what the test picks of it. -/
def narrow (env : String → Option Ty) (a : PathTest) : String → Option Ty := fun y =>
  if y = a.root then (env y).map (modifyAt (pick a.name) a.path) else env y

lemma narrow_of_ne {y : String} (h : y ≠ a.root) : a.narrow env y = env y := if_neg h

lemma narrow_root {T : Ty} (h : env a.root = some T) :
    a.narrow env a.root = some (T.modifyAt (pick a.name) a.path) := by
  simp [narrow, h]

/-- What a path leads to after another test, or the same one. -/
lemma Leads.at?_narrow (ha : a.Leads env) (hb : b.Leads env) {T U : Ty}
    (hT : env a.root = some T) (hU : T.at? a.path = some U) :
    ∃ T', b.narrow env a.root = some T' ∧
      (T'.at? a.path = some U ∨ T'.at? a.path = some (U.pick b.name)) := by
  by_cases hroot : a.root = b.root
  · obtain ⟨T₁, U₁, hT₁, -, -, hU₁, hscalar⟩ := ha
    obtain ⟨T₂, V, hT₂, -, -, hV, hscalar'⟩ := hb
    obtain rfl : T₁ = T := Option.some.inj (hT₁.symm.trans hT)
    obtain rfl : U₁ = U := Option.some.inj (hU₁.symm.trans hU)
    obtain rfl : T₂ = T₁ := Option.some.inj (hT₂.symm.trans (hroot ▸ hT))
    refine ⟨_, hroot ▸ narrow_root hT₂, ?_⟩
    by_cases hpath : b.path = a.path
    · rw [hpath]
      exact .inr (at?_modifyAt_self hU)
    · exact .inl (at?_modifyAt_of_ne hpath hV hU hscalar'.ne_table hscalar.ne_table)
  · exact ⟨T, (narrow_of_ne hroot).trans hT, .inl hU⟩

/-- Tests leave every tested path one that leads to simple values. -/
lemma Leads.narrow (ha : a.Leads env) (hb : b.Leads env) : a.Leads (b.narrow env) := by
  obtain ⟨T, U, hT, hground, hrec, hU, hscalar⟩ := id ha
  obtain ⟨T', hT', hend⟩ := ha.at?_narrow hb hT hU
  have hkept : T'.Ground ∧ T'.Records a.path := by
    by_cases hroot : a.root = b.root
    · obtain ⟨T₂, V, hT₂, -, -, hV, hscalar'⟩ := hb
      obtain rfl : T₂ = T := Option.some.inj (hT₂.symm.trans (hroot ▸ hT))
      cases (narrow_root hT₂).symm.trans (hroot ▸ hT')
      exact ⟨hground.modifyAt fun _ h => h.pick, hrec.modifyAt hV hU hscalar'.ne_table⟩
    · obtain rfl := Option.some.inj (hT.symm.trans ((narrow_of_ne hroot).symm.trans hT'))
      exact ⟨hground, hrec⟩
  rcases hend with hend | hend
  · exact ⟨T', U, hT', hkept.1, hkept.2, hend, hscalar⟩
  · exact ⟨T', _, hT', hkept.1, hkept.2, hend, hscalar.pick⟩

/-- Whether a path is settled does not depend on checks. -/
lemma Settled.of_unchecked {env' : String → Option Ty} (h : a.Settled env)
    (hroot : (env' a.root).map unchecked = (env a.root).map unchecked) : a.Settled env' := by
  obtain ⟨T, c, ks, hT, hU⟩ := h
  rw [hT, Option.map_some] at hroot
  obtain ⟨T', hT', hsame⟩ := Option.map_eq_some_iff.1 hroot
  have hend := congrArg (at? a.path) hsame
  rw [at?_unchecked, at?_unchecked, hU, Option.map_some] at hend
  obtain ⟨U, hU', hsame⟩ := Option.map_eq_some_iff.1 hend
  cases U with
  | con d args v more =>
    rw [unchecked, unchecked, Ty.con.injEq] at hsame
    obtain ⟨rfl, hargs, rfl, -⟩ := hsame
    cases args with
    | nil => exact ⟨T', d, more, hT', hU'⟩
    | cons => cases hargs
  | var | table | union | all => cases hsame

lemma Settled.narrow (h : a.Settled env) (ha : a.Leads env) (hb : b.Leads env) :
    a.Settled (b.narrow env) := by
  obtain ⟨T, c, ks, hT, hU⟩ := h
  obtain ⟨T', hT', hend⟩ := ha.at?_narrow hb hT hU
  rw [pick_con, or_self] at hend
  exact ⟨T', c, ks, hT', hend⟩

lemma Settled.narrow_eq (h : a.Settled env) (ha : a.Leads env) : a.narrow env = env := by
  obtain ⟨T, c, ks, hT, hU⟩ := h
  obtain ⟨T₁, _, hT₁, -, hrec, -⟩ := ha
  obtain rfl : T₁ = T := Option.some.inj (hT₁.symm.trans hT)
  funext y
  by_cases hy : y = a.root
  · rw [hy, narrow_root hT, hT, modifyAt_eq_self hrec hU pick_con]
  · exact narrow_of_ne hy

variable {tests : List PathTest}

lemma Leads.foldl (ha : a.Leads env) (h : ∀ b ∈ tests, b.Leads env) :
    a.Leads (tests.foldl PathTest.narrow env) := by
  induction tests generalizing env with
  | nil => exact ha
  | cons b tests ih =>
    have hb := h b (by simp)
    exact ih (ha.narrow hb) fun c hc => (h c (by simp [hc])).narrow hb

lemma Settled.foldl (hsettled : a.Settled env) (ha : a.Leads env) (h : ∀ b ∈ tests, b.Leads env) :
    a.Settled (tests.foldl PathTest.narrow env) := by
  induction tests generalizing env with
  | nil => exact hsettled
  | cons b tests ih =>
    have hb := h b (by simp)
    exact ih (hsettled.narrow ha hb) (ha.narrow hb) fun c hc => (h c (by simp [hc])).narrow hb

lemma foldl_narrow_eq (hsettled : ∀ b ∈ tests, b.Settled env) (h : ∀ b ∈ tests, b.Leads env) :
    tests.foldl PathTest.narrow env = env := by
  induction tests with
  | nil => rfl
  | cons b tests ih =>
    rw [List.foldl_cons, (hsettled b (by simp)).narrow_eq (h b (by simp))]
    exact ih (fun c hc => hsettled c (by simp [hc])) fun c hc => h c (by simp [hc])

end PathTest

/-! ## The syntax of tests -/

/-- The name of the type of what a unary operator gives. -/
def UnaryOp.resultName? : UnaryOp → Option String
  | negate | length => some "number"
  | not => some "boolean"
  | other _ => none

/-- The name of the type of what binary operators give that want both operands of one type. -/
def BinaryOp.Family.resultName? : BinaryOp.Family → Option String
  | arithmetic => some "number"
  | ordering => some "boolean"
  | joining => some "string"
  | comparison | connective => none

/-- The name of the type of a literal, or of what an operator gives. -/
def Node.valueName? : Node → Option String
  | nil _ => some "nil"
  | number .. => some "number"
  | string .. => some "string"
  | boolean .. => some "boolean"
  | unary _ op _ => op.resultName?
  | binary _ _ op _ => op.family?.bind BinaryOp.Family.resultName?
  | _ => none

/-- The tests `type(p) == "name"` and `p == e`, and those for inequality, wherever their parts
stand. Here `e` is a literal, or an operator's expression that leaves everything as it is. -/
inductive PathTest.Written (place : Node → Prop) : PathTest → Node → Prop
  | named (lb lc lt ls : Location) {op : BinaryOp} {root : String} {path : List String} {p : Node}
      (name : String) : op.family? = some .comparison → path ≠ [] → PropertyPath root path p →
      Written place ⟨root, path, name⟩
        (.binary lb (.call lc (.var lt "type") [p]) op (.string ls name))
  | equals (lb : Location) {op : BinaryOp} {root name : String} {path : List String} {p e : Node} :
      op.family? = some .comparison → path ≠ [] → PropertyPath root path p →
      e.valueName? = some name → e.Sealed place [] →
      (∀ l v, e = .number l v → (Literal.number v).equal (.number v) = true) →
      Written place ⟨root, path, name⟩ (.binary lb p op e)

/-- A check is one that a test makes. -/
structure PathTest.Checks (a : PathTest) (k : Checked) : Prop where
  path : PropertyPath a.root a.path k.1
  ne_nil : a.path ≠ []
  aims : Ty.Aims a.name k.2
  unchecked : k.2.Within (.about fun _ => False)

/-- The tests of a condition for names that tests know. -/
def knownTests (C : Condition PathTest) : List PathTest := C.tests.filter (·.name ∈ Check.typeNames)

lemma string_sealed {place : Node → Prop} {names : List String} (l : Location) (v : String) :
    (Node.string l v).Sealed place names :=
  ⟨⟨⟨_, .string l v⟩, by simp [Node.assigned, Node.subtrees, Node.targetNames]⟩,
    by simp [Node.subtrees, Node.Pathless]⟩

namespace PropertyPath

variable {place : Node → Prop} {x : String} {path : List String} {p : Node}

lemma formed {T : Ty → Prop} (h : PropertyPath x path p) : p.Formed T .expr := by
  induction h with
  | root l => exact .var l x
  | field l lk k _ ih => exact .index l ih (.string lk k)

/-- A path is made of variables, index expressions and strings. -/
lemma mem_subtrees_cases (h : PropertyPath x path p) {m : Node} (hm : m ∈ p.subtrees) :
    (∃ l y, m = .var l y) ∨ (∃ l o k, m = .index l o k) ∨ ∃ l v, m = .string l v := by
  induction h with
  | root l => exact .inl ⟨l, x, by simpa [Node.subtrees] using hm⟩
  | field l lk k _ ih =>
    simp only [Node.subtrees, List.mem_cons, List.mem_append, List.not_mem_nil, or_false] at hm
    rcases hm with rfl | hm | rfl
    · exact .inr (.inl ⟨_, _, _, rfl⟩)
    · exact ih hm
    · exact .inr (.inr ⟨_, _, rfl⟩)

lemma sealed (h : PropertyPath x path p) : p.Sealed place [] := by
  refine ⟨⟨⟨_, h.formed⟩, fun y hy => ?_⟩, fun m hm => ?_⟩
  · obtain ⟨m, hm, hy⟩ := List.mem_flatMap.1 hy
    obtain ⟨_, _, rfl⟩ | ⟨_, _, _, rfl⟩ | ⟨_, _, rfl⟩ := h.mem_subtrees_cases hm <;> exact hy
  · obtain ⟨_, _, rfl⟩ | ⟨_, _, _, rfl⟩ | ⟨_, _, rfl⟩ := h.mem_subtrees_cases hm <;> trivial

lemma sealed_call (h : PropertyPath x path p) (lc lt : Location) :
    (Node.call lc (.var lt "type") [p]).Sealed place [] := by
  have hp : p.Sealed place [] := h.sealed
  refine ⟨⟨⟨_, .call lc (.var lt _) (List.forall_mem_singleton.2 h.formed)⟩, ?_⟩, ?_⟩
  · simpa [Node.assigned, Node.subtrees, Node.subtreesList, Node.targetNames] using hp.assigned
  · simpa [Node.subtrees, Node.subtreesList, Node.Pathless] using hp.pathless

lemma exists_string (h : PropertyPath x path p) : ∀ k ∈ p.pathKeys, ∃ l v, k = .string l v := by
  induction h with
  | root => simp [Node.pathKeys]
  | field l lk k _ ih =>
    intro key hkey
    rcases List.mem_append.1 hkey with hkey | hkey
    · exact ih key hkey
    · exact ⟨lk, k, List.mem_singleton.1 hkey⟩

lemma isPlace (h : PropertyPath x path p) : p.isPlace = true := by
  cases h <;> rfl

lemma isBinding (h : PropertyPath x path p) : p.isBinding = false := by
  cases h <;> rfl

end PropertyPath

namespace Check

open Naming Ty

variable {place : Node → Prop} {σ σ₁ : Session} {l : Location} {env : String → Option Ty}
  {tests : List PathTest} {checks : List Checked}

/-! ## What a condition concludes -/

variable {e p : Node}

/-- The type of a literal, or of what an operator gives, has one name. -/
lemma ensures_infer_value {name : String} (he : e.valueName? = some name)
    (hself : ∀ l v, e = .number l v → (Literal.number v).equal (.number v) = true) (depth : Nat) :
    Ensures (inferTo depth e) σ (fun i _ => ∃ v, i.type = .con name [] v [] ∧
      ∀ x, v = some x → x.equal x = true) fun _ _ => True := by
  have hplain : ∀ {i : Inferred}, i.type = .con name [] none [] →
      ∃ v, i.type = .con name [] v [] ∧ ∀ x, v = some x → x.equal x = true :=
    fun h => ⟨none, h, by simp⟩
  cases depth with
  | zero => trivial
  | succ depth =>
    cases e with
    | nil l =>
      cases he
      exact hplain rfl
    | number l v =>
      cases he
      exact ⟨some (.number v), rfl, fun x hx => Option.some.inj hx ▸ hself l v rfl⟩
    | string l v =>
      cases he
      exact ⟨some (.text v), rfl, fun x hx => Option.some.inj hx ▸ by simp [Literal.equal]⟩
    | boolean l v =>
      cases he
      exact ⟨some (.flag v), rfl, fun x hx => Option.some.inj hx ▸ by cases v <;> rfl⟩
    | unary l op value =>
      refine .bind .nothing fun i σ₁ _ => ?_
      refine .bind .nothing fun t σ₂ _ => ?_
      cases op with
      | negate | length | not =>
        cases he
        refine .bind .nothing fun _ σ₃ _ => ?_
        exact .bind .nothing fun _ _ _ => .pure (hplain rfl)
      | other => cases he
    | binary l left op right =>
      have huniform : ∀ {a b : Inferred} {wanted : Ty} {σ : Session}, Ensures
          (inferUniform left right a b wanted (.con name [] none [])) σ (fun i _ =>
            ∃ v, i.type = .con name [] v [] ∧ ∀ x, v = some x → x.equal x = true)
            fun _ _ => True := by
        intro a b wanted σ
        refine .bind .nothing fun _ _ _ => .bind .nothing fun _ _ _ => ?_
        refine .bind .nothing fun _ _ _ => .bind .nothing fun _ _ _ => ?_
        exact .bind .nothing fun _ _ _ => .pure (hplain rfl)
      refine .bind .nothing fun a _ _ => .bind .nothing fun _ _ _ => ?_
      refine .bind .nothing fun b _ _ => .bind .nothing fun _ _ _ => ?_
      obtain ⟨f, hop, hf⟩ := Option.bind_eq_some_iff.1 he
      rw [hop]
      cases f with
      | arithmetic | ordering | joining =>
        cases hf
        exact huniform
      | comparison | connective => cases hf
    | _ => cases he

lemma mem_typeNames_of_valueName? {name : String} (he : e.valueName? = some name) :
    name ∈ scalarNames ∧ name ∈ typeNames := by
  cases e with
  | nil | number | string | boolean =>
    cases he
    decide
  | unary l op =>
    cases op with
    | other => cases he
    | _ =>
      cases he
      decide
  | binary l left op right =>
    obtain ⟨f, -, hf⟩ := Option.bind_eq_some_iff.1 he
    cases f with
    | comparison | connective => cases hf
    | _ =>
      cases hf
      decide
  | _ => cases he

/-- A truth value is concluded with checks that some tests make, and nothing is changed. -/
structure Concluded (place : Node → Prop) (tests : List PathTest) (σ : Session) (i : Inferred)
    (σ' : Session) : Prop where
  type : ∃ checks, i.type = .con "boolean" [] none checks ∧
    List.Forall₂ PathTest.Checks tests checks
  unmoved : Unmoved place σ σ'

lemma Concluded.boolean {i : Inferred} {σ' : Session} (h : Concluded place tests σ i σ') :
    ∃ checks, i.type = .con "boolean" [] none checks :=
  h.type.imp fun _ => And.left

lemma within_named {name : String} {t : Ty} (h : Named name t) : t.Within (.about place) := by
  cases h with
  | plain => simp [Ty.plain, ChecksWithin]
  | table => simp [FieldsWithin]
  | function => simp [Ty.function, Permit.about, ChecksWithin]

lemma comparisonChecks_path {x : String} {path : List String} {a b : Ty}
    (hp : PropertyPath x path p) (hpath : path ≠ []) (he : e.isPlace = false) :
    comparisonChecks p e a b = pure [(p, b)] := by
  cases hp with
  | root => exact absurd rfl hpath
  | field =>
    unfold comparisonChecks
    rw [he]
    rfl

lemma isBinding_of_valueName? {name : String} (he : e.valueName? = some name) :
    e.isPlace = false ∧ e.isBinding = false := by
  cases e with
  | nil | number | string | boolean | unary | binary => exact ⟨rfl, rfl⟩
  | _ => cases he

lemma flatten_scalar {U : Ty} (h : U.Scalar) : U.flatten = .ok U := by
  cases h with
  | con _ hc => exact flatten_of_ne (ne_of_mem_scalarNames hc).2.1 _ _ _
  | union => rfl

lemma ensures_naming_unify {a b : Ty} (ha : a.Simple) (hb : b.Simple) :
    Ensures (naming (unify a b)) σ (fun u _ => u.left = a ∧ u.right = b) fun _ _ => True := by
  refine (ensures_naming (Q := fun u => u.left = a ∧ u.right = b) fun k => ?_).imp
    (fun _ _ h => h.1) fun _ _ _ => trivial
  unfold Ensures
  rcases houtcome : outcome (unify a b) k with ⟨f | u, k'⟩
  · trivial
  · exact ha.unified hb houtcome

/-- A comparison of a path with simple values concludes that it has their type. -/
lemma ensures_inferComparison_path {x : String} {path : List String} {a b : Inferred}
    (hp : PropertyPath x path p) (hpath : path ≠ []) (he : e.isPlace = false) (ha : a.type.Simple)
    (hb : b.type.Simple) :
    Ensures (inferComparison p e a b) σ
      (fun i _ => i.type = .con "boolean" [] none [(p, b.type)]) fun _ _ => True := by
  have hfirst : Ensures (unifyOrNot a.type b.type) σ
      (fun r _ => r.2.left = a.type ∧ r.2.right = b.type) fun _ _ => True := by
    refine .bind (ensures_naming_unify ha hb) fun u σ₁ hu => ?_
    cases u.outcome <;> exact .pure hu
  refine .bind hfirst ?_
  rintro ⟨s, u⟩ σ₁ ⟨hleft, hright⟩
  dsimp only at hleft hright ⊢
  rw [hleft, hright]
  refine .bind (ensures_naming_unify ha hb) fun again σ₂ hagain => ?_
  rw [comparisonChecks_path hp hpath he, hagain.2]
  cases again.outcome with
  | ok | error =>
    refine .bind .nothing fun _ _ _ => .bind_of_eq rfl ?_
    exact .bind .nothing fun _ _ _ => .bind .nothing fun _ _ _ => .pure rfl

/-- A test of a place for a name concludes that it has a type that the name stands for. -/
lemma ensures_inferComparison_named {lc lt ls : Location} {name : String} {a b : Inferred}
    (hp : p.isPlace = true) (hlocal : σ.scopes.local? "type" = none) :
    Ensures (inferComparison (.call lc (.var lt "type") [p]) (.string ls name) a b) σ
      (fun i _ => ∃ checks, i.type = .con "boolean" [] none checks ∧
        List.Forall₂ (fun n k => k.1 = p ∧ Named n k.2) ([name].filter (· ∈ typeNames)) checks)
      fun _ _ => True := by
  refine .bind (scopeless_unifyOrNot _ _).still.ensures ?_
  rintro ⟨s, u⟩ σ₁ h₁
  refine .bind (still_naming _).ensures fun again σ₂ h₂ => ?_
  have hrest : ∀ (s : Subst) {σ₃ : Session}, σ₃.scopes = σ₂.scopes → Ensures
      (comparisonOf (.call lc (.var lt "type") [p]) (.string ls name) a b again.left again.right s)
      σ₃ (fun i _ => ∃ checks, i.type = .con "boolean" [] none checks ∧
        List.Forall₂ (fun n k => k.1 = p ∧ Named n k.2) ([name].filter (· ∈ typeNames)) checks)
      fun _ _ => True := by
    intro s σ₃ h₃
    refine .bind ((succeeds_comparisonChecks hp (by rw [h₃, h₂, h₁, hlocal])).imp
      (fun _ _ h => h.1) fun _ _ => False.elim) fun checks σ₄ hchecks => ?_
    exact .bind .nothing fun _ _ _ => .bind .nothing fun _ _ _ => .pure ⟨checks, rfl, hchecks⟩
  dsimp only
  cases again.outcome with
  | ok t => exact .bind (still_compose t s).ensures fun _ _ h₃ => hrest _ h₃
  | error => exact hrest s rfl

section Condition

variable (hvars : ∀ l x, place (.var l x))
  (hplaces : ∀ p, place p → p.isIndex = false ∧ p.Sealed place [])
include hvars hplaces

variable {n : Node}

/-- A test of a property path concludes with its check, if it is for a name that tests know. -/
lemma ensures_infer_pathTest {a : PathTest} (hn : a.Written place n)
    (hleads : ∀ b ∈ knownTests (.test a), b.Leads σ.scopes.local?)
    (htype : σ.scopes.local? "type" = none) (hσ : σ.Within (.about place)) (depth : Nat) :
    Ensures (inferTo depth n) σ (Concluded place (knownTests (.test a)) σ) fun _ _ => True := by
  cases depth with
  | zero => trivial
  | succ depth =>
    cases hn with
    | @named lb lc lt ls op root path p name hop hpath hp =>
      refine .bind (ensures_sealed hvars hplaces (hp.sealed_call lc lt) rfl hσ depth)
        fun i σ₁ h₁ => ?_
      refine .bind ((still_ofExcept _).unmoved h₁.within) fun t σ₂ h₂ => ?_
      refine .bind (ensures_sealed hvars hplaces (string_sealed ls name) rfl h₂.within depth)
        fun j σ₃ h₃ => ?_
      refine .bind ((still_ofExcept _).unmoved h₃.within) fun u σ₄ h₄ => ?_
      have hsame := ((h₁.trans h₂).trans h₃).trans h₄
      rw [hop]
      refine (Ensures.both ((still_inferComparison _ _ _ _).unmoved h₄.within)
        (ensures_inferComparison_named hp.isPlace ((hsame.local? _).trans htype))).imp ?_
          fun _ _ => id
      rintro k σ₅ ⟨hk, checks, htype, hchecks⟩
      refine ⟨⟨checks, htype, ?_⟩, hsame.trans hk⟩
      by_cases hname : name ∈ typeNames
      · have hknown : knownTests (.test ⟨root, path, name⟩) = [⟨root, path, name⟩] := by
          simp [knownTests, Condition.tests, hname]
        have hfilter : [name].filter (· ∈ typeNames) = [name] := by simp [hname]
        rw [hfilter] at hchecks
        obtain ⟨c, checks, ⟨hplace, hnamed⟩, hrest, rfl⟩ := List.forall₂_cons_left_iff.1 hchecks
        obtain rfl := List.forall₂_nil_left_iff.1 hrest
        rw [hknown]
        exact .cons ⟨hplace ▸ hp, hpath, hnamed.aims, within_named hnamed⟩ .nil
      · have hknown : knownTests (.test ⟨root, path, name⟩) = [] := by
          simp [knownTests, Condition.tests, hname]
        have hfilter : [name].filter (· ∈ typeNames) = [] := by simp [hname]
        rw [hfilter] at hchecks
        obtain rfl := List.forall₂_nil_left_iff.1 hchecks
        rw [hknown]
        exact .nil
    | @equals lb op root name path p e hop hpath hp he hsealed hself =>
      have hname := mem_typeNames_of_valueName? he
      have hknown : knownTests (.test ⟨root, path, name⟩) = [⟨root, path, name⟩] := by
        simp [knownTests, Condition.tests, hname.2]
      obtain ⟨hplace, hbinding⟩ := isBinding_of_valueName? he
      rw [hknown] at hleads ⊢
      obtain ⟨T, U, hT, hground, hrec, hU, hscalar⟩ := hleads _ (List.mem_singleton_self _)
      refine .bind (.both (ensures_infer_path hp hT hground hrec hU depth)
        (ensures_sealed hvars hplaces hp.sealed hp.isBinding hσ depth)) ?_
      rintro i σ₁ ⟨⟨hi, -⟩, h₁⟩
      rw [hi, flatten_scalar hscalar]
      refine .bind_of_eq (a := U) rfl ?_
      refine .bind (.both (ensures_infer_value he hself depth)
        (ensures_sealed hvars hplaces hsealed hbinding h₁.within depth)) ?_
      rintro j σ₂ ⟨⟨v, hj, hv⟩, h₂⟩
      have hvalue : (Ty.con name [] v []).Scalar := .con [] hname.1 hv
      rw [hj, flatten_scalar hvalue]
      refine .bind_of_eq (a := .con name [] v []) rfl ?_
      rw [hop]
      refine (Ensures.both ((still_inferComparison _ _ _ _).unmoved h₂.within)
        (ensures_inferComparison_path hp hpath hplace hscalar.simple hvalue.simple)).imp ?_
          fun _ _ => id
      rintro k σ₃ ⟨h₃, hk⟩
      refine ⟨⟨_, hk, .cons ⟨hp, hpath, aims_con hv, ?_⟩ .nil⟩, (h₁.trans h₂).trans h₃⟩
      simp [ChecksWithin, Permit.about]

omit hvars hplaces in
/-- The checks of both sides of a connective are those of its tests. -/
lemma ensures_inferConnective {left right : Node} {a b : Inferred} {more : List PathTest}
    {σ₀ σ₁ : Session} (ha : Concluded place tests σ₀ a σ₁) (hb : Concluded place more σ₁ b σ) :
    Ensures (inferConnective left right a b) σ (Concluded place (tests ++ more) σ₀)
      fun _ _ => True := by
  obtain ⟨s, _⟩ := a
  obtain ⟨t, _⟩ := b
  obtain ⟨⟨checks, rfl, hchecks⟩, hmoved⟩ := ha
  obtain ⟨⟨checks', rfl, hchecks'⟩, hmoved'⟩ := hb
  have hjoined : Ensures (inferConnective left right ⟨s, .con "boolean" [] none checks⟩
      ⟨t, .con "boolean" [] none checks'⟩) σ
      (fun i _ => i.type = .con "boolean" [] none (checks ++ checks')) fun _ _ => True := by
    rw [inferConnective_checks]
    refine .bind .nothing fun _ _ _ => .bind .nothing fun _ _ _ => ?_
    exact .bind .nothing fun _ _ _ => .pure rfl
  refine (Ensures.both ((scopeless_inferConnective _ _ _ _).still.unmoved hmoved'.within)
    hjoined).imp ?_ fun _ _ => id
  rintro i σ₂ ⟨h₂, hi⟩
  exact ⟨⟨_, hi, List.rel_append hchecks hchecks'⟩, (hmoved.trans hmoved').trans h₂⟩

/-- A condition concludes with the checks of its tests for known names. -/
theorem ensures_infer_pathCondition {C : Condition PathTest}
    (hn : C.Written (PathTest.Written place) n)
    (hleads : ∀ a ∈ knownTests C, a.Leads σ.scopes.local?) (htype : σ.scopes.local? "type" = none)
    (hσ : σ.Within (.about place)) (depth : Nat) :
    Ensures (inferTo depth n) σ (Concluded place (knownTests C) σ) fun _ _ => True := by
  induction hn generalizing depth σ with
  | test hn => exact ensures_infer_pathTest hvars hplaces hn hleads htype hσ depth
  | both l _ _ ihm ihn | either l _ _ ihm ihn =>
    rw [knownTests, Condition.tests, List.filter_append] at hleads ⊢
    cases depth with
    | zero => trivial
    | succ depth =>
      refine ensures_connective (fun _ _ hi => hi.boolean) (fun _ _ _ hi => hi.boolean)
        (ihm (fun a ha => hleads a (List.mem_append_left _ ha)) htype hσ depth)
        (fun _ σ₁ h₁ => ihn (fun a ha => ?_) ((h₁.unmoved.local? _).trans htype) h₁.unmoved.within
          depth) fun _ _ _ _ => ensures_inferConnective
      rw [funext h₁.unmoved.local?]
      exact hleads a (List.mem_append_right _ ha)

end Condition

end Check

end LuaTyping
