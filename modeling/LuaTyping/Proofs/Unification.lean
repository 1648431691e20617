import LuaTyping.Proofs.Within

set_option autoImplicit false

/-!
# What unification and showing types can come to

A step of unification unifies parts of the two types, shows parts of them, and compares keys of
their tables. Whatever is promised about these goes over to the step: nothing occurs in its
substitution but what occurs in the types, and both types come back with at most some function
results put into tuples. The same holds for a step of showing a type.

The parts have less bulk than the whole, so the promises are only needed below a bound. A recursion
to a given depth can use this or not: without a bound it follows that unification stays within a
permit, and with one that its depth suffices.

## Main definitions

* `Unified.Of` — what is known of the outcome of a unification.

## Main results

* `unifyStep_sat`, `renderStep_sat` — what one step comes to.
-/

namespace LuaTyping

open Ty (Wraps)

/-! ## Parts of a step -/

/-- A failure whose message shows both types. -/
def showFailure (render : Renderer) (message : String → String → String) (a b : Ty) :
    Naming Unified := do
  let left ← render a
  let right ← render b
  return ⟨.error (message left right), a, b⟩

/-- Both alternatives of a union are unified with a type. -/
def unifyUnion (unify : Unifier) (left right b : Ty) : Naming Unified := do
  let u ← unify left b
  match u.outcome with
  | .error m => return ⟨.error m, .union u.left right, u.right⟩
  | .ok s =>
    let w ← unify right u.right
    match w.outcome with
    | .error m => return ⟨.error m, .union u.left w.left, w.right⟩
    | .ok t => return ⟨.ok (← s.composeWith (fitsBy unify) t), .union u.left w.left, w.right⟩

/-- A type is unified with the alternatives of a union, of which one suffices. -/
def unifyAlternatives (unify : Unifier) (a left right : Ty) : Naming Unified := do
  let u ← unify a left
  let w ← unify u.left right
  let after := Ty.union u.right w.right
  match u.outcome, w.outcome with
  | .error m, .error _ => return ⟨.error m, w.left, after⟩
  | .ok s, .error _ => return ⟨.ok s, w.left, after⟩
  | .error _, .ok t => return ⟨.ok t, w.left, after⟩
  | .ok s, .ok t => return ⟨.ok (← t.composeWith (fitsBy unify) s), w.left, after⟩

/-- What is shown of the result of a function, after its parameters. -/
def renderResult (render : Renderer) (params rest : List Ty) (list : String) : Naming String :=
  match rest with
  | [] => throw .outOfRange
  | result :: _ => do
    let result ← match result.tupleArgs? with
      | some results => do pure (", ".intercalate (← renderAll render results))
      | none => render result
    let list := if params.length = 1 then list else s!"({list})"
    return s!"{list} -> {result}"

/-- What is shown of a table that may be an array. -/
def renderTable (render : Renderer) (fields : List (Ty × Ty)) : Option String → Naming String
  | some text => pure text
  | none => do
    let list := ", ".intercalate (← renderFields render fields)
    return "\x7b" ++ list ++ "\x7d"

/-! ## Promises -/

/-- What is known of the outcome of unifying two types within a permit. -/
structure Unified.Of (P : Permit) (a b : Ty) (u : Unified) : Prop where
  subst : ∀ s, u.outcome = .ok s → s.Found P
  left : Wraps a u.left
  right : Wraps b u.right

/-- An operation unifies types within a permit whose bulks together stay below a bound. -/
def UnifiesBelow (P : Permit) (F : Fault → Prop) (unify : Unifier) (bound : Nat) : Prop :=
  ∀ a b : Ty, a.Within P → b.Within P → a.bulk + b.bulk < bound →
    (unify a b).Sat (Unified.Of P a b) F

/-- An operation shows types within a permit whose bulk stays below a bound. -/
def RendersBelow (P : Permit) (F : Fault → Prop) (render : Renderer) (bound : Nat) : Prop :=
  ∀ t : Ty, t.Within P → t.bulk < bound → (render t).Sat (fun _ => True) F

variable {P : Permit} {F : Fault → Prop} {unify : Unifier} {render : Renderer} {bound : Nat}

/-- A unification has left two types as they were. -/
def Unified.Leaves (a b : Ty) (u : Unified) : Prop := u.left = a ∧ u.right = b

lemma Unified.Of.swap {a b : Ty} {u : Unified} (h : u.Of P a b) : u.swap.Of P b a :=
  ⟨h.subst, h.right, h.left⟩

/-! ## Lists -/

/-- What is known of the outcome of unifying two lists. -/
structure UnifiedLists.Of (P : Permit) (as bs : List Ty) (u : UnifiedLists) : Prop where
  subst : ∀ s, u.outcome = .ok s → s.Found P
  left : List.Forall₂ Wraps as u.left
  right : List.Forall₂ Wraps bs u.right

lemma forall₂_wraps_refl (ts : List Ty) : List.Forall₂ Wraps ts ts :=
  List.forall₂_same.2 fun t _ => .refl t

variable {s : Subst} {as bs ts : List Ty} {fs gs : List (Ty × Ty)} {t : Ty}

lemma UnifiedLists.of_ok (hs : s.Found P) (as bs : List Ty) :
    UnifiedLists.Of P as bs ⟨.ok s, as, bs⟩ :=
  ⟨fun _ h => Except.ok.inj h ▸ hs, forall₂_wraps_refl as, forall₂_wraps_refl bs⟩

lemma unifyLists_sat {combine : Subst → Subst → Naming Subst} (hs : s.Found P)
    (hcombine : ∀ found s : Subst, found.Found P → s.Found P →
      (combine found s).Sat (Subst.Found P) F)
    (h : ∀ a ∈ as, ∀ b ∈ bs, (unify a b).Sat (Unified.Of P a b) F) :
    (unifyLists unify combine s as bs).Sat (UnifiedLists.Of P as bs) F := by
  induction as generalizing bs s with
  | nil => exact .pure (UnifiedLists.of_ok hs [] bs)
  | cons a as ih =>
    cases bs with
    | nil => exact .pure (UnifiedLists.of_ok hs (a :: as) [])
    | cons b bs =>
      simp only [unifyLists]
      refine .bind (h a (by simp) b (by simp)) fun u hu => ?_
      split
      · refine .pure ⟨fun _ hs' => (nomatch hs'), ?_, ?_⟩
        · exact .cons hu.left (forall₂_wraps_refl as)
        · exact .cons hu.right (forall₂_wraps_refl bs)
      · rename_i found hfound
        refine .bind (hcombine found s (hu.subst found hfound) hs) fun s' hs' => ?_
        refine .bind (ih hs' fun a ha b hb => h a (by simp [ha]) b (by simp [hb]))
          fun rest hrest => ?_
        exact .pure ⟨hrest.subst, .cons hu.left hrest.left, .cons hu.right hrest.right⟩

/-! ## Fields -/

/-- Fields are the same but for function results put into tuples. -/
abbrev FieldsWrap (fs gs : List (Ty × Ty)) : Prop :=
  List.Forall₂ (fun f g => Wraps f.1 g.1 ∧ Wraps f.2 g.2) fs gs

lemma fieldsWrap_refl (fs : List (Ty × Ty)) : FieldsWrap fs fs :=
  List.forall₂_same.2 fun f _ => ⟨.refl f.1, .refl f.2⟩

lemma FieldsWrap.trans {hs : List (Ty × Ty)} (h : FieldsWrap fs gs) (h' : FieldsWrap gs hs) :
    FieldsWrap fs hs := by
  induction h generalizing hs with
  | nil => exact h'
  | cons hfg _ ih =>
    obtain ⟨_, _, hgh, htail, rfl⟩ := List.forall₂_cons_left_iff.1 h'
    exact .cons ⟨hfg.1.trans hgh.1, hfg.2.trans hgh.2⟩ (ih htail)

lemma FieldsWrap.wraps (h : FieldsWrap fs gs) :
    Wraps (.table fs) (.table gs) := Wraps.fields h []

lemma FieldsWrap.within (h : FieldsWrap fs gs) (hfs : Ty.FieldsWithin P fs) :
    Ty.FieldsWithin P gs :=
  Ty.within_table_iff.1 ((Ty.within_table_iff.2 hfs).wraps h.wraps)

lemma FieldsWrap.bulk_eq (h : FieldsWrap fs gs) : Ty.bulkFields gs = Ty.bulkFields fs := by
  have := h.wraps.bulk_eq
  simpa only [Ty.bulk, Nat.add_right_cancel_iff] using this

lemma FieldsWrap.middle (before after : List (Ty × Ty)) {k l v w : Ty} (hk : Wraps k l)
    (hv : Wraps v w) : FieldsWrap (before ++ (k, v) :: after) (before ++ (l, w) :: after) := by
  induction before with
  | nil => exact .cons ⟨hk, hv⟩ (fieldsWrap_refl after)
  | cons f before ih => exact .cons ⟨.refl f.1, .refl f.2⟩ ih

/-- A field that is found splits the fields in two. -/
lemma splitField_sat {covers : Covers} (hc : Ty.KeysTested P covers F) {k : Ty} (hk : P.key k)
    (hk' : k.Within P) {before fields : List (Ty × Ty)} (h : Ty.FieldsWithin P fields) :
    (splitField covers k before fields).Sat
      (fun found => ∀ b f a, found = some (b, f, a) → before ++ fields = b ++ f :: a) F := by
  induction fields generalizing before with
  | nil => exact .pure (by simp)
  | cons f fields ih =>
    obtain ⟨hf, hf', _⟩ := h f (by simp)
    simp only [splitField]
    refine .bind (hc k f.1 hk hf hk' hf') fun found _ => ?_
    split
    · refine .pure fun b g a heq => ?_
      simp only [Option.some.injEq, Prod.mk.injEq] at heq
      obtain ⟨rfl, rfl, rfl⟩ := heq
      rfl
    · refine (ih fun g hg => h g (by simp [hg])).imp (fun found hfound b g a heq => ?_) fun _ => id
      simpa using hfound b g a heq

lemma fitsBy_eq (unify : Unifier) (a b : Ty) :
    fitsBy unify a b = (do return (← testBy unify a b).holds) := by
  cases a with
  | var x => cases b <;> rfl
  | con | table | union | all =>
    cases b with
    | var y => rfl
    | con | table | union | all => simp only [fitsBy, testBy, bind_assoc, pure_bind]

/-- A test changes types as the unification does that it is made by. -/
lemma testBy_sat {R : Ty → Ty → Prop} (hR : ∀ t, R t t) {k l : Ty}
    (h : (unify k l).Sat (fun u => R k u.left ∧ R l u.right) F) :
    (testBy unify k l).Sat (fun t => R k t.left ∧ R l t.right) F := by
  unfold testBy
  split
  · exact .pure ⟨hR _, hR _⟩
  · exact .pure ⟨hR _, hR _⟩
  · exact .pure ⟨hR _, hR _⟩
  · exact .bind h fun u hu => .pure hu

lemma testBy_wraps {k l : Ty} (h : (unify k l).Sat (Unified.Of P k l) F) :
    (testBy unify k l).Sat (fun t => Wraps k t.left ∧ Wraps l t.right) F :=
  testBy_sat .refl (h.imp (fun _ hu => ⟨hu.left, hu.right⟩) fun _ => id)

lemma fitsBy_sat {Q : Unified → Prop} {a b : Ty} (h : (unify a b).Sat Q F) :
    (fitsBy unify a b).Sat (fun _ => True) F := by
  rw [fitsBy_eq]
  refine .bind (testBy_sat (R := fun _ _ => True) (fun _ => trivial) ?_) fun _ _ => .pure trivial
  exact h.imp (fun _ _ => ⟨trivial, trivial⟩) fun _ => id

/-- Looking for a field changes the key, and the keys that it is compared with, at most in function
results. -/
lemma seekField_sat (hu : UnifiesBelow P F unify bound) {k : Ty} (hk : k.Within P)
    {passed fields : List (Ty × Ty)} (h : Ty.FieldsWithin P fields)
    (hbound : k.bulk + Ty.bulkFields fields < bound) :
    (seekField unify k passed fields).Sat
      (fun r => Wraps k r.1 ∧ FieldsWrap (passed ++ fields) (r.2.1 ++ r.2.2)) F := by
  induction fields generalizing k passed with
  | nil => exact .pure ⟨.refl k, fieldsWrap_refl _⟩
  | cons f fields ih =>
    obtain ⟨l, w⟩ := f
    obtain ⟨_, hl, _⟩ := h (l, w) (by simp)
    simp only [Ty.bulkFields] at hbound
    refine .bind (testBy_wraps (hu k l hk hl (by omega))) fun t ht => ?_
    have hmiddle := FieldsWrap.middle passed fields ht.2 (.refl w)
    refine .ite (fun _ => .pure ⟨ht.1, hmiddle⟩) fun _ => ?_
    refine (ih (hk.wraps ht.1) (fun g hg => h g (by simp [hg])) ?_).imp (fun r hr => ?_)
      fun _ => id
    · rw [ht.1.bulk_eq]
      omega
    · rw [List.append_assoc, List.singleton_append] at hr
      exact ⟨ht.1.trans hr.1, hmiddle.trans hr.2⟩

/-- What is known of the outcome of unifying the fields of two tables. -/
structure UnifiedFields.Of (P : Permit) (wanted given : List (Ty × Ty)) (u : UnifiedFields) :
    Prop where
  subst : ∀ s, u.outcome = .ok s → s.Found P
  left : FieldsWrap wanted u.left
  right : FieldsWrap given u.right

lemma unifyFields_sat (hu : UnifiesBelow P F unify bound) (hr : RendersBelow P F render bound)
    (hk : Ty.KeysTested P (fitsBy unify) F) (hF : ∀ f, P.Allows f → F f) (hs : s.Found P)
    {wanted given : List (Ty × Ty)} (hwanted : Ty.FieldsWithin P wanted)
    (hgiven : Ty.FieldsWithin P given)
    (hbound : Ty.bulkFields wanted + Ty.bulkFields given + 1 < bound) :
    (unifyFields unify render s given wanted).Sat (UnifiedFields.Of P wanted given) F := by
  induction wanted generalizing given s with
  | nil => exact .pure ⟨fun _ h => Except.ok.inj h ▸ hs, .nil, fieldsWrap_refl given⟩
  | cons f rest ih =>
    obtain ⟨k, v⟩ := f
    obtain ⟨_, hkin, hv⟩ : P.key k ∧ k.Within P ∧ v.Within P := hwanted (k, v) (by simp)
    have hrest : Ty.FieldsWithin P rest := fun g hg => hwanted g (by simp [hg])
    simp only [Ty.bulkFields] at hbound
    refine .bind (seekField_sat hu hkin hgiven (by omega)) fun r hfound => ?_
    rcases r with ⟨l, before, after⟩
    obtain ⟨hkl, hpassed⟩ : Wraps k l ∧ FieldsWrap given (before ++ after) := hfound
    have hpassed' := hpassed.within hgiven
    have hbulk := hpassed.bulk_eq
    have hkbulk := hkl.bulk_eq
    rcases after with _ | ⟨⟨m, w⟩, after⟩
    · rw [List.append_nil] at hpassed hpassed' hbulk
      refine .bind (hr l (hkin.wraps hkl) (by omega)) fun _ _ => ?_
      refine .bind (hr _ (Ty.within_table_iff.2 hpassed') ?_) fun _ _ => ?_
      · simp only [Ty.bulk]
        omega
      · exact .pure ⟨fun _ h => (nomatch h), .cons ⟨hkl, .refl v⟩ (fieldsWrap_refl rest), hpassed⟩
    · obtain ⟨_, _, hw⟩ := hpassed' (m, w) (by simp)
      simp only [Ty.bulkFields_append, Ty.bulkFields] at hbulk
      refine .bind (hu w v hw hv (by omega)) fun u hu' => ?_
      have hmiddle := hpassed.trans (.middle before after (.refl m) hu'.left)
      rcases houtcome : u.outcome with e | found
      · exact .pure
          ⟨fun _ h => (nomatch h), .cons ⟨hkl, hu'.right⟩ (fieldsWrap_refl rest), hmiddle⟩
      · refine .bind (Subst.composeWith_found hk hF (hu'.subst found houtcome) hs) fun s' hs' => ?_
        refine .bind (ih hs' hrest (hmiddle.within hgiven) ?_) fun fields hfields => ?_
        · rw [hmiddle.bulk_eq]
          omega
        · exact .pure ⟨hfields.subst, .cons ⟨hkl, hu'.right⟩ hfields.left,
            hmiddle.trans hfields.right⟩

/-! ## Functions and constructors -/

lemma within_of_result {r w : Ty} (h : w = r ∨ r.isNamed "tuple" = false ∧ w = .tuple [r])
    (hr : r.Within P) : w.Within P := by
  rcases h with rfl | ⟨_, rfl⟩
  · exact hr
  · simpa using hr

lemma unifyFunctions_sat {v w : Option Literal} {checks more : List Checked}
    (hu : UnifiesBelow P F unify bound) (hk : Ty.KeysTested P (fitsBy unify) F)
    (hF : ∀ f, P.Allows f → F f) (ha : ∀ a ∈ as, a.Within P) (hb : ∀ b ∈ bs, b.Within P)
    (hbound : Ty.bulkFunction as + Ty.bulkFunction bs < bound) :
    (unifyFunctions unify v w checks more as bs).Sat
      (Unified.Of P (.con "function" as v checks) (.con "function" bs w more)) F := by
  unfold unifyFunctions
  split
  · rename_i c ps pv pchecks as d qs qv qchecks bs
    obtain ⟨_, hps, _⟩ := Ty.within_con_iff.1 (ha _ List.mem_cons_self)
    obtain ⟨_, hqs, _⟩ := Ty.within_con_iff.1 (hb _ List.mem_cons_self)
    have hpbulk := Ty.bulkList_lt_bulk c ps pv pchecks
    have hqbulk := Ty.bulkList_lt_bulk d qs qv qchecks
    have hlists : (unifyLists (fun p q => do return (← unify q p).swap)
        (Subst.composeWith (fitsBy unify)) .empty ps qs).Sat (UnifiedLists.Of P ps qs) F := by
      refine unifyLists_sat Subst.found_empty
        (fun found s hfound hs => Subst.composeWith_found hk hF hfound hs) fun p hp q hq => ?_
      refine .bind (hu q p (hqs q hq) (hps p hp) ?_) fun u hu' => .pure hu'.swap
      have := Ty.bulk_le_bulkList hp
      have := Ty.bulk_le_bulkList hq
      have := Ty.bulkList_le_bulkFunction (.con c ps pv pchecks :: as)
      have := Ty.bulkList_le_bulkFunction (.con d qs qv qchecks :: bs)
      simp only [Ty.bulkList] at *
      omega
    refine .bind hlists fun params hparams => ?_
    have hleft := Wraps.args hparams.left c [] pv pchecks
    have hright := Wraps.args hparams.right d [] qv qchecks
    simp only
    split
    · refine .pure ⟨by simp, ?_, ?_⟩
      · exact Wraps.arg "function" [] as v checks hleft
      · exact Wraps.arg "function" [] bs w more hright
    · rename_i s hs
      split
      · rename_i r as r' bs
        have hwl := Ty.wrapLeft_eq r
        have hwr := Ty.wrapRight_eq (wrapLeft r) r'
        -- both types with the results put into tuples, before the results are unified
        have hl := (Wraps.arg "function" [] (r :: as) v checks hleft).trans
          (.of_result hwl _ as v checks)
        have hr := (Wraps.arg "function" [] (r' :: bs) w more hright).trans
          (.of_result hwr _ bs w more)
        have hr₁ := within_of_result hwl (ha r (by simp))
        have hr₂ := within_of_result hwr (hb r' (by simp))
        have hb₁ := Ty.bulk_wrapLeft_le r
        have hb₂ := Ty.bulk_wrapRight_le (wrapLeft r) r'
        refine .bind (hu _ _ hr₁ hr₂ ?_) fun u hu' => ?_
        · simp only [Ty.bulkFunction, Ty.resultBulk] at hbound hb₁ hb₂
          omega
        · replace hl := hl.trans (Wraps.arg "function" [.con c params.left pv pchecks] as v checks
            hu'.left)
          replace hr := hr.trans (Wraps.arg "function" [.con d params.right qv qchecks] bs w more
            hu'.right)
          split
          · exact .pure ⟨by simp, hl, hr⟩
          · rename_i found hfound
            refine .bind (Subst.composeWith_found hk hF (hu'.subst found hfound)
              (hparams.subst s hs)) fun s' hs' => ?_
            exact .pure ⟨fun _ h => Except.ok.inj h ▸ hs', hl, hr⟩
      · exact .throw (hF _ trivial)
  all_goals exact .throw (hF _ trivial)

lemma unifyConstructors_sat {c d : String} {v w : Option Literal} {checks more : List Checked}
    (hu : UnifiesBelow P F unify ((Ty.con c as v checks).bulk + (Ty.con d bs w more).bulk))
    (hr : RendersBelow P F render ((Ty.con c as v checks).bulk + (Ty.con d bs w more).bulk))
    (hk : Ty.KeysTested P (fitsBy unify) F) (hF : ∀ f, P.Allows f → F f)
    (ha : (Ty.con c as v checks).Within P) (hb : (Ty.con d bs w more).Within P) :
    (unifyConstructors unify render c as v checks d bs w more).Sat
      (Unified.Of P (.con c as v checks) (.con d bs w more)) F := by
  have hfail : ∀ m, Unified.Of P (.con c as v checks) (.con d bs w more)
      ⟨.error m, .con c as v checks, .con d bs w more⟩ :=
    fun m => ⟨fun _ h => (nomatch h), .refl _, .refl _⟩
  -- a failure shows both types
  have hshow : ∀ m, (showFailure render m (.con c as v checks) (.con d bs w more)).Sat
      (Unified.Of P (.con c as v checks) (.con d bs w more)) F := by
    intro m
    have := (Ty.con c as v checks).bulk_pos
    have := (Ty.con d bs w more).bulk_pos
    refine .bind (hr _ ha (by omega)) fun _ _ => .bind (hr _ hb (by omega)) fun _ _ => ?_
    exact .pure (hfail _)
  obtain ⟨_, hargs, _⟩ := Ty.within_con_iff.1 ha
  obtain ⟨_, hbrgs, _⟩ := Ty.within_con_iff.1 hb
  unfold unifyConstructors
  simp only
  split
  · exact .pure (hfail _)
  · rename_i hcd
    obtain rfl : c = d := not_not.1 hcd
    refine .ite (fun _ => hshow _) fun _ => .ite (fun _ => hshow _) fun _ => .ite ?_ fun _ => ?_
    · rintro rfl
      refine unifyFunctions_sat hu hk hF hargs hbrgs ?_
      simp only [Ty.bulk, if_true]
      omega
    · have hpairs : (unifyLists unify
          (fun found _ => found.composeWith (fitsBy unify) found) .empty as bs).Sat
          (UnifiedLists.Of P as bs) F := by
        refine unifyLists_sat Subst.found_empty
          (fun found s hfound _ => Subst.composeWith_found hk hF hfound hfound)
          fun a ha b hb => hu a b (hargs a ha) (hbrgs b hb) ?_
        have := Ty.bulk_le_bulkList ha
        have := Ty.bulk_le_bulkList hb
        have := Ty.bulkList_lt_bulk c as v checks
        have := Ty.bulkList_lt_bulk c bs w more
        omega
      split
      · exact .throw (hF _ trivial)
      · exact hshow _
      · refine .bind hpairs fun u hu' => .pure ⟨hu'.subst, ?_, ?_⟩
        · exact Wraps.args hu'.left c [] v checks
        · exact Wraps.args hu'.right c [] w more

/-! ## One step of unification -/

/-- One step of unification stays within a permit, if unifying, showing and comparing the parts of
both types does. -/
theorem unifyStep_sat {a b : Ty} (hu : UnifiesBelow P F unify (a.bulk + b.bulk))
    (hr : RendersBelow P F render (a.bulk + b.bulk)) (hk : Ty.KeysTested P (fitsBy unify) F)
    (hF : ∀ f, P.Allows f → F f) (ha : a.Within P) (hb : b.Within P) :
    (unifyStep unify render a b).Sat (Unified.Of P a b) F := by
  have hsingle : ∀ {x : String} {t : Ty}, P.var x → t.Within P →
      Unified.Of P a b ⟨.ok (.single x t), a, b⟩ := fun hx ht =>
    ⟨fun _ h => Except.ok.inj h ▸ Subst.found_single hx ht, .refl a, .refl b⟩
  unfold unifyStep
  split
  · split
    · exact .pure ⟨fun _ h => Except.ok.inj h ▸ Subst.found_empty, .refl _, .refl _⟩
    · exact .pure (hsingle (Ty.within_var_iff.1 hb) ha)
  · exact .pure (hsingle (Ty.within_var_iff.1 hb) ha)
  · exact .pure (hsingle (Ty.within_var_iff.1 ha) hb)
  · rename_i left right _
    rw [Ty.within_union_iff] at ha
    simp only [Ty.bulk] at hu
    refine .bind (hu left b ha.1 hb (by omega)) fun u hu₁ => ?_
    split
    · exact .pure ⟨fun _ h => (nomatch h), .left right hu₁.left, hu₁.right⟩
    · rename_i s hs
      have hbulk := hu₁.right.bulk_eq
      refine .bind (hu right u.right ha.2 (hb.wraps hu₁.right) (by omega)) fun w hu₂ => ?_
      have hl := (Wraps.left right hu₁.left).trans (.right u.left hu₂.left)
      have hr := hu₁.right.trans hu₂.right
      split
      · exact .pure ⟨fun _ h => (nomatch h), hl, hr⟩
      · rename_i t ht
        refine .bind (Subst.composeWith_found hk hF (hu₁.subst s hs) (hu₂.subst t ht))
          fun s' hs' => ?_
        exact .pure ⟨fun _ h => Except.ok.inj h ▸ hs', hl, hr⟩
  · rename_i left right _ _
    rw [Ty.within_union_iff] at hb
    simp only [Ty.bulk] at hu
    refine .bind (hu a left ha hb.1 (by omega)) fun u hu₁ => ?_
    have hbulk := hu₁.left.bulk_eq
    refine .bind (hu u.left right (ha.wraps hu₁.left) hb.2 (by omega)) fun w hu₂ => ?_
    have hl := hu₁.left.trans hu₂.left
    have hr := (Wraps.left right hu₁.right).trans (.right u.right hu₂.right)
    simp only
    split
    · exact .pure ⟨fun _ h => (nomatch h), hl, hr⟩
    · rename_i s _ hs _
      exact .pure ⟨fun _ h => Except.ok.inj h ▸ hu₁.subst s hs, hl, hr⟩
    · rename_i _ t _ ht
      exact .pure ⟨fun _ h => Except.ok.inj h ▸ hu₂.subst t ht, hl, hr⟩
    · rename_i s t hs ht
      refine .bind (Subst.composeWith_found hk hF (hu₂.subst t ht) (hu₁.subst s hs))
        fun s' hs' => ?_
      exact .pure ⟨fun _ h => Except.ok.inj h ▸ hs', hl, hr⟩
  · rename_i wanted given
    refine .bind (unifyFields_sat hu hr hk hF Subst.found_empty (Ty.within_table_iff.1 ha)
      (Ty.within_table_iff.1 hb) ?_) fun u hu' => ?_
    · simp only [Ty.bulk]
      omega
    · exact .pure ⟨hu'.subst, hu'.left.wraps, hu'.right.wraps⟩
  · exact unifyConstructors_sat hu hr hk hF ha hb
  · have := a.bulk_pos
    have := b.bulk_pos
    refine .bind (hr a ha (by omega)) fun _ _ => .bind (hr b hb (by omega)) fun _ _ => ?_
    exact .pure ⟨fun _ h => (nomatch h), .refl a, .refl b⟩

/-! ## One step of showing a type -/

lemma renderAll_sat (h : ∀ t ∈ ts, (render t).Sat (fun _ => True) F) :
    (renderAll render ts).Sat (fun _ => True) F := by
  induction ts with
  | nil => exact .pure trivial
  | cons t ts ih =>
    refine .bind (h t (by simp)) fun _ _ => ?_
    exact .bind (ih fun u hu => h u (by simp [hu])) fun _ _ => .pure trivial

lemma Ty.eq_of_tupleArgs? {args : List Ty} (h : t.tupleArgs? = some args) :
    ∃ v checks, t = .con "tuple" args v checks := by
  unfold Ty.tupleArgs? at h
  split at h
  · cases h
    exact ⟨_, _, rfl⟩
  · simp at h

lemma renderFunction_sat {args : List Ty} {value : Option Literal}
    (hr : RendersBelow P F render bound) (hF : ∀ f, P.Allows f → F f)
    (h : ∀ a ∈ args, a.Within P) (hbound : Ty.bulkList args < bound) :
    (renderFunction render args value).Sat (fun _ => True) F := by
  -- a component of a constructor among the arguments is shown
  have hcomponents : ∀ c ps v checks, Ty.con c ps v checks ∈ args →
      (renderAll render ps).Sat (fun _ => True) F := by
    intro c ps v checks hmem
    obtain ⟨_, hps, _⟩ := Ty.within_con_iff.1 (h _ hmem)
    refine renderAll_sat fun p hp => hr p (hps p hp) ?_
    have := Ty.bulk_le_bulkList hp
    have := Ty.bulkList_lt_bulk c ps v checks
    have := Ty.bulk_le_bulkList hmem
    omega
  have harg : ∀ t ∈ args, (render t).Sat (fun _ => True) F := fun t ht =>
    hr t (h t ht) (Nat.lt_of_le_of_lt (Ty.bulk_le_bulkList ht) hbound)
  have hout : F .outOfRange := hF _ trivial
  unfold renderFunction
  split
  · exact .throw hout
  · rename_i c params v checks rest
    refine .bind (hcomponents c params v checks (by simp)) fun shown _ => ?_
    -- what is shown of the result, whatever is shown of the parameters
    have hresult : ∀ list, (renderResult render params rest list).Sat (fun _ => True) F := by
      intro list
      cases rest with
      | nil => exact .throw hout
      | cons result rest =>
        simp only [renderResult]
        split
        · rename_i results hresults
          obtain ⟨w, more, rfl⟩ := Ty.eq_of_tupleArgs? hresults
          refine .bind (hcomponents "tuple" results w more (by simp)) fun _ _ => ?_
          exact .pure trivial
        · exact .bind (harg result (by simp)) fun _ _ => .pure trivial
    refine .ite (fun _ => ?_) fun _ => hresult _
    split
    · rename_i t _
      exact .bind (harg t (by simp)) fun _ _ => hresult _
    · exact .throw hout
  · exact .throw (hF _ trivial)

/-- Of the types kept and those to come, any two together have little bulk, so that they can be
compared. -/
lemma distinctBy_sat {same : Covers} {keep : Ty → Ty} {p : Ty → Prop}
    (hsame : ∀ a b, p a → p b → a.bulk + b.bulk < bound → (same a b).Sat (fun _ => True) F)
    (hkeep : ∀ t, p t → p (keep t) ∧ (keep t).bulk = t.bulk) {kept : List Ty}
    (hkept : ∀ k ∈ kept, p k) (hts : ∀ t ∈ ts, p t)
    (hbound : Ty.bulkList kept + Ty.bulkList ts < bound) :
    (distinctBy same keep kept ts).Sat (fun r => (∀ t ∈ r, p t) ∧ Ty.bulkList r < bound) F := by
  induction ts generalizing kept with
  | nil => exact .pure ⟨hkept, by omega⟩
  | cons t ts ih =>
    obtain ⟨ht, hrest⟩ := List.forall_mem_cons.1 hts
    obtain ⟨hkeep, hbulk⟩ := hkeep t ht
    simp only [Ty.bulkList] at hbound
    refine .bind (.anyM fun k hk => ?_) fun found _ => .ite (fun _ => ?_) fun _ => ?_
    · have := Ty.bulk_le_bulkList hk
      exact hsame t k ht (hkept k hk) (by omega)
    · exact ih hkept hrest (by omega)
    · refine ih (List.forall_mem_append.2 ⟨hkept, List.forall_mem_singleton.2 hkeep⟩) hrest ?_
      simp only [Ty.bulkList_append, Ty.bulkList]
      omega

lemma bulkList_map_snd_le (fields : List (Ty × Ty)) :
    Ty.bulkList (fields.map Prod.snd) ≤ Ty.bulkFields fields := by
  induction fields with
  | nil => exact le_rfl
  | cons f fields ih =>
    simp only [List.map_cons, Ty.bulkList, Ty.bulkFields]
    omega

lemma renderArray_sat (hu : UnifiesBelow P F unify bound) (hr : RendersBelow P F render bound)
    {fields : List (Ty × Ty)} (h : Ty.FieldsWithin P fields)
    (hbound : Ty.bulkFields fields < bound) :
    (renderArray unify render fields).Sat (fun _ => True) F := by
  have hvalues : ∀ t ∈ fields.map Prod.snd, t.Within P := by
    intro t ht
    obtain ⟨f, hf, rfl⟩ := List.mem_map.1 ht
    exact (h f hf).2.2
  have hbulk := bulkList_map_snd_le fields
  refine .bind (distinctBy_sat (p := (·.Within P)) (fun a b ha hb hlt => .bind (hu a b ha hb hlt)
    fun _ _ => .pure trivial) (fun t ht => ⟨ht.broaden, t.bulk_broaden⟩) (List.forall_mem_nil _)
    hvalues ?_) fun kept hkept => ?_
  · simp only [Ty.bulkList]
    omega
  · obtain ⟨hin, hlt⟩ := hkept
    refine .bind (renderAll_sat fun t ht => hr t (hin t ht) ?_) fun shown _ => ?_
    · exact Nat.lt_of_le_of_lt (Ty.bulk_le_bulkList ht) hlt
    · split <;> exact .pure trivial

lemma renderFields_sat (hr : RendersBelow P F render bound) {fields : List (Ty × Ty)}
    (h : Ty.FieldsWithin P fields) (hbound : Ty.bulkFields fields < bound) :
    (renderFields render fields).Sat (fun _ => True) F := by
  induction fields with
  | nil => exact .pure trivial
  | cons f rest ih =>
    obtain ⟨k, v⟩ := f
    obtain ⟨_, hk, hv⟩ := h (k, v) (by simp)
    simp only [Ty.bulkFields] at hbound
    -- after the text of the key
    have hvalue : ∀ key : String, Naming.Sat (do
        let value ← render v
        return s!"{key}: {value}" :: (← renderFields render rest)) (fun _ => True) F := by
      intro key
      refine .bind (hr v hv (by omega)) fun _ _ => ?_
      refine .bind (ih (fun g hg => h g (by simp [hg])) (by omega)) fun _ _ => .pure trivial
    simp only [renderFields]
    split
    · exact hvalue _
    · exact .bind (hr k hk (by omega)) fun _ _ => hvalue _

lemma Ty.Within.members (h : t.Within P) : ∀ m ∈ t.members, m.Within P := by
  induction t with
  | union left right ihl ihr =>
    rw [Ty.within_union_iff] at h
    intro m hm
    rcases List.mem_append.1 hm with hm | hm
    · exact ihl h.1 m hm
    · exact ihr h.2 m hm
  | var | con | table | all =>
    intro m hm
    obtain rfl := List.mem_singleton.1 hm
    exact h

lemma Ty.bulkList_members_le (t : Ty) : Ty.bulkList t.members ≤ t.bulk := by
  induction t with
  | union left right ihl ihr =>
    simp only [Ty.members, Ty.bulkList_append, Ty.bulk]
    omega
  | var | con | table | all => simp [Ty.members, Ty.bulkList]

lemma renderLiteral_sat {c : String} {v : Literal} {r : Except Fault String}
    (h : renderLiteral c v = some r) (hF : ∀ f, P.Allows f → F f) (hv : P.literal c v) :
    (Naming.ofExcept r).Sat (fun _ => True) F := by
  refine .ofExcept (fun _ _ => trivial) fun f hf => ?_
  subst hf
  unfold renderLiteral at h
  split at h
  · simp at h
  · split at h
    · rename_i text
      simp only [Option.some.injEq, Except.error.injEq] at h
      exact h ▸ hF _ ⟨text, hv⟩
    · simp at h
    · simp at h
  · simp at h
  · simp at h

/-- One step of showing a type stays within a permit, if unifying and showing its parts does. -/
theorem renderStep_sat (hu : UnifiesBelow P F unify t.bulk) (hr : RendersBelow P F render t.bulk)
    (hF : ∀ f, P.Allows f → F f) (ht : t.Within P) :
    (renderStep unify render t).Sat (fun _ => True) F := by
  unfold renderStep
  split
  · exact fun _ => trivial
  · rename_i c args value checks
    obtain ⟨hv, hargs, _⟩ := Ty.within_con_iff.1 ht
    have hbulk := Ty.bulkList_lt_bulk c args value checks
    split
    · rename_i r hshown
      obtain ⟨v, rfl, hshown⟩ := Option.bind_eq_some_iff.1 hshown
      exact renderLiteral_sat hshown hF (hv v rfl)
    · refine .ite (fun _ => renderFunction_sat hr hF hargs hbulk) fun _ => ?_
      refine .bind (renderAll_sat fun a ha => hr a (hargs a ha) ?_) fun _ _ => ?_
      · exact Nat.lt_of_le_of_lt (Ty.bulk_le_bulkList ha) hbulk
      · exact .ite (fun _ => .pure trivial) fun _ => .pure trivial
  · rename_i fields
    rw [Ty.within_table_iff] at ht
    have hbulk : Ty.bulkFields fields < (Ty.table fields).bulk := by
      simp only [Ty.bulk]
      omega
    have hlist : ∀ array, (renderTable render fields array).Sat (fun _ => True) F := by
      intro array
      cases array with
      | some text => exact .pure trivial
      | none => exact .bind (renderFields_sat hr ht hbulk) fun _ _ => .pure trivial
    exact .ite (fun _ => .bind (renderArray_sat hu hr ht hbulk) fun array _ => hlist array)
      fun _ => hlist none
  · rename_i left right
    have hmembers := ht.members
    have hbulk : Ty.bulkList (Ty.union left right).members < left.bulk + right.bulk + 1 := by
      have := left.bulkList_members_le
      have := right.bulkList_members_le
      simp only [Ty.members, Ty.bulkList_append]
      omega
    rw [Ty.within_union_iff] at ht
    simp only [Ty.bulk] at hu hr
    refine .ite (fun _ => ?_) fun _ => .ite (fun _ => ?_) fun _ => ?_
    · exact .bind (hr right ht.2 (by omega)) fun _ _ => .pure trivial
    · exact .bind (hr left ht.1 (by omega)) fun _ _ => .pure trivial
    · refine .bind (distinctBy_sat (p := (·.Within P)) (fun a b ha hb hlt =>
        fitsBy_sat (hu a b ha hb hlt)) (fun t ht => ⟨ht, rfl⟩) (List.forall_mem_nil _) hmembers ?_)
        fun kept hkept => ?_
      · simpa only [Ty.bulkList, Nat.zero_add] using hbulk
      · obtain ⟨hin, hlt⟩ := hkept
        refine .bind (renderAll_sat fun m hm => hr m (hin m hm) ?_) fun _ _ => .pure trivial
        exact Nat.lt_of_le_of_lt (Ty.bulk_le_bulkList hm) hlt
  · rename_i x body
    simp only [Ty.bulk] at hr
    exact .bind (hr body (Ty.within_all_iff.1 ht).2.2 (by omega)) fun _ _ => .pure trivial

end LuaTyping
