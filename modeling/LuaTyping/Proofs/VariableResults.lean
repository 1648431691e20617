import LuaTyping.Proofs.Arity
import LuaTyping.Proofs.FieldEdits

set_option autoImplicit false

/-!
# What unification does to function results

The result of a function is a tuple, or a variable if nothing is known of it yet. Unification
compares results as tuples, and is meant to leave these two as they are. The test on the second of
two functions asks whether the result of the first is a variable, though. So the second result, if
it is a variable, is put into a tuple where the first one is a tuple. Nothing else is changed:
functions that return tuples stay as they are, and so do all types if all results in them are
variables.

## Main definitions

* `Ty.Returning` — the functions in a type have certain results.

## Main results

* `unify_wraps_variable_results` — what unification does to well-formed types.
-/

namespace LuaTyping

namespace Ty

/-- Every function in a type takes a tuple of parameters, and has a result with `p`. -/
inductive Returning (p : Ty → Prop) : Ty → Prop
  | var (x : String) : Returning p (.var x)
  | con {c : String} {args : List Ty} (v : Option Literal) (checks : List Checked) :
      c ≠ "function" → (∀ a ∈ args, Returning p a) → Returning p (.con c args v checks)
  | function {ps : List Ty} {r x : Ty} (pv v : Option Literal) (pchecks checks : List Checked) :
      (∀ a ∈ ps, Returning p a) → p r → Returning p r → Returning p x →
      Returning p (.con "function" [.con "tuple" ps pv pchecks, r, x] v checks)
  | table {fields : List (Ty × Ty)} : (∀ f ∈ fields, Returning p f.1) →
      (∀ f ∈ fields, Returning p f.2) → Returning p (.table fields)
  | union {left right : Ty} : Returning p left → Returning p right →
      Returning p (.union left right)

/-- The type is a tuple. -/
def IsTuple (t : Ty) : Prop := t.isNamed "tuple" = true

/-- The type is a variable. -/
def IsVar (t : Ty) : Prop := ∃ x, t = .var x

namespace Returning

variable {p : Ty → Prop} {t u : Ty}

lemma args {c : String} {as : List Ty} {v : Option Literal} {checks : List Checked}
    (h : Returning p (.con c as v checks)) : ∀ a ∈ as, Returning p a := by
  cases h with
  | con _ _ _ hargs => exact hargs
  | function pv _ pchecks _ hps _ hr hx =>
    have hparams := Returning.con pv pchecks (c := "tuple") (by decide) hps
    simp [hparams, hr, hx]

lemma result {q r : Ty} {rest : List Ty} {v : Option Literal} {checks : List Checked}
    (h : Returning p (.con "function" (q :: r :: rest) v checks)) : p r := by
  cases h with
  | con _ _ hc => exact absurd rfl hc
  | function _ _ _ _ _ hr => exact hr

/-- Functions that return tuples are not changed, whatever they are unified with. -/
lemma wraps_eq (h : t.Returning IsTuple) (hw : t.Wraps u) : u = t := by
  induction hw with
  | refl => rfl
  | trans _ _ ih₁ ih₂ =>
    obtain rfl := ih₁ h
    exact ih₂ h
  | arg c before after v checks _ ih => rw [ih (h.args _ (by simp))]
  | field before after k _ ih =>
    cases h with
    | table _ hvalues => rw [ih (hvalues _ (List.mem_append_right _ (List.mem_cons_self ..)))]
  | key before after v _ ih =>
    cases h with
    | table hkeys _ => rw [ih (hkeys _ (List.mem_append_right _ (List.mem_cons_self ..)))]
  | left right _ ih =>
    cases h with
    | union hl _ => rw [ih hl]
  | right left _ ih =>
    cases h with
    | union _ hr => rw [ih hr]
  | result q r rest v checks hr => exact absurd (h.result.symm.trans hr) (by decide)

end Returning

end Ty

/-! ## Results that are not changed -/

section Steps

variable {p : Ty → Prop} {unify : Unifier} {render : Renderer} {a b : Ty}

lemma unifyLists_leaves {combine : Subst → Subst → Naming Subst} {s : Subst} {as bs : List Ty}
    (h : ∀ a ∈ as, ∀ b ∈ bs, (unify a b).Sat (Unified.Leaves a b) fun _ => True) :
    (unifyLists unify combine s as bs).Sat (fun u => u.left = as ∧ u.right = bs)
      fun _ => True := by
  induction as generalizing s bs with
  | nil => exact .pure ⟨rfl, rfl⟩
  | cons a as ih =>
    cases bs with
    | nil => exact .pure ⟨rfl, rfl⟩
    | cons b bs =>
      refine .bind (h a (by simp) b (by simp)) fun u hu => ?_
      rcases u.outcome with m | found
      · exact .pure ⟨by rw [hu.1], by rw [hu.2]⟩
      · refine .bind .trivial fun s' _ => ?_
        refine .bind (ih fun x hx y hy => h x (by simp [hx]) y (by simp [hy])) fun rest hrest => ?_
        exact .pure ⟨by rw [hu.1, hrest.1], by rw [hu.2, hrest.2]⟩

variable (hwrap : ∀ r r', p r → p r' → wrapLeft r = r ∧ wrapRight r r' = r')
  (hu : ∀ a b : Ty, a.Returning p → b.Returning p →
    (unify a b).Sat (Unified.Leaves a b) fun _ => True)

include hu

lemma seekField_leaves {k : Ty} (hk : k.Returning p) {passed fields : List (Ty × Ty)}
    (hfields : ∀ f ∈ fields, f.1.Returning p) :
    (seekField unify k passed fields).Sat (fun r => r.1 = k ∧ r.2.1 ++ r.2.2 = passed ++ fields)
      fun _ => True := by
  induction fields generalizing passed with
  | nil => exact .pure ⟨rfl, rfl⟩
  | cons f fields ih =>
    obtain ⟨l, w⟩ := f
    have htest := testBy_sat (R := fun a b => b = a) (fun _ => rfl)
      (hu k l hk (hfields (l, w) (by simp)))
    refine .bind htest fun t ht => ?_
    rw [ht.1, ht.2]
    refine .ite (fun _ => .pure ⟨rfl, rfl⟩) fun _ => ?_
    have hrest := @ih (passed ++ [(l, w)]) fun f hf => hfields f (by simp [hf])
    rwa [List.append_assoc, List.singleton_append] at hrest

lemma unifyFields_leaves {s : Subst} {given wanted : List (Ty × Ty)}
    (hgiven : ∀ g ∈ given, g.1.Returning p ∧ g.2.Returning p)
    (hwanted : ∀ f ∈ wanted, f.1.Returning p ∧ f.2.Returning p) :
    (unifyFields unify render s given wanted).Sat (fun u => u.left = wanted ∧ u.right = given)
      fun _ => True := by
  induction wanted generalizing s with
  | nil => exact .pure ⟨rfl, rfl⟩
  | cons f rest ih =>
    obtain ⟨k, v⟩ := f
    obtain ⟨hk, hv⟩ : k.Returning p ∧ v.Returning p := hwanted (k, v) (by simp)
    refine .bind (seekField_leaves hu hk fun g hg => (hgiven g hg).1) fun found hfound => ?_
    rcases found with ⟨k', before, after⟩
    obtain ⟨rfl, rfl⟩ : k' = k ∧ before ++ after = given := hfound
    rcases after with _ | ⟨⟨l, w⟩, after⟩
    · rw [List.append_nil]
      exact .bind .trivial fun _ _ => .bind .trivial fun _ _ => .pure ⟨rfl, rfl⟩
    · refine .bind (hu w v (hgiven (l, w) (by simp)).2 hv) fun u hleaves => ?_
      rw [hleaves.1, hleaves.2]
      rcases u.outcome with m | found
      · exact .pure ⟨rfl, rfl⟩
      · refine .bind .trivial fun s' _ => .bind (ih fun f hf => hwanted f (by simp [hf])) ?_
        exact fun fields hfields => .pure ⟨by rw [hfields.1], hfields.2⟩

include hwrap

lemma unifyFunctions_leaves {ps qs : List Ty} {r r' x y : Ty} {pv qv v w : Option Literal}
    {pchecks qchecks checks more : List Checked} (hps : ∀ q ∈ ps, q.Returning p)
    (hqs : ∀ q ∈ qs, q.Returning p) (hr : p r) (hr' : p r') (hreturns : r.Returning p)
    (hreturns' : r'.Returning p) :
    (unifyFunctions unify v w checks more [.con "tuple" ps pv pchecks, r, x]
      [.con "tuple" qs qv qchecks, r', y]).Sat (Unified.Leaves
        (.con "function" [.con "tuple" ps pv pchecks, r, x] v checks)
        (.con "function" [.con "tuple" qs qv qchecks, r', y] w more)) fun _ => True := by
  obtain ⟨hleft, hright⟩ := hwrap r r' hr hr'
  have hparams : ∀ q ∈ ps, ∀ q' ∈ qs,
      (do return (← unify q' q).swap : Naming Unified).Sat (Unified.Leaves q q') fun _ => True :=
    fun q hq q' hq' => .bind (hu q' q (hqs q' hq') (hps q hq)) fun u hleaves =>
      .pure ⟨hleaves.2, hleaves.1⟩
  refine .bind (unifyLists_leaves hparams) fun params hleaves => ?_
  rw [hleaves.1, hleaves.2]
  rcases params.outcome with m | s
  · exact .pure ⟨rfl, rfl⟩
  · simp only [hleft, hright]
    refine .bind (hu r r' hreturns hreturns') fun u hresults => ?_
    rw [hresults.1, hresults.2]
    rcases u.outcome with m | found
    · exact .pure ⟨rfl, rfl⟩
    · exact .bind .trivial fun _ _ => .pure ⟨rfl, rfl⟩

lemma unifyConstructors_leaves {c d : String} {as bs : List Ty} {v w : Option Literal}
    {checks more : List Checked} (ha : (Ty.con c as v checks).Returning p)
    (hb : (Ty.con d bs w more).Returning p) :
    (unifyConstructors unify render c as v checks d bs w more).Sat
      (Unified.Leaves (.con c as v checks) (.con d bs w more)) fun _ => True := by
  -- the constructors are shown in a message
  have hfails : ∀ message, (showFailure render message (.con c as v checks) (.con d bs w more)).Sat
      (Unified.Leaves (.con c as v checks) (.con d bs w more)) fun _ => True :=
    fun _ => .bind .trivial fun _ _ => .bind .trivial fun _ _ => .pure ⟨rfl, rfl⟩
  refine .ite (fun _ => .pure ⟨rfl, rfl⟩) fun hcd => ?_
  obtain rfl := not_not.1 hcd
  refine .ite (fun _ => hfails _) fun _ => .ite (fun _ => hfails _) fun _ => ?_
  refine .ite (fun hc => ?_) fun hc => ?_
  · subst hc
    cases ha with
    | con _ _ hc => exact absurd rfl hc
    | function pv _ pchecks _ hps hr hr' hx =>
      cases hb with
      | con _ _ hc => exact absurd rfl hc
      | function qv _ qchecks _ hqs hs hs' hy =>
        exact unifyFunctions_leaves hwrap hu hps hqs hr hs hr' hs'
  · split
    · exact .throw trivial
    · exact hfails _
    · refine .bind (unifyLists_leaves fun a ha' b hb' => hu a b (ha.args a ha') (hb.args b hb'))
        fun u hleaves => ?_
      rw [hleaves.1, hleaves.2]
      exact .pure ⟨rfl, rfl⟩

/-- A step of unification leaves types as they are if it does so with their parts, and if results
like theirs are not put into tuples. -/
lemma unifyStep_leaves (ha : a.Returning p) (hb : b.Returning p) :
    (unifyStep unify render a b).Sat (Unified.Leaves a b) fun _ => True := by
  unfold unifyStep
  split
  · exact .ite (fun _ => .pure ⟨rfl, rfl⟩) fun _ => .pure ⟨rfl, rfl⟩
  · exact .pure ⟨rfl, rfl⟩
  · exact .pure ⟨rfl, rfl⟩
  · cases ha with
    | union hl hr =>
      refine .bind (hu _ _ hl hb) fun u hleft => ?_
      rw [hleft.1, hleft.2]
      rcases u.outcome with m | s
      · exact .pure ⟨rfl, rfl⟩
      · refine .bind (hu _ _ hr hb) fun w hright => ?_
        rw [hright.1, hright.2]
        rcases w.outcome with m | t
        · exact .pure ⟨rfl, rfl⟩
        · exact .bind .trivial fun _ _ => .pure ⟨rfl, rfl⟩
  · cases hb with
    | union hl hr =>
      refine .bind (hu _ _ ha hl) fun u hleft => ?_
      rw [hleft.1, hleft.2]
      refine .bind (hu _ _ ha hr) fun w hright => ?_
      rw [hright.1, hright.2]
      dsimp only
      split
      · exact .pure ⟨rfl, rfl⟩
      · exact .pure ⟨rfl, rfl⟩
      · exact .pure ⟨rfl, rfl⟩
      · exact .bind .trivial fun _ _ => .pure ⟨rfl, rfl⟩
  · cases ha with
    | table hwants hwanted =>
      cases hb with
      | table hgives hgiven =>
        refine .bind (unifyFields_leaves hu (fun g hg => ⟨hgives g hg, hgiven g hg⟩)
          fun f hf => ⟨hwants f hf, hwanted f hf⟩) fun u hleaves => ?_
        rw [hleaves.1, hleaves.2]
        exact .pure ⟨rfl, rfl⟩
  · exact unifyConstructors_leaves hwrap hu ha hb
  · exact .bind .trivial fun _ _ => .bind .trivial fun _ _ => .pure ⟨rfl, rfl⟩

omit hu in
lemma unifyTo_leaves (depth : Nat) (ha : a.Returning p) (hb : b.Returning p) :
    (unifyTo depth a b).Sat (Unified.Leaves a b) fun _ => True := by
  induction depth generalizing a b with
  | zero => exact .throw trivial
  | succ depth ih => exact unifyStep_leaves hwrap (fun _ _ => ih) ha hb

end Steps

/-! ## Well-formed types -/

open Ty (IsTuple IsVar Wraps)

variable {a b : Ty} {u : Unified} {k k' : Letters}

/-- A unification of functions that succeeds does to a variable as the result of the second one what
the rule for results says. -/
lemma result_of_unify_functions {ps qs : List Ty} {r x z : Ty} {y : String}
    {pv qv v w : Option Literal} {pchecks qchecks checks more : List Checked}
    (h : outcome (unify (.con "function" [.con "tuple" ps pv pchecks, r, x] v checks)
      (.con "function" [.con "tuple" qs qv qchecks, .var y, z] w more)) k = (.ok u, k'))
    (hu : u.succeeds = true) :
    ∃ qs', u.right = .con "function"
      [.con "tuple" qs' qv qchecks, wrapRight (wrapLeft r) (.var y), z] w more := by
  obtain ⟨-, hlen, hvalues⟩ := Check.eq_of_unify_con h hu
  rw [Check.unify_functions_eq hlen hvalues] at h
  obtain ⟨params, k₁, -, h⟩ := bind_eq_ok.1 h
  rcases params with ⟨m | s, ps', qs'⟩
  · rw [← (pure_eq_ok.1 h).1] at hu
    simp [Unified.succeeds] at hu
  · obtain ⟨u', k₂, hresult, h⟩ := bind_eq_ok.1 h
    -- neither a variable nor a tuple of one is changed by the unification of the results
    have hright : u'.right = wrapRight (wrapLeft r) (.var y) := by
      refine Ty.Returning.wraps_eq ?_ (wraps_of_unifyTo hresult).2
      rcases Ty.wrapRight_eq (wrapLeft r) (.var y) with heq | ⟨-, heq⟩ <;> rw [heq]
      · exact .var y
      · exact .con _ _ (by decide) (by simp [Ty.Returning.var])
    refine ⟨qs', ?_⟩
    rcases houtcome : u'.outcome with m | found <;> rw [houtcome] at h
    · rw [← (pure_eq_ok.1 h).1, hright]
    · obtain ⟨s', k₃, -, h⟩ := bind_eq_ok.1 h
      rw [← (pure_eq_ok.1 h).1, hright]

lemma wrap_var {r r' : Ty} (hr : r.IsVar) (hr' : r'.IsVar) :
    wrapLeft r = r ∧ wrapRight r r' = r' := by
  obtain ⟨x, rfl⟩ := hr
  obtain ⟨y, rfl⟩ := hr'
  exact ⟨rfl, rfl⟩

/-- What the rule for results says of a variable as the second result. -/
lemma wrapRight_wrapLeft_var {r : Ty} {y : String} (hr : r.IsTuple ∨ r.IsVar) (hy : y ≠ "tuple") :
    wrapRight (wrapLeft r) (.var y) = if r.isNamed "tuple" then .tuple [.var y] else .var y := by
  rcases hr with hr | ⟨x, rfl⟩
  · cases r with
    | con c args v checks =>
      have hnamed : (Ty.con c args v checks).isNamed "tuple" = true := hr
      simp [wrapLeft, wrapRight, hnamed, hy]
    | var | table | union | all => simp [Ty.IsTuple, Ty.isNamed] at hr
  · rfl

/-- **What unification does to function results**. Whether two types unify or not, they are
afterwards what they were, but for bare results that have been put into tuples. So a type whose
functions all return tuples is not changed, and neither of two types whose functions all return
variables is. But if two functions unify and the second one returns a variable, then the variable is
put into a tuple exactly if the first one returns a tuple. -/
theorem unify_wraps_variable_results (h : outcome (unify a b) k = (.ok u, k')) :
    (a.Wraps u.left ∧ b.Wraps u.right) ∧
      (a.Returning IsTuple → u.left = a) ∧ (b.Returning IsTuple → u.right = b) ∧
      (a.Returning IsVar → b.Returning IsVar → u.left = a ∧ u.right = b) ∧
      ∀ ps pv pchecks r x v checks qs qv qchecks y z w more,
        a = .con "function" [.con "tuple" ps pv pchecks, r, x] v checks → r.IsTuple ∨ r.IsVar →
        b = .con "function" [.con "tuple" qs qv qchecks, .var y, z] w more → y ≠ "tuple" →
        u.succeeds = true → ∃ qs', u.right = .con "function" [.con "tuple" qs' qv qchecks,
          if r.isNamed "tuple" then .tuple [.var y] else .var y, z] w more := by
  obtain ⟨hleft, hright⟩ := wraps_of_unifyTo h
  refine ⟨⟨hleft, hright⟩, fun ha => ha.wraps_eq hleft, fun hb => hb.wraps_eq hright,
    fun ha hb => (unifyTo_leaves (fun _ _ => wrap_var) _ ha hb).of_eq_ok h, ?_⟩
  rintro ps pv pchecks r x v checks qs qv qchecks y z w more rfl hr rfl hy hu
  rw [← wrapRight_wrapLeft_var hr hy]
  exact result_of_unify_functions h hu

/-- The type of a function without parameters. -/
def returns (result : Ty) : Ty := .function (.tuple []) result .nil none

lemma returning_returns {p : Ty → Prop} {r : Ty} (hp : p r) (hr : r.Returning p) :
    (returns r).Returning p :=
  .function none none [] [] (by simp) hp hr (.con none [] (by decide) (by simp))

/-- A function that returns a text is not changed by a unification with one of which the result is
not known. The second one is. -/
theorem unify_wraps_variable_results_text :
    ∃ u k', outcome (unify (returns (.tuple [.string])) (returns (.var "r"))) default =
        (.ok u, k') ∧
      u.left = returns (.tuple [.string]) ∧ ∃ qs, u.right = .function (.tuple qs)
        (.tuple [.var "r"]) .nil none := by
  obtain ⟨u, k', h, hu⟩ : ∃ u k', outcome (unify (returns (.tuple [.string])) (returns (.var "r")))
      default = (.ok u, k') ∧ u.succeeds = true := ⟨_, _, rfl, rfl⟩
  obtain ⟨-, hleft, -, -, hright⟩ := unify_wraps_variable_results h
  refine ⟨u, k', h, hleft (returning_returns rfl ?_), ?_⟩
  · exact .con none [] (by decide)
      (List.forall_mem_singleton.2 (.con none [] (by decide) (by simp)))
  · exact hright _ _ _ _ _ _ _ _ _ _ _ _ _ _ rfl (.inl rfl) rfl (by decide) hu

/-- Two functions, one that returns nothing and one of which the result is not known, have results
as they should, but the second one is changed where they are unified. -/
theorem unify_changes_variable_result :
    (returns (.tuple [])).Returning (fun r => r.IsTuple ∨ r.IsVar) ∧
      (returns (.var "r")).Returning (fun r => r.IsTuple ∨ r.IsVar) ∧
      ∃ u k', outcome (unify (returns (.tuple [])) (returns (.var "r"))) default = (.ok u, k') ∧
        u.right ≠ returns (.var "r") := by
  refine ⟨returning_returns (.inl rfl) (.con none [] (by decide) (by simp)),
    returning_returns (.inr ⟨"r", rfl⟩) (.var "r"), _, _, rfl, ?_⟩
  simp [returns, Ty.function, Ty.tuple]

end LuaTyping
