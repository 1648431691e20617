import LuaTyping.Proofs.Subtyping

set_option autoImplicit false

/-!
# Kinds of types

A simple type extends another one up to literal values if each of its alternatives has the name of an
alternative of the other, with arguments that extend the other's in the same way. This is a preorder,
and against a type without values it is what a successful unification shows. The test itself is
weaker: where it has to explain why two constructors do not unify it shows their arguments, and that
breaks off if the literal type `true` is compared with `boolean`.

## Main definitions

* `Ty.Below` — one type extends another, up to literal values.
* `Ty.TruelessArgs` — types whose constructors have no `true` in their arguments.

## Main results

* `Ty.Below.trans`, `Ty.Simple.below_broaden` — the order and broadening.
* `Ty.fits_ne_false_of_below` — the test does not say no of a type below one without
  values,
* `Ty.fits_of_below` — and says yes if constructors have no `true` in their arguments.
-/

namespace LuaTyping

namespace Ty

variable {a b t : Ty}

/-! ## The order up to literal values -/

/-- One type extends another, up to literal values. -/
inductive Below : Ty → Ty → Prop
  | con (c : String) (v w : Option Literal) (checks more : List Checked) {as bs : List Ty} :
      as.length = bs.length → (∀ (i : Nat) a b, as[i]? = some a → bs[i]? = some b → Below a b) →
      Below (.con c as v checks) (.con c bs w more)
  | union {left right t : Ty} : Below left t → Below right t → Below (.union left right) t
  | left {t left : Ty} (right : Ty) : Below t left → Below t (.union left right)
  | right {t right : Ty} (left : Ty) : Below t right → Below t (.union left right)

lemma below_of_ordered {R : Option Literal → Option Literal → Bool} (h : Ordered R a b) :
    Below a b := by
  induction h with
  | con c checks more _ hlen _ ih => exact .con c _ _ checks more hlen ih
  | union _ _ ihl ihr => exact .union ihl ihr
  | left _ _ ih => exact .left _ ih
  | right _ _ ih => exact .right _ ih

lemma Below.ordered (h : Below a b) : Ordered (fun _ _ => true) a b := by
  induction h with
  | con c _ _ checks more hlen _ ih => exact .con c checks more rfl hlen ih
  | union _ _ ihl ihr => exact .union ihl ihr
  | left _ _ ih => exact .left _ ih
  | right _ _ ih => exact .right _ ih

theorem Below.trans {c : Ty} (hab : Below a b) (hbc : Below b c) : Below a c :=
  below_of_ordered (Ordered.trans (fun _ _ _ _ _ => rfl) hab.ordered hbc.ordered)

lemma Simple.below_broaden (h : t.Simple) : Below t t.broaden := by
  induction h with
  | con _ _ ih =>
    rw [Ty.broaden, broadenList_eq_map]
    refine .con _ _ _ _ _ (by simp) fun i x y hx hy => ?_
    rw [List.getElem?_map, hx] at hy
    exact Option.some.inj hy ▸ ih x (List.mem_of_getElem? hx)
  | union _ _ ihl ihr => exact .union (.left _ ihl) (.right _ ihr)

lemma Simple.broaden_below (h : t.Simple) : Below t.broaden t := by
  induction h with
  | con _ _ ih =>
    rw [Ty.broaden, broadenList_eq_map]
    refine .con _ _ _ _ _ (by simp) fun i x y hx hy => ?_
    rw [List.getElem?_map, hy] at hx
    exact Option.some.inj hx ▸ ih y (List.mem_of_getElem? hy)
  | union _ _ ihl ihr => exact .union (.left _ ihl) (.right _ ihr)

/-! ## What a unification shows -/

/-- Without literal values on the right, the order up to literal values is the order. -/
lemma Below.under_broaden (hb : b.Simple) (h : Below a b.broaden) : Under a b.broaden := by
  generalize ht : b.broaden = t at h
  induction h generalizing b with
  | union _ _ ihl ihr => exact .union (ihl hb ht) (ihr hb ht)
  | con c v w checks more hlen _ ih =>
    cases hb with
    | union => cases ht
    | @con d args _ _ _ hbs =>
      cases ht
      refine .con _ _ _ rfl hlen fun i x y hx hy => ?_
      obtain ⟨z, hz, rfl⟩ : ∃ z ∈ args, Ty.broaden z = y := by
        rw [broadenList_eq_map] at hy
        exact List.mem_map.1 (List.mem_of_getElem? hy)
      exact ih i x _ hx hy (hbs z hz) rfl
  | left _ _ ih =>
    cases hb with
    | con => cases ht
    | union hl _ =>
      cases ht
      exact .left _ (ih hl rfl)
  | right _ _ ih =>
    cases hb with
    | con => cases ht
    | union _ hr =>
      cases ht
      exact .right _ (ih hr rfl)

/-- Where the unification of a simple type with one without values returns, it succeeds exactly if
the first one is below the second. -/
lemma succeeds_iff_below {depth : Nat} {u : Unified} {k k' : Letters} (ha : a.Simple)
    (hb : b.Simple) (h : outcome (unifyTo depth a b.broaden) k = (.ok u, k')) :
    u.succeeds = true ↔ Below a b.broaden :=
  (succeeds_iff_under ha hb.broaden h).trans ⟨below_of_ordered, Below.under_broaden hb⟩

/-! ## Where the test does not break off -/

/-- No constructor of a type has the value `true`, and numbers have no texts as values. -/
inductive Trueless : Ty → Prop
  | con {c : String} {args : List Ty} {v : Option Literal} {checks : List Checked} :
      (∀ a ∈ args, Trueless a) → v ≠ some (.flag true) →
      (∀ text, v = some (.text text) → c ≠ "number") → Trueless (.con c args v checks)
  | union {left right : Ty} : Trueless left → Trueless right → Trueless (.union left right)

/-- No constructor in the arguments of a constructor has the value `true`, and numbers have no texts
as values. -/
inductive TruelessArgs : Ty → Prop
  | con {c : String} {args : List Ty} {v : Option Literal} {checks : List Checked} :
      (∀ a ∈ args, Trueless a) → (∀ text, v = some (.text text) → c ≠ "number") →
      TruelessArgs (.con c args v checks)
  | union {left right : Ty} : TruelessArgs left → TruelessArgs right →
      TruelessArgs (.union left right)

lemma trueless_con_iff {c : String} {args : List Ty} {v : Option Literal} {checks : List Checked} :
    Trueless (.con c args v checks) ↔ (∀ a ∈ args, Trueless a) ∧ v ≠ some (.flag true) ∧
      ∀ text, v = some (.text text) → c ≠ "number" :=
  ⟨fun | .con hargs hv htext => ⟨hargs, hv, htext⟩, fun h => .con h.1 h.2.1 h.2.2⟩

lemma trueless_union_iff {left right : Ty} :
    Trueless (.union left right) ↔ Trueless left ∧ Trueless right :=
  ⟨fun | .union hl hr => ⟨hl, hr⟩, fun h => .union h.1 h.2⟩

lemma truelessArgs_con_iff {c : String} {args : List Ty} {v : Option Literal}
    {checks : List Checked} : TruelessArgs (.con c args v checks) ↔
      (∀ a ∈ args, Trueless a) ∧ ∀ text, v = some (.text text) → c ≠ "number" :=
  ⟨fun | .con hargs htext => ⟨hargs, htext⟩, fun h => .con h.1 h.2⟩

lemma truelessArgs_union_iff {left right : Ty} :
    TruelessArgs (.union left right) ↔ TruelessArgs left ∧ TruelessArgs right :=
  ⟨fun | .union hl hr => ⟨hl, hr⟩, fun h => .union h.1 h.2⟩

lemma Trueless.args (h : t.Trueless) : t.TruelessArgs := by
  induction h with
  | con hargs _ htext => exact .con hargs htext
  | union _ _ ihl ihr => exact .union ihl ihr

lemma Simple.broaden_trueless (h : t.Simple) : t.broaden.Trueless := by
  induction h with
  | con _ _ ih =>
    refine .con ?_ nofun nofun
    rw [broadenList_eq_map]
    exact List.forall_mem_map.2 ih
  | union _ _ ihl ihr => exact .union ihl ihr

/-- A unification has left two types as they are, and bound no variables. -/
def Unchanged (a b : Ty) (u : Unified) : Prop :=
  u.left = a ∧ u.right = b ∧ ∀ s, u.outcome = .ok s → s.bindings = []

section Steps

variable {F : Fault → Prop} {unify : Unifier} {render : Renderer}

lemma composeWith_unbound {covers : Covers} {s t : Subst} (hs : s.bindings = [])
    (ht : t.bindings = []) : (s.composeWith covers t).Sat (fun r => r.bindings = []) F := by
  simp only [Subst.composeWith, hs, ht, Subst.composeBindings]
  exact .pure rfl

lemma unifyLists_unchanged {combine : Subst → Subst → Naming Subst} {s : Subst}
    (hcombine : ∀ s t : Subst, s.bindings = [] → t.bindings = [] →
      (combine s t).Sat (fun r => r.bindings = []) F) (hs : s.bindings = []) {as bs : List Ty}
    (h : ∀ a ∈ as, ∀ b ∈ bs, (unify a b).Sat (Unchanged a b) F) :
    (unifyLists unify combine s as bs).Sat
      (fun u => u.left = as ∧ u.right = bs ∧ ∀ s, u.outcome = .ok s → s.bindings = []) F := by
  induction as generalizing s bs with
  | nil =>
    simp only [unifyLists]
    exact .pure ⟨rfl, rfl, fun _ h => Except.ok.inj h ▸ hs⟩
  | cons a as ih =>
    cases bs with
    | nil =>
      simp only [unifyLists]
      exact .pure ⟨rfl, rfl, fun _ h => Except.ok.inj h ▸ hs⟩
    | cons b bs =>
      refine .bind (h a (by simp) b (by simp)) ?_
      rintro u ⟨hleft, hright, hu⟩
      rcases hout : u.outcome with m | found
      · exact .pure ⟨by rw [hleft], by rw [hright], by simp⟩
      · refine .bind (hcombine found s (hu found hout) hs) fun s' hs' => ?_
        refine .bind (ih hs' fun x hx y hy => h x (by simp [hx]) y (by simp [hy])) ?_
        rintro rest ⟨hl, hr, hrest⟩
        exact .pure ⟨by rw [hleft, hl], by rw [hright, hr], hrest⟩

/-- A constructor without `true` in its arguments is shown without breaking off. -/
lemma renderStep_con {c : String} {args : List Ty} {v : Option Literal} {checks : List Checked}
    (hr : ∀ t : Ty, t.Simple → t.Trueless → (render t).Sat (fun _ => True) F)
    (ht : (Ty.con c args v checks).Simple) (hs : (Ty.con c args v checks).TruelessArgs) :
    (renderStep unify render (.con c args v checks)).Sat (fun _ => True) F := by
  obtain ⟨hc, hargs⟩ := simple_con_iff.1 ht
  obtain ⟨hvalues, htext⟩ := truelessArgs_con_iff.1 hs
  simp only [renderStep]
  split
  · rename_i r hr'
    refine .ofExcept (fun _ _ => trivial) fun f hf => ?_
    obtain ⟨x, rfl, hx⟩ := Option.bind_eq_some_iff.1 hr'
    unfold renderLiteral at hx
    split at hx
    · cases (Option.some.inj hx).trans hf
    · split at hx
      · exact absurd rfl (htext _ rfl)
      · cases (Option.some.inj hx).trans hf
      · cases (Option.some.inj hx).trans hf
    · cases (Option.some.inj hx).trans hf
    · cases hx
  · refine .ite (fun h => absurd h hc) fun _ => ?_
    refine .bind (renderAll_sat fun a ha => hr a (hargs a ha) (hvalues a ha)) fun _ _ => ?_
    exact .ite (fun _ => .pure trivial) fun _ => .pure trivial

lemma members_trueless (ht : t.Simple) (hvalue : t.Trueless) :
    ∀ m ∈ t.members, m.Simple ∧ m.Trueless := by
  induction ht with
  | con hc hargs =>
    intro m hm
    obtain rfl := List.mem_singleton.1 hm
    exact ⟨.con hc hargs, hvalue⟩
  | union _ _ ihl ihr =>
    obtain ⟨hl, hr⟩ := trueless_union_iff.1 hvalue
    exact List.forall_mem_append.2 ⟨ihl hl, ihr hr⟩

variable (hu : ∀ a b : Ty, a.Simple → a.TruelessArgs → b.Simple → b.Trueless →
    (unify a b).Sat (Unchanged a b) F)
include hu

lemma renderStep_union {left right : Ty}
    (hr : ∀ t : Ty, t.Simple → t.Trueless → (render t).Sat (fun _ => True) F)
    (ht : (Ty.union left right).Simple) (hvalue : (Ty.union left right).Trueless) :
    (renderStep unify render (.union left right)).Sat (fun _ => True) F := by
  obtain ⟨hleft, hright⟩ := simple_union_iff.1 ht
  obtain ⟨hvl, hvr⟩ := trueless_union_iff.1 hvalue
  refine .ite (fun _ => ?_) fun _ => .ite (fun _ => ?_) fun _ => ?_
  · exact .bind (hr right hright hvr) fun _ _ => .pure trivial
  · exact .bind (hr left hleft hvl) fun _ _ => .pure trivial
  · refine .bind (distinctBy_sat (p := fun t => t.Simple ∧ t.Trueless) (fun a b ha hb _ =>
      fitsBy_sat (hu a b ha.1 ha.2.args hb.1 hb.2)) (fun t ht => ⟨ht, rfl⟩) (List.forall_mem_nil _)
      (members_trueless ht hvalue) (Nat.lt_succ_self _)) fun kept hkept => ?_
    exact .bind (renderAll_sat fun t ht => hr t (hkept.1 t ht).1 (hkept.1 t ht).2) fun _ _ =>
      .pure trivial

lemma unifyConstructors_unchanged {c d : String} {as bs : List Ty} {v w : Option Literal}
    {checks more : List Checked} (hrender : ∀ c args v checks, (Ty.con c args v checks).Simple →
      (Ty.con c args v checks).TruelessArgs → (render (.con c args v checks)).Sat (fun _ => True) F)
    (ha : (Ty.con c as v checks).Simple) (hs : (Ty.con c as v checks).TruelessArgs)
    (hb : (Ty.con d bs w more).Simple) (hvalue : (Ty.con d bs w more).Trueless) :
    (unifyConstructors unify render c as v checks d bs w more).Sat
      (Unchanged (.con c as v checks) (.con d bs w more)) F := by
  obtain ⟨hc, hargs⟩ := simple_con_iff.1 ha
  obtain ⟨_, hargs'⟩ := simple_con_iff.1 hb
  obtain ⟨hvalues, _⟩ := truelessArgs_con_iff.1 hs
  obtain ⟨hvalues', hw, _⟩ := trueless_con_iff.1 hvalue
  -- the constructors are shown in a message
  have hfails : ∀ message, (showFailure render message (.con c as v checks) (.con d bs w more)).Sat
      (Unchanged (.con c as v checks) (.con d bs w more)) F := fun _ =>
    .bind (hrender _ _ _ _ ha hs) fun _ _ => .bind (hrender _ _ _ _ hb hvalue.args) fun _ _ =>
      .pure ⟨rfl, rfl, fun _ h => nomatch h⟩
  refine .ite (fun _ => .pure ⟨rfl, rfl, fun _ h => nomatch h⟩) fun _ => ?_
  refine .ite (fun _ => hfails _) fun _ => .ite (fun _ => hfails _) fun _ => ?_
  refine .ite (fun h => absurd h hc) fun _ => ?_
  split
  · exact absurd rfl hw
  · exact hfails _
  · refine .bind (unifyLists_unchanged (fun s _ hs _ => composeWith_unbound hs hs) rfl
      fun a ha b hb => hu a b (hargs a ha) (hvalues a ha).args (hargs' b hb) (hvalues' b hb))
      fun u ⟨hleft, hright, hbound⟩ => ?_
    exact .pure ⟨by rw [hleft], by rw [hright], hbound⟩

/-- A step of unifying a type without `true` in arguments with one without `true` does not break
off. -/
lemma unifyStep_unchanged (hrender : ∀ c args v checks, (Ty.con c args v checks).Simple →
      (Ty.con c args v checks).TruelessArgs → (render (.con c args v checks)).Sat (fun _ => True) F)
    (ha : a.Simple) (hs : a.TruelessArgs) (hb : b.Simple) (hvalue : b.Trueless) :
    (unifyStep unify render a b).Sat (Unchanged a b) F := by
  cases ha with
  | @union left right hleft hright =>
    obtain ⟨hsl, hsr⟩ := truelessArgs_union_iff.1 hs
    have hstep : unifyStep unify render (.union left right) b = unifyUnion unify left right b := by
      cases hb <;> rfl
    rw [hstep]
    refine .bind (hu left b hleft hsl hb hvalue) fun u ⟨hl, hr, hbound⟩ => ?_
    rcases hout : u.outcome with m | s
    · exact .pure ⟨by rw [hl], hr, fun _ h => nomatch h⟩
    · simp only [hr]
      refine .bind (hu right b hright hsr hb hvalue) fun w ⟨hl', hr', hbound'⟩ => ?_
      rcases hout' : w.outcome with m | s'
      · exact .pure ⟨by rw [hl, hl'], hr', fun _ h => nomatch h⟩
      · refine .bind (composeWith_unbound (hbound s hout) (hbound' s' hout')) fun r hr'' => ?_
        exact .pure ⟨by rw [hl, hl'], hr', fun _ h => Except.ok.inj h ▸ hr''⟩
  | @con c as v checks hc hargs =>
    cases hb with
    | @union left right hleft hright =>
      obtain ⟨hvl, hvr⟩ := trueless_union_iff.1 hvalue
      refine .bind (hu _ left (.con hc hargs) hs hleft hvl) fun u ⟨hl, hr, hbound⟩ => ?_
      rw [hl]
      refine .bind (hu _ right (.con hc hargs) hs hright hvr) fun w ⟨hl', hr', hbound'⟩ => ?_
      rcases hout : u.outcome with m | s <;> rcases hout' : w.outcome with m' | s'
      · exact .pure ⟨hl', by rw [hr, hr'], fun _ h => nomatch h⟩
      · exact .pure ⟨hl', by rw [hr, hr'], fun _ h => Except.ok.inj h ▸ hbound' s' hout'⟩
      · exact .pure ⟨hl', by rw [hr, hr'], fun _ h => Except.ok.inj h ▸ hbound s hout⟩
      · refine .bind (composeWith_unbound (hbound' s' hout') (hbound s hout)) fun r hr'' => ?_
        exact .pure ⟨hl', by rw [hr, hr'], fun _ h => Except.ok.inj h ▸ hr''⟩
    | con hd hargs' =>
      exact unifyConstructors_unchanged hu hrender (.con hc hargs) hs (.con hd hargs') hvalue

end Steps

/-- Unifying a type without `true` in arguments with one without `true`, and showing such types, ends
only where it is cut off. -/
lemma unifyTo_renderTo_trueless (depth : Nat) :
    (∀ a b : Ty, a.Simple → a.TruelessArgs → b.Simple → b.Trueless →
      (unifyTo depth a b).Sat (Unchanged a b) (· = .endless (c := .depth))) ∧
    (∀ c args v checks, (Ty.con c args v checks).Simple → (Ty.con c args v checks).TruelessArgs →
      (renderTo depth (.con c args v checks)).Sat (fun _ => True) (· = .endless (c := .depth))) ∧
    ∀ t : Ty, t.Simple → t.Trueless →
      (renderTo depth t).Sat (fun _ => True) (· = .endless (c := .depth)) := by
  induction depth with
  | zero =>
    exact ⟨fun _ _ _ _ _ _ => .throw rfl, fun _ _ _ _ _ _ => .throw rfl, fun _ _ _ => .throw rfl⟩
  | succ depth ih =>
    obtain ⟨hu, hcon, hr⟩ := ih
    refine ⟨fun a b ha hs hb hvalue => unifyStep_unchanged hu hcon ha hs hb hvalue,
      fun c args v checks ht hs => renderStep_con hr ht hs, fun t ht hvalue => ?_⟩
    cases t with
    | con => exact renderStep_con hr ht hvalue.args
    | union => exact renderStep_union hu hr ht hvalue
    | var | table | all => cases ht

/-! ## The test -/

lemma fits_eq (ha : a.Simple) (hb : b.Simple) : a.fits b = (do return (← unify a b).succeeds) := by
  cases ha <;> cases hb <;> rfl

/-- The unification of a type without `true` in arguments with one without `true` does not break
off. -/
lemma unify_unchanged (ha : a.Simple) (hs : a.TruelessArgs) (hb : b.Simple) (hvalue : b.Trueless) :
    (unify a b).Sat (Unchanged a b) fun _ => False := by
  have htrueless : (unify a b).Sat (Unchanged a b) (· = .endless (c := .depth)) :=
    (unifyTo_renderTo_trueless _).1 a b ha hs hb hvalue
  refine ((unify_sat a.within_free b.within_free).and htrueless).imp (fun _ h => h.2) ?_
  -- it is not cut off either
  rintro f ⟨hallowed, rfl⟩
  exact hallowed

lemma below_of_unify {u : Unified} {k k' : Letters} (ha : a.Simple) (hb : b.Simple)
    (h : outcome (unify a b.broaden) k = (.ok u, k')) (hu : u.succeeds = true) :
    Below a b.broaden :=
  (succeeds_iff_below ha hb h).1 hu

/-- The test does not say no of a type that is below one without values. -/
theorem fits_ne_false_of_below (ha : a.Simple) (hb : b.Simple) (hab : Below a b.broaden)
    (k k' : Letters) : outcome (a.fits b.broaden) k ≠ (.ok false, k') := by
  intro h
  rw [fits_eq ha hb.broaden] at h
  obtain ⟨u, k₁, hu, h⟩ := bind_eq_ok.1 h
  simp only [pure_eq_ok] at h
  rw [(succeeds_iff_below ha hb hu).2 hab] at h
  exact nomatch h.1

/-- The test says yes of a type below one without values, if its constructors have no `true` in their
arguments. -/
theorem fits_of_below (ha : a.Simple) (hs : a.TruelessArgs) (hb : b.Simple) (hab : Below a b.broaden)
    (k : Letters) : ∃ k', outcome (a.fits b.broaden) k = (.ok true, k') := by
  obtain ⟨u, k', hu, _⟩ := (unify_unchanged ha hs hb.broaden hb.broaden_trueless).exists_ok k
  refine ⟨k', ?_⟩
  rw [fits_eq ha hb.broaden, outcome_bind, hu]
  simp only [outcome_pure, (succeeds_iff_below ha hb hu).2 hab]

end Ty

end LuaTyping
