import Mathlib
import LuaTyping.Types.Subst

set_option autoImplicit false

/-!
# Applying substitutions

A substitution changes the variables of a type that stand outside the keys of tables, its *open*
variables. What an application gives has no open variable that is bound, so it changes a type
exactly if one of its open variables is bound. An application that does not come to an end has
found a circle among the bindings.

## Main definitions

* `Ty.induct` — induction on types, through lists of arguments and fields.
* `Ty.openVars` — the variables outside the keys of tables.
* `Subst.Resolves` — no open variable of a type is bound.
* `Subst.Circular` — from a type, the bindings lead into a circle.
-/

namespace LuaTyping

section Except

variable {ε α β : Type} {x : Except ε α} {f : α → Except ε β}

lemma except_bind_eq_ok {b : β} : (x >>= f) = .ok b ↔ ∃ a, x = .ok a ∧ f a = .ok b := by
  cases x <;> simp [bind, Except.bind]

lemma except_bind_eq_error {e : ε} :
    (x >>= f) = .error e ↔ x = .error e ∨ ∃ a, x = .ok a ∧ f a = .error e := by
  cases x <;> simp [bind, Except.bind]

end Except

lemma exists_left_of_forall₂ {α β : Type} {R : α → β → Prop} {as : List α} {bs : List β}
    (h : List.Forall₂ R as bs) {b : β} (hb : b ∈ bs) : ∃ a ∈ as, R a b := by
  induction h with
  | nil => simp at hb
  | cons hR _ ih =>
    rcases List.mem_cons.1 hb with rfl | hb
    · exact ⟨_, by simp, hR⟩
    · obtain ⟨a, ha, hab⟩ := ih hb
      exact ⟨a, by simp [ha], hab⟩

lemma forall₂_imp_of_mem {α β : Type} {R S : α → β → Prop} {as : List α} {bs : List β}
    (h : List.Forall₂ R as bs) (hS : ∀ a ∈ as, ∀ b, R a b → S a b) : List.Forall₂ S as bs :=
  ((List.forall₂_and_left as bs).2 ⟨hS, h⟩).imp fun _ b hab => hab.1 b hab.2

namespace Ty

/-! ## Induction -/

section Induction

variable {motive : Ty → Prop} (var : ∀ x, motive (.var x))
  (con : ∀ c args v checks, (∀ a ∈ args, motive a) → motive (.con c args v checks))
  (table : ∀ fields, (∀ f ∈ fields, motive f.1 ∧ motive f.2) → motive (.table fields))
  (union : ∀ left right, motive left → motive right → motive (.union left right))
  (all : ∀ x body, motive body → motive (.all x body))

include var con table union all

set_option linter.unusedSectionVars false

mutual

private theorem inductType : ∀ t : Ty, motive t
  | .var x => var x
  | .con c args v checks => con c args v checks (inductList args)
  | .table fields => table fields (inductFields fields)
  | .union left right => union left right (inductType left) (inductType right)
  | .all x body => all x body (inductType body)

private theorem inductList : ∀ (ts : List Ty), ∀ a ∈ ts, motive a
  | [], _, ha => absurd ha List.not_mem_nil
  | t :: ts, a, ha => by
    rcases List.mem_cons.1 ha with h | ha
    · exact h ▸ inductType t
    · exact inductList ts a ha

private theorem inductFields : ∀ (fs : List (Ty × Ty)), ∀ f ∈ fs, motive f.1 ∧ motive f.2
  | [], _, hf => absurd hf List.not_mem_nil
  | (k, v) :: fs, f, hf => by
    rcases List.mem_cons.1 hf with h | hf
    · exact h ▸ ⟨inductType k, inductType v⟩
    · exact inductFields fs f hf

end

/-- Induction on types: a type has a property if it has it whenever its arguments, its fields or
its alternatives do. -/
@[elab_as_elim, induction_eliminator]
theorem induct (t : Ty) : motive t := inductType var con table union all t

end Induction

/-! ## Open variables -/

mutual

/-- The variables outside the keys of tables, in order of appearance and perhaps repeated. A
quantified type cannot be substituted into, and has none. -/
def openVars : Ty → List String
  | .var x => [x]
  | .con _ args _ _ => openVarsList args
  | .table fields => openVarsFields fields
  | .union left right => left.openVars ++ right.openVars
  | .all _ _ => []

/-- The open variables of some types. -/
def openVarsList : List Ty → List String
  | [] => []
  | t :: ts => t.openVars ++ openVarsList ts

/-- The open variables of the values of some fields. -/
def openVarsFields : List (Ty × Ty) → List String
  | [] => []
  | (_, v) :: rest => v.openVars ++ openVarsFields rest

end

lemma mem_openVarsList {x : String} {ts : List Ty} :
    x ∈ openVarsList ts ↔ ∃ t ∈ ts, x ∈ t.openVars := by
  induction ts with
  | nil => simp [openVarsList]
  | cons t ts ih => simp [openVarsList, ih]

lemma mem_openVarsFields {x : String} {fields : List (Ty × Ty)} :
    x ∈ openVarsFields fields ↔ ∃ f ∈ fields, x ∈ f.2.openVars := by
  induction fields with
  | nil => simp [openVarsFields]
  | cons f fields ih => simp [openVarsFields, ih]

/-! ## Replacing variables -/

section Replace

variable {f : String → Except Fault Ty}

lemma replaceVarsList_eq_ok {ts us : List Ty} :
    replaceVarsList f ts = .ok us ↔ List.Forall₂ (fun t u => t.replaceVars f = .ok u) ts us := by
  induction ts generalizing us with
  | nil => cases us <;> simp [replaceVarsList]
  | cons t ts ih =>
    simp only [replaceVarsList, except_bind_eq_ok, ih, List.forall₂_cons_left_iff, pure,
      Except.pure, Except.ok.injEq]
    constructor
    · rintro ⟨u, hu, us', hus, rfl⟩
      exact ⟨u, us', hu, hus, rfl⟩
    · rintro ⟨u, us', hu, hus, rfl⟩
      exact ⟨u, hu, us', hus, rfl⟩

lemma replaceVarsFields_eq_ok {fs gs : List (Ty × Ty)} :
    replaceVarsFields f fs = .ok gs ↔
      List.Forall₂ (fun p q => p.1 = q.1 ∧ p.2.replaceVars f = .ok q.2) fs gs := by
  induction fs generalizing gs with
  | nil => cases gs <;> simp [replaceVarsFields]
  | cons p fs ih =>
    obtain ⟨k, v⟩ := p
    simp only [replaceVarsFields, except_bind_eq_ok, ih, List.forall₂_cons_left_iff, pure,
      Except.pure, Except.ok.injEq]
    constructor
    · rintro ⟨u, hu, gs', hgs, rfl⟩
      exact ⟨(k, u), gs', ⟨rfl, hu⟩, hgs, rfl⟩
    · rintro ⟨⟨k', u⟩, gs', ⟨rfl, hu⟩, hgs, rfl⟩
      exact ⟨u, hu, gs', hgs, rfl⟩

variable {t u : Ty} {e : Fault}

/-- Every open variable of the result comes from what an open variable was replaced by. -/
lemma exists_of_mem_openVars (h : t.replaceVars f = .ok u) :
    ∀ y ∈ u.openVars, ∃ x ∈ t.openVars, ∃ w, f x = .ok w ∧ y ∈ w.openVars := by
  induction t generalizing u with
  | var x =>
    intro y hy
    exact ⟨x, by simp [openVars], u, h, hy⟩
  | con c args v checks ih =>
    simp only [replaceVars, except_bind_eq_ok, replaceVarsList_eq_ok, pure, Except.pure,
      Except.ok.injEq] at h
    obtain ⟨us, hus, rfl⟩ := h
    intro y hy
    simp only [openVars, mem_openVarsList] at hy ⊢
    obtain ⟨b, hb, hy⟩ := hy
    obtain ⟨a, ha, hab⟩ := exists_left_of_forall₂ hus hb
    obtain ⟨x, hx, w, hw, hyw⟩ := ih a ha hab y hy
    exact ⟨x, ⟨a, ha, hx⟩, w, hw, hyw⟩
  | table fields ih =>
    simp only [replaceVars, except_bind_eq_ok, replaceVarsFields_eq_ok, pure, Except.pure,
      Except.ok.injEq] at h
    obtain ⟨us, hus, rfl⟩ := h
    intro y hy
    simp only [openVars, mem_openVarsFields] at hy ⊢
    obtain ⟨q, hq, hy⟩ := hy
    obtain ⟨p, hp, hpq⟩ := exists_left_of_forall₂ hus hq
    obtain ⟨x, hx, w, hw, hyw⟩ := (ih p hp).2 hpq.2 y hy
    exact ⟨x, ⟨p, hp, hx⟩, w, hw, hyw⟩
  | union left right ihl ihr =>
    simp only [replaceVars, except_bind_eq_ok, pure, Except.pure, Except.ok.injEq] at h
    obtain ⟨l, hl, r, hr, rfl⟩ := h
    intro y hy
    simp only [openVars, List.mem_append] at hy ⊢
    rcases hy with hy | hy
    · obtain ⟨x, hx, hw⟩ := ihl hl y hy
      exact ⟨x, .inl hx, hw⟩
    · obtain ⟨x, hx, hw⟩ := ihr hr y hy
      exact ⟨x, .inr hx, hw⟩
  | all x body _ => simp [replaceVars] at h

/-- Variables that are replaced by themselves leave a type as it is. -/
lemma replaceVars_eq_self (h : t.replaceVars f = .ok u)
    (hf : ∀ x ∈ t.openVars, f x = .ok (.var x)) : u = t := by
  induction t generalizing u with
  | var x =>
    rw [replaceVars, hf x (by simp [openVars])] at h
    exact (Except.ok.inj h).symm
  | con c args v checks ih =>
    simp only [replaceVars, except_bind_eq_ok, replaceVarsList_eq_ok, pure, Except.pure,
      Except.ok.injEq] at h
    obtain ⟨us, hus, rfl⟩ := h
    have hsame : List.Forall₂ Eq us args := by
      refine (forall₂_imp_of_mem hus fun a ha b hab => ?_).flip
      exact ih a ha hab fun x hx => hf x (mem_openVarsList.2 ⟨a, ha, hx⟩)
    rw [List.forall₂_eq_eq_eq] at hsame
    rw [hsame]
  | table fields ih =>
    simp only [replaceVars, except_bind_eq_ok, replaceVarsFields_eq_ok, pure, Except.pure,
      Except.ok.injEq] at h
    obtain ⟨us, hus, rfl⟩ := h
    have hsame : List.Forall₂ Eq us fields := by
      refine (forall₂_imp_of_mem hus fun p hp q hpq => ?_).flip
      exact Prod.ext hpq.1.symm
        ((ih p hp).2 hpq.2 fun x hx => hf x (mem_openVarsFields.2 ⟨p, hp, hx⟩))
    rw [List.forall₂_eq_eq_eq] at hsame
    rw [hsame]
  | union left right ihl ihr =>
    simp only [replaceVars, except_bind_eq_ok, pure, Except.pure, Except.ok.injEq] at h
    obtain ⟨l, hl, r, hr, rfl⟩ := h
    simp only [openVars, List.mem_append] at hf
    rw [ihl hl fun x hx => hf x (.inl hx), ihr hr fun x hx => hf x (.inr hx)]
  | all x body _ => simp [replaceVars] at h

lemma replaceVarsList_eq_error {ts : List Ty} (h : replaceVarsList f ts = .error e) :
    ∃ t ∈ ts, t.replaceVars f = .error e := by
  induction ts with
  | nil => simp [replaceVarsList] at h
  | cons t ts ih =>
    simp only [replaceVarsList, except_bind_eq_error, pure, Except.pure, reduceCtorEq, and_false,
      exists_false, or_false] at h
    rcases h with h | ⟨_, _, h⟩
    · exact ⟨t, by simp, h⟩
    · obtain ⟨a, ha, hae⟩ := ih h
      exact ⟨a, by simp [ha], hae⟩

lemma replaceVarsFields_eq_error {fs : List (Ty × Ty)} (h : replaceVarsFields f fs = .error e) :
    ∃ p ∈ fs, p.2.replaceVars f = .error e := by
  induction fs with
  | nil => simp [replaceVarsFields] at h
  | cons p fs ih =>
    simp only [replaceVarsFields, except_bind_eq_error, pure, Except.pure, reduceCtorEq, and_false,
      exists_false, or_false] at h
    rcases h with h | ⟨_, _, h⟩
    · exact ⟨p, by simp, h⟩
    · obtain ⟨q, hq, hqe⟩ := ih h
      exact ⟨q, by simp [hq], hqe⟩

/-- A replacement fails where that of an open variable does, or at a quantified type. -/
lemma replaceVars_eq_error (h : t.replaceVars f = .error e) :
    (∃ x ∈ t.openVars, f x = .error e) ∨ ∃ u, e = .unknownType u := by
  induction t with
  | var x => exact .inl ⟨x, by simp [openVars], h⟩
  | con c args v checks ih =>
    simp only [replaceVars, except_bind_eq_error, pure, Except.pure, reduceCtorEq, and_false,
      exists_false, or_false] at h
    obtain ⟨a, ha, hae⟩ := replaceVarsList_eq_error h
    refine (ih a ha hae).imp_left ?_
    rintro ⟨x, hx, hxe⟩
    exact ⟨x, mem_openVarsList.2 ⟨a, ha, hx⟩, hxe⟩
  | table fields ih =>
    simp only [replaceVars, except_bind_eq_error, pure, Except.pure, reduceCtorEq, and_false,
      exists_false, or_false] at h
    obtain ⟨p, hp, hpe⟩ := replaceVarsFields_eq_error h
    refine ((ih p hp).2 hpe).imp_left ?_
    rintro ⟨x, hx, hxe⟩
    exact ⟨x, mem_openVarsFields.2 ⟨p, hp, hx⟩, hxe⟩
  | union left right ihl ihr =>
    simp only [replaceVars, except_bind_eq_error, pure, Except.pure, reduceCtorEq, and_false,
      exists_false, or_false] at h
    rcases h with h | ⟨_, _, h⟩
    · refine (ihl h).imp_left ?_
      rintro ⟨x, hx, hxe⟩
      exact ⟨x, List.mem_append_left _ hx, hxe⟩
    · refine (ihr h).imp_left ?_
      rintro ⟨x, hx, hxe⟩
      exact ⟨x, List.mem_append_right _ hx, hxe⟩
  | all x body _ =>
    simp only [replaceVars, Except.error.injEq] at h
    exact .inr ⟨_, h.symm⟩

/-- A replacement that succeeds does so at every open variable. -/
lemma exists_ok_of_mem_openVars {x : String} (h : t.replaceVars f = .ok u) (hx : x ∈ t.openVars) :
    ∃ w, f x = .ok w := by
  induction t generalizing u with
  | var y =>
    obtain rfl : x = y := by simpa [openVars] using hx
    exact ⟨u, h⟩
  | con c args v checks ih =>
    simp only [replaceVars, except_bind_eq_ok, replaceVarsList_eq_ok] at h
    obtain ⟨us, hus, -⟩ := h
    obtain ⟨a, ha, hxa⟩ := mem_openVarsList.1 hx
    obtain ⟨b, _, hab⟩ := exists_left_of_forall₂ hus.flip ha
    exact ih a ha hab hxa
  | table fields ih =>
    simp only [replaceVars, except_bind_eq_ok, replaceVarsFields_eq_ok] at h
    obtain ⟨us, hus, -⟩ := h
    obtain ⟨p, hp, hxp⟩ := mem_openVarsFields.1 hx
    obtain ⟨q, _, hpq⟩ := exists_left_of_forall₂ hus.flip hp
    exact (ih p hp).2 hpq.2 hxp
  | union left right ihl ihr =>
    simp only [replaceVars, except_bind_eq_ok] at h
    obtain ⟨a, ha, b, hb, -⟩ := h
    rcases List.mem_append.1 hx with hx | hx
    · exact ihl ha hx
    · exact ihr hb hx
  | all y body _ => simp [replaceVars] at h

end Replace

end Ty

namespace Subst

variable {s : Subst} {t u : Ty}

/-! ## Resolved types -/

/-- No open variable of a type is bound. -/
def Resolves (s : Subst) (t : Ty) : Prop := ∀ x ∈ t.openVars, s.find? x = none

lemma follow_resolves {bindings : List (String × Ty)} {origin : Ty} {depth : Nat}
    (h : follow bindings origin depth t = .ok u) : ∀ y ∈ u.openVars, bindings.lookup y = none := by
  induction depth generalizing t u with
  | zero =>
    intro y hy
    obtain ⟨x, _, w, hw, hyw⟩ := Ty.exists_of_mem_openVars h y hy
    cases hx : bindings.lookup x with
    | none =>
      obtain rfl : Ty.var x = w := by simpa [hx] using hw
      obtain rfl : y = x := by simpa [Ty.openVars] using hyw
      exact hx
    | some v => simp [hx] at hw
  | succ depth ih =>
    intro y hy
    obtain ⟨x, _, w, hw, hyw⟩ := Ty.exists_of_mem_openVars h y hy
    cases hx : bindings.lookup x with
    | none =>
      obtain rfl : Ty.var x = w := by simpa [hx] using hw
      obtain rfl : y = x := by simpa [Ty.openVars] using hyw
      exact hx
    | some v =>
      simp only [hx] at hw
      exact ih hw y hyw

lemma apply_resolves (h : s.apply t = .ok u) : s.Resolves u := follow_resolves h

lemma apply_eq_self_iff (h : s.apply t = .ok u) : u = t ↔ s.Resolves t := by
  constructor
  · rintro rfl
    exact apply_resolves h
  · intro ht
    have hlookup : ∀ x ∈ t.openVars, s.bindings.lookup x = none := ht
    unfold apply at h
    generalize s.bindings.length = depth at h
    cases depth with
    | zero => exact Ty.replaceVars_eq_self h fun x hx => by simp [hlookup x hx]
    | succ depth => exact Ty.replaceVars_eq_self h fun x hx => by simp [hlookup x hx]

/-- A substitution that can be applied to the very type that it binds does not change it. -/
lemma resolves_of_single_apply {x : String} {w : Ty} (h : (single x u).apply u = .ok w) :
    (single x u).Resolves u := by
  intro y hy
  by_contra hne
  have hbound : (single x u).bindings.lookup y = some u := by
    cases hxy : y == x with
    | true => simp [single, List.lookup, hxy]
    | false => simp [find?, single, List.lookup, hxy] at hne
  obtain ⟨w', hw'⟩ := Ty.exists_ok_of_mem_openVars h hy
  rw [hbound] at hw'
  obtain ⟨w'', hw''⟩ := Ty.exists_ok_of_mem_openVars hw' hy
  rw [hbound] at hw''
  simp at hw''

/-! ## Circles -/

/-- A variable leads to the open variables of the type that it is bound to. -/
def Leads (s : Subst) (x y : String) : Prop := ∃ t, s.find? x = some t ∧ y ∈ t.openVars

/-- From an open variable of a type, the bindings lead to a variable that they lead back to. -/
def Circular (s : Subst) (t : Ty) : Prop :=
  ∃ x ∈ t.openVars, ∃ y, Relation.ReflTransGen s.Leads x y ∧ Relation.TransGen s.Leads y y

/-- An application that is cut off has followed a chain of bound variables as long as it could. -/
lemma exists_chain_of_follow {origin : Ty} {c : Circle} {depth : Nat}
    (h : follow s.bindings origin depth t = .error (.endless (c := c))) :
    ∃ x l, x ∈ t.openVars ∧ (x :: l).length = depth + 1 ∧ List.IsChain s.Leads (x :: l) ∧
      ∀ y ∈ x :: l, (s.find? y).isSome := by
  induction depth generalizing t with
  | zero =>
    obtain ⟨x, hx, hxe⟩ | ⟨_, hu⟩ := Ty.replaceVars_eq_error h
    · refine ⟨x, [], hx, rfl, .singleton x, ?_⟩
      cases hl : s.bindings.lookup x with
      | none => simp [hl] at hxe
      | some v =>
        intro y hy
        obtain rfl : y = x := by simpa using hy
        exact Option.isSome_of_eq_some hl
    · simp at hu
  | succ depth ih =>
    obtain ⟨x, hx, hxe⟩ | ⟨_, hu⟩ := Ty.replaceVars_eq_error h
    · cases hl : s.bindings.lookup x with
      | none => simp [hl] at hxe
      | some v =>
        simp only [hl] at hxe
        obtain ⟨y, l, hy, hlen, hchain, hbound⟩ := ih hxe
        refine ⟨x, y :: l, hx, by simp [hlen], ?_, ?_⟩
        · exact List.isChain_cons_cons.2 ⟨⟨v, hl, hy⟩, hchain⟩
        · intro z hz
          rcases List.mem_cons.1 hz with rfl | hz
          · exact Option.isSome_of_eq_some hl
          · exact hbound z hz
    · simp at hu

/-- An application that goes round in a circle does so among its bindings: the chain that it has
followed has one variable more than are bound, so one of them stands in it twice. -/
lemma circular_of_apply {c : Circle} (h : s.apply t = .error (.endless (c := c))) :
    s.Circular t := by
  obtain ⟨x, l, hx, hlen, hchain, hbound⟩ := exists_chain_of_follow h
  have hpair : List.Pairwise (Relation.TransGen s.Leads) (x :: l) :=
    (hchain.imp fun _ _ => Relation.TransGen.single).pairwise
  have hdup : ¬ (x :: l).Nodup := by
    intro hnodup
    have hsub : (x :: l) ⊆ s.bindings.map Prod.fst := by
      intro y hy
      obtain ⟨p, hp, hpy⟩ := List.lookup_isSome_iff.1 (hbound y hy)
      exact List.mem_map.2 ⟨p, hp, (eq_of_beq hpy).symm⟩
    have hle := (List.subperm_of_subset hnodup hsub).length_le
    rw [hlen, List.length_map] at hle
    omega
  obtain ⟨y, hy⟩ : ∃ y, [y, y].Sublist (x :: l) := by
    rw [List.nodup_iff_sublist] at hdup
    push Not at hdup
    exact hdup
  have hmem : y ∈ x :: l := hy.subset (by simp)
  refine ⟨x, hx, y, ?_, by simpa using hpair.sublist hy⟩
  rcases List.mem_cons.1 hmem with rfl | hyl
  · exact .refl
  · exact (List.rel_of_pairwise_cons hpair hyl).to_reflTransGen

end Subst

end LuaTyping
