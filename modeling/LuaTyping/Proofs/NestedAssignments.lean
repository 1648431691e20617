import LuaTyping.Proofs.FreshRuns
import LuaTyping.Proofs.KeyPaths
import LuaTyping.Proofs.ScopeLeaks

set_option autoImplicit false

/-!
# Which table an assignment changes

An assignment to a path of literal keys looks up the tables on the way by itself, and not by
inferring the path before the last key. Both look for the first field whose key covers the next one.
They differ where there is none: the inference stops, but the assignment passes over the key and goes
on with the same table. So an assignment changes the table that the path before the last key names
exactly if no key is missing on the way; otherwise it changes another table, although the path before
the last key cannot be inferred.

## Main definitions

* `Ty.Rewrites` — a type in the place of another one, at the end of a path.
* `Ty.Passes` — the keys of a path that are found if the others are passed over.

## Main results

* `Check.setPath_named_table` — and when this is what its path names.
-/

namespace LuaTyping

namespace Ty

open Naming

variable {k l t u v w : Ty} {keys : List Ty} {fields before after : List (Ty × Ty)}

/-! ## Changes along a path -/

/-- A type has `u'` in the place where another one has `u`: in the field that each key of a path
finds in turn. -/
inductive Rewrites (u u' : Ty) : List Ty → Ty → Ty → Prop
  | here : Rewrites u u' [] u u'
  | field {k l v v' : Ty} {keys : List Ty} {fields before after : List (Ty × Ty)} :
      Finds k fields (some (before, (l, v), after)) → Rewrites u u' keys v v' →
      Rewrites u u' (k :: keys) (.table fields) (.table (before ++ (l, v') :: after))

lemma Rewrites.leads {u' t' : Ty} (h : Rewrites u u' keys t t') : Leads keys t u := by
  induction h with
  | here => exact .nil u
  | field hfind _ ih => exact .cons hfind ih

lemma Rewrites.eq_self {t' : Ty} (h : Rewrites u u keys t t') : t' = t := by
  induction h with
  | here => rfl
  | field hfind _ ih => rw [ih, hfind.eq_append]

/-- The keys of a path that are found, if those that are not are passed over. -/
inductive Passes : List Ty → Ty → List Ty → Prop
  | nil (t : Ty) : Passes [] t []
  | found {k l v : Ty} {keys followed : List Ty} {fields before after : List (Ty × Ty)} :
      Finds k fields (some (before, (l, v), after)) → Passes keys v followed →
      Passes (k :: keys) (.table fields) (k :: followed)
  | missing {k : Ty} {keys followed : List Ty} {fields : List (Ty × Ty)} :
      Finds k fields none → Passes keys (.table fields) followed →
      Passes (k :: keys) (.table fields) followed

/-- If a key was passed over, then one is missing in a table that those before it lead to. -/
lemma Passes.exists_missing {followed : List Ty} (h : Passes keys t followed)
    (hne : followed ≠ keys) :
    ∃ init k rest fields, keys = init ++ k :: rest ∧ Leads init t (.table fields) ∧
      Finds k fields none := by
  induction h with
  | nil t => exact absurd rfl hne
  | @found k l v keys followed fields before after hfind _ ih =>
    obtain ⟨init, k', rest, fields', rfl, hleads, hmissing⟩ := ih fun heq => hne (by rw [heq])
    exact ⟨k :: init, k', rest, fields', rfl, .cons hfind hleads, hmissing⟩
  | @missing k keys followed fields hmissing _ _ =>
    exact ⟨[], k, keys, fields, rfl, .nil _, hmissing⟩

end Ty

/-! ## What an assignment does -/

namespace Scopes

lemma enterName_eq_self {α : Type} {x : String} {a : α} {l : List (String × α)}
    (h : l.lookup x = some a) : enterName x a l = l := by
  induction l with
  | nil => cases h
  | cons e l ih =>
    obtain ⟨y, b⟩ := e
    by_cases hxy : y = x
    · subst hxy
      obtain rfl : b = a := by simpa [List.lookup] using h
      simp [enterName]
    · have hne : (x == y) = false := beq_false_of_ne (Ne.symm hxy)
      rw [List.lookup, hne] at h
      simp [enterName, hxy, ih h]

/-- A change of the type of a name to what it is changes nothing. -/
lemma update_eq_self {s : Scopes} {x : String} {t : Ty} (h : s.local? x = some t) :
    s.update x t = s := by
  obtain ⟨frames, globals⟩ := s
  induction frames with
  | nil => rfl
  | cons frame rest ih =>
    cases hl : frame.lookup x with
    | none =>
      rw [update_cons_of_none hl, ih (by rwa [local?_cons_of_none hl] at h)]
    | some b =>
      cases b with
      | own u =>
        obtain rfl : u = t := by
          simpa [Scopes.local?, Scopes.binding?, Scopes.resolve, hl] using h
        rw [update_cons_of_own hl, enterName_eq_self hl]
      | shared =>
        have hglobal : globals.lookup x = some t := by
          simpa [Scopes.local?, Scopes.binding?, Scopes.resolve, Scopes.global?, hl] using h
        simp [Scopes.update, Scopes.binding?, hl, enterName_eq_self hglobal]

end Scopes

namespace Check

open Ty

variable {σ σ' : Session} {x : String} {keys : List Literal} {p : Node} {depth : Nat} {t t' : Ty}

/-- A change at the end of a path changes the table that the keys that are found lead to. What they
lead to is left as it is if it is no table. -/
lemma changeAt_eq_ok {change : List (Ty × Ty) → Check (List (Ty × Ty))} {keys : List Ty}
    (h : outcome (changeAt change keys t) σ = (.ok t', σ')) :
    ∃ followed u u', Passes keys t followed ∧ Rewrites u u' followed t t' ∧
      ((∃ old new τ τ', u = .table old ∧ u' = .table new ∧
        outcome (change old) τ = (.ok new, τ')) ∨ u' = u) := by
  induction keys generalizing t t' σ σ' with
  | nil =>
    cases t with
    | table old =>
      obtain ⟨new, τ, hnew, h⟩ := bind_eq_ok.1 h
      obtain ⟨rfl, -⟩ := pure_eq_ok.1 h
      exact ⟨[], .table old, .table new, .nil _, .here, .inl ⟨old, new, σ, τ, rfl, rfl, hnew⟩⟩
    | var | con | union | all =>
      cases h
      exact ⟨[], _, _, .nil _, .here, .inr rfl⟩
  | cons k keys ih =>
    cases t with
    | table fields =>
      obtain ⟨found, τ, hfound, h⟩ := bind_eq_ok.1 h
      obtain ⟨letters, hfound⟩ := naming_eq_ok hfound
      cases found with
      | none =>
        obtain ⟨followed, u, u', hpasses, hrewrites, hchange⟩ := ih h
        exact ⟨followed, u, u', .missing ⟨_, _, hfound⟩ hpasses, hrewrites, hchange⟩
      | some found =>
        obtain ⟨before, ⟨l, v⟩, after⟩ := found
        obtain ⟨v', τ', hv, h⟩ := bind_eq_ok.1 h
        cases h
        obtain ⟨followed, u, u', hpasses, hrewrites, hchange⟩ := ih hv
        exact ⟨k :: followed, u, u', .found ⟨_, _, hfound⟩ hpasses,
          .field ⟨_, _, hfound⟩ hrewrites, hchange⟩
    | var | con | union | all => cases h

lemma outcome_pathOf (hp : KeyPath x keys p) (hx : σ.scopes.local? x = some t)
    (ht : ∀ y z body, t ≠ .all y (.all z body)) :
    outcome (pathOf (inferTo (depth + 1)) p) σ = (.ok (x, keys.map Literal.key), σ) := by
  induction hp with
  | root l =>
    simp only [pathOf, outcome_bind, outcome_scopes, hx]
    rfl
  | index l _ hkey ih =>
    simp only [pathOf, outcome_bind, ih, inferTo_key hkey, outcome_pure, ofType, List.map_append,
      List.map_singleton]

lemma outcome_pathOf_unmet (hp : KeyPath x keys p) {y z : String}
    (hx : σ.scopes.local? x = some (.all y (.all z t))) :
    outcome (pathOf (inferTo (depth + 1)) p) σ = (.error (.fault .unmet), σ) := by
  induction hp with
  | root l =>
    simp only [pathOf, outcome_bind, outcome_scopes, hx]
    rfl
  | index l _ _ ih => simp only [pathOf, outcome_bind, ih]

end Check

namespace Polytype

variable (s : Polytype)

/-- A type scheme is a type without quantifiers, or has one quantifier, or more. -/
lemma type_cases :
    (s.names = [] ∧ s.type = s.body) ∨ (∃ y, s.names = [y] ∧ s.type = .all y s.body) ∨
      1 < s.names.length ∧ ∃ y z t, s.type = .all y (.all z t) := by
  obtain ⟨names, body, -⟩ := s
  rcases names.eq_nil_or_concat with rfl | ⟨names, y, rfl⟩
  · exact .inl ⟨rfl, rfl⟩
  · rcases names.eq_nil_or_concat with rfl | ⟨names, z, rfl⟩
    · exact .inr (.inl ⟨y, rfl, rfl⟩)
    · refine .inr (.inr ⟨by simp, y, z, body.quantify names, ?_⟩)
      simp [type, Ty.quantify]

lemma body_ne_all (y : String) (t : Ty) : s.body ≠ .all y t := by
  intro h
  have hmono := s.mono
  rw [h] at hmono
  cases hmono

end Polytype

namespace Check

open Ty

variable {σ σ' : Session} {x : String} {init : List Literal} {object key : Node} {k : Literal}
  {l : Location} {v : Ty} {s : Polytype}

section Set

variable (hobject : KeyPath x init object) (hkey : key.key? = some k)
  (hx : σ.scopes.local? x = some s.type)

include hobject hkey hx

/-- An assignment to a path changes the type of its variable below the quantifier, if there is one. -/
lemma outcome_setPath (hnames : s.names.length ≤ 1) :
    outcome (setPath (.index l object key) v) σ =
      match outcome (changeAt (assignField l k.key v) (init.map Literal.key) s.body) σ with
      | (.ok body, σ₁) =>
        (.ok (), { σ₁ with scopes := σ₁.scopes.update x (body.quantify s.names) })
      | (.error e, σ₁) => (.error e, σ₁) := by
  have hpath : ∀ {t : Ty}, σ.scopes.local? x = some t → (∀ y z body, t ≠ .all y (.all z body)) →
      outcome (pathOf (inferTo (Check.depthFor (.index l object key))) (.index l object key)) σ =
        (.ok (x, (init ++ [k]).map Literal.key), σ) :=
    fun hx ht => outcome_pathOf (.index l hobject hkey) hx ht
  have hlast : ((init ++ [k]).map Literal.key).getLast? = some k.key := by simp
  have hinit : ((init ++ [k]).map Literal.key).dropLast = init.map Literal.key := by simp
  rcases s.type_cases with ⟨hnil, htype⟩ | ⟨y, hone, htype⟩ | ⟨htwo, -⟩
  · rw [htype] at hx
    have hbody := s.body_ne_all
    rw [hnil, setPath, assignPath, outcome_bind, hpath hx fun y z t => hbody y _]
    simp only [outcome_bind, outcome_scopes, hx, hlast, hinit]
    rcases outcome (changeAt (assignField l k.key v) (init.map Literal.key) s.body) σ with
      ⟨e | body, σ₁⟩ <;> rfl
  · rw [htype] at hx
    have hbody := s.body_ne_all
    rw [hone, setPath, assignPath, outcome_bind,
      hpath hx fun y z t h => hbody z t (Ty.all.inj h).2]
    simp only [outcome_bind, outcome_scopes, hx, hlast, hinit, outcome_pure]
    rcases outcome (changeAt (assignField l k.key v) (init.map Literal.key) s.body) σ with
      ⟨e | body, σ₁⟩ <;> rfl
  · exact absurd hnames (Nat.not_le_of_lt htwo)

/-- A successful assignment changes the table that the keys that are found lead to, or nothing. -/
lemma setPath_eq_ok (hset : outcome (setPath (.index l object key) v) σ = (.ok (), σ')) :
    ∃ followed u u' body, Passes (init.map Literal.key) s.body followed ∧
      Rewrites u u' followed s.body body ∧
      σ'.scopes = σ.scopes.update x (body.quantify s.names) ∧
      ((∃ old new τ τ', u = .table old ∧ u' = .table new ∧
        outcome (assignField l k.key v old) τ = (.ok new, τ')) ∨ u' = u) := by
  have hnames : s.names.length ≤ 1 := by
    rcases s.type_cases with ⟨hnil, -⟩ | ⟨y, hone, -⟩ | ⟨-, y, z, t, htype⟩
    · simp [hnil]
    · simp [hone]
    · rw [htype] at hx
      have hpath : outcome (pathOf (inferTo (Check.depthFor (.index l object key)))
          (.index l object key)) σ = (.error (.fault .unmet), σ) :=
        outcome_pathOf_unmet (.index l hobject hkey) hx
      rw [setPath, assignPath, outcome_bind, hpath] at hset
      cases hset
  rw [outcome_setPath hobject hkey hx hnames] at hset
  rcases hchange : outcome (changeAt (assignField l k.key v) (init.map Literal.key) s.body) σ with
    ⟨e | body, σ₁⟩ <;> rw [hchange] at hset
  · cases hset
  · obtain ⟨followed, u, u', hpasses, hrewrites, hwhat⟩ := changeAt_eq_ok hchange
    refine ⟨followed, u, u', body, hpasses, hrewrites, ?_, hwhat⟩
    have hscopes : σ₁.scopes = σ.scopes := by
      have hstill := Scopeless.scopes_eq (x := changeAt (assignField l k.key v)
        (init.map Literal.key) s.body) (scopeless_changeAt fun _ => scopeless_assignField) σ
      rw [hchange] at hstill
      exact hstill.1
    rw [← hscopes, ← (Prod.mk.inj hset).2]

end Set

end Check

/-! ## Instances -/

/-- A variable, or a constructor that no literal has: a literal key that is compared with it does not
look further into it. -/
def Ty.isUnlike : Ty → Bool
  | .var _ => true
  | .con c _ _ _ => c != "number" && c != "string" && c != "boolean"
  | _ => false

lemma Ty.Wraps.isUnlike_eq {a b : Ty} (h : Wraps a b) : b.isUnlike = a.isUnlike := by
  induction h with
  | trans _ _ ih₁ ih₂ => rw [ih₂, ih₁]
  | refl | arg | field | key | left | right | result => rfl

/-- The keys of tables are closed, or literal keys do not look into them, and there are no
quantifiers. -/
def Permit.plainKeys : Permit where
  var _ := True
  literal _ _ := True
  key k := k.Ground ∨ k.isUnlike = true
  key_wraps _ _ h hw := h.imp (fun h => h.wraps hw) hw.isUnlike_eq.trans
  checked := False
  place _ := True
  quantified := False

namespace Ty

variable {t u : Ty} {fields : List (Ty × Ty)} {f : String → String}

lemma Mono.renameVars (h : t.Mono) (f : String → String) : (t.renameVars f).Mono := by
  induction h with
  | var x => exact .var _
  | con c v checks _ ih =>
    rw [Ty.renameVars, renameVarsList_eq_map]
    exact .con _ _ _ (List.forall_mem_map.2 ih)
  | table _ _ ihk ihv =>
    rw [Ty.renameVars, renameVarsFields_eq_map]
    exact .table (List.forall_mem_map.2 ihk) (List.forall_mem_map.2 ihv)
  | union _ _ ihl ihr => exact .union ihl ihr

lemma Ground.renameVars (h : t.Ground) (f : String → String) : t.renameVars f = t := by
  unfold Ground at h
  induction h with
  | var hx => exact hx.elim
  | con _ _ _ _ ih =>
    rw [Ty.renameVars, renameVarsList_eq_map, List.map_congr_left (g := id) ih, List.map_id]
  | table _ _ _ ihk ihv =>
    rw [Ty.renameVars, renameVarsFields_eq_map,
      List.map_congr_left (g := id) fun e he => Prod.ext (ihk e he) (ihv e he), List.map_id]
  | union _ _ ihl ihr => rw [Ty.renameVars, ihl, ihr]
  | all hq => exact hq.elim

/-- Whether a literal key is covered by a key that is closed, or that it does not look into, does not
depend on variables. -/
lemma fits_renameVars (a : Literal) {k : Ty} (hk : k.Ground ∨ k.isUnlike = true) :
    a.key.fits (k.renameVars f) = a.key.fits k := by
  rcases hk with hk | hk
  · rw [hk.renameVars]
  · cases k with
    | var x => cases a <;> rfl
    | con c args v checks =>
      obtain ⟨d, hd, hkey⟩ : ∃ d, d ≠ c ∧ a.key = .con d [] (some a) [] := by
        simp only [isUnlike, Bool.and_eq_true, bne_iff_ne] at hk
        cases a
        · exact ⟨_, hk.1.1.symm, rfl⟩
        · exact ⟨_, hk.1.2.symm, rfl⟩
        · exact ⟨_, hk.2.symm, rfl⟩
      have hfails : ∀ args, a.key.fits (.con c args v checks) = pure false := by
        intro args
        simp only [hkey, fits, fitsBy, unify_eq, unifyStep, unifyConstructors, ne_eq, hd,
          not_false_eq_true, if_true, pure_bind]
        rfl
      rw [Ty.renameVars, hfails, hfails]
    | table | union | all => cases hk

/-- A field with other variables. -/
def renameField (f : String → String) (e : Ty × Ty) : Ty × Ty :=
  (e.1.renameVars f, e.2.renameVars f)

lemma splitField_map {covers : Covers} {k : Ty} {g : Ty × Ty → Ty × Ty} {acc : List (Ty × Ty)}
    (hg : ∀ e ∈ fields, covers k (g e).1 = covers k e.1)
    {found : Option (List (Ty × Ty) × (Ty × Ty) × List (Ty × Ty))} {letters letters' : Letters}
    (h : outcome (splitField covers k acc fields) letters = (.ok found, letters')) :
    outcome (splitField covers k (acc.map g) (fields.map g)) letters =
      (.ok (found.map fun r => (r.1.map g, g r.2.1, r.2.2.map g)), letters') := by
  induction fields generalizing acc letters with
  | nil =>
    cases h
    rfl
  | cons e fields ih =>
    obtain ⟨covered, k₁, hcovered, h⟩ := bind_eq_ok.1 h
    rw [List.map_cons, splitField, outcome_bind, hg e (by simp), hcovered]
    cases covered with
    | true =>
      cases h
      rfl
    | false =>
      have hrest := ih (fun e he => hg e (by simp [he])) h
      rwa [List.map_append, List.map_singleton] at hrest

/-- What a literal key finds does not depend on variables. -/
lemma Finds.renameVars {a : Literal} {found : Option (List (Ty × Ty) × (Ty × Ty) × List (Ty × Ty))}
    (h : Finds a.key fields found) (hkeys : ∀ e ∈ fields, e.1.Ground ∨ e.1.isUnlike = true)
    (f : String → String) :
    Finds a.key (fields.map (renameField f)) (found.map fun r =>
      (r.1.map (renameField f), renameField f r.2.1, r.2.2.map (renameField f))) := by
  obtain ⟨letters, letters', h⟩ := h
  exact ⟨letters, letters', splitField_map (fun e he => fits_renameVars a (hkeys e he)) h⟩

lemma renameVars_table (f : String → String) (fields : List (Ty × Ty)) :
    (table fields).renameVars f = .table (fields.map (renameField f)) := by
  rw [Ty.renameVars, renameVarsFields_eq_map]
  rfl

/-- Where a path of literal keys leads does not depend on variables. -/
lemma Leads.renameVars {keys : List Literal} (h : Leads (keys.map Literal.key) t u)
    (ht : t.Within .plainKeys) (f : String → String) :
    Leads (keys.map Literal.key) (t.renameVars f) (u.renameVars f) ∧ u.Within .plainKeys := by
  induction keys generalizing t with
  | nil =>
    cases h
    exact ⟨.nil _, ht⟩
  | cons a keys ih =>
    obtain _ | @⟨_, l, v, _, _, fields, before, after, hfind, hrest⟩ := h
    rw [within_table_iff] at ht
    have hv : (l, v) ∈ fields := by rw [hfind.eq_append]; simp
    obtain ⟨hleads, hu⟩ := ih hrest (ht _ hv).2.2
    rw [renameVars_table]
    exact ⟨.cons (hfind.renameVars (fun e he => (ht e he).1) f) hleads, hu⟩

end Ty

namespace Supply

/-- The register has only variables. -/
def OnlyVars (s : Supply) : Prop := ∀ e ∈ s.shared, ∃ y, e.2 = .var y

variable {s : Supply}

lemma OnlyVars.quantifyAll (h : s.OnlyVars) (names : List String) :
    (s.quantifyAll names).OnlyVars := by
  induction names with
  | nil => exact h
  | cons x names ih =>
    intro e he
    rcases List.mem_cons.1 he with rfl | he
    · exact ⟨_, rfl⟩
    · exact ih e (List.mem_filter.1 he).1

/-- Instances are then the bodies of schemes with other variables. -/
lemma OnlyVars.instantiate (h : s.OnlyVars) (p : Polytype) :
    p.type.instantiate s =
      (p.body.renameVars (s.quantifyAll p.names).standIn, s.quantifyAll p.names) := by
  refine p.instantiate_eq fun x _ => ?_
  unfold standIn
  cases hl : (s.quantifyAll p.names).shared.lookup x with
  | none => rfl
  | some t =>
    obtain ⟨y, hy⟩ := h.quantifyAll p.names _ (mem_of_lookup hl)
    obtain rfl : t = .var y := hy
    rfl

end Supply

namespace Check

open Ty

variable {σ σ' : Session} {x : String} {init : List Literal} {object key : Node} {k : Literal}
  {l : Location} {v : Ty} {s : Polytype}

lemma settled_instantiate (hσ : σ.Fresh) (hregister : σ.supply.OnlyVars)
    (hx : σ.scopes.local? x = some s.type) :
    (s.type.instantiate σ.supply).1.Settled (s.type.instantiate σ.supply).2.count := by
  have hwithin := keeps_instantiate (r := .any) (hσ.scopes.local? hx) σ hσ le_rfl
  refine ⟨?_, fun y hy => ?_⟩
  · rw [hregister.instantiate]
    exact s.mono.renameVars _
  · exact (hwithin.2.freeVars y (mem_freeVars_of_mem_openVars hy)).1

/-- A successful assignment to a path of literal keys changes nothing, or one table: the one that the
keys on the way lead to if those that are not found are passed over. If none was passed over, the
path before the last key is inferred to be an instance of the type of that very table; if one was,
the path cannot be inferred.

Of keys that are tables or unions this needs that they are closed: a key that does not cover another
one may be shown, and to show a table its elements are unified, which can end in a fault in an
instance of the table alone. A check that holds the table itself, and not a copy of it, is changed
together with it. Types are values here, so that only the type of the name is. -/
theorem setPath_named_table (hσ : σ.Fresh) (hregister : σ.supply.OnlyVars)
    (hx : σ.scopes.local? x = some s.type) (hkeys : s.body.Within .plainKeys)
    (hobject : KeyPath x init object) (hkey : key.key? = some k)
    (hset : outcome (setPath (.index l object key) v) σ = (.ok (), σ')) :
    σ'.scopes = σ.scopes ∨ ∃ followed old new body,
      Passes (init.map Literal.key) s.body followed ∧
      Rewrites (.table old) (.table new) followed s.body body ∧
      σ'.scopes = σ.scopes.update x (body.quantify s.names) ∧
      (∃ τ τ', outcome (assignField l k.key v old) τ = (.ok new, τ')) ∧
      (followed = init.map Literal.key → ∃ i τ, outcome (infer object) σ = (.ok i, τ) ∧
        i.type = (Ty.table old).renameVars (σ.supply.quantifyAll s.names).standIn) ∧
      (followed ≠ init.map Literal.key → ∀ i τ, outcome (infer object) σ ≠ (.ok i, τ)) := by
  obtain ⟨followed, u, u', body, hpasses, hrewrites, hscopes, hwhat⟩ :=
    setPath_eq_ok hobject hkey hx hset
  have hinstance : (s.type.instantiate σ.supply).1 =
      s.body.renameVars (σ.supply.quantifyAll s.names).standIn :=
    congrArg Prod.fst (hregister.instantiate s)
  have hsettled := settled_instantiate hσ hregister hx
  rcases hwhat with ⟨old, new, τ, τ', rfl, rfl, hassign⟩ | rfl
  · refine .inr ⟨followed, old, new, body, hpasses, hrewrites, hscopes, ⟨τ, τ', hassign⟩, ?_, ?_⟩
    · -- what the inference follows is the instance, with the same keys
      rintro rfl
      have hleads := (hrewrites.leads.renameVars hkeys
        (σ.supply.quantifyAll s.names).standIn).1
      rw [← hinstance] at hleads
      obtain ⟨i, τ, hi, hread⟩ := (read_of_leads hx hsettled hobject hleads
        hobject.length_lt).exists_eq
      exact ⟨i, τ, hi, hread.type⟩
    · intro hne i τ
      obtain ⟨before, k', rest, fields, hsplit, hleads, hmissing⟩ := hpasses.exists_missing hne
      obtain ⟨before, rest, rfl, rfl, hrest⟩ := List.map_eq_append_iff.1 hsplit
      obtain ⟨k', rest, rfl, rfl, rfl⟩ := List.map_eq_cons_iff.1 hrest
      obtain ⟨hleads', hfields⟩ := hleads.renameVars hkeys
        (σ.supply.quantifyAll s.names).standIn
      rw [within_table_iff] at hfields
      rw [renameVars_table, ← hinstance] at hleads'
      have hlacks := hmissing.renameVars (fun e he => (hfields e he).1)
        (σ.supply.quantifyAll s.names).standIn
      exact not_infer_of_lacks hx hsettled hobject rfl hleads' hlacks hobject.length_lt
  · refine .inl ?_
    rw [hscopes, hrewrites.eq_self]
    exact Scopes.update_eq_self hx

/-! ### Tables that are there, and one that is missing -/

/-- The path `o.a`. -/
def pathOA : Node := .index default (.var default "o") (.string default "a")

/-- The path `o.a.b`. -/
def pathOAB : Node := .index default pathOA (.string default "b")

/-- The type of `{a = {}}`. -/
def nestedTable : Polytype :=
  ⟨[], .table [(Literal.key (.text "a"), .table [])],
    .table (by simp [Literal.key, literal, Mono.con]) (by simp [Mono.table])⟩

/-- If `o` has the type of `{a = {}}`, an assignment to `o.a.b` changes the table that `o.a` is
inferred to be. -/
theorem setPath_named_table_nested :
    ∃ σ' i τ, outcome (setPath pathOAB .number)
        (.withLocals [("o", .own nestedTable.type)]) = (.ok (), σ') ∧
      outcome (infer pathOA) (.withLocals [("o", .own nestedTable.type)]) = (.ok i, τ) ∧
      ∃ old new body, Rewrites (.table old) (.table new) [Literal.key (.text "a")]
          nestedTable.body body ∧
        i.type = (Ty.table old).renameVars (Supply.standIn ⟨3, []⟩) ∧
        σ'.scopes.local? "o" = some body := by
  have hfresh : (Session.withLocals [("o", .own nestedTable.type)]).Fresh :=
    Session.fresh_iff.2 fun x hx => Session.fresh_iff.1 Session.fresh_initial x hx
  have hkeys : nestedTable.body.Within .plainKeys := by
    simp [nestedTable, FieldsWithin, Permit.plainKeys, Literal.key, literal, ground_con_iff,
      ChecksWithin]
  have hobject : KeyPath "o" [.text "a"] pathOA := .index default (.root default) rfl
  have hkey : Node.key? (.string default "b") = some (.text "b") := rfl
  rcases setPath_named_table (l := default) (v := .number) (s := nestedTable) hfresh
    (fun _ he => absurd he List.not_mem_nil) rfl hkeys hobject hkey rfl with
    hsame | ⟨followed, old, new, body, _, hrewrites, hscopes, _, hread, hmissing⟩
  · have hlocal := congrArg (fun s : Scopes => s.local? "o") hsame
    cases (hlocal : some (Ty.table [(_, .table [(_, _)])]) = some (.table [(_, .table [])]))
  · by_cases hfollowed : followed = [Literal.key (.text "a")]
    · obtain ⟨i, τ, hi, htype⟩ := hread hfollowed
      refine ⟨_, i, τ, rfl, hi, old, new, body, hfollowed ▸ hrewrites, htype, ?_⟩
      exact (congrArg (fun s : Scopes => s.local? "o") hscopes).trans rfl
    · exact absurd rfl (hmissing hfollowed _ _)

/-- The session in which `o` is an empty table. -/
def emptyTable : Session := .withLocals [("o", .own (.table []))]

/-- `o.a` cannot be inferred, since `o` has no key `a`; yet an assignment to `o.a.b` gives `o` a key
`b`. -/
theorem setPath_missing_table :
    (∀ i τ, outcome (infer pathOA) emptyTable ≠ (.ok i, τ)) ∧
      ∃ σ', outcome (setPath pathOAB .number) emptyTable = (.ok (), σ') ∧
        σ'.scopes.local? "o" = some (.table [(Literal.key (.text "b"), .number)]) := by
  refine ⟨fun i τ h => ?_, _, rfl, rfl⟩
  have hreport : ∃ l m τ, outcome (infer pathOA) emptyTable = (.error (.report l m), τ) :=
    ⟨_, _, _, rfl⟩
  obtain ⟨l, m, τ', hreport⟩ := hreport
  rw [hreport] at h
  cases h

end Check

end LuaTyping
