import LuaTyping.Proofs.Mirroring
import LuaTyping.Proofs.Regime
import LuaTyping.Proofs.Scopeless

set_option autoImplicit false

/-!
# Sessions under a renaming

What a check does to a session, seen in two runs: one from a session, and one from the same session
with the identifiers renamed. Two computations mirror each other if they come to corresponding
outcomes from such sessions: both report an error, or they stop with the same fault but for the
renaming, or they give corresponding values, and the sessions correspond again. The operations of a
check mirror themselves, those that look names up or bind them under injective renamings only.

## Main definitions

* `Session.Mirrors` — a session is another one renamed.
* `Check.Mirrors` — computations with corresponding outcomes.
* `Check.Respects` — an inference mirrors itself on renamed trees.

## Main results

* `Ty.freshen_renamed` — instances of a renamed type scheme.
* `Check.mirrors_generalize`, `Check.mirrors_bind` and the like — operations of
  a check.
* `Check.assignPath_mirrors`, `Check.narrowTo_mirrors`,
  `Check.narrowFrom_mirrors` — changes of the type at a path.
-/

namespace LuaTyping

variable {ρ : String → String}

/-! ## Renamed sessions -/

/-- The register of a supply has a variable for each of its variables. -/
def Supply.Plain (s : Supply) : Prop := ∀ e ∈ s.shared, ∃ y, e.2 = .var y

/-- The second session is the first one renamed; letters and printed text need not agree. -/
structure Session.Mirrors (ρ : String → String) (σ τ : Session) : Prop where
  supply : τ.supply = σ.supply
  plain : σ.supply.Plain
  scopes : τ.scopes = σ.scopes.renamed ρ
  pending : τ.pending = σ.pending.map ρ

/-- Both runs report an error, or they stop with the same fault but for the renaming. -/
inductive Stop.Mirrors (ρ : String → String) : Stop → Stop → Prop
  | report (l l' : Location) (m m' : String) : Mirrors ρ (.report l m) (.report l' m')
  | fault (f : Fault) : Mirrors ρ (.fault f) (.fault (f.renamed ρ))

/-- What is inferred, renamed. -/
def Inferred.renamed (ρ : String → String) (i : Inferred) : Inferred :=
  ⟨i.subst.renamed ρ, i.type.renamed ρ⟩

/-! ## Instances -/

namespace Ty

/-- What an instance by the shared register comes to on a renamed type. -/
def FreshenRenamed (ρ : String → String) (t : Ty) : Prop :=
  ∀ i : Instances, i.supply.Plain →
    ((t.renamed ρ).freshen false).run i =
      (((t.freshen false).run i).1.renamed ρ, ((t.freshen false).run i).2) ∧
    ((t.freshen false).run i).2.supply.Plain

lemma freshenList_renamed {ts : List Ty} (h : ∀ t ∈ ts, FreshenRenamed ρ t) (i : Instances)
    (hi : i.supply.Plain) :
    (freshenList false (ts.map (renamed ρ))).run i =
      (((freshenList false ts).run i).1.map (renamed ρ), ((freshenList false ts).run i).2) ∧
    ((freshenList false ts).run i).2.supply.Plain := by
  induction ts generalizing i with
  | nil => exact ⟨rfl, hi⟩
  | cons t ts ih =>
    obtain ⟨ht, hi'⟩ := h t (by simp) i hi
    obtain ⟨hts, hi''⟩ := ih (fun u hu => h u (by simp [hu])) _ hi'
    refine ⟨?_, hi''⟩
    simp only [List.map_cons, freshenList, StateT.run_bind, StateT.run_pure, ht]
    simp only [bind, pure, hts]
    rfl

lemma freshenFields_renamed {fields : List (Ty × Ty)}
    (h : ∀ f ∈ fields, FreshenRenamed ρ f.1 ∧ FreshenRenamed ρ f.2) (i : Instances)
    (hi : i.supply.Plain) :
    (freshenFields false (fields.map (renamedField ρ))).run i =
      (((freshenFields false fields).run i).1.map (renamedField ρ),
        ((freshenFields false fields).run i).2) ∧
    ((freshenFields false fields).run i).2.supply.Plain := by
  induction fields generalizing i with
  | nil => exact ⟨rfl, hi⟩
  | cons f fields ih =>
    obtain ⟨k, v⟩ := f
    obtain ⟨hk, hi₁⟩ := (h (k, v) (by simp)).1 i hi
    obtain ⟨hv, hi₂⟩ := (h (k, v) (by simp)).2 _ hi₁
    obtain ⟨hrest, hi₃⟩ := ih (fun g hg => h g (by simp [hg])) _ hi₂
    refine ⟨?_, hi₃⟩
    simp only [List.map_cons, Prod.map, freshenFields, StateT.run_bind, StateT.run_pure, hk]
    simp only [bind, pure, hv]
    simp only [hrest]
    rfl

lemma plain_quantify {i : Instances} (hi : i.supply.Plain) (x : String) :
    (i.quantify false x).supply.Plain := by
  intro e he
  rcases List.mem_cons.1 he with rfl | he
  · exact ⟨_, rfl⟩
  · exact hi e (List.mem_of_mem_filter he)

lemma freshen_renamed (t : Ty) : FreshenRenamed ρ t := by
  induction t with
  | var x =>
    intro i hi
    refine ⟨Prod.ext ?_ rfl, hi⟩
    -- what stands for a variable is a variable, which has no checks
    change (i.supply.shared.lookup x).getD (.var x) =
      ((i.supply.shared.lookup x).getD (.var x)).renamed ρ
    cases hx : i.supply.shared.lookup x with
    | none => rfl
    | some u =>
      obtain ⟨y, rfl⟩ := hi (x, u) (mem_of_lookup hx)
      rfl
  | con c args v checks ih =>
    intro i hi
    obtain ⟨hargs, hi'⟩ := freshenList_renamed ih i hi
    refine ⟨?_, hi'⟩
    simp only [renamed_con, freshen, StateT.run_bind, StateT.run_pure, hargs]
    simp only [bind, pure, renamed_con]
  | table fields ih =>
    intro i hi
    obtain ⟨hfields, hi'⟩ := freshenFields_renamed ih i hi
    refine ⟨?_, hi'⟩
    simp only [renamed_table, freshen, StateT.run_bind, StateT.run_pure, hfields]
    simp only [bind, pure, renamed_table]
  | union left right ihl ihr =>
    intro i hi
    obtain ⟨hl, hi₁⟩ := ihl i hi
    obtain ⟨hr, hi₂⟩ := ihr _ hi₁
    refine ⟨?_, hi₂⟩
    simp only [renamed, freshen, StateT.run_bind, StateT.run_pure, hl]
    simp only [bind, pure, hr]
    rfl
  | all x body ih =>
    intro i hi
    exact ih _ (plain_quantify hi x)

end Ty

/-! ## Operations of a check -/

namespace Check

/-- From a session and the same one renamed, two computations come to corresponding outcomes. -/
abbrev Mirrors {α α' : Type} (ρ : String → String) (R : α → α' → Prop) :
    Check α → Check α' → Prop :=
  Mirror (Session.Mirrors ρ) (Stop.Mirrors ρ) R

variable {α α' : Type} {R : α → α' → Prop}

lemma mirrors_report (l l' : Location) (m m' : String) :
    Mirrors ρ R (report l m : Check α) (report l' m' : Check α') :=
  .throw (.report l l' m m')

lemma mirrors_fault {f g : Fault} (h : g = f.renamed ρ) :
    Mirrors ρ R (fault f : Check α) (fault g : Check α') :=
  .throw (h ▸ .fault f)

lemma mirrors_ofExcept {x : Except Fault α} {y : Except Fault α'}
    (h : Agree (Image (Fault.renamed ρ)) R x y) : Mirrors ρ R (ofExcept x) (ofExcept y) := by
  cases x with
  | ok a =>
    cases y with
    | ok b => exact .pure h
    | error g => exact h.elim
  | error f =>
    cases y with
    | ok b => exact h.elim
    | error g => exact mirrors_fault h

lemma mirrors_naming {x : Naming α} {y : Naming α'} (h : Naming.Mirrors ρ R x y) :
    Mirrors ρ R (naming x) (naming y) := by
  intro σ τ hσ
  have hagree := (h σ.letters τ.letters trivial).1
  rw [outcome_naming, outcome_naming]
  rcases hx : outcome x σ.letters with ⟨f | a, k⟩ <;>
    rcases hy : outcome y τ.letters with ⟨g | b, k'⟩ <;> rw [hx, hy] at hagree
  · exact ⟨hagree ▸ .fault f, hσ.supply, hσ.plain, hσ.scopes, hσ.pending⟩
  · exact hagree.elim
  · exact hagree.elim
  · exact ⟨hagree, hσ.supply, hσ.plain, hσ.scopes, hσ.pending⟩

lemma mirrors_get : Mirrors ρ (Session.Mirrors ρ) (get : Check Session) get :=
  fun _ _ hσ => ⟨hσ, hσ⟩

lemma mirrors_scopes : Mirrors ρ (Image (Scopes.renamed ρ)) scopes scopes :=
  fun _ _ hσ => ⟨hσ.scopes, hσ⟩

/-- A change of the scopes that a renaming commutes with. -/
lemma mirrors_modifyScopes {f g : Scopes → Scopes} (h : ∀ s, g (s.renamed ρ) = (f s).renamed ρ) :
    Mirrors ρ (fun _ _ => True) (modify fun σ => { σ with scopes := f σ.scopes } : Check Unit)
      (modify fun σ => { σ with scopes := g σ.scopes } : Check Unit) := by
  intro σ τ hσ
  refine ⟨trivial, hσ.supply, hσ.plain, ?_, hσ.pending⟩
  exact (congrArg g hσ.scopes).trans (h σ.scopes)

lemma mirrors_fresh : Mirrors ρ (Image (Ty.renamed ρ)) fresh fresh := by
  intro σ τ hσ
  have hsupply : τ.supply.fresh = σ.supply.fresh := congrArg Supply.fresh hσ.supply
  exact ⟨congrArg Prod.fst hsupply, congrArg Prod.snd hsupply, hσ.plain, hσ.scopes, hσ.pending⟩

lemma mirrors_instantiate (t : Ty) :
    Mirrors ρ (Image (Ty.renamed ρ)) (instantiate t) (instantiate (t.renamed ρ)) := by
  intro σ τ hσ
  obtain ⟨hrun, hplain⟩ := t.freshen_renamed (ρ := ρ) ⟨σ.supply, []⟩ hσ.plain
  have hinstance : (t.renamed ρ).instantiate τ.supply =
      ((t.instantiate σ.supply).1.renamed ρ, (t.instantiate σ.supply).2) := by
    rw [hσ.supply, Ty.instantiate, hrun]
    rfl
  exact ⟨congrArg Prod.fst hinstance, congrArg Prod.snd hinstance, hplain, hσ.scopes, hσ.pending⟩

lemma mirrors_compose (s t : Subst) :
    Mirrors ρ (Image (Subst.renamed ρ)) (compose s t) (compose (s.renamed ρ) (t.renamed ρ)) :=
  mirrors_naming (Subst.compose_mirrors ρ s t)

lemma mirrors_apply (s : Subst) (t : Ty) :
    Mirrors ρ (Image (Ty.renamed ρ)) (apply s t) (apply (s.renamed ρ) (t.renamed ρ)) :=
  mirrors_ofExcept (s.apply_agrees t)

lemma mirrors_apply_broaden (s : Subst) (t : Ty) :
    Mirrors ρ (Image (Ty.renamed ρ)) (apply s t.broaden)
      (apply (s.renamed ρ) (t.renamed ρ).broaden) := by
  rw [Ty.broaden_renamed]
  exact mirrors_apply s t.broaden

/-- Substitutions and types after a unification, renamed. -/
inductive Solved (ρ : String → String) : Subst × Unified → Subst × Unified → Prop
  | intro (s : Subst) (o o' : Except String Subst) (l r : Ty) :
      Solved ρ (s, ⟨o, l, r⟩) (s.renamed ρ, ⟨o', l.renamed ρ, r.renamed ρ⟩)

lemma mirrors_unifyAt (l l' : Location) (a b : Ty) :
    Mirrors ρ (Solved ρ) (unifyAt l a b) (unifyAt l' (a.renamed ρ) (b.renamed ρ)) := by
  refine (mirrors_naming (unify_mirrors ρ a b)).bind ?_
  rintro _ _ (⟨m, m', t, u⟩ | ⟨s, t, u⟩)
  · exact mirrors_report l l' m m'
  · exact .pure (.intro s _ _ t u)

lemma mirrors_unifyAt_broaden (l l' : Location) (a b : Ty) :
    Mirrors ρ (Solved ρ) (unifyAt l a b.broaden)
      (unifyAt l' (a.renamed ρ) (b.renamed ρ).broaden) := by
  rw [Ty.broaden_renamed]
  exact mirrors_unifyAt l l' a b.broaden

lemma mirrors_unifyOrNot (a b : Ty) :
    Mirrors ρ (Solved ρ) (unifyOrNot a b) (unifyOrNot (a.renamed ρ) (b.renamed ρ)) := by
  refine (mirrors_naming (unify_mirrors ρ a b)).bind ?_
  rintro _ _ (⟨m, m', t, u⟩ | ⟨s, t, u⟩)
  · exact .pure (.intro .empty _ _ t u)
  · exact .pure (.intro s _ _ t u)

lemma mirrors_unifyOrNot_broaden (a b : Ty) :
    Mirrors ρ (Solved ρ) (unifyOrNot a b.broaden)
      (unifyOrNot (a.renamed ρ) (b.renamed ρ).broaden) := by
  rw [Ty.broaden_renamed]
  exact mirrors_unifyOrNot a b.broaden

lemma mirrors_member {g : α → α'} (as : List α) (k : Nat) :
    Mirrors ρ (Image g) (member as k) (member (as.map g) k) := by
  rw [member, member, List.getElem?_map]
  cases as[k]? with
  | none => exact mirrors_fault rfl
  | some a => exact .pure rfl

lemma mirrors_inScope {x : Check α} {y : Check α'} (h : Mirrors ρ R x y) :
    Mirrors ρ R (inScope x) (inScope y) := by
  intro σ τ hσ
  have hinner : Session.Mirrors ρ { σ with scopes := σ.scopes.push }
      { τ with scopes := τ.scopes.push } :=
    ⟨hσ.supply, hσ.plain, (congrArg Scopes.push hσ.scopes).trans Scopes.push_renamed, hσ.pending⟩
  obtain ⟨hagree, hsupply, hplain, hscopes, hpending⟩ := h _ _ hinner
  rw [outcome_inScope, outcome_inScope]
  exact ⟨hagree, hsupply, hplain, (congrArg Scopes.pop hscopes).trans Scopes.pop_renamed, hpending⟩

section Injective

variable (hρ : Function.Injective ρ)

include hρ

lemma mirrors_generalize (t : Ty) :
    Mirrors ρ (Image (Ty.renamed ρ)) (generalize t) (generalize (t.renamed ρ)) := by
  refine mirrors_get.bind fun σ τ hσ => .pure ?_
  rw [Image, hσ.scopes, Ty.generalize_renamed,
    t.generalize_congr fun x => Scopes.mem_freeVars_renamed hρ]

lemma mirrors_bind (x : String) (t : Ty) :
    Mirrors ρ (fun _ _ => True) (Check.bind x t) (Check.bind (ρ x) (t.renamed ρ)) :=
  mirrors_modifyScopes (f := fun s => s.bind x t) (g := fun s => s.bind (ρ x) (t.renamed ρ))
    fun _ => Scopes.bind_renamed hρ

end Injective

/-! ## Paths -/

/-- An inference mirrors itself on renamed trees. -/
def Respects (ρ : String → String) (infer : Inference) : Prop :=
  ∀ n, Mirrors ρ (Image (Inferred.renamed ρ)) (infer n) (infer (n.renamed ρ))

lemma replaceFields_mirrors (l l' : Location) (key value : Ty) (fields : List (Ty × Ty)) :
    Mirrors ρ (Image (Prod.map (List.map (Ty.renamedField ρ)) (Prod.map id (Ty.renamed ρ))))
      (replaceFields l key value fields)
      (replaceFields l' (key.renamed ρ) (value.renamed ρ)
        (fields.map (Ty.renamedField ρ))) := by
  induction fields generalizing value with
  | nil => exact .pure rfl
  | cons f fields ih =>
    obtain ⟨k, v⟩ := f
    refine (mirrors_naming (Ty.fits_mirrors ρ key k)).bind_eq fun covered => ?_
    refine .ite Iff.rfl ?_ ?_
    · refine (mirrors_unifyAt_broaden l l' value v).bind ?_
      rintro _ _ ⟨s, o, o', left, right⟩
      refine (mirrors_apply_broaden s left).bind_image fun w => ?_
      exact (ih left).bind_image fun r => .pure rfl
    · exact (ih value).bind_image fun r => .pure rfl

lemma assignField_mirrors (l l' : Location) (key value : Ty) (fields : List (Ty × Ty)) :
    Mirrors ρ (Image (List.map (Ty.renamedField ρ))) (assignField l key value fields)
      (assignField l' (key.renamed ρ) (value.renamed ρ)
        (fields.map (Ty.renamedField ρ))) := by
  refine (replaceFields_mirrors l l' key value fields).bind_image fun r => ?_
  refine .ite Iff.rfl (.pure rfl) (.pure ?_)
  rw [Image, List.map_append]
  rfl

lemma changeAt_mirrors {change change' : List (Ty × Ty) → Check (List (Ty × Ty))}
    (hchange : ∀ fields, Mirrors ρ (Image (List.map (Ty.renamedField ρ)))
      (change fields) (change' (fields.map (Ty.renamedField ρ)))) (keys : List Ty) (t : Ty) :
    Mirrors ρ (Image (Ty.renamed ρ)) (changeAt change keys t)
      (changeAt change' (keys.map (Ty.renamed ρ)) (t.renamed ρ)) := by
  induction keys generalizing t with
  | nil =>
    cases t with
    | table fields =>
      rw [Ty.renamed_table]
      exact (hchange fields).bind_image fun changed => .pure (Ty.renamed_table changed).symm
    | var | con | union | all => exact .pure rfl
  | cons key keys ih =>
    cases t with
    | table fields =>
      have hlater := ih (.table fields)
      rw [Ty.renamed_table] at hlater ⊢
      refine (mirrors_naming (splitField_mirrors (Ty.fits_mirrors ρ) key [] fields)).bind_image
        fun found => ?_
      cases found with
      | none => exact hlater
      | some found =>
        obtain ⟨before, ⟨k, v⟩, after⟩ := found
        refine (ih v).bind_image fun changed => .pure ?_
        rw [Image, Ty.renamed_table, List.map_append, List.map_cons]
        rfl
    | var | con | union | all => exact mirrors_fault rfl

section Rules

variable {infer : Inference} (h : Respects ρ infer) (hρ : Function.Injective ρ)

include h hρ

lemma pathOf_mirrors (path : Node) :
    Mirrors ρ (Image (Prod.map ρ (List.map (Ty.renamed ρ)))) (pathOf infer path)
      (pathOf infer (path.renamed ρ)) := by
  induction path using pathOf.induct with
  | case1 l x =>
    refine mirrors_scopes.bind_image fun s => ?_
    simp only [Scopes.local?_renamed hρ]
    cases s.local? x with
    | none => exact mirrors_fault rfl
    | some t =>
      cases t with
      | all y body =>
        cases body with
        | all => exact mirrors_fault rfl
        | var | con | table | union => exact .pure rfl
      | var | con | table | union => exact .pure rfl
  | case2 l object key ih =>
    refine ih.bind_image fun p => ?_
    refine (h key).bind_image fun k => .pure ?_
    rw [Image, Prod.map, List.map_append]
    rfl
  | case3 path hvar hindex =>
    cases path with
    | var l x => exact absurd rfl (hvar l x)
    | index l object key => exact absurd rfl (hindex l object key)
    | _ => exact mirrors_fault rfl

lemma assignPath_mirrors (target : Node) (value : Ty) :
    Mirrors ρ (fun _ _ => True) (assignPath infer target value)
      (assignPath infer (target.renamed ρ) (value.renamed ρ)) := by
  cases target with
  | index l object key =>
    refine (pathOf_mirrors h hρ (.index l object key)).bind_image fun p => ?_
    obtain ⟨x, keys⟩ := p
    refine mirrors_scopes.bind_image fun s => ?_
    simp only [Scopes.local?_renamed hρ, List.getLast?_map]
    cases s.local? x with
    | none => exact mirrors_fault rfl
    | some t =>
      cases keys.getLast? with
      | none => exact mirrors_fault rfl
      | some last =>
        have hupdate : ∀ u : Ty, Mirrors ρ (fun _ _ => True)
            (modify fun σ => { σ with scopes := σ.scopes.update x u } : Check Unit)
            (modify fun σ => { σ with scopes := σ.scopes.update (ρ x) (u.renamed ρ) } :
              Check Unit) :=
          fun u => mirrors_modifyScopes (f := fun s => s.update x u)
            (g := fun s => s.update (ρ x) (u.renamed ρ)) fun _ => Scopes.update_renamed hρ
        have hchange : ∀ u : Ty, Mirrors ρ (Image (Ty.renamed ρ))
            (changeAt (assignField l last value) keys.dropLast u)
            (changeAt (assignField default (last.renamed ρ) (value.renamed ρ))
              (keys.map (Ty.renamed ρ)).dropLast (u.renamed ρ)) := by
          intro u
          rw [← List.map_dropLast]
          exact changeAt_mirrors (assignField_mirrors l default last value) keys.dropLast u
        cases t with
        | all y body =>
          exact (hchange body).bind_image fun changed => hupdate (.all y changed)
        | var | con | table | union => exact (hchange _).bind_image fun changed => hupdate changed
  | _ => exact .pure trivial

lemma restrict_mirrors (place : Node) (t : Ty) :
    Mirrors ρ (fun _ _ => True) (restrict infer place t)
      (restrict infer (place.renamed ρ) (t.renamed ρ)) := by
  have hpath := assignPath_mirrors h hρ place t
  cases place with
  | var l x => exact mirrors_bind hρ x t
  | _ => exact hpath

lemma narrowTo_mirrors (l l' : Location) (checks : List Checked) :
    Mirrors ρ (fun _ _ => True) (narrowTo infer l checks)
      (narrowTo infer l' (checks.map (Ty.renamedCheck ρ))) := by
  induction checks with
  | nil => exact .pure trivial
  | cons check rest ih =>
    obtain ⟨place, t⟩ := check
    refine (h place).bind_image fun now => ?_
    refine (mirrors_naming (Ty.meet_mirrors ρ now.type t)).bind_image fun u? => ?_
    cases u? with
    | none =>
      refine (mirrors_naming (Ty.render_mirrors ρ now.type)).bind fun _ _ _ => ?_
      refine (mirrors_naming (Ty.render_mirrors ρ t)).bind fun _ _ _ => ?_
      exact mirrors_report _ _ _ _
    | some u => exact (restrict_mirrors h hρ place u).bind fun _ _ _ => ih

lemma narrowFrom_mirrors (checks : List Checked) :
    Mirrors ρ (fun _ _ => True) (narrowFrom infer checks)
      (narrowFrom infer (checks.map (Ty.renamedCheck ρ))) := by
  induction checks with
  | nil => exact .pure trivial
  | cons check rest ih =>
    obtain ⟨place, t⟩ := check
    refine (h place).bind_image fun now => ?_
    refine (mirrors_naming (Ty.subtract_mirrors ρ now.type t)).bind_image fun u => ?_
    exact (restrict_mirrors h hρ place u).bind fun _ _ _ => ih

end Rules

end Check

end LuaTyping
