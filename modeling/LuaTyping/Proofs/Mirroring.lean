import LuaTyping.Proofs.Renaming
import LuaTyping.Types.Join

set_option autoImplicit false

/-!
# Operations on renamed types

Two computations mirror each other if from related states they come to related results, or stop for
related reasons, and leave related states behind. For computations that show types no letters need
to agree: the texts differ then, but nothing depends on texts. This file shows that unification,
the text of types, meets, joins and composition mirror themselves on renamed types.

## Main definitions

* `Agree` — related results.
* `Mirror` — computations with related outcomes.
* `Naming.Mirrors` — the same for computations that show types.

## Main results

* `unify_mirrors`, `Ty.render_mirrors` — unification, and the text of types.
* `Ty.fits_mirrors`, `Ty.meet_mirrors`, `Ty.join_mirrors`,
  `Subst.compose_mirrors` — what is built on them.
-/

namespace LuaTyping

/-! ## Related outcomes -/

/-- The second value is the image of the first. -/
abbrev Image {α β : Type} (g : α → β) (a : α) (b : β) : Prop := b = g a

section Mirror

variable {ε ε' σ τ α α' β β' : Type} {S : σ → τ → Prop} {E : ε → ε' → Prop} {R : α → α' → Prop}
  {Q : β → β' → Prop}

/-- Two results are related values, or related reasons why there is none. -/
def Agree (E : ε → ε' → Prop) (R : α → α' → Prop) : Except ε α → Except ε' α' → Prop
  | .ok a, .ok b => R a b
  | .error e, .error e' => E e e'
  | _, _ => False

lemma Agree.bind {x : Except ε α} {y : Except ε' α'} {f : α → Except ε β} {g : α' → Except ε' β'}
    (h : Agree E R x y) (hf : ∀ a b, R a b → Agree E Q (f a) (g b)) :
    Agree E Q (x >>= f) (y >>= g) := by
  cases x with
  | error e =>
    cases y with
    | error e' => exact h
    | ok b => exact h.elim
  | ok a =>
    cases y with
    | error e' => exact h.elim
    | ok b => exact hf a b h

lemma Agree.bind_image {φ : α → α'} {x : Except ε α} {y : Except ε' α'} {f : α → Except ε β}
    {g : α' → Except ε' β'} (h : Agree E (Image φ) x y) (hf : ∀ a, Agree E Q (f a) (g (φ a))) :
    Agree E Q (x >>= f) (y >>= g) :=
  h.bind fun a _ hb => hb ▸ hf a

/-- From related states, two computations come to related results and leave related states
behind. -/
def Mirror (S : σ → τ → Prop) (E : ε → ε' → Prop) (R : α → α' → Prop)
    (x : ExceptT ε (StateM σ) α) (y : ExceptT ε' (StateM τ) α') : Prop :=
  ∀ s t, S s t → Agree E R (outcome x s).1 (outcome y t).1 ∧ S (outcome x s).2 (outcome y t).2

namespace Mirror

variable {x : ExceptT ε (StateM σ) α} {y : ExceptT ε' (StateM τ) α'}

lemma pure {a : α} {b : α'} (h : R a b) :
    Mirror S E R (pure a : ExceptT ε (StateM σ) α) (pure b : ExceptT ε' (StateM τ) α') :=
  fun _ _ hst => ⟨h, hst⟩

lemma throw {e : ε} {e' : ε'} (h : E e e') :
    Mirror S E R (throw e : ExceptT ε (StateM σ) α) (throw e' : ExceptT ε' (StateM τ) α') :=
  fun _ _ hst => ⟨h, hst⟩

lemma bind {f : α → ExceptT ε (StateM σ) β} {g : α' → ExceptT ε' (StateM τ) β'}
    (h : Mirror S E R x y) (hf : ∀ a b, R a b → Mirror S E Q (f a) (g b)) :
    Mirror S E Q (x >>= f) (y >>= g) := by
  intro s t hst
  obtain ⟨hagree, hstates⟩ := h s t hst
  rw [outcome_bind, outcome_bind]
  rcases hx : outcome x s with ⟨e | a, s'⟩ <;> rcases hy : outcome y t with ⟨e' | b, t'⟩ <;>
    rw [hx, hy] at hagree hstates
  · exact ⟨hagree, hstates⟩
  · exact hagree.elim
  · exact hagree.elim
  · exact hf a b hagree s' t' hstates

lemma bind_image {φ : α → α'} {f : α → ExceptT ε (StateM σ) β} {g : α' → ExceptT ε' (StateM τ) β'}
    (h : Mirror S E (Image φ) x y) (hf : ∀ a, Mirror S E Q (f a) (g (φ a))) :
    Mirror S E Q (x >>= f) (y >>= g) :=
  h.bind fun a _ hb => hb ▸ hf a

lemma bind_eq {z : ExceptT ε' (StateM τ) α} {f : α → ExceptT ε (StateM σ) β}
    {g : α → ExceptT ε' (StateM τ) β'} (h : Mirror S E Eq x z)
    (hf : ∀ a, Mirror S E Q (f a) (g a)) : Mirror S E Q (x >>= f) (z >>= g) :=
  h.bind fun a _ hb => hb ▸ hf a

lemma imp {R' : α → α' → Prop} (h : Mirror S E R x y) (hR : ∀ a b, R a b → R' a b) :
    Mirror S E R' x y := by
  have hbind := h.bind (f := Pure.pure) (g := Pure.pure) fun a b hab => .pure (hR a b hab)
  rwa [bind_pure, bind_pure] at hbind

lemma ite {c c' : Prop} [Decidable c] [Decidable c'] {x' : ExceptT ε (StateM σ) α}
    {y' : ExceptT ε' (StateM τ) α'} (hc : c ↔ c') (h : Mirror S E R x y) (h' : Mirror S E R x' y') :
    Mirror S E R (if c then x else x') (if c' then y else y') := by
  by_cases hyes : c
  · rw [if_pos hyes, if_pos (hc.1 hyes)]
    exact h
  · rw [if_neg hyes, if_neg (mt hc.2 hyes)]
    exact h'

/-- A test of the members of a list one after the other. -/
lemma anyM {p : α → ExceptT ε (StateM σ) Bool} {q : α' → ExceptT ε' (StateM τ) Bool} {g : α → α'}
    {l : List α} (h : ∀ a ∈ l, Mirror S E Eq (p a) (q (g a))) :
    Mirror S E Eq (l.anyM p) ((l.map g).anyM q) := by
  induction l with
  | nil => exact .pure rfl
  | cons a l ih =>
    rw [List.map_cons, List.anyM, List.anyM]
    refine (h a (by simp)).bind_eq fun b => ?_
    cases b with
    | true => exact .pure rfl
    | false => exact ih fun c hc => h c (by simp [hc])

end Mirror

end Mirror

/-- Computations that show types come to related results, whatever letters have been given, or to
the same fault but for the renaming. -/
abbrev Naming.Mirrors {α α' : Type} (ρ : String → String) (R : α → α' → Prop) :
    Naming α → Naming α' → Prop :=
  Mirror (fun _ _ => True) (Image (Fault.renamed ρ)) R

variable {ρ : String → String}

open Naming (Mirrors)

lemma Naming.Mirrors.ofExcept {α α' : Type} {R : α → α' → Prop} {x : Except Fault α}
    {y : Except Fault α'} (h : Agree (Image (Fault.renamed ρ)) R x y) :
    Naming.Mirrors ρ R (Naming.ofExcept x) (Naming.ofExcept y) :=
  fun _ _ _ => ⟨h, trivial⟩

/-! ## Application -/

namespace Ty

variable {f g : String → Except Fault Ty}

lemma replaceVarsList_agrees {ts : List Ty}
    (h : ∀ t ∈ ts, Agree (Image (Fault.renamed ρ)) (Image (renamed ρ)) (t.replaceVars f)
      ((t.renamed ρ).replaceVars g)) :
    Agree (Image (Fault.renamed ρ)) (Image (List.map (renamed ρ))) (replaceVarsList f ts)
      (replaceVarsList g (ts.map (renamed ρ))) := by
  induction ts with
  | nil => rfl
  | cons t ts ih =>
    refine (h t (by simp)).bind_image fun u => ?_
    refine (ih fun t ht => h t (by simp [ht])).bind_image fun us => ?_
    rfl

lemma replaceVarsFields_agrees {fields : List (Ty × Ty)}
    (h : ∀ e ∈ fields, Agree (Image (Fault.renamed ρ)) (Image (renamed ρ)) (e.2.replaceVars f)
      ((e.2.renamed ρ).replaceVars g)) :
    Agree (Image (Fault.renamed ρ)) (Image (List.map (renamedField ρ))) (replaceVarsFields f fields)
      (replaceVarsFields g (fields.map (renamedField ρ))) := by
  induction fields with
  | nil => rfl
  | cons e fields ih =>
    refine (h e (by simp)).bind_image fun u => ?_
    refine (ih fun e he => h e (by simp [he])).bind_image fun us => ?_
    rfl

lemma replaceVars_agrees
    (h : ∀ x, Agree (Image (Fault.renamed ρ)) (Image (renamed ρ)) (f x) (g x)) (t : Ty) :
    Agree (Image (Fault.renamed ρ)) (Image (renamed ρ)) (t.replaceVars f)
      ((t.renamed ρ).replaceVars g) := by
  induction t with
  | var x => exact h x
  | con c args v checks ih =>
    rw [renamed_con]
    refine (replaceVarsList_agrees ih).bind_image fun us => ?_
    exact (renamed_con c us v checks).symm
  | table fields ih =>
    rw [renamed_table]
    refine (replaceVarsFields_agrees fun e he => (ih e he).2).bind_image fun us => ?_
    exact (renamed_table us).symm
  | union left right ihl ihr =>
    refine ihl.bind_image fun u => ?_
    refine ihr.bind_image fun w => ?_
    rfl
  | all x body => rfl

end Ty

namespace Subst

lemma lookup_renamed (bindings : List (String × Ty)) (x : String) :
    (bindings.map (Prod.map id (Ty.renamed ρ))).lookup x =
      (bindings.lookup x).map (Ty.renamed ρ) :=
  lookup_map_renamed (ρ := id) Function.injective_id

lemma enter_renamed (bindings : List (String × Ty)) (x : String) (t : Ty) :
    enter x (t.renamed ρ) (bindings.map (Prod.map id (Ty.renamed ρ))) =
      (enter x t bindings).map (Prod.map id (Ty.renamed ρ)) := by
  induction bindings with
  | nil => rfl
  | cons p bindings ih =>
    by_cases hp : p.1 = x
    · simp [enter, hp]
    · simp only [List.map_cons, Prod.map, enter, id_eq, beq_iff_eq, hp, if_false, ih]

lemma follow_agrees (bindings : List (String × Ty)) (origin : Ty) (depth : Nat) (t : Ty) :
    Agree (Image (Fault.renamed ρ)) (Image (Ty.renamed ρ)) (follow bindings origin depth t)
      (follow (bindings.map (Prod.map id (Ty.renamed ρ))) (origin.renamed ρ) depth
        (t.renamed ρ)) := by
  induction depth generalizing t with
  | zero =>
    refine Ty.replaceVars_agrees (fun x => ?_) t
    rw [lookup_renamed]
    cases bindings.lookup x with
    | none => rfl
    | some u => rfl
  | succ depth ih =>
    refine Ty.replaceVars_agrees (fun x => ?_) t
    rw [lookup_renamed]
    cases bindings.lookup x with
    | none => rfl
    | some u => exact ih u

lemma apply_agrees (s : Subst) (t : Ty) :
    Agree (Image (Fault.renamed ρ)) (Image (Ty.renamed ρ)) (s.apply t)
      ((s.renamed ρ).apply (t.renamed ρ)) := by
  have h := follow_agrees (ρ := ρ) s.bindings t s.bindings.length t
  simpa only [apply, renamed, List.length_map] using h

end Subst

namespace Ty

lemma flatten_of_ne {c : String} (hc : c ≠ "tuple") (args : List Ty) (v : Option Literal)
    (checks : List Checked) : (con c args v checks).flatten = .ok (con c args v checks) := by
  cases args <;> simp [flatten, hc]

lemma flatten_agrees (t : Ty) :
    Agree (Image (Fault.renamed ρ)) (Image (renamed ρ)) t.flatten (t.renamed ρ).flatten := by
  induction t with
  | con c args v checks ih =>
    by_cases hc : c = "tuple"
    · subst hc
      cases args with
      | nil => rfl
      | cons first rest => exact ih first (by simp)
    · rw [renamed_con, flatten_of_ne hc, flatten_of_ne hc]
      exact (renamed_con c args v checks).symm
  | var | table | union | all => rfl

end Ty

/-! ## Meets and composition -/

/-- A test on types gives the same answer on renamed types. -/
def Covers.Respects (ρ : String → String) (covers : Covers) : Prop :=
  ∀ a b, Naming.Mirrors ρ Eq (covers a b) (covers (a.renamed ρ) (b.renamed ρ))

lemma meetLists_mirrors {meet : Ty → Ty → Naming (Option Ty)}
    (h : ∀ a b, Mirrors ρ (Image (Option.map (Ty.renamed ρ))) (meet a b)
      (meet (a.renamed ρ) (b.renamed ρ))) (as bs : List Ty) :
    Mirrors ρ (Image (Option.map (List.map (Ty.renamed ρ)))) (meetLists meet as bs)
      (meetLists meet (as.map (Ty.renamed ρ)) (bs.map (Ty.renamed ρ))) := by
  induction as generalizing bs with
  | nil => exact .pure rfl
  | cons a as ih =>
    cases bs with
    | nil => exact .pure rfl
    | cons b bs =>
      refine (h a b).bind_image fun c => ?_
      cases c with
      | none => exact .pure rfl
      | some c =>
        refine (ih bs).bind_image fun cs => ?_
        cases cs with
        | none => exact .pure rfl
        | some cs => exact .pure rfl

section Meet

variable {covers : Covers} (hc : covers.Respects ρ)

include hc

lemma separateFields_mirrors (kept fields : List (Ty × Ty)) :
    Mirrors ρ (Image (List.map (Ty.renamedField ρ))) (separateFields covers kept fields)
      (separateFields covers (kept.map (Ty.renamedField ρ)) (fields.map (Ty.renamedField ρ))) := by
  induction fields generalizing kept with
  | nil => exact .pure rfl
  | cons f fields ih =>
    refine (Mirror.anyM fun l _ => hc f.1 l.1).bind_eq fun found => ?_
    refine .ite Iff.rfl (ih kept) ?_
    have hkept := ih (kept ++ [f])
    rwa [List.map_append] at hkept

lemma meetTo_mirrors (depth : Nat) (a b : Ty) :
    Mirrors ρ (Image (Option.map (Ty.renamed ρ))) (Ty.meetTo covers depth a b)
      (Ty.meetTo covers depth (a.renamed ρ) (b.renamed ρ)) := by
  induction depth generalizing a b with
  | zero => exact .throw rfl
  | succ depth ih =>
    -- of a union, the first alternative that has a meet
    have hunion : ∀ c left right, Mirrors ρ (Image (Option.map (Ty.renamed ρ)))
        (Ty.meetEither covers depth c left right)
        (Ty.meetEither covers depth (c.renamed ρ) (left.renamed ρ) (right.renamed ρ)) := by
      intro c left right
      refine (ih c left).bind_image fun u => ?_
      cases u with
      | some t => exact .pure rfl
      | none => exact ih c right
    cases b with
    | var y => cases a <;> exact .pure rfl
    | union left right =>
      cases a with
      | var x => exact .pure rfl
      | con | table | union | all => exact hunion _ left right
    | con d bs w more =>
      cases a with
      | var x => exact .pure rfl
      | union left right => exact hunion _ left right
      | table | all => exact .pure rfl
      | con c as v checks =>
        rw [Ty.renamed_con, Ty.renamed_con]
        refine .ite Iff.rfl ?_ (.pure rfl)
        refine (meetLists_mirrors ih as bs).bind_image fun args => ?_
        cases args with
        | none => exact .pure rfl
        | some args =>
          refine .pure ?_
          simp only [Image, Option.map_some, Ty.renamed_con, List.map_append]
    | table more =>
      cases a with
      | var x => exact .pure rfl
      | union left right => exact hunion _ left right
      | con | all => exact .pure rfl
      | table fields =>
        have hfields := separateFields_mirrors hc [] (fields ++ more)
        rw [List.map_append] at hfields
        rw [Ty.renamed_table, Ty.renamed_table]
        refine hfields.bind_image fun kept => ?_
        refine .pure ?_
        simp only [Image, Option.map_some, Ty.renamed_table]
    | all y body =>
      cases a with
      | var x => exact .pure rfl
      | union left right => exact hunion _ left right
      | con | table | all => exact .pure rfl

lemma meetWith_mirrors (a b : Ty) :
    Mirrors ρ (Image (Option.map (Ty.renamed ρ))) (Ty.meetWith covers a b)
      (Ty.meetWith covers (a.renamed ρ) (b.renamed ρ)) := by
  rw [Ty.meetWith, Ty.meetWith, Ty.size_renamed, Ty.size_renamed]
  exact meetTo_mirrors hc _ a b

lemma composeBindings_mirrors (s : Subst) (known bindings : List (String × Ty)) :
    Mirrors ρ (Image (List.map (Prod.map id (Ty.renamed ρ))))
      (Subst.composeBindings covers s known bindings)
      (Subst.composeBindings covers (s.renamed ρ) (known.map (Prod.map id (Ty.renamed ρ)))
        (bindings.map (Prod.map id (Ty.renamed ρ)))) := by
  induction bindings generalizing known with
  | nil => exact .pure rfl
  | cons p bindings ih =>
    obtain ⟨x, t⟩ := p
    have henter : ∀ u : Ty, Mirrors ρ (Image (List.map (Prod.map id (Ty.renamed ρ))))
        (Subst.composeBindings covers s (Subst.enter x u known) bindings)
        (Subst.composeBindings covers (s.renamed ρ)
          (Subst.enter x (u.renamed ρ) (known.map (Prod.map id (Ty.renamed ρ))))
          (bindings.map (Prod.map id (Ty.renamed ρ)))) := by
      intro u
      rw [Subst.enter_renamed]
      exact ih _
    simp only [List.map_cons, Prod.map, id_eq, Subst.composeBindings, Subst.lookup_renamed]
    cases known.lookup x with
    | none =>
      refine (Naming.Mirrors.ofExcept (s.apply_agrees t)).bind_image fun u => ?_
      exact henter u
    | some u =>
      refine (meetWith_mirrors hc t u).bind_image fun m => ?_
      cases m with
      | none => exact .throw rfl
      | some m => exact henter m

lemma composeWith_mirrors (s t : Subst) :
    Mirrors ρ (Image (Subst.renamed ρ)) (s.composeWith covers t)
      ((s.renamed ρ).composeWith covers (t.renamed ρ)) := by
  refine (composeBindings_mirrors hc s s.bindings t.bindings).bind_image fun bindings => ?_
  exact .pure rfl

end Meet

/-! ## Unification -/

/-- Outcomes of unifications that succeed or fail alike, on renamed types. -/
inductive Unified.Mirrors (ρ : String → String) : Unified → Unified → Prop
  | fails (m m' : String) (l r : Ty) :
      Mirrors ρ ⟨.error m, l, r⟩ ⟨.error m', l.renamed ρ, r.renamed ρ⟩
  | succeeds (s : Subst) (l r : Ty) :
      Mirrors ρ ⟨.ok s, l, r⟩ ⟨.ok (s.renamed ρ), l.renamed ρ, r.renamed ρ⟩

lemma Unified.Mirrors.of_eq {o o' : Except String Subst} {l r l' r' : Ty}
    (h : Mirrors ρ ⟨o, l, r⟩ ⟨o', l.renamed ρ, r.renamed ρ⟩) (hl : l.renamed ρ = l')
    (hr : r.renamed ρ = r') : Mirrors ρ ⟨o, l, r⟩ ⟨o', l', r'⟩ :=
  hl ▸ hr ▸ h

lemma Unified.Mirrors.succeeds_eq {u u' : Unified} (h : u.Mirrors ρ u') :
    u.succeeds = u'.succeeds := by
  cases h <;> rfl

/-- A test of renamed types. -/
def Tested.renamed (ρ : String → String) (t : Tested) : Tested :=
  ⟨t.holds, t.left.renamed ρ, t.right.renamed ρ⟩

/-- The same for lists of types. -/
inductive UnifiedLists.Mirrors (ρ : String → String) : UnifiedLists → UnifiedLists → Prop
  | fails (m m' : String) (l r : List Ty) :
      Mirrors ρ ⟨.error m, l, r⟩ ⟨.error m', l.map (Ty.renamed ρ), r.map (Ty.renamed ρ)⟩
  | succeeds (s : Subst) (l r : List Ty) :
      Mirrors ρ ⟨.ok s, l, r⟩ ⟨.ok (s.renamed ρ), l.map (Ty.renamed ρ), r.map (Ty.renamed ρ)⟩

/-- The same for fields. -/
inductive UnifiedFields.Mirrors (ρ : String → String) : UnifiedFields → UnifiedFields → Prop
  | fails (m m' : String) (l r : List (Ty × Ty)) :
      Mirrors ρ ⟨.error m, l, r⟩ ⟨.error m', l.map (Prod.map (Ty.renamed ρ) (Ty.renamed ρ)),
        r.map (Prod.map (Ty.renamed ρ) (Ty.renamed ρ))⟩
  | succeeds (s : Subst) (l r : List (Ty × Ty)) :
      Mirrors ρ ⟨.ok s, l, r⟩ ⟨.ok (s.renamed ρ), l.map (Prod.map (Ty.renamed ρ) (Ty.renamed ρ)),
        r.map (Prod.map (Ty.renamed ρ) (Ty.renamed ρ))⟩

/-- A unification mirrors itself on renamed types. -/
def Unifier.Respects (ρ : String → String) (unify : Unifier) : Prop :=
  ∀ a b, Naming.Mirrors ρ (Unified.Mirrors ρ) (unify a b) (unify (a.renamed ρ) (b.renamed ρ))

lemma Unifier.Respects.swap {unify : Unifier} (hu : unify.Respects ρ) :
    Unifier.Respects ρ fun a b => do return (← unify b a).swap := by
  intro a b
  refine (hu b a).bind ?_
  rintro _ _ (⟨m, m', l, r⟩ | ⟨s, l, r⟩)
  · exact .pure (.fails m m' r l)
  · exact .pure (.succeeds s r l)

/-- The text of a renamed type can be found if that of the type can. -/
def Renderer.Respects (ρ : String → String) (render : Renderer) : Prop :=
  ∀ t, Naming.Mirrors ρ (fun _ _ => True) (render t) (render (t.renamed ρ))

lemma unifyLists_mirrors {unify : Unifier} {combine : Subst → Subst → Naming Subst}
    (hu : unify.Respects ρ) (hcombine : ∀ found s, Mirrors ρ (Image (Subst.renamed ρ))
      (combine found s) (combine (found.renamed ρ) (s.renamed ρ))) (s : Subst) (as bs : List Ty) :
    Mirrors ρ (UnifiedLists.Mirrors ρ) (unifyLists unify combine s as bs)
      (unifyLists unify combine (s.renamed ρ) (as.map (Ty.renamed ρ)) (bs.map (Ty.renamed ρ))) := by
  induction as generalizing bs s with
  | nil => exact .pure (.succeeds s [] bs)
  | cons a as ih =>
    cases bs with
    | nil => exact .pure (.succeeds s (a :: as) [])
    | cons b bs =>
      refine (hu a b).bind ?_
      rintro _ _ (⟨m, m', l, r⟩ | ⟨found, l, r⟩)
      · exact .pure (.fails m m' (l :: as) (r :: bs))
      · refine (hcombine found s).bind_image fun t => ?_
        refine (ih t bs).bind ?_
        rintro _ _ (⟨m, m', ls, rs⟩ | ⟨t, ls, rs⟩)
        · exact .pure (.fails m m' (l :: ls) (r :: rs))
        · exact .pure (.succeeds t (l :: ls) (r :: rs))

/-- A field that is found, with those before and after it, renamed. -/
def renamedSplit (ρ : String → String)
    (found : Option (List (Ty × Ty) × (Ty × Ty) × List (Ty × Ty))) :
    Option (List (Ty × Ty) × (Ty × Ty) × List (Ty × Ty)) :=
  found.map (Prod.map (List.map (Prod.map (Ty.renamed ρ) (Ty.renamed ρ)))
    (Prod.map (Prod.map (Ty.renamed ρ) (Ty.renamed ρ))
      (List.map (Prod.map (Ty.renamed ρ) (Ty.renamed ρ)))))

lemma splitField_mirrors {covers : Covers} (hc : covers.Respects ρ) (k : Ty)
    (before fields : List (Ty × Ty)) :
    Mirrors ρ (Image (renamedSplit ρ)) (splitField covers k before fields)
      (splitField covers (k.renamed ρ) (before.map (Ty.renamedField ρ))
        (fields.map (Ty.renamedField ρ))) := by
  induction fields generalizing before with
  | nil => exact .pure rfl
  | cons f fields ih =>
    refine (hc k f.1).bind_eq fun found => ?_
    refine .ite Iff.rfl (.pure rfl) ?_
    have hlater := ih (before ++ [f])
    rwa [List.map_append] at hlater

section Unify

variable {unify : Unifier} {render : Renderer} (hu : unify.Respects ρ) (hr : render.Respects ρ)

include hu in
lemma testBy_mirrors (a b : Ty) : Mirrors ρ (Image (Tested.renamed ρ)) (testBy unify a b)
    (testBy unify (a.renamed ρ) (b.renamed ρ)) := by
  have hunify : ∀ a b : Ty, Mirrors ρ (Image (Tested.renamed ρ))
      (do let u ← unify a b; return ⟨u.succeeds, u.left, u.right⟩)
      (do let u ← unify (a.renamed ρ) (b.renamed ρ); return ⟨u.succeeds, u.left, u.right⟩) := by
    intro a b
    refine (hu a b).bind ?_
    rintro _ _ (⟨m, m', l, r⟩ | ⟨s, l, r⟩)
    · exact .pure rfl
    · exact .pure rfl
  cases a with
  | var x => cases b <;> exact .pure rfl
  | con | table | union | all =>
    cases b with
    | var y => exact .pure rfl
    | con | table | union | all => exact hunify _ _

include hu in
lemma fitsBy_respects : Covers.Respects ρ (fitsBy unify) := by
  intro a b
  rw [fitsBy_eq, fitsBy_eq]
  exact (testBy_mirrors hu a b).bind_image fun t => .pure rfl

include hu in
lemma seekField_mirrors (k : Ty) (passed fields : List (Ty × Ty)) :
    Mirrors ρ (Image (Prod.map (Ty.renamed ρ)
        (Prod.map (List.map (Ty.renamedField ρ)) (List.map (Ty.renamedField ρ)))))
      (seekField unify k passed fields) (seekField unify (k.renamed ρ)
        (passed.map (Ty.renamedField ρ)) (fields.map (Ty.renamedField ρ))) := by
  induction fields generalizing k passed with
  | nil => exact .pure rfl
  | cons f fields ih =>
    refine (testBy_mirrors hu k f.1).bind_image fun t => .ite Iff.rfl (.pure rfl) ?_
    have hlater := ih t.left (passed ++ [(t.right, f.2)])
    rwa [List.map_append] at hlater

include hu hr in
lemma unifyFields_mirrors (s : Subst) (given wanted : List (Ty × Ty)) :
    Mirrors ρ (UnifiedFields.Mirrors ρ) (unifyFields unify render s given wanted)
      (unifyFields unify render (s.renamed ρ)
        (given.map (Ty.renamedField ρ)) (wanted.map (Ty.renamedField ρ))) := by
  induction wanted generalizing given s with
  | nil => exact .pure (.succeeds s [] given)
  | cons f rest ih =>
    obtain ⟨k, v⟩ := f
    refine (seekField_mirrors hu k [] given).bind_image fun found => ?_
    obtain ⟨k, before, after⟩ := found
    cases after with
    | nil =>
      refine (hr k).bind fun key key' _ => ?_
      have htable := hr (.table before)
      rw [Ty.renamed_table] at htable
      refine htable.bind fun table table' _ => ?_
      exact .pure (.fails _ _ ((k, v) :: rest) before)
    | cons found after =>
      obtain ⟨l, w⟩ := found
      refine (hu w v).bind ?_
      rintro _ _ (⟨m, m', a, b⟩ | ⟨found, a, b⟩)
      · have hfails := UnifiedFields.Mirrors.fails (ρ := ρ) m m' ((k, b) :: rest)
          (before ++ (l, a) :: after)
        rw [List.map_append] at hfails
        exact .pure hfails
      · refine (composeWith_mirrors (fitsBy_respects hu) found s).bind_image fun t => ?_
        have hlater := ih t (before ++ (l, a) :: after)
        rw [List.map_append] at hlater
        refine hlater.bind ?_
        rintro _ _ (⟨m, m', ls, rs⟩ | ⟨t, ls, rs⟩)
        · exact .pure (.fails m m' ((k, b) :: ls) rs)
        · exact .pure (.succeeds t ((k, b) :: ls) rs)

lemma wrapLeft_renamed (t : Ty) : wrapLeft (t.renamed ρ) = (wrapLeft t).renamed ρ := by
  cases t with
  | var x => rfl
  | con c args v checks =>
    by_cases hc : c = "tuple"
    · simp [wrapLeft, Ty.isNamed, hc]
    · simp [wrapLeft, Ty.isNamed, Ty.tuple, hc]
  | table | union | all => rfl

lemma wrapRight_renamed (other t : Ty) :
    wrapRight (other.renamed ρ) (t.renamed ρ) = (wrapRight other t).renamed ρ := by
  cases t with
  | var x =>
    cases other with
    | var y => rfl
    | con | table | union | all =>
      simp only [Ty.renamed, wrapRight]
      split
      · rfl
      · rfl
  | con c args v checks =>
    cases other with
    | var y => rfl
    | con | table | union | all =>
      simp only [Ty.renamed, wrapRight]
      split
      · rfl
      · rfl
  | table | union | all => rfl

include hu in
lemma unifyFunctions_mirrors (v w : Option Literal) (checks more : List Checked) (as bs : List Ty) :
    Mirrors ρ (Unified.Mirrors ρ) (unifyFunctions unify v w checks more as bs)
      (unifyFunctions unify v w (checks.map (Ty.renamedCheck ρ))
        (more.map (Ty.renamedCheck ρ)) (as.map (Ty.renamed ρ)) (bs.map (Ty.renamed ρ))) := by
  have hcompose := composeWith_mirrors (fitsBy_respects hu)
  cases as with
  | nil => exact .throw rfl
  | cons a as =>
    cases bs with
    | nil => cases a <;> exact .throw rfl
    | cons b bs =>
      cases a with
      | con c ps pv pchecks =>
        cases b with
        | con d qs qv qchecks =>
          simp only [List.map_cons, Ty.renamed_con]
          refine (unifyLists_mirrors hu.swap hcompose .empty ps qs).bind ?_
          rintro _ _ (⟨m, m', ls, rs⟩ | ⟨s, ls, rs⟩)
          · exact .pure (.of_eq (.fails m m' _ _) (by simp) (by simp))
          · cases as with
            | nil => exact .throw rfl
            | cons r as =>
              cases bs with
              | nil => exact .throw rfl
              | cons r' bs =>
                simp only [List.map_cons, wrapLeft_renamed, wrapRight_renamed]
                refine (hu (wrapLeft r) (wrapRight (wrapLeft r) r')).bind ?_
                rintro _ _ (⟨m, m', l, q⟩ | ⟨found, l, q⟩)
                · exact .pure (.of_eq (.fails m m' _ _) (by simp) (by simp))
                · refine (hcompose found s).bind_image fun t => ?_
                  exact .pure (.of_eq (.succeeds t _ _) (by simp) (by simp))
        | var | table | union | all => exact .throw rfl
      | var | table | union | all => exact .throw rfl

include hr in
lemma showFailure_mirrors (message : String → String → String) (a b : Ty) :
    Mirrors ρ (Unified.Mirrors ρ) (showFailure render message a b)
      (showFailure render message (a.renamed ρ) (b.renamed ρ)) := by
  refine (hr a).bind fun left left' _ => ?_
  refine (hr b).bind fun right right' _ => ?_
  exact .pure (.fails _ _ a b)

include hu hr in
lemma unifyConstructors_mirrors (c : String) (as : List Ty) (v : Option Literal)
    (checks : List Checked) (d : String) (bs : List Ty) (w : Option Literal) (more : List Checked) :
    Mirrors ρ (Unified.Mirrors ρ) (unifyConstructors unify render c as v checks d bs w more)
      (unifyConstructors unify render c (as.map (Ty.renamed ρ)) v
        (checks.map (Ty.renamedCheck ρ)) d (bs.map (Ty.renamed ρ)) w
        (more.map (Ty.renamedCheck ρ))) := by
  have hfails := fun message =>
    showFailure_mirrors hr message (.con c as v checks) (.con d bs w more)
  simp only [Ty.renamed_con] at hfails
  simp only [unifyConstructors, List.length_map]
  refine .ite Iff.rfl ?_ (.ite Iff.rfl (hfails _) (.ite Iff.rfl (hfails _) (.ite Iff.rfl ?_ ?_)))
  · exact .pure (.of_eq (.fails _ _ _ _) (Ty.renamed_con _ _ _ _) (Ty.renamed_con _ _ _ _))
  · exact unifyFunctions_mirrors hu v w checks more as bs
  · have hlists : Mirrors ρ (UnifiedLists.Mirrors ρ)
        (unifyLists unify (fun found _ => found.composeWith (fitsBy unify) found) .empty as bs)
        (unifyLists unify (fun found _ => found.composeWith (fitsBy unify) found) .empty
          (as.map (Ty.renamed ρ)) (bs.map (Ty.renamed ρ))) :=
      unifyLists_mirrors hu (fun found _ => composeWith_mirrors (fitsBy_respects hu) found found)
        .empty as bs
    split
    · exact .throw rfl
    · exact hfails _
    · refine hlists.bind ?_
      rintro _ _ (⟨m, m', ls, rs⟩ | ⟨s, ls, rs⟩)
      · exact .pure (.of_eq (.fails m m' _ _) (Ty.renamed_con _ _ _ _) (Ty.renamed_con _ _ _ _))
      · exact .pure (.of_eq (.succeeds s _ _) (Ty.renamed_con _ _ _ _) (Ty.renamed_con _ _ _ _))

include hu in
lemma unifyUnion_mirrors (left right b : Ty) :
    Mirrors ρ (Unified.Mirrors ρ) (unifyUnion unify left right b)
      (unifyUnion unify (left.renamed ρ) (right.renamed ρ) (b.renamed ρ)) := by
  refine (hu left b).bind ?_
  rintro _ _ (⟨m, m', l, r⟩ | ⟨s, l, r⟩)
  · exact .pure (.fails m m' (.union l right) r)
  · refine (hu right r).bind ?_
    rintro _ _ (⟨m, m', l', r'⟩ | ⟨t, l', r'⟩)
    · exact .pure (.fails m m' (.union l l') r')
    · refine (composeWith_mirrors (fitsBy_respects hu) s t).bind_image fun both => ?_
      exact .pure (.succeeds both (.union l l') r')

include hu in
lemma unifyAlternatives_mirrors (a left right : Ty) :
    Mirrors ρ (Unified.Mirrors ρ) (unifyAlternatives unify a left right)
      (unifyAlternatives unify (a.renamed ρ) (left.renamed ρ) (right.renamed ρ)) := by
  refine (hu a left).bind ?_
  rintro _ _ (⟨m, m', l, r⟩ | ⟨s, l, r⟩)
  · refine (hu l right).bind ?_
    rintro _ _ (⟨m₁, m₁', l', r'⟩ | ⟨t, l', r'⟩)
    · exact .pure (.fails m m' l' (.union r r'))
    · exact .pure (.succeeds t l' (.union r r'))
  · refine (hu l right).bind ?_
    rintro _ _ (⟨m₁, m₁', l', r'⟩ | ⟨t, l', r'⟩)
    · exact .pure (.succeeds s l' (.union r r'))
    · refine (composeWith_mirrors (fitsBy_respects hu) t s).bind_image fun both => ?_
      exact .pure (.succeeds both l' (.union r r'))

include hu hr in
/-- One step of unification mirrors itself, if unifying and showing the parts does. -/
lemma unifyStep_respects : Unifier.Respects ρ (unifyStep unify render) := by
  intro a b
  cases a with
  | var x =>
    cases b with
    | var y =>
      exact .ite Iff.rfl (.pure (.succeeds .empty (.var x) (.var y)))
        (.pure (.succeeds (.single y (.var x)) (.var x) (.var y)))
    | con | table | union | all => exact .pure (.succeeds (.single x _) (.var x) _)
  | union left right =>
    cases b with
    | var y => exact .pure (.succeeds (.single y _) _ (.var y))
    | con | table | union | all => exact unifyUnion_mirrors hu left right _
  | con c as v checks =>
    cases b with
    | var y => exact .pure (.succeeds (.single y _) _ (.var y))
    | union left right => exact unifyAlternatives_mirrors hu _ left right
    | con d bs w more =>
      rw [Ty.renamed_con, Ty.renamed_con]
      exact unifyConstructors_mirrors hu hr c as v checks d bs w more
    | table | all => exact showFailure_mirrors hr _ _ _
  | table fields =>
    cases b with
    | var y => exact .pure (.succeeds (.single y _) _ (.var y))
    | union left right => exact unifyAlternatives_mirrors hu _ left right
    | table more =>
      rw [Ty.renamed_table, Ty.renamed_table]
      refine (unifyFields_mirrors hu hr .empty more fields).bind ?_
      rintro _ _ (⟨m, m', ls, rs⟩ | ⟨s, ls, rs⟩)
      · exact .pure (.of_eq (.fails m m' _ _) (Ty.renamed_table ls) (Ty.renamed_table rs))
      · exact .pure (.of_eq (.succeeds s _ _) (Ty.renamed_table ls) (Ty.renamed_table rs))
    | con | all => exact showFailure_mirrors hr _ _ _
  | all x body =>
    cases b with
    | var y => exact .pure (.succeeds (.single y _) _ (.var y))
    | union left right => exact unifyAlternatives_mirrors hu _ left right
    | con | table | all => exact showFailure_mirrors hr _ _ _

/-! ## The text of types -/

include hr in
lemma renderAll_mirrors (ts : List Ty) :
    Mirrors ρ (fun texts texts' => texts.length = texts'.length) (renderAll render ts)
      (renderAll render (ts.map (Ty.renamed ρ))) := by
  induction ts with
  | nil => exact .pure rfl
  | cons t ts ih =>
    refine (hr t).bind fun text text' _ => ?_
    refine ih.bind fun texts texts' hlength => ?_
    exact .pure (congrArg (· + 1) hlength)

include hr in
lemma renderFunction_mirrors (args : List Ty) (value : Option Literal) :
    Mirrors ρ (fun _ _ => True) (renderFunction render args value)
      (renderFunction render (args.map (Ty.renamed ρ)) value) := by
  cases args with
  | nil => exact .throw rfl
  | cons a rest =>
    cases a with
    | var | table | union | all => exact .throw rfl
    | con c params v checks =>
      -- what is shown of the result, whatever is shown of the parameters
      have hresult : ∀ list shown, Mirrors ρ (fun _ _ => True)
          (renderResult render params rest list)
          (renderResult render (params.map (Ty.renamed ρ)) (rest.map (Ty.renamed ρ)) shown) := by
        intro list shown
        cases rest with
        | nil => exact .throw rfl
        | cons result rest =>
          simp only [renderResult, List.map_cons, Ty.tupleArgs?_renamed]
          cases result.tupleArgs? with
          | none => exact (hr result).bind fun _ _ _ => .pure trivial
          | some results => exact (renderAll_mirrors hr results).bind fun _ _ _ => .pure trivial
      rw [List.map_cons, Ty.renamed_con]
      refine (renderAll_mirrors hr params).bind fun shown shown' _ => ?_
      refine .ite Iff.rfl ?_ (hresult _ _)
      rcases rest with _ | ⟨_, _ | ⟨t, _⟩⟩
      · exact .throw rfl
      · exact .throw rfl
      · exact (hr t).bind fun _ _ _ => hresult _ _

lemma distinctBy_mirrors {same : Covers} (hsame : same.Respects ρ) {keep : Ty → Ty}
    (hkeep : ∀ t : Ty, keep (t.renamed ρ) = (keep t).renamed ρ) (kept ts : List Ty) :
    Mirrors ρ (Image (List.map (Ty.renamed ρ))) (distinctBy same keep kept ts)
      (distinctBy same keep (kept.map (Ty.renamed ρ)) (ts.map (Ty.renamed ρ))) := by
  induction ts generalizing kept with
  | nil => exact .pure rfl
  | cons t ts ih =>
    refine (Mirror.anyM fun k _ => hsame t k).bind_eq fun found => .ite Iff.rfl (ih kept) ?_
    have hkept := ih (kept ++ [keep t])
    rwa [List.map_append, List.map_singleton, ← hkeep] at hkept

include hu hr in
lemma renderArray_mirrors (fields : List (Ty × Ty)) :
    Mirrors ρ (fun text text' => text.isSome = text'.isSome) (renderArray unify render fields)
      (renderArray unify render (fields.map (Ty.renamedField ρ))) := by
  have hsame : Covers.Respects ρ fun t k => do return (← unify t k).succeeds :=
    fun t k => (hu t k).bind fun u u' h => .pure h.succeeds_eq
  have hvalues := distinctBy_mirrors hsame Ty.broaden_renamed [] (fields.map Prod.snd)
  simp only [List.map_map] at hvalues
  simp only [renderArray, List.map_map]
  refine hvalues.bind_image fun kept => ?_
  refine (renderAll_mirrors hr kept).bind fun texts texts' hlength => ?_
  match texts, texts', hlength with
  | [], [], _ => exact .pure rfl
  | [_], [_], _ => exact .pure rfl
  | _ :: _ :: _, _ :: _ :: _, _ => exact .pure rfl

include hr in
lemma renderFields_mirrors (fields : List (Ty × Ty)) :
    Mirrors ρ (fun _ _ => True) (renderFields render fields)
      (renderFields render (fields.map (Ty.renamedField ρ))) := by
  induction fields with
  | nil => exact .pure trivial
  | cons f rest ih =>
    obtain ⟨k, v⟩ := f
    -- after the text of the key
    have hvalue : ∀ key other : String, Mirrors ρ (fun _ _ => True)
        (do
          let value ← render v
          return s!"{key}: {value}" :: (← renderFields render rest))
        (do
          let value ← render (v.renamed ρ)
          return s!"{other}: {value}" :: (← renderFields render
            (rest.map (Ty.renamedField ρ)))) := by
      intro key other
      refine (hr v).bind fun value value' _ => ?_
      exact ih.bind fun _ _ _ => .pure trivial
    simp only [List.map_cons, Prod.map, renderFields]
    split
    · exact hvalue _ _
    · rename_i hkey
      split
      · rename_i heq
        cases k with
        | con c args value checks =>
          rw [Ty.renamed_con] at heq
          obtain ⟨rfl, _, rfl, _⟩ := Ty.con.inj heq
          exact absurd rfl (hkey args _ checks)
        | var | table | union | all => cases heq
      · exact (hr k).bind fun _ _ _ => hvalue _ _

lemma eq_wrongKind_of_renderLiteral {c : String} {v : Literal} {f : Fault}
    (h : renderLiteral c v = some (.error f)) : f = .wrongKind := by
  unfold renderLiteral at h
  split at h
  · simp at h
  · split at h
    · simp only [Option.some.injEq, Except.error.injEq] at h
      exact h.symm
    · simp at h
    · simp at h
  · simp at h
  · simp at h

include hu hr in
/-- One step of showing a type mirrors itself, if unifying and showing the parts does. -/
lemma renderStep_respects : Renderer.Respects ρ (renderStep unify render) := by
  intro t
  cases t with
  | var x => exact fun _ _ _ => ⟨trivial, trivial⟩
  | con c args value checks =>
    simp only [Ty.renamed_con, renderStep]
    split
    · rename_i r hshown
      refine .ofExcept ?_
      cases r with
      | ok text => exact trivial
      | error f =>
        obtain ⟨v, _, hshown⟩ := Option.bind_eq_some_iff.1 hshown
        rw [eq_wrongKind_of_renderLiteral hshown]
        rfl
    · refine .ite Iff.rfl (renderFunction_mirrors hr args value) ?_
      refine (renderAll_mirrors hr args).bind fun _ _ _ => ?_
      exact .ite Iff.rfl (.pure trivial) (.pure trivial)
  | table fields =>
    have hlist : ∀ array array' : Option String, array.isSome = array'.isSome →
        Mirrors ρ (fun _ _ => True) (renderTable render fields array)
          (renderTable render (fields.map (Ty.renamedField ρ)) array') := by
      intro array array' hsome
      cases array <;> cases array' <;> simp at hsome
      · exact (renderFields_mirrors hr fields).bind fun _ _ _ => .pure trivial
      · exact .pure trivial
    simp only [Ty.renamed_table, renderStep, Ty.isArray_renamed]
    refine .ite Iff.rfl ?_ (hlist none none rfl)
    exact (renderArray_mirrors hu hr fields).bind fun array array' h => hlist array array' h
  | union left right =>
    have hkeep : ∀ t : Ty, id (t.renamed ρ) = (id t).renamed ρ := fun _ => rfl
    have hmembers := distinctBy_mirrors (fitsBy_respects hu) hkeep [] (Ty.union left right).members
    rw [← Ty.members_renamed] at hmembers
    simp only [Ty.renamed, renderStep, Ty.isNamed_renamed]
    refine .ite Iff.rfl ?_ (.ite Iff.rfl ?_ ?_)
    · exact (hr right).bind fun _ _ _ => .pure trivial
    · exact (hr left).bind fun _ _ _ => .pure trivial
    · refine hmembers.bind_image fun kept => ?_
      exact (renderAll_mirrors hr kept).bind fun _ _ _ => .pure trivial
  | all x body => exact (hr body).bind fun _ _ _ => .pure trivial

end Unify

/-! ## The recursion -/

lemma unifyTo_renderTo_respect (ρ : String → String) (depth : Nat) :
    Unifier.Respects ρ (unifyTo depth) ∧ Renderer.Respects ρ (renderTo depth) := by
  induction depth with
  | zero => exact ⟨fun _ _ => .throw rfl, fun _ => .throw rfl⟩
  | succ depth ih => exact ⟨unifyStep_respects ih.1 ih.2, renderStep_respects ih.1 ih.2⟩

theorem unify_mirrors (ρ : String → String) : Unifier.Respects ρ unify := by
  intro a b
  rw [unify, unify, Ty.size_renamed, Ty.size_renamed]
  exact (unifyTo_renderTo_respect ρ _).1 a b

namespace Ty

theorem render_mirrors (ρ : String → String) : Renderer.Respects ρ render := by
  intro t
  rw [render, render, size_renamed]
  exact (unifyTo_renderTo_respect ρ _).2 t

theorem fits_mirrors (ρ : String → String) : Covers.Respects ρ fits :=
  fitsBy_respects (unify_mirrors ρ)

theorem meet_mirrors (ρ : String → String) (a b : Ty) :
    Mirrors ρ (Image (Option.map (renamed ρ))) (a.meet b) ((a.renamed ρ).meet (b.renamed ρ)) :=
  meetWith_mirrors (fits_mirrors ρ) a b

end Ty

theorem Subst.compose_mirrors (ρ : String → String) (s t : Subst) :
    Mirrors ρ (Image (Subst.renamed ρ)) (s.compose t) ((s.renamed ρ).compose (t.renamed ρ)) :=
  composeWith_mirrors (Ty.fits_mirrors ρ) s t

/-! ## Joins -/

lemma lastCovering_mirrors (k : Ty) (found : Option Ty) (fields : List (Ty × Ty)) :
    Mirrors ρ (Image (Option.map (Ty.renamed ρ))) (lastCovering k found fields)
      (lastCovering (k.renamed ρ) (found.map (Ty.renamed ρ))
        (fields.map (Ty.renamedField ρ))) := by
  induction fields generalizing found with
  | nil => exact .pure rfl
  | cons f fields ih =>
    refine (Ty.fits_mirrors ρ k f.1).bind_eq fun covered => ?_
    exact .ite Iff.rfl (ih (some f.2)) (ih found)

section Join

variable {join : Ty → Ty → Naming Ty}
  (hjoin : ∀ a b, Mirrors ρ (Image (Ty.renamed ρ)) (join a b)
    (join (a.renamed ρ) (b.renamed ρ)))

include hjoin

lemma joinFields_mirrors (other kept fields : List (Ty × Ty)) :
    Mirrors ρ (Image (List.map (Ty.renamedField ρ))) (joinFields join other kept fields)
      (joinFields join (other.map (Ty.renamedField ρ)) (kept.map (Ty.renamedField ρ))
        (fields.map (Ty.renamedField ρ))) := by
  induction fields generalizing kept with
  | nil => exact .pure rfl
  | cons f fields ih =>
    obtain ⟨k, v⟩ := f
    refine (lastCovering_mirrors k none other).bind_image fun found => ?_
    refine (Mirror.anyM fun l _ => Ty.fits_mirrors ρ k l.1).bind_eq fun covered => ?_
    refine .ite Iff.rfl (ih kept) ?_
    have hvalue := hjoin v (found.getD Ty.nil)
    have hfound : (found.getD Ty.nil).renamed ρ = (found.map (Ty.renamed ρ)).getD Ty.nil := by
      cases found <;> rfl
    rw [hfound] at hvalue
    refine hvalue.bind_image fun t => ?_
    have hkept := ih (kept ++ [(k, t)])
    rwa [List.map_append] at hkept

lemma joinLists_mirrors (as bs : List Ty) :
    Mirrors ρ (Image (List.map (Ty.renamed ρ))) (joinLists join as bs)
      (joinLists join (as.map (Ty.renamed ρ)) (bs.map (Ty.renamed ρ))) := by
  induction as generalizing bs with
  | nil => exact .pure rfl
  | cons a as ih =>
    cases bs with
    | nil => exact .pure rfl
    | cons b bs =>
      refine (hjoin a b).bind_image fun c => ?_
      refine (ih bs).bind_image fun cs => ?_
      exact .pure rfl

end Join

namespace Ty

lemma joinTo_mirrors (depth : Nat) (a b : Ty) :
    Mirrors ρ (Image (renamed ρ)) (joinTo depth a b)
      (joinTo depth (a.renamed ρ) (b.renamed ρ)) := by
  induction depth generalizing a b with
  | zero => exact .throw rfl
  | succ depth ih =>
    cases a with
    | var x =>
      cases b with
      | var y => exact .ite Iff.rfl (.pure rfl) (.pure rfl)
      | con | table | union | all => exact .pure rfl
    | con c as v checks =>
      cases b with
      | con d bs w more =>
        have hunion : Mirrors ρ (Image (renamed ρ))
            (pure (.union (.con c as v checks) (.con d bs w more)))
            (pure (.union ((con c as v checks).renamed ρ) ((con d bs w more).renamed ρ))) :=
          .pure rfl
        rw [renamed_con, renamed_con] at hunion
        rw [renamed_con, renamed_con]
        refine .ite Iff.rfl (.ite Iff.rfl hunion ?_) hunion
        refine (joinLists_mirrors ih as bs).bind_image fun args => ?_
        refine .pure ?_
        rw [Image, renamed_con, List.map_append]
      | var | table | union | all => exact .pure rfl
    | table fields =>
      cases b with
      | table more =>
        rw [renamed_table, renamed_table]
        refine (joinFields_mirrors ih more [] fields).bind_image fun kept => ?_
        refine (joinFields_mirrors ih fields kept more).bind_image fun all => ?_
        exact .pure (renamed_table all).symm
      | var | con | union | all => exact .pure rfl
    | union | all => cases b <;> exact .pure rfl

theorem join_mirrors (ρ : String → String) (a b : Ty) :
    Mirrors ρ (Image (renamed ρ)) (a.join b) ((a.renamed ρ).join (b.renamed ρ)) := by
  rw [join, join, size_renamed, size_renamed]
  exact joinTo_mirrors _ a b

theorem subtract_mirrors (ρ : String → String) (a b : Ty) :
    Mirrors ρ (Image (renamed ρ)) (a.subtract b) ((a.renamed ρ).subtract (b.renamed ρ)) := by
  induction a with
  | union left right ihl ihr =>
    refine (fits_mirrors ρ left b).bind_eq fun covered => ?_
    refine .ite Iff.rfl ihr ?_
    refine (fits_mirrors ρ right b).bind_eq fun covered' => ?_
    refine .ite Iff.rfl ihl ?_
    refine ihl.bind_image fun l => ?_
    refine ihr.bind_image fun r => ?_
    exact .pure rfl
  | var | con | table | all => exact .pure rfl

end Ty

end LuaTyping
