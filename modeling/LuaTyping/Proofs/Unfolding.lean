import LuaTyping.Proofs.Extension
import LuaTyping.Proofs.Operations

set_option autoImplicit false

/-!
# Unification without a depth

Unification and the text of a type are put together from the same operations on parts of types. So a
relation between computations that is kept when computations are put together holds of a step of
unification if it holds of the operations on the parts.

One such relation compares recursions that are cut off at a given depth. If the operations on the
parts of types are replaced by ones that go deeper, then a step comes to the same, unless it was cut
off. Since `unify` and `Ty.render` start deep enough, they are never cut off; so they obey the
equations of the recursion as if there was no depth.

## Main definitions

* `Naming.Congruent` — a relation is kept when computations are put together.
* `Naming.Refines` — a computation comes to the same as another one, unless it is cut off.

## Main results

* `unify_eq`, `Ty.render_eq` — the equations of the recursion.
-/

namespace LuaTyping

namespace Naming

/-- A relation between computations holds of each one that shows nothing and itself, and is kept
when computations follow each other. -/
structure Congruent (R : {α : Type} → Naming α → Naming α → Prop) : Prop where
  done {α : Type} (r : Except Fault α) : R (ofExcept r) (ofExcept r)
  bind {α β : Type} {x y : Naming α} {f g : α → Naming β} :
    R x y → (∀ a, R (f a) (g a)) → R (x >>= f) (y >>= g)

namespace Congruent

variable {R : {α : Type} → Naming α → Naming α → Prop} {α β : Type}

lemma ite (_ : Congruent R) {c : Prop} [Decidable c] {x y x' y' : Naming α} (h : R x y)
    (h' : R x' y') : R (if c then x else x') (if c then y else y') := by
  split
  · exact h
  · exact h'

variable (C : Congruent R)

include C

lemma pure (a : α) : R (Pure.pure a) (Pure.pure a) := C.done (.ok a)

lemma throw (f : Fault) : R (MonadExcept.throw f : Naming α) (MonadExcept.throw f) :=
  C.done (.error f)

lemma map {x y : Naming α} {f : α → β} (h : R x y) :
    R (x >>= fun a => Pure.pure (f a)) (y >>= fun a => Pure.pure (f a)) :=
  C.bind h fun a => C.pure (f a)

lemma anyM {p q : α → Naming Bool} (h : ∀ a, R (p a) (q a)) (l : List α) :
    R (l.anyM p) (l.anyM q) := by
  induction l with
  | nil => exact C.pure _
  | cons a l ih =>
    refine C.bind (h a) fun b => ?_
    cases b with
    | true => exact C.pure _
    | false => exact ih

end Congruent

end Naming

open Naming (Congruent)

section Steps

variable {R : {α : Type} → Naming α → Naming α → Prop} (C : Congruent R)

include C

/-! ## Meets and composition -/

lemma meetLists_congr {meet more : Ty → Ty → Naming (Option Ty)}
    (hmeet : ∀ a b, R (meet a b) (more a b)) (as bs : List Ty) :
    R (meetLists meet as bs) (meetLists more as bs) := by
  induction as generalizing bs with
  | nil => exact C.pure _
  | cons a as ih =>
    cases bs with
    | nil => exact C.pure _
    | cons b bs =>
      refine C.bind (hmeet a b) fun c => ?_
      cases c with
      | none => exact C.pure _
      | some c =>
        refine C.bind (ih bs) fun cs => ?_
        cases cs with
        | none => exact C.pure _
        | some cs => exact C.pure _

section Meet

variable {covers deeper : Covers} (h : ∀ a b, R (covers a b) (deeper a b))

include h

lemma separateFields_congr (kept fields : List (Ty × Ty)) :
    R (separateFields covers kept fields) (separateFields deeper kept fields) := by
  induction fields generalizing kept with
  | nil => exact C.pure _
  | cons f fields ih =>
    refine C.bind (C.anyM (fun l => h f.1 l.1) kept) fun found => ?_
    exact C.ite (ih _) (ih _)

lemma meetTo_congr (depth : Nat) (a b : Ty) :
    R (Ty.meetTo covers depth a b) (Ty.meetTo deeper depth a b) := by
  induction depth generalizing a b with
  | zero => exact C.throw _
  | succ depth ih =>
    -- of a union, the first alternative that has a meet
    have hunion : ∀ c left right, R (Ty.meetEither covers depth c left right)
        (Ty.meetEither deeper depth c left right) := by
      intro c left right
      refine C.bind (ih c left) fun u => ?_
      cases u with
      | some t => exact C.pure _
      | none => exact ih c right
    cases b with
    | var y => cases a <;> exact C.pure _
    | union left right =>
      cases a with
      | var x => exact C.pure _
      | con | table | union | all => exact hunion _ left right
    | con d bs w more =>
      cases a with
      | union left right => exact hunion _ left right
      | con c as v checks =>
        refine C.ite (C.bind (meetLists_congr C ih as bs) fun args => ?_) (C.pure _)
        cases args with
        | none => exact C.pure _
        | some args => exact C.pure _
      | var | table | all => exact C.pure _
    | table more =>
      cases a with
      | union left right => exact hunion _ left right
      | table fields => exact C.map (separateFields_congr C h [] (fields ++ more))
      | var | con | all => exact C.pure _
    | all y body =>
      cases a with
      | union left right => exact hunion _ left right
      | var | con | table | all => exact C.pure _

lemma composeBindings_congr (s : Subst) (known more : List (String × Ty)) :
    R (Subst.composeBindings covers s known more) (Subst.composeBindings deeper s known more) := by
  induction more generalizing known with
  | nil => exact C.pure _
  | cons b more ih =>
    simp only [Subst.composeBindings]
    cases known.lookup b.1 with
    | none => exact C.bind (C.done _) fun t => ih _
    | some u =>
      refine C.bind (meetTo_congr C h _ b.2 u) fun m => ?_
      cases m with
      | none => exact C.throw _
      | some m => exact ih _

lemma composeWith_congr (s t : Subst) : R (s.composeWith covers t) (s.composeWith deeper t) :=
  C.map (composeBindings_congr C h s s.bindings t.bindings)

end Meet

/-! ## Steps of unification -/

section Unify

variable {unify deeper : Unifier} (hu : ∀ a b, R (unify a b) (deeper a b))

include hu

lemma testBy_congr (a b : Ty) : R (testBy unify a b) (testBy deeper a b) := by
  cases a with
  | var x => cases b <;> exact C.pure _
  | con | table | union | all =>
    cases b with
    | var y => exact C.pure _
    | con | table | union | all => exact C.map (hu _ _)

lemma fitsBy_congr (a b : Ty) : R (fitsBy unify a b) (fitsBy deeper a b) := by
  rw [fitsBy_eq, fitsBy_eq]
  exact C.map (testBy_congr C hu a b)

lemma seekField_congr (k : Ty) (passed fields : List (Ty × Ty)) :
    R (seekField unify k passed fields) (seekField deeper k passed fields) := by
  induction fields generalizing k passed with
  | nil => exact C.pure _
  | cons f fields ih => exact C.bind (testBy_congr C hu k f.1) fun t => C.ite (C.pure _) (ih _ _)

lemma unifyLists_congr {combine more : Subst → Subst → Naming Subst}
    (hc : ∀ s t, R (combine s t) (more s t)) (s : Subst) (as bs : List Ty) :
    R (unifyLists unify combine s as bs) (unifyLists deeper more s as bs) := by
  induction as generalizing s bs with
  | nil => exact C.pure _
  | cons a as ih =>
    cases bs with
    | nil => exact C.pure _
    | cons b bs =>
      refine C.bind (hu a b) fun u => ?_
      cases u.outcome with
      | error m => exact C.pure _
      | ok found => exact C.bind (hc found s) fun s => C.map (ih s bs)

lemma unifyFunctions_congr (v w : Option Literal) (checks more : List Checked) (as bs : List Ty) :
    R (unifyFunctions unify v w checks more as bs)
      (unifyFunctions deeper v w checks more as bs) := by
  have hcompose := composeWith_congr C (fitsBy_congr C hu)
  unfold unifyFunctions
  split
  · refine C.bind (unifyLists_congr C (fun p q => C.map (hu q p)) hcompose _ _ _) fun params => ?_
    obtain ⟨found, ps, qs⟩ := params
    cases found with
    | error m => exact C.pure _
    | ok s =>
      dsimp only
      split
      · refine C.bind (hu _ _) fun u => ?_
        cases u.outcome with
        | error m => exact C.pure _
        | ok found => exact C.map (hcompose found s)
      · exact C.throw _
  · exact C.throw _
  · exact C.throw _
  · exact C.throw _

variable {render further : Renderer} (hr : ∀ t, R (render t) (further t))

include hr

lemma unifyFields_congr (s : Subst) (given wanted : List (Ty × Ty)) :
    R (unifyFields unify render s given wanted) (unifyFields deeper further s given wanted) := by
  induction wanted generalizing s given with
  | nil => exact C.pure _
  | cons f wanted ih =>
    refine C.bind (seekField_congr C hu f.1 [] given) fun found => ?_
    obtain ⟨k, before, after⟩ := found
    cases after with
    | nil => exact C.bind (hr _) fun _ => C.map (hr _)
    | cons found after =>
      refine C.bind (hu _ _) fun u => ?_
      obtain ⟨outcome, left, right⟩ := u
      cases outcome with
      | error m => exact C.pure _
      | ok s' =>
        exact C.bind (composeWith_congr C (fitsBy_congr C hu) s' s) fun s => C.map (ih s _)

omit hu in
lemma showFailure_congr (message : String → String → String) (a b : Ty) :
    R (showFailure render message a b) (showFailure further message a b) :=
  C.bind (hr a) fun _ => C.map (hr b)

lemma unifyConstructors_congr (c : String) (as : List Ty) (v : Option Literal)
    (checks : List Checked) (d : String) (bs : List Ty) (w : Option Literal) (more : List Checked) :
    R (unifyConstructors unify render c as v checks d bs w more)
      (unifyConstructors deeper further c as v checks d bs w more) := by
  have hcompose := composeWith_congr C (fitsBy_congr C hu)
  have hfails := showFailure_congr C hr
  unfold unifyConstructors
  refine C.ite (C.pure _) (C.ite (hfails _ _ _) (C.ite (hfails _ _ _) (C.ite ?_ ?_)))
  · exact unifyFunctions_congr C hu v w checks more as bs
  · split
    · exact C.throw _
    · exact hfails _ _ _
    · exact C.map (unifyLists_congr C hu (fun found _ => hcompose found found) _ as bs)

/-- A step of unification keeps a relation that holds of the operations on the parts. -/
lemma unifyStep_congr (a b : Ty) :
    R (unifyStep unify render a b) (unifyStep deeper further a b) := by
  have hcompose := composeWith_congr C (fitsBy_congr C hu)
  unfold unifyStep
  split
  · exact C.ite (C.pure _) (C.pure _)
  · exact C.pure _
  · exact C.pure _
  · refine C.bind (hu _ _) fun u => ?_
    obtain ⟨outcome, left, right⟩ := u
    cases outcome with
    | error m => exact C.pure _
    | ok s =>
      refine C.bind (hu _ _) fun w => ?_
      obtain ⟨outcome, left, right⟩ := w
      cases outcome with
      | error m => exact C.pure _
      | ok t => exact C.map (hcompose s t)
  · refine C.bind (hu _ _) fun u => C.bind (hu _ _) fun w => ?_
    dsimp only
    split
    · exact C.pure _
    · exact C.pure _
    · exact C.pure _
    · exact C.map (hcompose _ _)
  · exact C.map (unifyFields_congr C hu hr _ _ _)
  · exact unifyConstructors_congr C hu hr _ _ _ _ _ _ _ _
  · exact showFailure_congr C hr _ _ _

end Unify

/-! ## Steps of showing a type -/

section Render

variable {render further : Renderer} (hr : ∀ t, R (render t) (further t))

include hr

lemma renderAll_congr (ts : List Ty) : R (renderAll render ts) (renderAll further ts) := by
  induction ts with
  | nil => exact C.pure _
  | cons t ts ih => exact C.bind (hr t) fun _ => C.map ih

lemma renderFields_congr (fields : List (Ty × Ty)) :
    R (renderFields render fields) (renderFields further fields) := by
  induction fields with
  | nil => exact C.pure _
  | cons f fields ih =>
    simp only [renderFields]
    split
    · exact C.bind (C.pure _) fun _ => C.bind (hr _) fun _ => C.map ih
    · exact C.bind (hr _) fun _ => C.bind (C.pure _) fun _ => C.bind (hr _) fun _ => C.map ih

omit hr in
lemma distinctBy_congr {same other : Covers} (h : ∀ a b, R (same a b) (other a b)) (keep : Ty → Ty)
    (kept ts : List Ty) : R (distinctBy same keep kept ts) (distinctBy other keep kept ts) := by
  induction ts generalizing kept with
  | nil => exact C.pure _
  | cons t ts ih => exact C.bind (C.anyM (h t) kept) fun found => C.ite (ih _) (ih _)

lemma renderFunction_congr (args : List Ty) (value : Option Literal) :
    R (renderFunction render args value) (renderFunction further args value) := by
  unfold renderFunction
  split
  · exact C.throw _
  · rename_i params _ _ rest
    refine C.bind (renderAll_congr C hr params) fun shown => ?_
    -- what is left is the text of the result, whatever the list of parameters is
    have hresult : ∀ list, R (renderResult render params rest list)
        (renderResult further params rest list) := by
      intro list
      cases rest with
      | nil => exact C.throw _
      | cons result rest =>
        simp only [renderResult]
        cases result.tupleArgs? with
        | none => exact C.map (hr result)
        | some results => exact C.map (renderAll_congr C hr results)
    dsimp only
    split
    · split
      · exact C.bind (hr _) fun _ => hresult _
      · exact C.throw _
    · exact hresult _
  · exact C.throw _

variable {unify deeper : Unifier} (hu : ∀ a b, R (unify a b) (deeper a b))

include hu

lemma renderArray_congr (fields : List (Ty × Ty)) :
    R (renderArray unify render fields) (renderArray deeper further fields) := by
  refine C.bind (distinctBy_congr C (fun t k => C.map (hu t k)) _ [] _) fun kept => ?_
  refine C.bind (renderAll_congr C hr kept) fun texts => ?_
  split
  · exact C.pure _
  · exact C.pure _
  · exact C.pure _

/-- A step of showing a type keeps a relation that holds of the operations on the parts, and of what
shows a variable. -/
lemma renderStep_congr (hvar : ∀ x, R (Naming.showVar x) (Naming.showVar x)) (t : Ty) :
    R (renderStep unify render t) (renderStep deeper further t) := by
  cases t with
  | var x => exact hvar x
  | con c args value checks =>
    simp only [renderStep]
    cases value.bind (renderLiteral c) with
    | some r => exact C.done r
    | none =>
      refine C.ite (renderFunction_congr C hr args value) ?_
      refine C.bind (renderAll_congr C hr args) fun shown => ?_
      exact C.ite (C.pure _) (C.pure _)
  | table fields =>
    have htext : ∀ array, R (renderTable render fields array)
        (renderTable further fields array) := by
      intro array
      cases array with
      | some text => exact C.pure _
      | none => exact C.map (renderFields_congr C hr fields)
    refine C.ite (C.bind (renderArray_congr C hr hu fields) htext) ?_
    exact htext none
  | union left right =>
    refine C.ite (C.map (hr right)) (C.ite (C.map (hr left)) ?_)
    exact C.bind (distinctBy_congr C (fitsBy_congr C hu) id [] _) fun kept =>
      C.map (renderAll_congr C hr kept)
  | all x body => exact C.map (hr body)

end Render

end Steps

/-! ## The recursion -/

namespace Naming

variable {α : Type}

/-- A computation comes to the same as another one, unless it is cut off. -/
def Refines (x y : Naming α) : Prop :=
  ∀ k, (∃ k', outcome x k = (.error (.endless (c := .depth)), k')) ∨ outcome x k = outcome y k

lemma Refines.refl (x : Naming α) : Refines x x := fun _ => .inr rfl

lemma refines_congruent : Congruent Refines where
  done r := .refl _
  bind {α β x y f g} h hf := by
    intro k
    rw [outcome_bind, outcome_bind]
    rcases h k with ⟨k', hcut⟩ | heq
    · rw [hcut]
      exact .inl ⟨k', rfl⟩
    · rw [← heq]
      rcases outcome x k with ⟨e | a, k'⟩
      · exact .inr rfl
      · exact hf a k'

end Naming

open Naming (Refines refines_congruent)

/-- A greater depth changes no answer. -/
lemma unifyTo_renderTo_refines {depth more : Nat} (h : depth ≤ more) :
    (∀ a b, Refines (unifyTo depth a b) (unifyTo more a b)) ∧
      ∀ t, Refines (renderTo depth t) (renderTo more t) := by
  induction depth generalizing more with
  | zero => exact ⟨fun _ _ k => .inl ⟨k, rfl⟩, fun _ k => .inl ⟨k, rfl⟩⟩
  | succ depth ih =>
    obtain ⟨more, rfl⟩ : ∃ n, more = n + 1 := ⟨more - 1, by omega⟩
    obtain ⟨hu, hr⟩ := ih (Nat.le_of_succ_le_succ h)
    exact ⟨unifyStep_congr refines_congruent hu hr,
      renderStep_congr refines_congruent hr hu fun _ => .refl _⟩

lemma Naming.Refines.eq_of_sat {α : Type} {x y : Naming α} {Q : α → Prop} (h : Refines x y)
    (hx : x.Sat Q Permit.free.Allows) : x = y := by
  funext k
  rcases h k with ⟨k', hcut⟩ | heq
  · exact ((hx k).of_eq_error hcut).elim
  · exact heq

lemma unifyTo_refines (depth : Nat) (a b : Ty) : Refines (unifyTo depth a b) (unify a b) := by
  rcases Nat.le_total depth (depthFor (a.size + b.size)) with hle | hle
  · exact (unifyTo_renderTo_refines hle).1 a b
  · have heq := ((unifyTo_renderTo_refines hle).1 a b).eq_of_sat
      (unify_sat a.within_free b.within_free)
    rw [← heq]
    exact .refl _

lemma renderTo_refines (depth : Nat) (t : Ty) : Refines (renderTo depth t) t.render := by
  rcases Nat.le_total depth (depthFor t.size) with hle | hle
  · exact (unifyTo_renderTo_refines hle).2 t
  · have heq := ((unifyTo_renderTo_refines hle).2 t).eq_of_sat (Ty.render_sat t.within_free)
    rw [← heq]
    exact .refl _

/-- Unification obeys the equations of its recursion. -/
theorem unify_eq (a b : Ty) : unify a b = unifyStep unify Ty.render a b := by
  obtain ⟨n, hn⟩ : ∃ n, depthFor (a.size + b.size) = n + 1 :=
    Nat.exists_eq_succ_of_ne_zero (by unfold depthFor; positivity)
  have hstep : unify a b = unifyStep (unifyTo n) (renderTo n) a b := by
    rw [unify, hn, unifyTo]
  have hrefines := unifyStep_congr refines_congruent (unifyTo_refines n) (renderTo_refines n) a b
  rw [← hstep] at hrefines
  exact hrefines.eq_of_sat (unify_sat a.within_free b.within_free)

/-- The text of a type obeys the equations of its recursion. -/
theorem Ty.render_eq (t : Ty) : t.render = renderStep unify render t := by
  obtain ⟨n, hn⟩ : ∃ n, depthFor t.size = n + 1 :=
    Nat.exists_eq_succ_of_ne_zero (by unfold depthFor; positivity)
  have hstep : t.render = renderStep (unifyTo n) (renderTo n) t := by
    rw [render, hn, renderTo]
  have hrefines := renderStep_congr refines_congruent (renderTo_refines n) (unifyTo_refines n)
    (fun _ => .refl _) t
  rw [← hstep] at hrefines
  exact hrefines.eq_of_sat (render_sat t.within_free)

end LuaTyping
