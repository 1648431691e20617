import LuaTyping.Proofs.RenamedExpressions

set_option autoImplicit false

/-!
# The choice of names does not matter

Inference looks identifiers up and compares them, but it does not depend on how they are chosen, nor
on where the parts of a program stand. This file shows it for two runs: one on a tree, and one on a
tree that differs from it only by an injective renaming of the identifiers and by locations, from
sessions that differ in the same way. Both report an error, or stop with the same fault, or come to
the same result, up to the renaming. Only the standard function `type` and the variable arguments
have names that the inference knows.

## Main definitions

* `Session.Alike` — sessions that differ only by a renaming and by locations.
* `Inferred.AlikeOutcomes` — outcomes that do.

## Main results

* `Check.inferStep_mirrors` — one rule.
* `Check.inferTo_mirrors` — the inference of a renamed tree.
* `Check.infer_alike_of_renamed` — two trees that differ only by a renaming and by
  locations.
-/

namespace LuaTyping

variable {ρ : String → String}

namespace Check

/-! ## Declarations and assignments -/

section Statements

variable {infer : Inference} (h : Respects ρ infer) (hρ : Function.Injective ρ)

include h in
lemma inferExprs_mirrors (s : Subst) (types : List Ty) (exprs : List Node) :
    Mirrors ρ (Image (Prod.map (Subst.renamed ρ) (List.map (Ty.renamed ρ))))
      (inferExprs infer s types exprs)
      (inferExprs infer (s.renamed ρ) (types.map (Ty.renamed ρ)) (exprs.map (Node.renamed ρ))) :=
  inferEach_mirrors h (fun _ t => .pure (components_renamed t)) s types exprs

lemma mirrors_await (x : String) : Mirrors ρ (fun _ _ => True) (await x) (await (ρ x)) := by
  intro σ τ hσ
  refine ⟨trivial, hσ.supply, hσ.plain, hσ.scopes, ?_⟩
  change τ.pending ++ [ρ x] = (σ.pending ++ [x]).map ρ
  rw [hσ.pending, List.map_append, List.map_singleton]

lemma mirrors_forM {α α' : Type} {f : α → Check Unit} {f' : α' → Check Unit} {g : α → α'}
    (hf : ∀ a, Mirrors ρ (fun _ _ => True) (f a) (f' (g a))) (as : List α) :
    Mirrors ρ (fun _ _ => True) (as.forM f) ((as.map g).forM f') := by
  induction as with
  | nil => exact .pure trivial
  | cons a as ih => exact (hf a).bind fun _ _ _ => ih

include hρ in
lemma bindDeclared_mirrors (name : DeclaredName) (t : Ty) :
    Mirrors ρ (fun _ _ => True) (bindDeclared name t)
      (bindDeclared (name.renamed ρ) (t.renamed ρ)) := by
  cases name with
  | bare x => exact mirrors_bind hρ x t
  | «variable» l x => exact mirrors_fault rfl

lemma annotatedTuple_mirrors (note : Node) :
    Mirrors ρ (Image (Prod.map (Ty.renamed ρ) (List.map (Ty.renamed ρ)))) (annotatedTuple note)
      (annotatedTuple (note.renamed ρ)) := by
  cases note with
  | typeNote l t =>
    simp only [Node.renamed, annotatedTuple, Ty.tupleArgs?_renamed]
    cases t.tupleArgs? with
    | none => exact mirrors_fault rfl
    | some args => exact .pure rfl
  | _ => exact mirrors_fault rfl

include hρ in
lemma bindNames_mirrors (l l' : Location) (note : Option Node) (types : List Ty) (number : Nat)
    (names : List DeclaredName) :
    Mirrors ρ (fun _ _ => True) (bindNames l note types number names)
      (bindNames l' (note.map (Node.renamed ρ)) (types.map (Ty.renamed ρ)) number
        (names.map (DeclaredName.renamed ρ))) := by
  induction names generalizing number with
  | nil => exact .pure trivial
  | cons name rest ih =>
    cases note with
    | none =>
      refine (mirrors_member (g := Ty.renamed ρ) types number).bind_image fun t => ?_
      refine (mirrors_generalize hρ t).bind_image fun u => ?_
      exact (bindDeclared_mirrors hρ name u).bind fun _ _ _ => ih (number + 1)
    | some note =>
      refine (annotatedTuple_mirrors note).bind_image fun p => ?_
      refine (mirrors_member (g := Ty.renamed ρ) types number).bind_image fun t => ?_
      refine (mirrors_member (g := Ty.renamed ρ) p.2 number).bind_image fun a => ?_
      refine (mirrors_naming (Ty.fits_mirrors ρ t a)).bind_eq fun fits => ?_
      refine .ite Iff.rfl ?_ ?_
      · refine (mirrors_generalize hρ p.1).bind_image fun u => ?_
        exact (bindDeclared_mirrors hρ name u).bind fun _ _ _ => ih (number + 1)
      · refine (mirrors_naming (Ty.render_mirrors ρ a)).bind fun _ _ _ => ?_
        refine (mirrors_naming (Ty.render_mirrors ρ t)).bind fun _ _ _ => ?_
        exact (mirrors_report (R := fun _ _ => True) _ _ _ _).bind fun _ _ _ => ih (number + 1)

include h hρ in
lemma inferDeclare_mirrors (l l' : Location) (names : List DeclaredName) (exprs : List Node)
    (note : Option Node) :
    Mirrors ρ (Image (Inferred.renamed ρ)) (inferDeclare infer l names exprs note)
      (inferDeclare infer l' (names.map (DeclaredName.renamed ρ)) (exprs.map (Node.renamed ρ))
        (note.map (Node.renamed ρ))) := by
  refine (mirrors_forM (fun name => ?_) names).bind fun _ _ _ => ?_
  · cases name with
    | bare x => exact .pure trivial
    | «variable» lx x => exact mirrors_await x
  · refine (inferExprs_mirrors h .empty [] exprs).bind_image fun p => ?_
    exact (bindNames_mirrors hρ l l' note p.2 0 names).bind fun _ _ _ => .pure rfl

include hρ in
lemma assignName_mirrors (l l' : Location) (x : String) (types : List Ty) (number : Nat) :
    Mirrors ρ (fun _ _ => True) (assignName l x types number)
      (assignName l' (ρ x) (types.map (Ty.renamed ρ)) number) := by
  refine mirrors_scopes.bind_image fun s => ?_
  rw [Scopes.local?_renamed hρ]
  cases s.local? x with
  | some t =>
    refine (mirrors_instantiate t).bind_image fun existing => ?_
    refine (mirrors_member (g := Ty.renamed ρ) types number).bind_image fun given => ?_
    refine (mirrors_unifyAt_broaden l l' given existing).bind ?_
    rintro _ _ ⟨s, _, _, left, _⟩
    refine (mirrors_apply s left).bind_image fun u => ?_
    refine (mirrors_generalize hρ u).bind_image fun w => ?_
    exact mirrors_bind hρ x w
  | none =>
    refine (mirrors_member (g := Ty.renamed ρ) types number).bind_image fun t => ?_
    refine (mirrors_generalize hρ t).bind_image fun u => ?_
    exact mirrors_modifyScopes (f := fun s => s.bindGlobal x u)
      (g := fun s => s.bindGlobal (ρ x) (u.renamed ρ)) fun _ => Scopes.bindGlobal_renamed hρ

include h hρ in
lemma assignTargets_mirrors (l l' : Location) (types : List Ty) (number : Nat)
    (targets : List Node) :
    Mirrors ρ (fun _ _ => True) (assignTargets infer l types number targets)
      (assignTargets infer l' (types.map (Ty.renamed ρ)) number
        (targets.map (Node.renamed ρ))) := by
  induction targets generalizing number with
  | nil => exact .pure trivial
  | cons target rest ih =>
    have hpath : Mirrors ρ (fun _ _ => True)
        (do
          assignPath infer target (← member types number)
          assignTargets infer l types (number + 1) rest)
        (do
          assignPath infer (target.renamed ρ) (← member (types.map (Ty.renamed ρ)) number)
          assignTargets infer l' (types.map (Ty.renamed ρ)) (number + 1)
            (rest.map (Node.renamed ρ))) :=
      (mirrors_member (g := Ty.renamed ρ) types number).bind_image fun t =>
        (assignPath_mirrors h hρ target t).bind fun _ _ _ => ih (number + 1)
    cases target with
    | var lx x =>
      exact (assignName_mirrors hρ l l' x types number).bind fun _ _ _ => ih (number + 1)
    | _ => exact hpath

include h hρ in
lemma inferAssign_mirrors (l l' : Location) (targets exprs : List Node) :
    Mirrors ρ (Image (Inferred.renamed ρ)) (inferAssign infer l targets exprs)
      (inferAssign infer l' (targets.map (Node.renamed ρ)) (exprs.map (Node.renamed ρ))) := by
  refine (mirrors_forM (fun target => ?_) targets).bind fun _ _ _ => ?_
  · cases target with
    | var lx x => exact mirrors_await x
    | _ => exact .pure trivial
  · refine (inferExprs_mirrors h .empty [] exprs).bind_image fun p => ?_
    exact (assignTargets_mirrors h hρ l l' p.2 0 targets).bind fun _ _ _ => .pure rfl

/-! ## Returning -/

lemma innermost_of_ne {c : String} (hc : c ≠ "tuple") (args : List Ty) (v : Option Literal)
    (checks : List Checked) : innermost (.con c args v checks) = .ok [] := by
  cases args <;> simp [innermost, hc]

lemma innermost_agrees (t : Ty) :
    Agree (Image (Fault.renamed ρ)) (Image (List.map (Ty.renamed ρ))) (innermost t)
      (innermost (t.renamed ρ)) := by
  induction t with
  | con c args v checks ih =>
    by_cases hc : c = "tuple"
    · subst hc
      cases args with
      | nil => rfl
      | cons first rest =>
        have hfirst := ih first (by simp)
        simp only [Ty.renamed_con, List.map_cons, innermost, if_true]
        rcases hx : innermost first with f | inner <;>
          rcases hy : innermost (first.renamed ρ) with g | inner' <;> rw [hx, hy] at hfirst
        · exact hfirst
        · exact hfirst.elim
        · exact hfirst.elim
        · obtain rfl : inner' = inner.map (Ty.renamed ρ) := hfirst
          cases inner with
          | nil => rfl
          | cons a inner => rfl
    · rw [Ty.renamed_con, innermost_of_ne hc, innermost_of_ne hc]
      rfl
  | var | table | union | all => rfl

lemma returned_mirrors (expr : Node) (t : Ty) :
    Mirrors ρ (Image (List.map (Ty.renamed ρ))) (returned expr t)
      (returned (expr.renamed ρ) (t.renamed ρ)) := by
  refine (mirrors_ofExcept (innermost_agrees t)).bind_image fun args => ?_
  cases args with
  | cons a args => exact .pure rfl
  | nil =>
    cases expr with
    | vararg l =>
      cases t with
      | table fields =>
        rw [Ty.renamed_table]
        refine .pure ?_
        simp only [Image, List.map_map]
        rfl
      | var | con | union | all => exact mirrors_fault rfl
    | _ => exact .pure rfl

include h in
lemma inferReturn_mirrors (exprs : List Node) :
    Mirrors ρ (Image (Inferred.renamed ρ)) (inferReturn infer exprs)
      (inferReturn infer (exprs.map (Node.renamed ρ))) := by
  refine (inferEach_mirrors h returned_mirrors .empty [] exprs).bind_image fun p => .pure ?_
  rw [Image, Inferred.renamed, Ty.renamed_tuple]
  rfl

include h in
lemma inferReveal_mirrors (l l' : Location) (expr : Node) :
    Mirrors ρ (Image (Inferred.renamed ρ)) (inferReveal infer l expr)
      (inferReveal infer l' (expr.renamed ρ)) := by
  refine (h expr).bind_image fun e => ?_
  refine (mirrors_naming (Ty.render_mirrors ρ e.type)).bind fun _ _ _ => ?_
  have hprint : ∀ m m' : String, Mirrors ρ (fun _ _ => True)
      (modify fun σ => { σ with printed := σ.printed ++ m } : Check Unit)
      (modify fun σ => { σ with printed := σ.printed ++ m' } : Check Unit) :=
    fun _ _ _ _ hσ => ⟨trivial, hσ.supply, hσ.plain, hσ.scopes, hσ.pending⟩
  exact (hprint _ _).bind fun _ _ _ => .pure rfl

/-! ## Branches and chunks -/

lemma conditionChecks_renamed (t : Ty) :
    conditionChecks (t.renamed ρ) =
      (conditionChecks t).map (Ty.renamedCheck ρ) := by
  cases t with
  | con c args v checks => exact Ty.renamedChecks_eq_map checks
  | var | table | union | all => rfl

include h hρ in
lemma inferBranch_mirrors (l l' : Location) (condition body : Node) (otherwise : Option Node) :
    Mirrors ρ (Image (Inferred.renamed ρ)) (inferBranch infer l condition body otherwise)
      (inferBranch infer l' (condition.renamed ρ) (body.renamed ρ)
        (otherwise.map (Node.renamed ρ))) := by
  refine (mirrors_inScope (h condition)).bind_image fun c => ?_
  refine (mirrors_unifyAt l l' c.type .boolean).bind fun _ _ _ => mirrors_inScope ?_
  simp only [Inferred.renamed, conditionChecks_renamed]
  refine (narrowTo_mirrors h hρ l l' _).bind fun _ _ _ => ?_
  refine (h body).bind_image fun b => ?_
  cases otherwise with
  | none => exact (mirrors_apply c.subst b.type).bind_image fun _ => .pure rfl
  | some other =>
    refine (narrowFrom_mirrors h hρ _).bind fun _ _ _ => ?_
    refine (h other).bind_image fun e => ?_
    refine (mirrors_compose e.subst b.subst).bind_image fun s => ?_
    refine (mirrors_unifyOrNot_broaden e.type b.type).bind ?_
    rintro _ _ ⟨t, _, _, left, _⟩
    refine (mirrors_naming (Ty.join_mirrors ρ left b.type)).bind_image fun joined => ?_
    refine (mirrors_apply t joined).bind_image fun u => ?_
    exact (mirrors_apply c.subst u).bind_image fun _ => .pure rfl

lemma joinReturns_mirrors (as bs : List Ty) :
    Naming.Mirrors ρ (Image (List.map (Ty.renamed ρ))) (joinReturns as bs)
      (joinReturns (as.map (Ty.renamed ρ)) (bs.map (Ty.renamed ρ))) := by
  induction as generalizing bs with
  | nil =>
    cases bs with
    | nil => exact .pure rfl
    | cons b bs =>
      refine .pure ?_
      simp only [Image, List.map_map]
      rfl
  | cons a as ih =>
    cases bs with
    | nil => exact .pure rfl
    | cons b bs =>
      refine (Ty.join_mirrors ρ a b).bind_image fun c => ?_
      exact (ih bs).bind_image fun cs => .pure rfl

lemma withArgs_renamed (args : List Ty) (t : Ty) :
    withArgs (args.map (Ty.renamed ρ)) (t.renamed ρ) = (withArgs args t).renamed ρ := by
  cases t with
  | con c as v checks => simp only [Ty.renamed_con, withArgs]
  | var | table | union | all => rfl

/-- What the statements of a chunk have come to, renamed. -/
def Progress.renamed (ρ : String → String) (p : Progress) : Progress :=
  ⟨p.subst.renamed ρ, p.result.map (Ty.renamed ρ), p.returned⟩

lemma addReturn_mirrors (l l' : Location) (p : Progress) (i : Inferred) :
    Mirrors ρ (Image (Progress.renamed ρ)) (addReturn l p i)
      (addReturn l' (p.renamed ρ) (i.renamed ρ)) := by
  obtain ⟨s, result, returned⟩ := p
  have hresult : (result.map (Ty.renamed ρ)).getD (i.type.renamed ρ) =
      (result.getD i.type).renamed ρ := by
    cases result <;> rfl
  -- the result so far, or what the statement returns
  have hkept : ∀ left : Ty, (if (result.map (Ty.renamed ρ)).isNone then left.renamed ρ
      else (result.getD i.type).renamed ρ) =
      (if result.isNone then left else result.getD i.type).renamed ρ := by
    intro left
    cases result <;> rfl
  simp only [addReturn, Progress.renamed, Inferred.renamed, hresult]
  refine .ite Iff.rfl ?_ ?_
  · refine (mirrors_unifyOrNot_broaden i.type (result.getD i.type)).bind ?_
    rintro _ _ ⟨t, _, _, left, _⟩
    simp only [hkept, argsOf_renamed]
    refine (mirrors_naming (joinReturns_mirrors _ (argsOf left))).bind_image fun args => ?_
    rw [withArgs_renamed]
    exact (mirrors_apply t _).bind_image fun u => .pure rfl
  · refine (mirrors_unifyAt_broaden l l' i.type (result.getD i.type)).bind ?_
    rintro _ _ ⟨t, _, _, left, _⟩
    simp only [hkept]
    exact .pure rfl

lemma isCall_renamed (n : Node) : isCall (n.renamed ρ) = isCall n := by
  cases n <;> rfl

include h in
lemma inferStatements_mirrors (l l' : Location) (p : Progress) (statements : List Node) :
    Mirrors ρ (Image (Progress.renamed ρ)) (inferStatements infer l p statements)
      (inferStatements infer l' (p.renamed ρ) (statements.map (Node.renamed ρ))) := by
  induction statements generalizing p with
  | nil => exact .pure rfl
  | cons statement rest ih =>
    have hlater : ∀ (i : Inferred) (q : Progress), Mirrors ρ (Image (Progress.renamed ρ))
        (do
          let s ← compose i.subst q.subst
          inferStatements infer l { q with subst := s } rest)
        (do
          let s ← compose (i.renamed ρ).subst (q.renamed ρ).subst
          inferStatements infer l' { q.renamed ρ with subst := s } (rest.map (Node.renamed ρ))) :=
      fun i q => (mirrors_compose i.subst q.subst).bind_image fun s => ih { q with subst := s }
    refine (h statement).bind_image fun i => ?_
    have hreturns : ((i.renamed ρ).type.isNamed "tuple" && !isCall (statement.renamed ρ)) =
        (i.type.isNamed "tuple" && !isCall statement) := by
      rw [isCall_renamed, Inferred.renamed, Ty.isNamed_renamed]
    rw [hreturns]
    refine .ite Iff.rfl ?_ (hlater i p)
    exact (addReturn_mirrors l l' p i).bind_image fun q => hlater i q

lemma addLast_mirrors (result : Option Ty) (last : Ty) :
    Mirrors ρ (Image (Ty.renamed ρ)) (addLast result last)
      (addLast (result.map (Ty.renamed ρ)) (last.renamed ρ)) := by
  cases result with
  | none => exact .pure rfl
  | some result =>
    refine (mirrors_unifyOrNot_broaden last result).bind ?_
    rintro _ _ ⟨s, _, _, left, _⟩
    refine (mirrors_apply_broaden s result).bind_image fun result => ?_
    rw [Ty.isNamed_renamed]
    refine .ite Iff.rfl ?_ (mirrors_fault rfl)
    rw [argsOf_renamed, argsOf_renamed]
    refine (mirrors_naming (joinReturns_mirrors (argsOf result) (argsOf left))).bind_image
      fun args => .pure ?_
    rw [Image, withArgs_renamed]

include h in
lemma inferChunk_mirrors (l l' : Location) (statements : List Node) (last : Option Node) :
    Mirrors ρ (Image (Inferred.renamed ρ)) (inferChunk infer l statements last)
      (inferChunk infer l' (statements.map (Node.renamed ρ)) (last.map (Node.renamed ρ))) := by
  refine mirrors_inScope ?_
  refine (inferStatements_mirrors h l l' ⟨.empty, none, false⟩ statements).bind_image fun p => ?_
  cases last with
  | some last =>
    refine (h last).bind_image fun i => ?_
    refine (addLast_mirrors p.result i.type).bind_image fun result => ?_
    exact (mirrors_compose i.subst p.subst).bind_image fun s => .pure rfl
  | none =>
    obtain ⟨s, result, returned⟩ := p
    cases result with
    | none => exact .pure rfl
    | some result =>
      refine .pure ?_
      have hmaybe : (argsOf (result.renamed ρ)).map (fun t => Ty.union t .nil) =
          ((argsOf result).map fun t => Ty.union t .nil).map (Ty.renamed ρ) := by
        rw [argsOf_renamed, List.map_map, List.map_map]
        rfl
      rw [Image, hmaybe, ← Ty.renamed_tuple]
      cases returned <;> rfl

end Statements

/-! ## The inference -/

/-- The rule for a tree mirrors itself on the renamed tree, if the inference of the parts does. -/
theorem inferStep_mirrors {infer : Inference} (h : Respects ρ infer) (hρ : Function.Injective ρ)
    (htype : ρ "type" = "type") (hrest : ρ "..." = "...") : Respects ρ (inferStep infer) := by
  intro n
  cases n with
  | var l x => exact inferVar_mirrors hρ l default x
  | nil | number | string | boolean => exact .pure rfl
  | vararg l => exact inferVararg_mirrors hρ hrest l default
  | table l fields =>
    simp only [Node.renamed, Node.renamedPairs_eq_map]
    exact inferFields_mirrors h .empty [] fields
  | index l object key => exact inferIndex_mirrors h l default object key
  | unary l op value => exact inferUnary_mirrors h l default op value
  | binary l left op right => exact inferBinary_mirrors h hρ htype left op right
  | function l params isVararg body name note =>
    exact inferFunction_mirrors h hρ hrest l default params isVararg body name note
  | call l callee args =>
    simp only [Node.renamed, Node.renamedList_eq_map]
    exact inferCall_mirrors h l default callee args
  | declare l names exprs note =>
    simp only [Node.renamed, Node.renamedList_eq_map, Node.renamedOption_eq_map]
    exact inferDeclare_mirrors h hρ l default names exprs note
  | assign l targets exprs =>
    simp only [Node.renamed, Node.renamedList_eq_map]
    exact inferAssign_mirrors h hρ l default targets exprs
  | returns l exprs =>
    simp only [Node.renamed, Node.renamedList_eq_map]
    exact inferReturn_mirrors h exprs
  | branch l condition body elseifs otherwise =>
    simp only [Node.renamed, Node.renamedOption_eq_map]
    exact inferBranch_mirrors h hρ l default condition body otherwise
  | reveal l expr => exact inferReveal_mirrors h l default expr
  | chunk l statements last =>
    simp only [Node.renamed, Node.renamedList_eq_map, Node.renamedOption_eq_map]
    exact inferChunk_mirrors h l default statements last
  | elseif | typeNote | resultNote => exact mirrors_fault rfl

/-- Inference to any depth mirrors itself on renamed trees. -/
theorem inferTo_mirrors (hρ : Function.Injective ρ) (htype : ρ "type" = "type")
    (hrest : ρ "..." = "...") (depth : Nat) : Respects ρ (inferTo depth) := by
  induction depth with
  | zero => exact fun _ => mirrors_fault rfl
  | succ depth ih => exact inferStep_mirrors ih hρ htype hrest

/-- The inference of a renamed tree. -/
theorem infer_mirrors (hρ : Function.Injective ρ) (htype : ρ "type" = "type")
    (hrest : ρ "..." = "...") : Respects ρ infer := by
  intro n
  have hdepth : depthFor (n.renamed ρ) = depthFor n := by
    rw [depthFor, depthFor, Node.size_renamed]
  rw [infer, infer, hdepth]
  exact inferTo_mirrors hρ htype hrest (depthFor n) n

end Check

/-! ## Two programs that differ by names and locations -/

/-- Two sessions with the same supply of variables, whose register has variables only, that differ
only by a renaming of the identifiers and by locations; letters and printed text need not agree. -/
structure Session.Alike (ρ : String → String) (σ σ' : Session) : Prop where
  supply : σ'.supply = σ.supply
  plain : σ.supply.Plain
  scopes : σ'.scopes.renamed id = σ.scopes.renamed ρ
  pending : σ'.pending = σ.pending.map ρ

/-- Two outcomes of an inference that differ only by a renaming of the identifiers and by locations;
what two reports say need not agree. -/
inductive Inferred.AlikeOutcomes (ρ : String → String) :
    Except Stop Inferred → Except Stop Inferred → Prop
  | report (l l' : Location) (m m' : String) :
      AlikeOutcomes ρ (.error (.report l m)) (.error (.report l' m'))
  | fault {f f' : Fault} (h : f'.renamed id = f.renamed ρ) :
      AlikeOutcomes ρ (.error (.fault f)) (.error (.fault f'))
  | ok {i i' : Inferred} (h : i'.renamed id = i.renamed ρ) : AlikeOutcomes ρ (.ok i) (.ok i')

/-- Outcomes that mirror a third one are alike. -/
lemma Inferred.AlikeOutcomes.of_agree {x x' y : Except Stop Inferred}
    (h : Agree (Stop.Mirrors ρ) (Image (Inferred.renamed ρ)) x y)
    (h' : Agree (Stop.Mirrors id) (Image (Inferred.renamed id)) x' y) :
    Inferred.AlikeOutcomes ρ x x' := by
  cases x with
  | ok i =>
    cases y with
    | error e => exact h.elim
    | ok j =>
      cases x' with
      | error e => exact h'.elim
      | ok i' => exact .ok (h'.symm.trans h)
  | error e =>
    cases y with
    | ok j => exact h.elim
    | error g =>
      cases x' with
      | ok i' => exact h'.elim
      | error e' =>
        cases h with
        | report l _ m _ =>
          cases h' with
          | report l' _ m' _ => exact .report l l' m m'
        | fault f =>
          simp only [Agree] at h'
          generalize hg : f.renamed ρ = g at h'
          cases h' with
          | fault f' => exact .fault hg.symm

lemma Inferred.AlikeOutcomes.exists_ok {i : Inferred} {x : Except Stop Inferred}
    (h : Inferred.AlikeOutcomes ρ (.ok i) x) : ∃ i', x = .ok i' ∧ i'.renamed id = i.renamed ρ := by
  cases h with
  | ok h => exact ⟨_, rfl, h⟩

lemma Session.Alike.of_mirrors {σ σ' τ : Session} (h : Session.Mirrors ρ σ τ)
    (h' : Session.Mirrors id σ' τ) : Session.Alike ρ σ σ' where
  supply := h'.supply.symm.trans h.supply
  plain := h.plain
  scopes := h'.scopes.symm.trans h.scopes
  pending := by rw [← h.pending, h'.pending, List.map_id]

lemma Session.Alike.exists_mirrors {σ σ' : Session} (h : Session.Alike ρ σ σ') :
    ∃ τ, Session.Mirrors ρ σ τ ∧ Session.Mirrors id σ' τ := by
  refine ⟨{ σ with scopes := σ.scopes.renamed ρ, pending := σ.pending.map ρ },
    ⟨rfl, h.plain, rfl, rfl⟩, h.supply.symm, h.supply ▸ h.plain, h.scopes.symm, ?_⟩
  rw [List.map_id, h.pending]

namespace Check

/-- Inference depends neither on the choice of identifiers nor on positions. Trees that differ only
by locations and by an injective renaming of the identifiers, which keeps the name `type` and the
name of the variable arguments, have alike outcomes in alike sessions, and leave alike sessions
behind, however the inference ends. -/
theorem infer_alike_of_renamed (hρ : Function.Injective ρ) (htype : ρ "type" = "type")
    (hrest : ρ "..." = "...") {n n' : Node} (hn : n'.renamed id = n.renamed ρ) {σ σ' : Session}
    (hσ : Session.Alike ρ σ σ') :
    Inferred.AlikeOutcomes ρ (outcome (infer n) σ).1 (outcome (infer n') σ').1 ∧
      Session.Alike ρ (outcome (infer n) σ).2 (outcome (infer n') σ').2 := by
  -- both runs mirror the run on the tree with the identifiers renamed and all locations forgotten
  obtain ⟨τ, hτ, hτ'⟩ := hσ.exists_mirrors
  obtain ⟨hagree, hafter⟩ := infer_mirrors hρ htype hrest n σ τ hτ
  obtain ⟨hagree', hafter'⟩ := infer_mirrors Function.injective_id rfl rfl n' σ' τ hτ'
  rw [hn] at hagree' hafter'
  exact ⟨.of_agree hagree hagree', .of_mirrors hafter hafter'⟩

/-- The program `function f(y) if type(y) == "string" then return x end end`, at a place. -/
def returnWhereString (l : Location) (x y : String) : Node :=
  .chunk l
    [.assign l [.var l "f"]
      [.function l [y] false
        (.chunk l
          [.branch l (.binary l (.call l (.var l "type") [.var l y]) .equal (.string l "string"))
            (.chunk l [] (some (.returns l [.var l x]))) [] none] none)
        (some "f") (.resultNote l none)]] none

/-- The session that a program starts with, and a number under a name that is pending, too. -/
def startingWith (x : String) : Session :=
  { Session.initial with scopes := Session.initial.scopes.bind x .number, pending := [x] }

/-- The program `function f(y) if type(y) == "string" then return x end end` is accepted where `x`
is a number. So is the program with `x` and `y` exchanged, at another place, where `y` is a number;
what is inferred and the sessions afterwards are alike. -/
theorem infer_alike_of_swapped :
    ∃ i i',
      (outcome (infer (returnWhereString default "x" "y")) (startingWith "x")).1 = .ok i ∧
      (outcome (infer (returnWhereString ⟨"main.lua", 3, 7⟩ "y" "x")) (startingWith "y")).1 =
        .ok i' ∧
      i'.renamed id = i.renamed (Equiv.swap "x" "y") ∧
      Session.Alike (Equiv.swap "x" "y")
        (outcome (infer (returnWhereString default "x" "y")) (startingWith "x")).2
        (outcome (infer (returnWhereString ⟨"main.lua", 3, 7⟩ "y" "x")) (startingWith "y")).2 := by
  have haccepted : ∃ i σ, outcome (infer (returnWhereString default "x" "y")) (startingWith "x") =
      (.ok i, σ) := exists_of_isOk (by decide +kernel)
  obtain ⟨i, σ, h⟩ := haccepted
  have hstart : Session.Alike (Equiv.swap "x" "y") (startingWith "x") (startingWith "y") :=
    ⟨rfl, by simp [Supply.Plain, startingWith, Session.initial], by rfl, by rfl⟩
  have hrenamed : (returnWhereString ⟨"main.lua", 3, 7⟩ "y" "x").renamed id =
      (returnWhereString default "x" "y").renamed (Equiv.swap "x" "y") := by rfl
  obtain ⟨houtcome, hafter⟩ := infer_alike_of_renamed (Equiv.swap "x" "y").injective (by decide)
    (by decide) hrenamed hstart
  rw [h] at houtcome
  obtain ⟨i', hi', hsame⟩ := houtcome.exists_ok
  exact ⟨i, i', congrArg Prod.fst h, hi', hsame, hafter⟩

end Check

end LuaTyping
