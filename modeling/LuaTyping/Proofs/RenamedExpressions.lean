import LuaTyping.Proofs.RenamedSessions

set_option autoImplicit false

/-!
# Expressions under a renaming

The rules for expressions mirror themselves on renamed trees, if the inference of the parts does.
Two names are known to the rules and have to be kept: that of the standard function `type`, whose
calls are tests, and that of the variable arguments.

## Main results

* `Check.inferVar_mirrors`, `Check.inferVararg_mirrors` — names.
* `Check.inferFields_mirrors`, `Check.inferIndex_mirrors` — tables.
* `Check.inferUnary_mirrors`, `Check.inferBinary_mirrors` — operators.
* `Check.inferFunction_mirrors`, `Check.inferCall_mirrors` — functions.
-/

namespace LuaTyping

namespace Check

variable {ρ : String → String}

/-! ## Expressions -/

lemma mirrors_instance (t : Ty) :
    Mirrors ρ (Image (Inferred.renamed ρ)) (do return ofType (← instantiate t))
      (do return ofType (← instantiate (t.renamed ρ))) :=
  (mirrors_instantiate t).bind_image fun _ => .pure rfl

lemma inferVar_mirrors (hρ : Function.Injective ρ) (l l' : Location) (x : String) :
    Mirrors ρ (Image (Inferred.renamed ρ)) (inferVar l x) (inferVar l' (ρ x)) := by
  refine mirrors_get.bind fun σ τ hσ => ?_
  simp only [hσ.scopes, hσ.pending, Scopes.local?_renamed hρ, Scopes.global?_renamed hρ]
  cases σ.scopes.local? x with
  | some t => exact mirrors_instance t
  | none =>
    cases σ.scopes.global? x with
    | some t => exact mirrors_instance t
    | none =>
      have hpending :
          (σ.pending.contains x = true) ↔ ((σ.pending.map ρ).contains (ρ x) = true) := by
        rw [List.contains_iff_mem, List.contains_iff_mem, List.mem_map_of_injective hρ]
      exact .ite hpending (mirrors_report _ _ _ _) (mirrors_report _ _ _ _)

lemma inferVararg_mirrors (hρ : Function.Injective ρ) (hrest : ρ "..." = "...") (l l' : Location) :
    Mirrors ρ (Image (Inferred.renamed ρ)) (inferVararg l) (inferVararg l') := by
  refine mirrors_scopes.bind_image fun s => ?_
  have hlocal := Scopes.local?_renamed hρ (s := s) (x := "...")
  rw [hrest] at hlocal
  simp only [hlocal]
  cases s.local? "..." with
  | none => exact mirrors_report _ _ _ _
  | some t => exact (mirrors_instantiate t).bind_image fun _ => .pure rfl

lemma enterField_mirrors (k v : Ty) (fields : List (Ty × Ty)) :
    Mirrors ρ (Image (List.map (Ty.renamedField ρ))) (enterField k v fields)
      (enterField (k.renamed ρ) (v.renamed ρ)
        (fields.map (Ty.renamedField ρ))) := by
  induction fields with
  | nil => exact .pure rfl
  | cons f fields ih =>
    obtain ⟨l, w⟩ := f
    refine (mirrors_naming (Ty.fits_mirrors ρ k l)).bind_eq fun covered => ?_
    refine .ite Iff.rfl ?_ (ih.bind_image fun _ => .pure rfl)
    refine (mirrors_naming (unify_mirrors ρ v w)).bind ?_
    rintro _ _ (⟨m, m', a, b⟩ | ⟨s, a, b⟩)
    · exact (mirrors_naming (Ty.join_mirrors ρ a b)).bind_image fun _ => .pure rfl
    · exact (mirrors_apply_broaden s b).bind_image fun _ => .pure rfl

lemma typeNamed?_mirrors (name : String) :
    Mirrors ρ (Image (Option.map (Ty.renamed ρ))) (typeNamed? name) (typeNamed? name) := by
  unfold typeNamed?
  split
  · exact .pure rfl
  · exact .pure rfl
  · exact .pure rfl
  · exact .pure rfl
  · exact .pure rfl
  · exact mirrors_fresh.bind_image fun params => mirrors_fresh.bind_image fun result =>
      mirrors_fresh.bind_image fun rest => .pure rfl
  · exact .pure rfl

/-- The operands of a comparison that tests an expression with the standard `type` function: the
expression, and the name that it is compared with. -/
def typeTest? : Node → Node → Option (Node × String)
  | .call _ (.var _ "type") [arg], .string _ name => some (arg, name)
  | _, _ => none

/-- What such a test lets conclude, unless `type` is a local name. -/
def testChecks (arg : Node) (name : String) : Check (List Checked) := do
  if arg.isPlace && !(← scopes).isLocal "type" then
    match ← typeNamed? name with
    | some t => pure [(arg, t)]
    | none => pure []
  else pure []

lemma comparisonChecks_eq (left right : Node) (a b : Ty) :
    comparisonChecks left right a b = (do
      let ofTest ← match typeTest? left right with
        | some (arg, name) => testChecks arg name
        | none => pure []
      return (if left.isPlace then [(left, b)] else []) ++
        (if right.isPlace then [(right, a)] else []) ++ ofTest) := by
  unfold comparisonChecks
  generalize (if left.isPlace then [(left, b)] else []) = ofLeft
  generalize (if right.isPlace then [(right, a)] else []) = ofRight
  dsimp only
  split
  · simp only [typeTest?, testChecks, bind_assoc]
    refine bind_congr fun s => ?_
    split
    · rw [bind_assoc]
      refine bind_congr fun t => ?_
      cases t <;> rfl
    · rfl
  · rename_i hother
    rw [typeTest?]
    exact hother

section Known

variable (hρ : Function.Injective ρ) (htype : ρ "type" = "type")

include hρ htype

lemma typeTest?_renamed (left right : Node) :
    typeTest? (left.renamed ρ) (right.renamed ρ) =
      (typeTest? left right).map (Prod.map (Node.renamed ρ) id) := by
  cases left with
  | call l callee args =>
    cases callee with
    | var lv x =>
      by_cases hx : x = "type"
      · subst hx
        match args with
        | [] => cases right <;> simp [Node.renamed, typeTest?]
        | [arg] => cases right <;> simp [Node.renamed, typeTest?, htype]
        | _ :: _ :: _ => cases right <;> simp [Node.renamed, typeTest?]
      · have hne : ρ x ≠ "type" := fun heq => hx (hρ (heq.trans htype.symm))
        simp [Node.renamed, typeTest?, hx, hne]
    | _ => rfl
  | _ => rfl

lemma testChecks_mirrors (arg : Node) (name : String) :
    Mirrors ρ (Image (List.map (Ty.renamedCheck ρ))) (testChecks arg name)
      (testChecks (arg.renamed ρ) name) := by
  refine mirrors_scopes.bind_image fun s => ?_
  have hlocal := Scopes.isLocal_renamed hρ (s := s) (x := "type")
  rw [htype] at hlocal
  rw [Node.isPlace_renamed, hlocal]
  refine .ite Iff.rfl ?_ (.pure rfl)
  refine (typeNamed?_mirrors name).bind_image fun t => ?_
  cases t with
  | none => exact .pure rfl
  | some t => exact .pure rfl

lemma comparisonChecks_mirrors (left right : Node) (a b : Ty) :
    Mirrors ρ (Image (List.map (Ty.renamedCheck ρ))) (comparisonChecks left right a b)
      (comparisonChecks (left.renamed ρ) (right.renamed ρ) (a.renamed ρ) (b.renamed ρ)) := by
  have hplaces : ∀ ofTest : List Checked,
      (if left.isPlace then [(left.renamed ρ, b.renamed ρ)] else []) ++
          (if right.isPlace then [(right.renamed ρ, a.renamed ρ)] else []) ++
          ofTest.map (Ty.renamedCheck ρ) =
        ((if left.isPlace then [(left, b)] else []) ++
          (if right.isPlace then [(right, a)] else []) ++ ofTest).map
            (Ty.renamedCheck ρ) := by
    intro ofTest
    cases left.isPlace <;> cases right.isPlace <;> simp
  rw [comparisonChecks_eq, comparisonChecks_eq, typeTest?_renamed hρ htype]
  simp only [Node.isPlace_renamed]
  cases typeTest? left right with
  | none => exact .pure (hplaces [])
  | some test =>
    exact (testChecks_mirrors hρ htype test.1 test.2).bind_image fun ofTest =>
      .pure (hplaces ofTest)

lemma inferComparison_mirrors (left right : Node) (a b : Inferred) :
    Mirrors ρ (Image (Inferred.renamed ρ)) (inferComparison left right a b)
      (inferComparison (left.renamed ρ) (right.renamed ρ) (a.renamed ρ) (b.renamed ρ)) := by
  refine (mirrors_unifyOrNot a.type b.type).bind ?_
  rintro _ _ ⟨s, o, o', l, r⟩
  -- whatever the second unification lets conclude
  have hchecks : ∀ s l r, Mirrors ρ (Image (Inferred.renamed ρ))
      (comparisonOf left right a b l r s) (comparisonOf (left.renamed ρ) (right.renamed ρ)
        (a.renamed ρ) (b.renamed ρ) (l.renamed ρ) (r.renamed ρ) (s.renamed ρ)) := by
    intro s l r
    refine (comparisonChecks_mirrors hρ htype left right l r).bind_image fun checks => ?_
    refine (mirrors_compose b.subst s).bind_image fun t => ?_
    refine (mirrors_compose a.subst t).bind_image fun u => .pure ?_
    rw [Image, Inferred.renamed, Ty.renamed_con]
    rfl
  refine (mirrors_naming (unify_mirrors ρ l r)).bind ?_
  rintro _ _ (⟨m, m', l, r⟩ | ⟨t, l, r⟩)
  · exact hchecks s l r
  · exact (mirrors_compose t s).bind_image fun both => hchecks both l r

end Known

lemma inferUniform_mirrors (left right : Node) (a b : Inferred) {wanted result : Ty}
    (hwanted : wanted.renamed ρ = wanted) (hresult : result.renamed ρ = result) :
    Mirrors ρ (Image (Inferred.renamed ρ)) (inferUniform left right a b wanted result)
      (inferUniform (left.renamed ρ) (right.renamed ρ) (a.renamed ρ) (b.renamed ρ) wanted
        result) := by
  have hfirst := mirrors_unifyAt (ρ := ρ) left.location (left.renamed ρ).location a.type wanted
  have hsecond := mirrors_unifyAt (ρ := ρ) right.location (right.renamed ρ).location b.type wanted
  rw [hwanted] at hfirst hsecond
  refine hfirst.bind ?_
  rintro _ _ ⟨s, o, o', l, r⟩
  refine hsecond.bind ?_
  rintro _ _ ⟨t, o, o', l, r⟩
  refine (mirrors_compose a.subst b.subst).bind_image fun both => ?_
  refine (mirrors_compose t both).bind_image fun u => ?_
  refine (mirrors_compose s u).bind_image fun w => .pure ?_
  rw [Image, Inferred.renamed, hresult]

lemma checksOf_mirrors (t : Ty) :
    Mirrors ρ (Image (List.map (Ty.renamedCheck ρ))) (checksOf t) (checksOf (t.renamed ρ)) := by
  cases t with
  | con c args v checks =>
    rw [Ty.renamed_con]
    exact .pure rfl
  | var | table | union | all => exact mirrors_fault rfl

lemma inferConnective_mirrors (left right : Node) (a b : Inferred) :
    Mirrors ρ (Image (Inferred.renamed ρ)) (inferConnective left right a b)
      (inferConnective (left.renamed ρ) (right.renamed ρ) (a.renamed ρ) (b.renamed ρ)) := by
  refine (mirrors_unifyAt left.location (left.renamed ρ).location a.type .boolean).bind ?_
  rintro _ _ ⟨s, o, o', l, r⟩
  refine (mirrors_unifyAt right.location (right.renamed ρ).location b.type .boolean).bind ?_
  rintro _ _ ⟨t, o, o', l', r'⟩
  refine (mirrors_apply s l).bind_image fun first => ?_
  refine (mirrors_apply t l').bind_image fun second => ?_
  refine (checksOf_mirrors first).bind_image fun checks => ?_
  refine (checksOf_mirrors second).bind_image fun more => ?_
  refine (mirrors_compose a.subst b.subst).bind_image fun both => ?_
  refine (mirrors_compose t both).bind_image fun u => ?_
  refine (mirrors_compose s u).bind_image fun w => .pure ?_
  rw [Image, Inferred.renamed, Ty.renamed_con, List.map_append]
  rfl

/-! ## Rules for expressions -/

section Rules

variable {infer : Inference} (h : Respects ρ infer) (hρ : Function.Injective ρ)
  (htype : ρ "type" = "type") (hrest : ρ "..." = "...")

include h

lemma inferFields_mirrors (s : Subst) (types : List (Ty × Ty)) (fields : List (Node × Node)) :
    Mirrors ρ (Image (Inferred.renamed ρ)) (inferFields infer s types fields)
      (inferFields infer (s.renamed ρ) (types.map (Ty.renamedField ρ))
        (fields.map (Prod.map (Node.renamed ρ) (Node.renamed ρ)))) := by
  induction fields generalizing s types with
  | nil =>
    refine .pure ?_
    rw [Image, Inferred.renamed, Ty.renamed_table]
  | cons field rest ih =>
    obtain ⟨key, value⟩ := field
    -- an entry that is no list of variable arguments is entered after its key and value
    have hentry : Mirrors ρ (Image (Inferred.renamed ρ))
        (do
          let k ← infer key
          let v ← infer value
          let s ← compose k.subst s
          let s ← compose v.subst s
          inferFields infer s (← enterField k.type v.type types) rest)
        (do
          let k ← infer (key.renamed ρ)
          let v ← infer (value.renamed ρ)
          let s ← compose k.subst (s.renamed ρ)
          let s ← compose v.subst s
          inferFields infer s (← enterField k.type v.type
            (types.map (Ty.renamedField ρ)))
            (rest.map (Prod.map (Node.renamed ρ) (Node.renamed ρ)))) :=
      (h key).bind_image fun k => (h value).bind_image fun v =>
        (mirrors_compose k.subst s).bind_image fun s => (mirrors_compose v.subst s).bind_image
          fun s => (enterField_mirrors k.type v.type types).bind_image fun types => ih s types
    cases value with
    | vararg l =>
      cases key with
      | number lk n =>
        refine (h (.vararg l)).bind_image fun more => ?_
        obtain ⟨s', t⟩ := more
        cases t with
        | table fields =>
          simp only [Inferred.renamed, Ty.renamed_table]
          refine (mirrors_compose s' s).bind_image fun s => ?_
          refine (mirrors_member (g := Ty.renamedField ρ) fields 0).bind_image
            fun p => ?_
          have hlater := ih s (types ++ [(.number, p.2)])
          rwa [List.map_append] at hlater
        | var | con | union | all => exact mirrors_fault rfl
      | _ => exact mirrors_fault rfl
    | _ => exact hentry

lemma inferIndex_mirrors (l l' : Location) (object key : Node) :
    Mirrors ρ (Image (Inferred.renamed ρ)) (inferIndex infer l object key)
      (inferIndex infer l' (object.renamed ρ) (key.renamed ρ)) := by
  refine (h object).bind_image fun o => ?_
  refine (h key).bind_image fun k => ?_
  refine mirrors_fresh.bind_image fun result => ?_
  refine (mirrors_unifyAt l l' (.table [(k.type, result)]) o.type).bind ?_
  rintro _ _ ⟨s, _, _, _, _⟩
  refine (mirrors_compose k.subst o.subst).bind_image fun t => ?_
  refine (mirrors_compose s t).bind_image fun u => ?_
  exact (mirrors_apply u result).bind_image fun _ => .pure rfl

lemma inferUnary_mirrors (l l' : Location) (op : UnaryOp) (value : Node) :
    Mirrors ρ (Image (Inferred.renamed ρ)) (inferUnary infer l op value)
      (inferUnary infer l' op (value.renamed ρ)) := by
  refine (h value).bind_image fun v => ?_
  refine (mirrors_ofExcept v.type.flatten_agrees).bind_image fun t => ?_
  have hdemand : ∀ wanted result : Ty, wanted.renamed ρ = wanted → result.renamed ρ = result →
      Mirrors ρ (Image (Inferred.renamed ρ)) (demand l v.subst t wanted result)
        (demand l' (v.subst.renamed ρ) (t.renamed ρ) wanted result) := by
    intro wanted result hwanted hresult
    have hunify := mirrors_unifyAt (ρ := ρ) l l' t wanted
    rw [hwanted] at hunify
    refine hunify.bind ?_
    rintro _ _ ⟨s, _, _, _, _⟩
    refine (mirrors_compose s v.subst).bind_image fun u => .pure ?_
    rw [Image, Inferred.renamed, hresult]
  cases op with
  | negate => exact hdemand _ _ rfl rfl
  | length => exact hdemand _ _ rfl rfl
  | not => exact hdemand _ _ rfl rfl
  | other => exact mirrors_fault rfl

include hρ htype in
lemma inferBinary_mirrors (left : Node) (op : BinaryOp) (right : Node) :
    Mirrors ρ (Image (Inferred.renamed ρ)) (inferBinary infer left op right)
      (inferBinary infer (left.renamed ρ) op (right.renamed ρ)) := by
  refine (h left).bind_image fun a => ?_
  refine (mirrors_ofExcept a.type.flatten_agrees).bind_image fun t => ?_
  refine (h right).bind_image fun b => ?_
  refine (mirrors_ofExcept b.type.flatten_agrees).bind_image fun u => ?_
  cases op.family? with
  | none => exact mirrors_fault rfl
  | some family =>
    cases family with
    | arithmetic => exact inferUniform_mirrors left right ⟨a.subst, t⟩ ⟨b.subst, u⟩ rfl rfl
    | ordering => exact inferUniform_mirrors left right ⟨a.subst, t⟩ ⟨b.subst, u⟩ rfl rfl
    | joining => exact inferUniform_mirrors left right ⟨a.subst, t⟩ ⟨b.subst, u⟩ rfl rfl
    | comparison => exact inferComparison_mirrors hρ htype left right ⟨a.subst, t⟩ ⟨b.subst, u⟩
    | connective => exact inferConnective_mirrors left right ⟨a.subst, t⟩ ⟨b.subst, u⟩

omit h in
include hρ in
lemma bindParams_mirrors (xs : List String) :
    Mirrors ρ (Image (List.map (Ty.renamed ρ))) (bindParams xs) (bindParams (xs.map ρ)) := by
  induction xs with
  | nil => exact .pure rfl
  | cons x xs ih =>
    refine mirrors_fresh.bind_image fun t => ?_
    refine (mirrors_bind hρ x t).bind fun _ _ _ => ?_
    exact ih.bind_image fun ts => .pure rfl

omit h in
include hρ hrest in
lemma bindVararg_mirrors (isVararg : Bool) :
    Mirrors ρ (Image (Ty.renamed ρ)) (bindVararg isVararg) (bindVararg isVararg) := by
  refine .ite Iff.rfl ?_ (.pure rfl)
  refine mirrors_fresh.bind_image fun t => ?_
  have hbind := mirrors_bind hρ "..." (.table [(.number, t)])
  rw [hrest] at hbind
  exact hbind.bind fun _ _ _ => .pure rfl

omit h in
lemma annotated_mirrors (note : Node) :
    Mirrors ρ (Image (Option.map (Ty.renamed ρ))) (annotated note)
      (annotated (note.renamed ρ)) := by
  cases note with
  | resultNote l t => exact .pure (Node.renamedResult_eq_map t)
  | _ => exact mirrors_fault rfl

include hρ hrest in
lemma inferFunction_mirrors (l l' : Location) (params : List String) (isVararg : Bool)
    (body : Node) (name : Option String) (note : Node) :
    Mirrors ρ (Image (Inferred.renamed ρ)) (inferFunction infer l params isVararg body name note)
      (inferFunction infer l' (params.map ρ) isVararg (body.renamed ρ) (name.map ρ)
        (note.renamed ρ)) := by
  refine mirrors_inScope ?_
  refine (bindParams_mirrors hρ params).bind_image fun types => ?_
  refine (bindVararg_mirrors hρ hrest isVararg).bind_image fun rest => ?_
  refine (annotated_mirrors note).bind_image fun wanted => ?_
  -- from the body on, whether or not the function is bound in it
  have hbody : Mirrors ρ (Image (Inferred.renamed ρ))
      (infer body >>= functionOf l isVararg types rest wanted)
      (infer (body.renamed ρ) >>= functionOf l' isVararg (types.map (Ty.renamed ρ)) (rest.renamed ρ)
        (wanted.map (Ty.renamed ρ))) := by
    refine (h body).bind_image fun b => ?_
    have htypes := mirrors_apply (ρ := ρ) b.subst (.tuple types)
    rw [Ty.renamed_tuple] at htypes
    refine htypes.bind_image fun params => ?_
    cases wanted with
    | none => exact .pure rfl
    | some wanted =>
      refine (mirrors_unifyAt l l' b.type wanted).bind ?_
      rintro _ _ ⟨s, _, _, _, r⟩
      exact (mirrors_apply s r).bind_image fun result => .pure rfl
  cases wanted with
  | none => exact hbody
  | some result =>
    cases name with
    | none => exact hbody
    | some x =>
      have hbind := mirrors_bind hρ x (.function (.tuple types) result .nil none)
      simp only [Ty.function, Ty.tuple, Ty.renamed_con, List.map_cons, List.map_nil] at hbind
      exact hbind.bind fun _ _ _ => hbody

end Rules

/-! ## Calls -/

@[simp]
lemma argsOf_renamed (t : Ty) : argsOf (t.renamed ρ) = (argsOf t).map (Ty.renamed ρ) := by
  cases t with
  | con c args v checks => exact Ty.renamedList_eq_map args
  | var | table | union | all => rfl

lemma map_broaden_renamed (types : List Ty) :
    (types.map (Ty.renamed ρ)).map Ty.broaden = (types.map Ty.broaden).map (Ty.renamed ρ) := by
  simp only [List.map_map, Function.comp_def, Ty.broaden_renamed]

lemma inferRest_mirrors (l l' : Location) (found : Option Ty) (ts : List Ty) :
    Mirrors ρ (Image (Option.map (Ty.renamed ρ))) (inferRest l found ts)
      (inferRest l' (found.map (Ty.renamed ρ)) (ts.map (Ty.renamed ρ))) := by
  induction ts generalizing found with
  | nil => exact .pure rfl
  | cons t ts ih =>
    have hunify := mirrors_unifyAt (ρ := ρ) l l' t (found.getD t.broaden)
    have hfound : (found.getD t.broaden).renamed ρ =
        (found.map (Ty.renamed ρ)).getD (t.renamed ρ).broaden := by
      cases found with
      | none => exact (Ty.broaden_renamed t).symm
      | some u => rfl
    rw [hfound] at hunify
    refine hunify.bind ?_
    rintro _ _ ⟨s, _, _, _, r⟩
    refine (mirrors_apply s r).bind_image fun u => ?_
    rw [Ty.broaden_renamed]
    exact ih (some u.broaden)

lemma wanted_renamed (types : List Ty) (result : Ty) :
    wanted (types.map (Ty.renamed ρ)) (result.renamed ρ) = (wanted types result).renamed ρ := by
  simp only [wanted, Ty.function, Ty.tuple, Ty.renamed_con, List.map_cons, List.map_nil]
  rfl

lemma callUnknown_mirrors (l l' : Location) (x : String) (f args : Subst) (types : List Ty)
    (result : Ty) :
    Mirrors ρ (Image (Inferred.renamed ρ)) (callUnknown l x f args types result)
      (callUnknown l' x (f.renamed ρ) (args.renamed ρ) (types.map (Ty.renamed ρ))
        (result.renamed ρ)) := by
  have hunify := mirrors_unifyAt (ρ := ρ) l l' (wanted (types.map Ty.broaden) result) (.var x)
  rw [← wanted_renamed, ← map_broaden_renamed] at hunify
  refine hunify.bind ?_
  rintro _ _ ⟨s, _, _, _, _⟩
  refine (mirrors_compose f args).bind_image fun both => ?_
  refine (mirrors_compose s both).bind_image fun all => ?_
  refine (mirrors_compose s f).bind_image fun own => ?_
  exact (mirrors_apply own result).bind_image fun _ => .pure rfl

lemma splitArgs_mirrors (l l' : Location) (fargs : List Ty) (value : Option Literal)
    (types : List Ty) :
    Mirrors ρ (Image (Prod.map (List.map (Ty.renamed ρ)) (Option.map (Ty.renamed ρ))))
      (splitArgs l fargs value types)
      (splitArgs l' (fargs.map (Ty.renamed ρ)) value (types.map (Ty.renamed ρ))) := by
  refine .ite Iff.rfl ?_ (.pure rfl)
  refine (mirrors_member (g := Ty.renamed ρ) fargs 0).bind_image fun params => ?_
  cases params with
  | con c params v checks =>
    rw [Ty.renamed_con]
    dsimp only
    rw [List.length_map, ← List.map_drop, ← List.map_take]
    exact (inferRest_mirrors l l' none _).bind_image fun rest => .pure rfl
  | var | table | union | all => exact mirrors_fault rfl

lemma bindRest_mirrors (rest : Option Ty) (fargs : List Ty) (s : Subst) :
    Mirrors ρ (Image (Subst.renamed ρ)) (bindRest rest fargs s)
      (bindRest (rest.map (Ty.renamed ρ)) (fargs.map (Ty.renamed ρ)) (s.renamed ρ)) := by
  cases rest with
  | none => exact .pure rfl
  | some t =>
    refine (mirrors_member (g := Ty.renamed ρ) fargs 2).bind_image fun r => ?_
    rw [Ty.isPlainNil_renamed]
    refine .ite Iff.rfl (.pure rfl) ?_
    cases r with
    | var y => exact mirrors_compose (.single y t) s
    | con | table | union | all => exact mirrors_fault rfl

lemma callKnown_mirrors (l l' : Location) (callee : Ty) (value : Option Literal) (f args : Subst)
    (types : List Ty) (result : Ty) :
    Mirrors ρ (Image (Inferred.renamed ρ)) (callKnown l callee value f args types result)
      (callKnown l' (callee.renamed ρ) value (f.renamed ρ) (args.renamed ρ)
        (types.map (Ty.renamed ρ)) (result.renamed ρ)) := by
  have hsplit := splitArgs_mirrors (ρ := ρ) l l' (argsOf callee) value types
  rw [← argsOf_renamed] at hsplit
  refine hsplit.bind_image fun p => ?_
  obtain ⟨types, rest⟩ := p
  have hunify := mirrors_unifyAt (ρ := ρ) l l' (wanted types result) callee
  rw [← wanted_renamed] at hunify
  refine hunify.bind ?_
  rintro _ _ ⟨s, _, _, left, right⟩
  -- the arguments after the first unification
  have hargs : argsOf ((argsOf (left.renamed ρ)).headD (.tuple (types.map (Ty.renamed ρ)))) =
      (argsOf ((argsOf left).headD (.tuple types))).map (Ty.renamed ρ) := by
    rw [argsOf_renamed]
    cases argsOf left with
    | nil => rfl
    | cons a as => exact argsOf_renamed a
  dsimp only [Prod.map]
  rw [hargs, argsOf_renamed]
  generalize argsOf ((argsOf left).headD (.tuple types)) = types
  generalize argsOf right = fargs
  refine (mirrors_member (g := Ty.renamed ρ) fargs 0).bind_image fun params => ?_
  have hparams := mirrors_unifyAt (ρ := ρ) l l' params (.tuple types)
  rw [Ty.renamed_tuple] at hparams
  refine hparams.bind ?_
  rintro _ _ ⟨t, _, _, first, _⟩
  have hrest := bindRest_mirrors (ρ := ρ) rest (first :: fargs.drop 1) t
  rw [List.map_cons, List.map_drop] at hrest
  refine hrest.bind_image fun t => ?_
  refine (mirrors_compose f args).bind_image fun both => ?_
  refine (mirrors_compose s both).bind_image fun u => ?_
  refine (mirrors_compose t u).bind_image fun all => ?_
  exact (mirrors_apply all result).bind_image fun _ => .pure rfl

lemma components_renamed (t : Ty) :
    (t.renamed ρ).components = t.components.map (Ty.renamed ρ) := by
  unfold Ty.components
  rw [Ty.tupleArgs?_renamed]
  cases t.tupleArgs? with
  | none => rfl
  | some args => rfl

lemma inferEach_mirrors {infer : Inference} (h : Respects ρ infer)
    {spread : Node → Ty → Check (List Ty)} (hspread : ∀ e t, Mirrors ρ
      (Image (List.map (Ty.renamed ρ))) (spread e t) (spread (e.renamed ρ) (t.renamed ρ)))
    (s : Subst) (types : List Ty) (exprs : List Node) :
    Mirrors ρ (Image (Prod.map (Subst.renamed ρ) (List.map (Ty.renamed ρ))))
      (inferEach infer spread s types exprs)
      (inferEach infer spread (s.renamed ρ) (types.map (Ty.renamed ρ))
        (exprs.map (Node.renamed ρ))) := by
  induction exprs generalizing s types with
  | nil => exact .pure rfl
  | cons expr rest ih =>
    refine (h expr).bind_image fun e => ?_
    refine (hspread expr e.type).bind_image fun more => ?_
    refine (mirrors_compose e.subst s).bind_image fun s => ?_
    rw [← List.map_append]
    exact ih s _

lemma inferArgs_mirrors {infer : Inference} (h : Respects ρ infer) (s : Subst) (types : List Ty)
    (args : List Node) :
    Mirrors ρ (Image (Prod.map (Subst.renamed ρ) (List.map (Ty.renamed ρ))))
      (inferArgs infer s types args)
      (inferArgs infer (s.renamed ρ) (types.map (Ty.renamed ρ)) (args.map (Node.renamed ρ))) := by
  refine inferEach_mirrors h (fun _ t => .pure ?_) s types args
  rw [components_renamed, map_broaden_renamed]

lemma inferCall_mirrors {infer : Inference} (h : Respects ρ infer) (l l' : Location) (callee : Node)
    (args : List Node) :
    Mirrors ρ (Image (Inferred.renamed ρ)) (inferCall infer l callee args)
      (inferCall infer l' (callee.renamed ρ) (args.map (Node.renamed ρ))) := by
  refine (inferArgs_mirrors h .empty [] args).bind_image fun p => ?_
  refine mirrors_fresh.bind_image fun result => ?_
  refine (h callee).bind_image fun f => ?_
  refine (mirrors_ofExcept f.type.flatten_agrees).bind_image fun t => ?_
  cases t with
  | var x => exact callUnknown_mirrors l l' x f.subst p.1 p.2 result
  | con c fargs value checks =>
    exact callKnown_mirrors l l' (.con c fargs value checks) value f.subst p.1 p.2 result
  | table | union | all => exact mirrors_fault rfl

end Check

end LuaTyping
