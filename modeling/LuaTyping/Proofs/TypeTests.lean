import LuaTyping.Proofs.KindKeeping
import LuaTyping.Proofs.NamedTypes

set_option autoImplicit false

/-!
# Type tests

A test `type(x) == "name"` narrows `x` in two ways. Narrowing by the condition alone gives `x` the
meet of its type with what the name stands for. The conditional statement infers the test: the call
of the standard function, whose type is instantiated, unified with what the call wants and composed
with what was found; then the comparison, whose type carries what it lets conclude; and narrows by
that, in a scope of its own, before it infers the block. For a closed type other than a tuple, both
come to the same: the only thing that depends on the type is the meet, and everything else, if it
ends at all, has the same effect for all types.

## Main definitions

* `Check.Testable` — a name has a closed type, and the standard function can be called.
* `Check.TypeTest`, `Check.ReturnBlock` — the test, and the block `return x`.

## Main results

* `Check.narrowing_agrees` — both ways agree.
-/

namespace LuaTyping

lemma Ensures.bind_of_eq {ε σ α β : Type} {x : ExceptT ε (StateM σ) α}
    {f : α → ExceptT ε (StateM σ) β} {s s' : σ} {a : α} {Q : β → σ → Prop} {E : ε → σ → Prop}
    (h : outcome x s = (.ok a, s')) (hf : Ensures (f a) s' Q E) : Ensures (x >>= f) s Q E := by
  unfold Ensures at hf ⊢
  rw [outcome_bind, h]
  exact hf

namespace Check

open Naming Ty

/-! ## Steps that report nothing -/

/-- A stop with a fault, not with a report. -/
def Faults (e : Stop) (_ : Session) : Prop := ∃ f, e = .fault f

section Rules

variable {α : Type} {σ : Session} {x name : String} {T : Ty} {l : Location}

/-- Showing types and comparing them reports nothing and binds nothing. -/
lemma ensures_naming {y : Naming α} {Q : α → Prop} (h : y.Sat Q fun _ => True) :
    Ensures (naming y) σ (fun a σ' => Q a ∧ σ'.scopes = σ.scopes) Faults := by
  have hy := h σ.letters
  unfold Ensures at hy ⊢
  rw [outcome_naming]
  rcases houtcome : outcome y σ.letters with ⟨f | a, letters⟩ <;> rw [houtcome] at hy
  · exact ⟨f, rfl⟩
  · exact ⟨hy, rfl⟩

/-- Types that unify, unless that ends in a fault. -/
lemma ensures_unifyAt {a b : Ty} {Q : Subst → Prop}
    (h : (unify a b).Sat (fun u => ∃ s, u.outcome = .ok s ∧ Q s) fun _ => True) :
    Ensures (unifyAt l a b) σ (fun p σ' => Q p.1 ∧ σ'.scopes = σ.scopes) Faults := by
  refine .bind (ensures_naming h) ?_
  rintro u σ' ⟨⟨s, hs, hQ⟩, hscopes⟩
  rw [hs]
  exact .pure ⟨hQ, hscopes⟩

lemma outcome_get : outcome (get : Check Session) σ = (.ok σ, σ) := rfl

lemma outcome_compose_empty (s : Subst) : outcome (compose s .empty) σ = (.ok s, σ) := by
  obtain ⟨bindings, returning⟩ := s
  cases returning <;> rfl

lemma outcome_inferVar (hx : σ.scopes.local? x = some T) (hT : T.Ground) :
    outcome (inferVar l x) σ = (.ok (ofType T), σ) := by
  have hinstance : outcome (instantiate T) σ = (.ok T, σ) := by
    simp only [outcome, instantiate, hT.instantiate]
  simp only [inferVar, outcome_bind, outcome_get, hx, hinstance, outcome_pure]

/-! ## The call of the standard function -/

/-- An instance of the standard function. -/
def describingAt (v : String) : Ty := .function (.tuple [.var v]) (.tuple [.string]) .nil none

/-- The standard function has a fresh variable as its parameter. -/
lemma outcome_inferVar_type (hlocal : σ.scopes.local? "type" = none)
    (hglobal : σ.scopes.global? "type" = some (Session.describing "t2")) :
    outcome (inferVar l "type") σ =
      (.ok (ofType (describingAt s!"t{σ.supply.count + 1}")),
        { σ with supply := σ.supply.quantify "t2" }) := by
  have hinstance : outcome (instantiate (Session.describing "t2")) σ =
      (.ok (describingAt s!"t{σ.supply.count + 1}"),
        { σ with supply := σ.supply.quantify "t2" }) := rfl
  simp only [inferVar, outcome_bind, outcome_get, hlocal, hglobal, hinstance, outcome_pure]

variable {v r : String}

lemma unifyTo_var (hT : T.Ground) (depth : Nat) :
    unifyTo (depth + 1) (.var v) T = pure ⟨.ok (.single v T), .var v, T⟩ := by
  cases T with
  | var y => exact (within_var_iff.1 hT).elim
  | _ => rfl

lemma ground_strings : (Ty.tuple [.string]).Ground :=
  within_tuple_iff.2 (List.forall_mem_singleton.2 (within_plain _))

lemma exists_depthFor {n : Nat} (hn : 0 < n) : ∃ d, LuaTyping.depthFor n = d + 3 := by
  refine ⟨LuaTyping.depthFor n - 3, (Nat.sub_add_cancel ?_).symm⟩
  calc 3 ≤ 2 * (2 * 1 + 1) * (1 + 1) := by decide
    _ ≤ LuaTyping.depthFor n := by unfold LuaTyping.depthFor; gcongr <;> omega

/-- Two bindings of different variables. -/
lemma composeWith_single {covers : Covers} (hT : T.Ground) (hv : v ≠ r) (u : Ty) :
    (Subst.single r u).composeWith covers (.single v T) =
      pure ⟨[(r, u), (v, T)], false⟩ := by
  have hne : (v == r) = false := beq_false_of_ne hv
  have hne' : (r == v) = false := beq_false_of_ne hv.symm
  simp only [Subst.composeWith, Subst.single, Subst.composeBindings, List.lookup, hne, hT.apply]
  change (pure ⟨Subst.enter v T [(r, u)], false⟩ : Naming Subst) = _
  simp only [Subst.enter, hne', Bool.false_eq_true, if_false]

/-- What is found when the standard function is called with a type: the result is a string, and the
parameter has the type. -/
def wantedSubst (v r : String) (T : Ty) : Subst := ⟨[(r, .tuple [.string]), (v, T)], false⟩

/-- The function that a call with one argument of closed type wants is the standard one. -/
lemma unify_wanted (hT : T.Ground) (hv : v ≠ r) :
    unify (wanted [T] (.var r)) (describingAt v) =
      pure ⟨.ok (wantedSubst v r T), wanted [T] (.var r), describingAt v⟩ := by
  obtain ⟨d, hd⟩ := exists_depthFor (Nat.add_pos_left (Ty.size_pos (wanted [T] (.var r)))
    (describingAt v).size)
  have hlist : unifyLists (fun p q => do return (← unifyTo (d + 2) q p).swap)
      (Subst.composeWith (fitsBy (unifyTo (d + 2)))) .empty [T] [.var v] =
      pure ⟨.ok (.single v T), [T], [.var v]⟩ := by
    simp only [unifyLists, unifyTo_var hT]
    rfl
  unfold unify
  rw [hd]
  change unifyFunctions (unifyTo (d + 2)) none none [] [] [.tuple [T], .var r, .nil]
    [.tuple [.var v], .tuple [.string], .nil] = _
  have hresult := unifyTo_var (v := r) ground_strings (d + 1)
  unfold Ty.tuple at hresult
  simp only [unifyFunctions, Ty.tuple, hlist, pure_bind, wrapLeft, wrapRight, hresult,
    composeWith_single hT hv]
  rfl

/-- A variable that is bound already stays where it is. -/
lemma composeBindings_bound_sat {covers : Covers} {s : Subst} {known : List (String × Ty)}
    {u : Ty} :
    (Subst.composeBindings covers s ((v, u) :: known) [(v, T)]).Sat
      (fun bindings => ∃ m, bindings = (v, m) :: known) fun _ => True := by
  simp only [Subst.composeBindings, List.lookup, beq_self_eq_true]
  refine .bind .trivial fun m _ => ?_
  cases m with
  | none => exact .throw trivial
  | some m => exact .pure ⟨m, by simp [Subst.enter]⟩

/-- The parameter of the standard function takes a closed type. -/
lemma unify_params_sat (hT : T.Ground) :
    (unify (.tuple [.var v]) (.tuple [T])).Sat
      (fun u => ∃ s, u.outcome = .ok s ∧ ∃ m, s = .single v m) fun _ => True := by
  obtain ⟨d, hd⟩ := exists_depthFor (Nat.add_pos_left (Ty.size_pos (.tuple [.var v]))
    (Ty.tuple [T]).size)
  have hlist : (unifyLists (unifyTo (d + 2))
      (fun found _ => found.composeWith (fitsBy (unifyTo (d + 2))) found) .empty [.var v] [T]).Sat
      (fun u => ∃ s, u.outcome = .ok s ∧ ∃ m, s = .single v m) fun _ => True := by
    have hself : ((Subst.single v T).composeWith (fitsBy (unifyTo (d + 2))) (.single v T)).Sat
        (fun s => ∃ m, s = .single v m) fun _ => True :=
      .bind composeBindings_bound_sat fun bindings ⟨m, hm⟩ => .pure ⟨m, hm ▸ rfl⟩
    simp only [unifyLists, unifyTo_var hT, pure_bind]
    exact .bind hself fun s hs => .pure ⟨s, rfl, hs⟩
  unfold unify
  rw [hd]
  exact .bind hlist fun u hu => .pure hu

/-- The result keeps its type when the parameter is bound anew. -/
lemma compose_wantedSubst (hv : v ≠ r) {m : Ty} :
    (Subst.single v m).compose (wantedSubst v r T) =
      (Subst.composeBindings fits (.single v m) [(v, m), (r, .tuple [.string])] [(v, T)] >>=
        fun bindings => pure ⟨bindings, false⟩) := by
  have hne : (v == r) = false := beq_false_of_ne hv
  have hne' : (r == v) = false := beq_false_of_ne hv.symm
  have hstep : Subst.composeBindings fits (.single v m) [(v, m)] (wantedSubst v r T).bindings =
      Subst.composeBindings fits (.single v m) [(v, m), (r, .tuple [.string])] [(v, T)] := by
    rw [wantedSubst, Subst.composeBindings]
    simp only [List.lookup, hne', ground_strings.apply]
    change Subst.composeBindings fits _ (Subst.enter r (.tuple [.string]) [(v, m)]) _ = _
    simp only [Subst.enter, hne, Bool.false_eq_true, if_false]
  unfold Subst.compose Subst.composeWith
  change (Subst.composeBindings fits (.single v m) [(v, m)] _ >>= _) = _
  rw [hstep]
  rfl

lemma compose_wantedSubst_sat (hv : v ≠ r) {m : Ty} :
    ((Subst.single v m).compose (wantedSubst v r T)).Sat
      (fun s => ∃ m, s = ⟨[(v, m), (r, .tuple [.string])], false⟩) fun _ => True := by
  rw [compose_wantedSubst hv]
  exact .bind composeBindings_bound_sat fun bindings ⟨m, hm⟩ => .pure ⟨m, hm ▸ rfl⟩

lemma apply_bound (hv : v ≠ r) {w m : Ty} (hw : w.Ground) :
    Subst.apply ⟨[(v, m), (r, w)], false⟩ (.var r) = .ok w := by
  have hne : (r == v) = false := beq_false_of_ne hv.symm
  simp only [Subst.apply, Subst.follow, Ty.replaceVars, List.lookup, hne, beq_self_eq_true,
    List.length_cons]
  exact hw.replaceVars _

lemma outcome_unifyAt_wanted (hT : T.Ground) (hv : v ≠ r) :
    outcome (unifyAt l (wanted [T] (.var r)) (describingAt v)) σ =
      (.ok (wantedSubst v r T, ⟨.ok (wantedSubst v r T), wanted [T] (.var r), describingAt v⟩),
        σ) := by
  simp only [unifyAt, unify_wanted hT hv]
  rfl

/-- The call of the standard function with a closed type gives a string, or stops with a fault. -/
lemma ensures_callKnown (hT : T.Ground) (hv : v ≠ r) :
    Ensures (callKnown l (describingAt v) none .empty .empty [T] (.var r)) σ
      (fun i σ' => i.type = .tuple [.string] ∧ σ'.scopes = σ.scopes) Faults := by
  unfold callKnown
  refine .bind_of_eq (a := ([T], none)) rfl ?_
  refine .bind_of_eq (outcome_unifyAt_wanted hT hv) ?_
  refine .bind_of_eq (a := .tuple [.var v]) rfl ?_
  refine .bind (ensures_unifyAt (unify_params_sat hT)) fun t σ₁ ht => ?_
  obtain ⟨⟨m, hm⟩, hscopes⟩ := ht
  refine .bind_of_eq (a := t.1) rfl ?_
  refine .bind_of_eq (outcome_compose_empty _) ?_
  refine .bind_of_eq (outcome_compose_empty _) ?_
  rw [hm]
  refine .bind (ensures_naming (compose_wantedSubst_sat hv)) ?_
  rintro _ σ₂ ⟨⟨m', rfl⟩, hscopes'⟩
  refine .bind_of_eq (apply_eq_ok.2 ⟨apply_bound hv ground_strings, rfl⟩) ?_
  exact .pure ⟨rfl, hscopes'.trans hscopes⟩

/-- In the scopes `s`, the name `x` has a closed type other than a tuple, and `type` is the standard
function. -/
structure Testable (x : String) (T : Ty) (s : Scopes) : Prop where
  local? : s.local? x = some T
  single : T.Single
  unbound : s.local? "type" = none
  standard : s.global? "type" = some (Session.describing "t2")

lemma Testable.push {s : Scopes} (h : Testable x T s) : Testable x T s.push :=
  ⟨h.local?, h.single, h.unbound, h.standard⟩

lemma components_of_ne (h : T.isNamed "tuple" = false) : T.components = [T] := by
  unfold components tupleArgs?
  split
  · simp [isNamed] at h
  · rfl

/-- The call in a test calls the standard function with two variables that are drawn for it. -/
lemma ensures_inferCall_of (depth : Nat) {lt lx : Location} (h : Testable x T σ.scopes)
    {Q : Inferred → Session → Prop} {E : Stop → Session → Prop}
    (hcall : s!"t{σ.supply.count + 2}" ≠ s!"t{σ.supply.count + 1}" →
      Ensures (callKnown l (describingAt s!"t{σ.supply.count + 2}") none .empty .empty [T.broaden]
        (.var s!"t{σ.supply.count + 1}"))
        { σ with supply := Supply.quantify ⟨σ.supply.count + 1, σ.supply.shared⟩ "t2" } Q E) :
    Ensures (inferCall (inferTo (depth + 1)) l (.var lt "type") [.var lx x]) σ Q E := by
  have hvar : outcome (inferTo (depth + 1) (.var lx x)) σ = (.ok (ofType T), σ) :=
    outcome_inferVar h.local? h.single.1
  have hargs : outcome (inferArgs (inferTo (depth + 1)) .empty [] [.var lx x]) σ =
      (.ok (.empty, [T.broaden]), σ) := by
    simp only [inferArgs, inferEach, outcome_bind, hvar, ofType, outcome_compose_empty,
      components_of_ne h.single.2, outcome_pure, List.map_cons, List.map_nil, List.nil_append]
  unfold inferCall
  refine .bind_of_eq hargs ?_
  refine .bind_of_eq (a := .var s!"t{σ.supply.count + 1}") rfl ?_
  refine .bind_of_eq (outcome_inferVar_type h.unbound h.standard) ?_
  refine .bind_of_eq (a := describingAt s!"t{σ.supply.count + 2}") rfl ?_
  exact hcall fun heq => absurd (drawn_name_inj heq) (by omega)

lemma ensures_inferCall (depth : Nat) {lt lx : Location} (h : Testable x T σ.scopes) :
    Ensures (inferCall (inferTo (depth + 1)) l (.var lt "type") [.var lx x]) σ
      (fun i σ' => i.type = .tuple [.string] ∧ σ'.scopes = σ.scopes) Faults :=
  ensures_inferCall_of depth h fun hne => ensures_callKnown h.single.1.broaden hne

/-! ## The condition -/

/-- The names of types that tests know. -/
def typeNames : List String := ["number", "string", "boolean", "nil", "table", "function"]

/-- The test `type(x) == "name"`, wherever its parts stand. -/
inductive TypeTest (x name : String) : Node → Prop
  | mk (lb lc lt lx ls : Location) :
      TypeTest x name (.binary lb (.call lc (.var lt "type") [.var lx x]) .equal (.string ls name))

lemma outcome_typeNamed? (hname : name ∈ typeNames) (σ : Session) :
    ∃ t σ', outcome (typeNamed? name) σ = (.ok (some t), σ') ∧ Named name t ∧
      σ'.scopes = σ.scopes := by
  simp only [typeNames, List.mem_cons, List.not_mem_nil, or_false] at hname
  rcases hname with rfl | rfl | rfl | rfl | rfl | rfl
  · exact ⟨_, _, rfl, .plain (by simp), rfl⟩
  · exact ⟨_, _, rfl, .plain (by simp), rfl⟩
  · exact ⟨_, _, rfl, .plain (by simp), rfl⟩
  · exact ⟨_, _, rfl, .plain (by simp), rfl⟩
  · exact ⟨_, _, rfl, .table rfl, rfl⟩
  · exact ⟨_, _, rfl, .function _ _ _ rfl, rfl⟩

lemma ensures_unifyOrNot {a b : Ty} :
    Ensures (unifyOrNot a b) σ (fun _ σ' => σ'.scopes = σ.scopes) Faults := by
  refine .bind (ensures_naming .trivial) fun u σ' h => ?_
  cases u.outcome with
  | ok s => exact h.2
  | error m => exact h.2

/-- What is inferred of a test: its type holds that `x` has a type that the name stands for. -/
def Tested (x name : String) (s : Scopes) (i : Inferred) (σ : Session) : Prop :=
  (∃ lx t, Named name t ∧ i.type = .con "boolean" [] none [(.var lx x, t)]) ∧ σ.scopes = s

section Condition

variable {lc lt lx ls : Location}

lemma ensures_comparisonChecks {a b : Ty} (hname : name ∈ typeNames)
    (hlocal : σ.scopes.local? "type" = none) :
    Ensures (comparisonChecks (.call lc (.var lt "type") [.var lx x]) (.string ls name) a b) σ
      (fun checks σ' => (∃ t, Named name t ∧ checks = [(.var lx x, t)]) ∧ σ'.scopes = σ.scopes)
      Faults := by
  obtain ⟨t, σ', houtcome, ht, hscopes⟩ := outcome_typeNamed? hname σ
  have hnot : σ.scopes.isLocal "type" = false := by simp [Scopes.isLocal, hlocal]
  unfold comparisonChecks
  refine .bind_of_eq (a := σ.scopes) rfl ?_
  rw [hnot]
  exact .bind_of_eq houtcome (.pure ⟨⟨t, ht, rfl⟩, hscopes⟩)

/-- Whether the two sides unify has no bearing on what the comparison lets conclude. -/
lemma ensures_inferComparison {a b : Inferred} (hname : name ∈ typeNames)
    (hlocal : σ.scopes.local? "type" = none) :
    Ensures (inferComparison (.call lc (.var lt "type") [.var lx x]) (.string ls name) a b) σ
      (Tested x name σ.scopes) Faults := by
  unfold inferComparison
  refine .bind ensures_unifyOrNot fun p σ₁ h₁ => ?_
  refine .bind (ensures_naming .trivial) fun again σ₂ h₂ => ?_
  have hscopes : σ₂.scopes = σ.scopes := h₂.2.trans h₁
  have hrest : ∀ (s : Subst) (σ₃ : Session), σ₃.scopes = σ.scopes → Ensures
      (comparisonOf (.call lc (.var lt "type") [.var lx x]) (.string ls name) a b again.left
        again.right s) σ₃ (Tested x name σ.scopes) Faults := by
    intro s σ₃ h₃
    refine .bind (ensures_comparisonChecks hname (h₃ ▸ hlocal)) ?_
    rintro _ σ₄ ⟨⟨t, ht, rfl⟩, h₄⟩
    refine .bind (ensures_naming .trivial) fun _ σ₅ h₅ => ?_
    refine .bind (ensures_naming .trivial) fun _ σ₆ h₆ => ?_
    exact .pure ⟨⟨lx, t, ht, rfl⟩, h₆.2.trans (h₅.2.trans (h₄.trans h₃))⟩
  cases again.outcome with
  | ok t => exact .bind (ensures_naming .trivial) fun s σ₃ h₃ => hrest s σ₃ (h₃.2.trans hscopes)
  | error m => exact hrest p.1 σ₂ hscopes

end Condition

variable {test block : Node}

lemma TypeTest.ensures_infer (htest : TypeTest x name test) (hname : name ∈ typeNames)
    (h : Testable x T σ.scopes) (depth : Nat) :
    Ensures (inferTo (depth + 3) test) σ (Tested x name σ.scopes) Faults := by
  obtain ⟨lb, lc, lt, lx, ls⟩ := htest
  refine .bind (ensures_inferCall depth h) fun i σ₁ h₁ => ?_
  obtain ⟨htype, hscopes⟩ := h₁
  rw [htype]
  refine .bind_of_eq (a := .string) rfl ?_
  refine .bind_of_eq (a := ofType (.literal "string" (.text name))) rfl ?_
  refine .bind_of_eq (a := .literal "string" (.text name)) rfl ?_
  exact hscopes ▸ ensures_inferComparison hname (hscopes ▸ h.unbound)

/-! ## Narrowing -/

/-- A stop with a report only if a type has nothing in common with what a name stands for. -/
def Apart (T : Ty) (name : String) (e : Stop) (_ : Session) : Prop :=
  ∀ l m, e = .report l m → Meets T name none

lemma Faults.apart {e : Stop} (h : Faults e σ) : Apart T name e σ := by
  obtain ⟨f, rfl⟩ := h
  exact fun _ _ h => nomatch h

/-- In a session, `x` has been given what its type has in common with what a name stands for. -/
def Narrowed (x : String) (T : Ty) (name : String) (s : Scopes) (σ : Session) : Prop :=
  ∃ u, Meets T name (some u) ∧ σ.scopes = s.bind x u

/-- A name is narrowed to the meet, or the two types are shown and reported. -/
lemma ensures_narrowing {t : Ty} (ht : Named name t) {message : String → String → String}
    {next : Ty → Check Unit} (hnext : ∀ u σ', Ensures (next u) σ'
      (fun _ τ => τ.scopes = σ'.scopes.bind x u) (Apart T name)) :
    Ensures (do
      match ← naming (T.meet t) with
      | none =>
        let shown ← naming T.render
        let other ← naming t.render
        report l (message shown other)
      | some u => next u) σ (fun _ => Narrowed x T name σ.scopes) (Apart T name) := by
  have hshow : ∀ (s : Ty) (σ' : Session),
      Ensures (naming s.render) σ' (fun _ _ => True) (Apart T name) := fun s σ' =>
    (ensures_naming .trivial).imp (fun _ _ _ => trivial) fun _ _ h => h.apart
  have hmeet : Ensures (naming (T.meet t)) σ
      (fun m σ' => Meets T name m ∧ σ'.scopes = σ.scopes) (Apart T name) := by
    refine (ensures_naming fun k => ?_).imp (fun _ _ h => h) fun _ _ h => h.apart
    unfold Ensures
    rcases h : outcome (T.meet t) k with ⟨f | m, k'⟩
    · exact trivial
    · exact ⟨t, k, ht, by rw [h]⟩
  refine hmeet.bind fun m σ₁ hm => ?_
  cases m with
  | none =>
    refine .bind (hshow T σ₁) fun _ σ₂ _ => ?_
    refine .bind (hshow t σ₂) fun _ _ _ => ?_
    exact .throw fun _ _ _ => hm.1
  | some u =>
    refine (hnext u σ₁).imp (fun _ τ hτ => ⟨u, hm.1, ?_⟩) fun _ _ h => h
    rw [hτ, hm.2]

lemma ensures_narrowTo {lx : Location} {t : Ty} (h : Testable x T σ.scopes) (ht : Named name t)
    (depth : Nat) :
    Ensures (narrowTo (inferTo (depth + 1)) l [(.var lx x, t)]) σ
      (fun _ => Narrowed x T name σ.scopes) (Apart T name) := by
  unfold narrowTo
  refine .bind_of_eq (outcome_inferVar h.local? h.single.1) ?_
  exact ensures_narrowing ht fun u σ' => .bind_of_eq (a := ()) rfl (.pure rfl)

/-- Narrowing by a test alone gives the name what its type has in common with what the test
names. -/
lemma TypeTest.ensures_narrowCondition (htest : TypeTest x name test) (hname : name ∈ typeNames)
    (h : Testable x T σ.scopes) :
    Ensures (narrowCondition l test) σ (fun _ => Narrowed x T name σ.scopes) (Apart T name) := by
  obtain ⟨lb, lc, lt, lx, ls⟩ := htest
  obtain ⟨t, σ', houtcome, ht, hscopes⟩ := outcome_typeNamed? hname σ
  have hnot : σ.scopes.isLocal "type" = false := by simp [Scopes.isLocal, h.unbound]
  unfold narrowCondition narrowByTest
  refine .bind_of_eq (a := σ.scopes) rfl ?_
  rw [hnot]
  refine .bind_of_eq (outcome_inferVar h.local? h.single.1) ?_
  refine .bind_of_eq houtcome ?_
  rw [← hscopes]
  exact ensures_narrowing ht fun _ _ => rfl

/-! ## The conditional statement -/

/-- The block `return x`, wherever its parts stand. -/
inductive ReturnBlock (x : String) : Node → Prop
  | mk (lk lr lv : Location) : ReturnBlock x (.chunk lk [] (some (.returns lr [.var lv x])))

lemma ensures_inScope {y : Check α} {Q R : α → Session → Prop} {E : Stop → Prop}
    (h : Ensures y { σ with scopes := σ.scopes.push } Q fun e _ => E e)
    (hR : ∀ a τ, Q a τ → R a { τ with scopes := τ.scopes.pop }) :
    Ensures (inScope y) σ R fun e _ => E e := by
  unfold Ensures at h ⊢
  rw [outcome_inScope]
  rcases houtcome : outcome y { σ with scopes := σ.scopes.push } with ⟨e | a, τ⟩ <;>
    rw [houtcome] at h
  · exact h
  · exact hR a τ h

lemma innermost_eq_nil (h : T.isNamed "tuple" = false) : innermost T = .ok [] := by
  cases T with
  | con c args v checks => exact innermost_of_ne (by simpa [isNamed] using h) args v checks
  | _ => rfl

lemma outcome_inferReturn {lv : Location} {u : Ty} (hx : σ.scopes.local? x = some u)
    (hu : u.Single) (depth : Nat) :
    outcome (inferReturn (inferTo (depth + 1)) [.var lv x]) σ =
      (.ok ⟨⟨[], true⟩, .tuple [u]⟩, σ) := by
  have hvar : outcome (inferTo (depth + 1) (.var lv x)) σ = (.ok (ofType u), σ) :=
    outcome_inferVar hx hu.1
  have hreturned : outcome (returned (.var lv x) u) σ = (.ok [u], σ) := by
    unfold returned
    rw [innermost_eq_nil hu.2]
    rfl
  simp only [inferReturn, inferReturned, inferEach, outcome_bind, hvar, ofType, hreturned,
    outcome_compose_empty, outcome_pure, List.nil_append]
  rfl

/-- A block that returns a name returns its type, if that is closed and no tuple. -/
lemma ReturnBlock.ensures_infer (hblock : ReturnBlock x block) {u : Ty} {E : Stop → Prop}
    (hx : σ.scopes.local? x = some u) (hu : u.Single) (depth : Nat) :
    Ensures (inferTo (depth + 3) block) σ (fun i _ => i.type = .tuple [u]) fun e _ => E e := by
  obtain ⟨lk, lr, lv⟩ := hblock
  have hpush : ({ σ with scopes := σ.scopes.push } : Session).scopes.local? x = some u := hx
  change Ensures (inferChunk (inferTo (depth + 2)) lk [] (some (.returns lr [.var lv x]))) σ _ _
  refine ensures_inScope ?_ fun _ _ h => h
  refine .bind_of_eq (a := ⟨.empty, none, false⟩) rfl ?_
  refine .bind_of_eq (outcome_inferReturn hpush hu depth) ?_
  refine .bind_of_eq (a := .tuple [u]) rfl ?_
  exact .bind_of_eq (outcome_compose_empty _) (.pure rfl)

/-- A conditional statement that returns a name where its type is tested returns what the type has
in common with what the test names. -/
lemma ensures_infer_branch (htest : TypeTest x name test) (hblock : ReturnBlock x block)
    (hname : name ∈ typeNames) (h : Testable x T σ.scopes) (depth : Nat) :
    Ensures (inferTo (depth + 4) (.branch l test block [] none)) σ
      (fun i _ => ∃ u, Meets T name (some u) ∧ i.type = .tuple [u]) (Apart T name) := by
  have hcondition : Ensures (inScope (inferTo (depth + 3) test)) σ (Tested x name σ.scopes)
      Faults := by
    refine ensures_inScope (htest.ensures_infer hname h.push depth) ?_
    rintro i τ ⟨hi, hτ⟩
    exact ⟨hi, by rw [hτ]; rfl⟩
  change Ensures (inferBranch (inferTo (depth + 3)) l test block none) σ _ _
  refine .bind (hcondition.imp (fun _ _ h => h) fun _ _ h => h.apart) ?_
  rintro c σ₁ ⟨⟨lx, t, ht, hc⟩, h₁⟩
  rw [hc]
  -- A condition of type `boolean` unifies with it whatever it lets conclude.
  refine .bind_of_eq (a := (.empty, ⟨.ok .empty, .con "boolean" [] none _, .boolean⟩)) rfl ?_
  refine ensures_inScope ?_ fun _ _ h => h
  refine .bind (ensures_narrowTo (h₁ ▸ h).push ht (depth + 2)) ?_
  rintro _ σ₂ ⟨u, hu, h₂⟩
  have hx : σ₂.scopes.local? x = some u := by
    rw [h₂]
    exact Scopes.local?_bind_self
  have hsingle := hu.single h.single.1
  have htuple : (Ty.tuple [u]).Ground := within_tuple_iff.2 (List.forall_mem_singleton.2 hsingle.1)
  refine .bind (hblock.ensures_infer hx hsingle depth) fun b σ₃ hb => ?_
  rw [hb]
  exact .bind_of_eq (apply_eq_ok.2 ⟨htuple.apply c.subst, rfl⟩) (.pure ⟨u, hu, rfl⟩)

/-- **Both ways to narrow by a type test agree**. Let `x` be bound to a closed type other than a
tuple, and `type` to the standard function only, and let neither narrowing by the condition alone
nor the inference of `if type(x) == "name" then return x end` end in a fault. Then one of them ends
in a report exactly if the other does; and otherwise the narrowing leaves `x` with a type that is
the single component of the tuple that the statement returns. The sessions that they start from may
differ in everything else. -/
theorem narrowing_agrees {τ σ' τ' : Session} {r : Except Stop Unit} {r' : Except Stop Inferred}
    (htest : TypeTest x name test) (hblock : ReturnBlock x block) (hname : name ∈ typeNames)
    (hσ : Testable x T σ.scopes) (hτ : Testable x T τ.scopes)
    (hnarrow : outcome (narrowCondition l test) σ = (r, σ'))
    (hinfer : outcome (infer (.branch l test block [] none)) τ = (r', τ'))
    (hr : ∀ f, r ≠ .error (.fault f)) (hr' : ∀ f, r' ≠ .error (.fault f)) :
    ((∃ place m, r = .error (.report place m)) ↔ ∃ place m, r' = .error (.report place m)) ∧
      ∀ i, r' = .ok i → ∃ u, σ'.scopes.local? x = some u ∧ i.type = .tuple [u] := by
  have hT := hσ.single.1
  have h := htest.ensures_narrowCondition (l := l) hname hσ
  have h' := ensures_infer_branch (l := l) htest hblock hname hτ
    (2 * (Node.branch l test block [] none).size + 996)
  rcases r with (_ | f) | _
  · have hnone : Meets T name none := h.of_eq_error hnarrow _ _ rfl
    rcases r' with (_ | f) | i
    · exact ⟨⟨fun _ => ⟨_, _, rfl⟩, fun _ => ⟨_, _, rfl⟩⟩, fun _ hok => nomatch hok⟩
    · exact absurd rfl (hr' f)
    · obtain ⟨u, hu, _⟩ := h'.of_eq_ok hinfer
      exact absurd (hnone.unique hT hu) (by simp)
  · exact absurd rfl (hr f)
  · obtain ⟨u, hu, hscopes⟩ := h.of_eq_ok hnarrow
    rcases r' with (_ | f) | i
    · have hnone : Meets T name none := h'.of_eq_error hinfer _ _ rfl
      exact absurd (hu.unique hT hnone) (by simp)
    · exact absurd rfl (hr' f)
    · obtain ⟨u', hu', hi⟩ := h'.of_eq_ok hinfer
      cases hu.unique hT hu'
      refine ⟨by simp, fun i' hok => ?_⟩
      cases hok
      exact ⟨u, hscopes ▸ Scopes.local?_bind_self, hi⟩

end Rules

/-! ### A table, nothing or a function -/

/-- A table with a number in its field `k`, nothing, or a function from numbers to strings. -/
def tableOrFunction : Ty :=
  .union (.table [(.literal "string" (.text "k"), .number)])
    (.union .nil (.function (.tuple [.number]) (.tuple [.string]) .nil none))

/-- The test `type(x) == "function"`. -/
def functionTest : Node :=
  .binary default (.call default (.var default "type") [.var default "x"]) .equal
    (.string default "function")

/-- The block `return x`. -/
def returnX : Node := .chunk default [] (some (.returns default [.var default "x"]))

lemma testable_tableOrFunction :
    Testable "x" tableOrFunction (sessionWith tableOrFunction).scopes :=
  ⟨local?_sessionWith _,
    ⟨by simp [tableOrFunction, Ground, FieldsWithin, ChecksWithin, literal, number, nil, string,
      plain, tuple, function, Permit.closed], rfl⟩, rfl, rfl⟩

/-- Both ways accept that a table, nothing or a function is tested for a function. -/
theorem narrowing_agrees_function :
    ∃ σ' τ' i u, outcome (narrowCondition default functionTest) (sessionWith tableOrFunction) =
        (.ok (), σ') ∧
      outcome (infer (.branch default functionTest returnX [] none)) (sessionWith tableOrFunction) =
        (.ok i, τ') ∧
      σ'.scopes.local? "x" = some u ∧ i.type = .tuple [u] := by
  obtain ⟨_, σ', hnarrow⟩ := exists_of_isOk (x := narrowCondition default functionTest)
    (s := sessionWith tableOrFunction) (by decide +kernel)
  obtain ⟨i, τ', hinfer⟩ := exists_of_isOk
    (x := infer (.branch default functionTest returnX [] none))
    (s := sessionWith tableOrFunction) (by decide +kernel)
  obtain ⟨_, hok⟩ := narrowing_agrees (.mk _ _ _ _ _) (.mk _ _ _) (by simp [typeNames])
    testable_tableOrFunction testable_tableOrFunction hnarrow hinfer (by simp) (by simp)
  obtain ⟨u, hlocal, htype⟩ := hok i rfl
  exact ⟨σ', τ', i, u, hnarrow, hinfer, hlocal, htype⟩

end Check

end LuaTyping
