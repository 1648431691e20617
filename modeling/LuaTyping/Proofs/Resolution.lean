import LuaTyping.Proofs.Freshness
import LuaTyping.Proofs.ReturnCoverage

set_option autoImplicit false

/-!
# Which inferred types are resolved

An inference gives a type together with a substitution that says what its variables stand for. A
type is resolved if that substitution no longer changes it. Of a tree whose type is put together
from the types of its parts, the type may keep variables that are bound by what is inferred later:
so the result of a function, whose parameters are resolved, can lose its connection with them. The
types of all other trees are resolved.

For a call of something unknown this rests on freshness: the variable for the result is drawn after
the arguments have been inferred and before the callee is, and occurs in neither.

## Main definitions

* `Node.gathers` — the trees whose types are put together from those of several parts.

## Main results

* `Check.apply_infer_eq_iff` — when exactly an inferred type is resolved.
* `Check.infer_unresolved_result` — a function whose result is not.
-/

namespace LuaTyping

/-- Whether the type of a tree is put together from the types of its parts, some of which may have
been inferred before all that is known of their variables. -/
def Node.gathers : Node → Bool
  | table .. | function .. | returns .. | branch .. | chunk .. => true
  | _ => false

namespace Subst

lemma resolves_of_openVars_eq_nil {s : Subst} {t : Ty} (h : t.openVars = []) : s.Resolves t := by
  intro x hx
  simp [h] at hx

lemma resolves_empty (t : Ty) : Subst.empty.Resolves t := fun _ _ => rfl

end Subst

namespace Check

variable {infer : Inference} {σ σ' : Session} {i : Inferred} {l : Location}

/-! ## Trees whose types are always resolved -/

variable {x y : String} {s : Subst}

lemma inferVar_resolves (h : outcome (inferVar l x) σ = (.ok i, σ')) : i.subst.Resolves i.type := by
  simp only [inferVar, bind_eq_ok] at h
  obtain ⟨τ, σ₁, hget, h⟩ := h
  split at h
  · simp only [bind_eq_ok, pure_eq_ok] at h
    obtain ⟨t, σ₂, _, rfl, _⟩ := h
    exact Subst.resolves_empty t
  · split at h
    · simp only [bind_eq_ok, pure_eq_ok] at h
      obtain ⟨t, σ₂, _, rfl, _⟩ := h
      exact Subst.resolves_empty t
    · split at h <;> simp [report] at h

lemma inferVararg_resolves {u : Ty} (h : outcome (inferVararg l) σ = (.ok i, σ'))
    (hu : i.subst.apply i.type = .ok u) : i.subst.Resolves i.type := by
  simp only [inferVararg, bind_eq_ok] at h
  obtain ⟨τ, σ₁, hget, h⟩ := h
  split at h
  · simp [report] at h
  · simp only [bind_eq_ok, pure_eq_ok] at h
    obtain ⟨t, σ₂, _, rfl, _⟩ := h
    exact Subst.resolves_of_single_apply hu

lemma inferIndex_resolves {object key : Node}
    (h : outcome (inferIndex infer l object key) σ = (.ok i, σ')) : i.subst.Resolves i.type := by
  simp only [inferIndex, bind_eq_ok, apply_eq_ok, pure_eq_ok] at h
  obtain ⟨o, σ₁, _, k, σ₂, _, t, σ₃, _, p, σ₄, _, s₁, σ₅, _, s₂, σ₆, _, u, σ₇, ⟨hu, _⟩, rfl, _⟩ := h
  exact Subst.apply_resolves hu

lemma inferUnary_openVars {op : UnaryOp} {value : Node}
    (h : outcome (inferUnary infer l op value) σ = (.ok i, σ')) : i.type.openVars = [] := by
  simp only [inferUnary, bind_eq_ok] at h
  obtain ⟨v, σ₁, _, t, σ₂, _, h⟩ := h
  split at h
  all_goals
    first
    | simp only [bind_eq_ok, pure_eq_ok] at h
      obtain ⟨p, σ₃, _, s, σ₄, _, rfl, _⟩ := h
      rfl
    | simp [fault] at h

variable {result : Ty}

lemma inferUniform_openVars {left right : Node} {a b : Inferred} {wanted : Ty}
    (h : outcome (inferUniform left right a b wanted result) σ = (.ok i, σ'))
    (hresult : result.openVars = []) : i.type.openVars = [] := by
  simp only [inferUniform, bind_eq_ok, pure_eq_ok] at h
  obtain ⟨p, σ₁, _, q, σ₂, _, s₁, σ₃, _, s₂, σ₄, _, s₃, σ₅, _, rfl, _⟩ := h
  exact hresult

lemma inferBinary_openVars {left right : Node} {op : BinaryOp}
    (h : outcome (inferBinary infer left op right) σ = (.ok i, σ')) : i.type.openVars = [] := by
  simp only [inferBinary, bind_eq_ok] at h
  obtain ⟨a, σ₁, _, t, σ₂, _, b, σ₃, _, u, σ₄, _, h⟩ := h
  split at h
  · exact inferUniform_openVars h rfl
  · exact inferUniform_openVars h rfl
  · exact inferUniform_openVars h rfl
  · simp only [inferComparison, bind_eq_ok] at h
    obtain ⟨p, σ₅, _, again, σ₆, _, h⟩ := h
    split at h
    all_goals
      simp only [bind_eq_ok, pure_eq_ok] at h
      obtain ⟨s₁, σ₇, _, checks, σ₈, _, s₂, σ₉, _, s₃, σ₁₀, _, rfl, _⟩ := h
      rfl
  · simp only [inferConnective, bind_eq_ok, pure_eq_ok] at h
    obtain ⟨p, σ₅, _, q, σ₆, _, first, σ₇, _, second, σ₈, _, checks, σ₉, _, more, σ₁₀, _,
      s₁, σ₁₁, _, s₂, σ₁₂, _, s₃, σ₁₃, _, rfl, _⟩ := h
    rfl
  · simp [fault] at h

variable {exprs : List Node}

lemma inferDeclare_openVars {names : List DeclaredName} {note : Option Node}
    (h : outcome (inferDeclare infer l names exprs note) σ = (.ok i, σ')) :
    i.type.openVars = [] := by
  simp only [inferDeclare, bind_eq_ok, pure_eq_ok] at h
  obtain ⟨_, σ₁, _, p, σ₂, _, _, σ₃, _, rfl, _⟩ := h
  rfl

lemma inferAssign_openVars {targets : List Node}
    (h : outcome (inferAssign infer l targets exprs) σ = (.ok i, σ')) : i.type.openVars = [] := by
  simp only [inferAssign, bind_eq_ok, pure_eq_ok] at h
  obtain ⟨_, σ₁, _, p, σ₂, _, _, σ₃, _, rfl, _⟩ := h
  rfl

lemma inferReveal_openVars {expr : Node}
    (h : outcome (inferReveal infer l expr) σ = (.ok i, σ')) : i.type.openVars = [] := by
  simp only [inferReveal, bind_eq_ok, pure_eq_ok] at h
  obtain ⟨e, σ₁, _, shown, σ₂, _, _, σ₃, _, rfl, _⟩ := h
  rfl

/-! ## Calls -/

lemma lookup_cons_eq_none {t : Ty} {b : List (String × Ty)} :
    ((x, t) :: b).lookup y = none ↔ y ≠ x ∧ b.lookup y = none := by
  simp [List.lookup_eq_none_iff]

lemma composeBindings_lookup {covers : Covers} {known more : List (String × Ty)} :
    (Subst.composeBindings covers s known more).Sat
      (fun b => b.lookup y = none ↔ known.lookup y = none ∧ more.lookup y = none)
      fun _ => True := by
  induction more generalizing known with
  | nil => exact .pure (by simp)
  | cons p rest ih =>
    obtain ⟨x, t⟩ := p
    have henter : ∀ u, (Subst.enter x u known).lookup y = none ↔ known.lookup y = none ∧ y ≠ x := by
      intro u
      rw [Subst.lookup_enter]
      split <;> simp_all
    simp only [lookup_cons_eq_none, ← and_assoc, ← henter t]
    simp only [Subst.composeBindings]
    split
    · refine .bind .trivial fun m _ => ?_
      split
      · exact .throw trivial
      · exact ih.imp (fun b hb => by rw [hb, henter, henter]) fun _ => id
    · exact .bind .trivial fun u _ => ih.imp (fun b hb => by rw [hb, henter, henter]) fun _ => id

/-- A composition binds exactly what its parts bind. -/
lemma compose_find? {t u : Subst} (h : outcome (compose s t) σ = (.ok u, σ')) :
    u.find? y = none ↔ s.find? y = none ∧ t.find? y = none := by
  obtain ⟨letters, h⟩ := naming_eq_ok h
  have hsat : (s.compose t).Sat
      (fun u => u.find? y = none ↔ s.find? y = none ∧ t.find? y = none) fun _ => True :=
    .bind composeBindings_lookup fun b hb => .pure hb
  exact hsat.of_eq_ok h

/-- Unifying a constructor with a variable binds the variable. -/
lemma unify_con_var (c : String) (args : List Ty) (v : Option Literal) (checks : List Checked)
    (y : String) : unify (.con c args v checks) (.var y) =
      pure ⟨.ok (.single y (.con c args v checks)), .con c args v checks, .var y⟩ := by
  obtain ⟨depth, hdepth⟩ : ∃ depth,
      LuaTyping.depthFor ((Ty.con c args v checks).size + (Ty.var y).size) =
      depth + 1 := ⟨_, (Nat.succ_pred_eq_of_pos (Nat.zero_lt_of_lt (lt_depthFor _))).symm⟩
  rw [unify, hdepth]
  rfl

variable {types : List Ty}

/-- The result variable of a call of something unknown is bound by nothing. -/
lemma callUnknown_resolves {r : String} {f args : Subst}
    (h : outcome (callUnknown l x f args types (.var r)) σ = (.ok i, σ')) (hx : r ≠ x)
    (hf : f.find? r = none) (hargs : args.find? r = none) : i.subst.Resolves i.type := by
  simp only [callUnknown, unifyAt, wanted, Ty.function, unify_con_var, bind_eq_ok, apply_eq_ok,
    pure_eq_ok] at h
  obtain ⟨p, σ₁, ⟨u, σ₂, hu, hp⟩, s₁, σ₃, hs₁, all, σ₄, hall, own, σ₅, hown, t, σ₆, ⟨ht, -⟩, rfl,
    -⟩ := h
  obtain ⟨letters, hu⟩ := naming_eq_ok hu
  cases hu
  cases hp
  have hsingle : ∀ t, (Subst.single x t).find? r = none :=
    fun t => lookup_cons_eq_none.2 ⟨hx, rfl⟩
  have hown' : own.Resolves (.var r) := by
    intro y hy
    obtain rfl := List.mem_singleton.1 hy
    exact (compose_find? hown).2 ⟨hsingle _, hf⟩
  obtain rfl := (Subst.apply_eq_self_iff ht).2 hown'
  intro y hy
  obtain rfl := List.mem_singleton.1 hy
  exact (compose_find? hall).2 ⟨hsingle _, (compose_find? hs₁).2 ⟨hf, hargs⟩⟩

/-- The type of a call of a function is resolved by all that is known after the call. -/
lemma callKnown_resolves {callee : Ty} {value : Option Literal} {f args : Subst}
    (h : outcome (callKnown l callee value f args types result) σ = (.ok i, σ')) :
    i.subst.Resolves i.type := by
  simp only [callKnown, bind_eq_ok, apply_eq_ok, outcome_pure, Prod.mk.injEq,
    Except.ok.injEq] at h
  obtain ⟨p, σ₁, -, q, σ₂, -, params, σ₃, -, w, σ₄, -, t, σ₅, -, s₁, σ₆, -, s₂, σ₇, -, all, σ₈, -,
    u, σ₉, ⟨hu, -⟩, rfl, -⟩ := h
  exact Subst.apply_resolves hu

variable {depth : Nat}

/-- The type of a call is resolved, if it is inferred in a fresh session. -/
lemma inferCall_resolves {callee : Node} {args : List Node} (hσ : σ.Fresh)
    (hnames : ∀ x ∈ (Node.call l callee args).names, Drawn σ.supply.count x)
    (h : outcome (inferCall (inferTo depth) l callee args) σ = (.ok i, σ')) :
    i.subst.Resolves i.type := by
  simp only [inferCall, bind_eq_ok] at h
  obtain ⟨⟨s, types⟩, σ₁, hs, result, σ₂, hresult, f, σ₃, hf, t, σ₄, ht, h⟩ := h
  -- what is known after the arguments
  have hargs : ∀ a ∈ args, Infers .drawnOnly .any σ.supply.count (inferTo depth) a := fun a ha =>
    inferTo_drawing depth fun x hx =>
      ⟨hnames x (Node.names_subset_of_mem_children (.call l callee args) a
        (List.mem_cons_of_mem _ ha) hx), trivial⟩
  obtain ⟨⟨hσ₁, hle, -⟩, hsin, -⟩ := ((inferArgs_keeps hargs Subst.within_empty
    fun _ h => absurd h List.not_mem_nil) σ hσ le_rfl).of_eq_ok hs
  -- the result variable is new
  obtain ⟨rfl, rfl⟩ : Ty.var s!"t{σ₁.supply.count + 1}" = result ∧
      { σ₁ with supply := ⟨σ₁.supply.count + 1, σ₁.supply.shared⟩ } = σ₂ := by
    simpa [outcome, fresh, Supply.fresh] using hresult
  have hσ₂ : Session.Within (Regime.avoiding σ₁.supply.count)
      { σ₁ with supply := ⟨σ₁.supply.count + 1, σ₁.supply.shared⟩ } :=
    ⟨le_rfl, hσ₁.shared.mono (drawn_le_avoiding _), hσ₁.scopes.mono (drawn_le_avoiding _)⟩
  have hcallee : Infers (Regime.avoiding σ₁.supply.count) .any (σ₁.supply.count + 1) (inferTo depth)
      callee := inferTo_drawing depth fun x hx => by
    have hx' := (hnames x (List.mem_append_left _ hx)).mono hle
    exact ⟨hx'.mono (Nat.le_succ _), hx'.ne_next⟩
  obtain ⟨⟨hσ₃, hle₃, -⟩, hfin⟩ := (hcallee _ hσ₂ le_rfl).of_eq_ok hf
  have hunbound : ∀ {b : List (String × Ty)}, (∀ p ∈ b, p.1 ≠ s!"t{σ₁.supply.count + 1}") →
      b.lookup s!"t{σ₁.supply.count + 1}" = none := by
    intro b hb
    refine List.lookup_eq_none_iff.2 fun p hp => ?_
    simpa using (hb p hp).symm
  split at h
  · rename_i x
    obtain ⟨⟨hσ₄, -⟩, htin⟩ := (keeps_flatten (r := .any) hfin.type σ₃ hσ₃ le_rfl).of_eq_ok ht
    refine callUnknown_resolves h (Ty.within_var_iff.1 htin).2.symm ?_ ?_
    · exact hunbound fun p hp => (hfin.subst p hp).1.2
    · exact hunbound fun p hp => (hsin p hp).1.1.ne_next
  · exact callKnown_resolves h
  · simp [fault] at h

/-! ## Functions -/

/-- The parameters of an inferred function type are resolved. -/
lemma inferFunction_type {params : List String} {isVararg : Bool} {body : Node}
    {name : Option String} {note : Node}
    (h : outcome (inferFunction infer l params isVararg body name note) σ = (.ok i, σ')) :
    ∃ types result rest, i.type = .function types result rest (some (.flag isVararg)) ∧
      i.subst.Resolves types := by
  obtain ⟨σ₁, h⟩ := inScope_eq_ok h
  simp only [bind_eq_ok] at h
  obtain ⟨ts, σ₂, -, rest, σ₃, -, wanted, σ₄, -, h⟩ := h
  -- the parameters are resolved after the body, before what is made of its type
  have hbody : ∀ (result : Inferred → Check Ty) (σ₅ : Session), outcome (do
      let b ← infer body
      let types ← apply b.subst (.tuple ts)
      let result ← result b
      return ⟨b.subst, .function types result rest (some (.flag isVararg))⟩) σ₅ = (.ok i, σ₁) →
      ∃ types result rest, i.type = .function types result rest (some (.flag isVararg)) ∧
        i.subst.Resolves types := by
    intro result σ₅ h
    simp only [bind_eq_ok, apply_eq_ok, pure_eq_ok] at h
    obtain ⟨b, σ₆, -, types, σ₇, ⟨htypes, -⟩, r, σ₈, -, rfl, -⟩ := h
    exact ⟨types, r, rest, rfl, Subst.apply_resolves htypes⟩
  cases wanted with
  | none => exact hbody (fun b => pure b.type) σ₄ h
  | some t =>
    let check : Inferred → Check Ty := fun b => do
      let p ← unifyAt l b.type t
      apply p.1 p.2.right
    cases name with
    | none =>
      refine hbody check σ₄ ?_
      simpa only [check, bind_assoc] using h
    | some x =>
      simp only [bind_eq_ok (x := Check.bind _ _)] at h
      obtain ⟨-, σ₅, -, h⟩ := h
      refine hbody check σ₅ ?_
      simpa only [check, bind_assoc] using h

lemma resolves_function {params rest : Ty} {v : Option Literal} :
    s.Resolves (.function params result rest v) ↔
      s.Resolves params ∧ s.Resolves result ∧ s.Resolves rest := by
  simp only [Subst.Resolves, Ty.function, Ty.openVars, Ty.openVarsList, List.append_nil,
    List.mem_append, or_imp, forall_and]

/-! ## Trees that gather types -/

/-- Trees are inferred one after the other. What is done in between does not look at the scopes. -/
inductive InTurn (infer : Inference) : Session → List Node → List Inferred → Prop
  | nil (σ : Session) : InTurn infer σ [] []
  | infer {σ σ₁ : Session} {n : Node} {ns : List Node} {j : Inferred} {js : List Inferred} :
      outcome (infer n) σ = (.ok j, σ₁) → InTurn infer σ₁ ns js →
      InTurn infer σ (n :: ns) (j :: js)
  | between {σ σ₁ : Session} {α : Type} {x : Check α} {a : α} {ns : List Node}
      {js : List Inferred} : Scopeless x → outcome x σ = (.ok a, σ₁) → InTurn infer σ₁ ns js →
      InTurn infer σ ns js

/-- The trees that are inferred for a field of a table. -/
def fieldParts : Node × Node → List Node
  | (_, .vararg l) => [.vararg l]
  | (key, value) => [key, value]

/-- What is inferred of the parts of a tree whose types it gathers. -/
inductive Gathered (depth : Nat) (σ : Session) : Node → List Inferred → Prop
  | table {l : Location} {fields : List (Node × Node)} {js : List Inferred} :
      InTurn (inferTo depth) σ (fields.flatMap fieldParts) js → Gathered depth σ (.table l fields) js
  | returns {l : Location} {exprs : List Node} {js : List Inferred} :
      InTurn (inferTo depth) σ exprs js → Gathered depth σ (.returns l exprs) js
  | chunk {l : Location} {statements : List Node} {last : Option Node} {js : List Inferred} :
      InTurn (inferTo depth) (inner σ) (statements ++ last.toList) js →
      Gathered depth σ (.chunk l statements last) js
  | alone {l : Location} {condition body : Node} {elseifs : List Node} {c b : Inferred}
      {σ₁ σ₂ : Session} : outcome (enterBody (inferTo depth) l condition) σ = (.ok c, σ₁) →
      outcome (inferTo depth body) σ₁ = (.ok b, σ₂) →
      Gathered depth σ (.branch l condition body elseifs none) [b]
  | both {l : Location} {condition body other : Node} {elseifs : List Node} {b e : Inferred}
      {σ₁ σ₂ : Session} :
      outcome (enterOther (inferTo depth) l condition body) σ = (.ok b, σ₁) →
      outcome (inferTo depth other) σ₁ = (.ok e, σ₂) →
      Gathered depth σ (.branch l condition body elseifs (some other)) [b, e]

/-- A substitution binds exactly what another one does, or one of those that are inferred. -/
def Joins (s' s : Subst) (js : List Inferred) : Prop :=
  ∀ y, s'.find? y = none ↔ s.find? y = none ∧ ∀ j ∈ js, j.subst.find? y = none

lemma Joins.cons {s₁ s' : Subst} {j : Inferred} {js : List Inferred}
    (hs : outcome (compose j.subst s) σ = (.ok s₁, σ')) (h : Joins s' s₁ js) :
    Joins s' s (j :: js) := by
  intro y
  rw [h y, compose_find? hs, List.forall_mem_cons]
  tauto

variable {ns : List Node} {js' : List Inferred}

lemma inferReturned_joins {q : Subst × List Ty}
    (h : outcome (inferReturned infer s types exprs) σ = (.ok q, σ')) :
    ∃ js, InTurn infer σ exprs js ∧ Joins q.1 s js := by
  unfold inferReturned at h
  induction exprs generalizing s types σ with
  | nil =>
    obtain ⟨rfl, -⟩ := pure_eq_ok.1 h
    exact ⟨[], .nil σ, fun y => by simp⟩
  | cons expr rest ih =>
    obtain ⟨e, σ₁, he, h⟩ := bind_eq_ok.1 h
    obtain ⟨more, σ₂, hmore, h⟩ := bind_eq_ok.1 h
    obtain ⟨s₁, σ₃, hs₁, h⟩ := bind_eq_ok.1 h
    obtain ⟨js, hjs, hjoins⟩ := ih h
    exact ⟨e :: js, .infer he (.between (scopeless_returned _ _) hmore
      (.between (scopeless_compose _ _) hs₁ hjs)), hjoins.cons hs₁⟩

lemma addStatement_subst {p q : Progress} {statement : Node}
    (h : outcome (addStatement l p statement i) σ = (.ok q, σ')) : q.subst = p.subst := by
  rw [addStatement] at h
  split at h
  · by_cases hi : i.subst.returning = true
    · obtain ⟨_, _, _, _, _, _, _, rfl⟩ := addReturn_returning hi h
      rfl
    · obtain ⟨_, _, _, _, _, rfl⟩ := addReturn_not_returning (Bool.not_eq_true _ ▸ hi) h
      rfl
  · cases h
    rfl

/-- Statements, and whatever is inferred after them. -/
lemma inferStatements_joins {statements : List Node} {p p' : Progress}
    (h : outcome (inferStatements infer l p statements) σ = (.ok p', σ'))
    (hrest : InTurn infer σ' ns js') :
    ∃ js, InTurn infer σ (statements ++ ns) (js ++ js') ∧ Joins p'.subst p.subst js := by
  induction statements generalizing p σ with
  | nil =>
    cases h
    exact ⟨[], hrest, fun y => by simp⟩
  | cons statement rest ih =>
    rw [inferStatements_cons] at h
    obtain ⟨j, σ₁, hj, h⟩ := bind_eq_ok.1 h
    obtain ⟨q, σ₂, hq, h⟩ := bind_eq_ok.1 h
    obtain ⟨s, σ₃, hs, h⟩ := bind_eq_ok.1 h
    obtain ⟨js, hjs, hjoins⟩ := ih h
    have hadd : Scopeless (addStatement l p statement j) :=
      scopeless_ite (scopeless_addReturn _ _) (.pure _)
    rw [addStatement_subst hq] at hs
    exact ⟨j :: js, .infer hj (.between hadd hq (.between (scopeless_compose _ _) hs hjs)),
      hjoins.cons hs⟩

lemma inferChunk_joins {statements : List Node} {last : Option Node}
    (h : outcome (inferChunk infer l statements last) σ = (.ok i, σ')) :
    ∃ js, InTurn infer (inner σ) (statements ++ last.toList) js ∧ Joins i.subst .empty js := by
  obtain ⟨σ₁, h⟩ := inScope_eq_ok h
  obtain ⟨p, σ₂, hp, h⟩ := bind_eq_ok.1 h
  cases last with
  | none =>
    obtain ⟨js, hjs, hjoins⟩ := inferStatements_joins hp (.nil σ₂)
    refine ⟨js, by simpa [inner] using hjs, ?_⟩
    cases hr : p.result with
    | none =>
      simp only [hr, pure_eq_ok] at h
      exact h.1 ▸ hjoins
    | some r =>
      simp only [hr, pure_eq_ok] at h
      exact h.1 ▸ hjoins
  | some last =>
    obtain ⟨j, σ₃, hj, h⟩ := bind_eq_ok.1 h
    obtain ⟨t, σ₄, -, h⟩ := bind_eq_ok.1 h
    obtain ⟨s, σ₅, hs, h⟩ := bind_eq_ok.1 h
    cases h
    obtain ⟨js, hjs, hjoins⟩ := inferStatements_joins hp (.infer hj (.nil σ₃))
    refine ⟨js ++ [j], hjs, fun y => (compose_find? hs).trans ?_⟩
    rw [hjoins y, List.forall_mem_append, List.forall_mem_singleton]
    tauto

lemma inferFields_joins {fields : List (Node × Node)} {types : List (Ty × Ty)}
    (h : outcome (inferFields infer s types fields) σ = (.ok i, σ')) :
    ∃ js, InTurn infer σ (fields.flatMap fieldParts) js ∧ Joins i.subst s js := by
  induction fields generalizing s types σ with
  | nil =>
    obtain ⟨rfl, -⟩ := pure_eq_ok.1 h
    exact ⟨[], .nil σ, fun y => by simp⟩
  | cons f rest ih =>
    obtain ⟨key, value⟩ := f
    by_cases hvararg : ∃ lv, value = .vararg lv
    · obtain ⟨lv, rfl⟩ := hvararg
      rw [inferFields.eq_def] at h
      simp only at h
      split at h
      · obtain ⟨more, σ₁, hmore, h⟩ := bind_eq_ok.1 h
        split at h
        · obtain ⟨s₁, σ₂, hs₁, h⟩ := bind_eq_ok.1 h
          obtain ⟨f, σ₃, hf, h⟩ := bind_eq_ok.1 h
          obtain ⟨js, hjs, hjoins⟩ := ih h
          exact ⟨more :: js, .infer hmore (.between (scopeless_compose _ _) hs₁
            (.between (scopeless_member _ _) hf hjs)), hjoins.cons hs₁⟩
        · cases h
      · cases h
    · have hne : ∀ lv, value = .vararg lv → False := fun lv hlv => hvararg ⟨lv, hlv⟩
      have hparts : fieldParts (key, value) = [key, value] := by
        rw [fieldParts]
        exact hne
      rw [inferFields] at h
      · obtain ⟨k, σ₁, hk, h⟩ := bind_eq_ok.1 h
        obtain ⟨v, σ₂, hv, h⟩ := bind_eq_ok.1 h
        obtain ⟨s₁, σ₃, hs₁, h⟩ := bind_eq_ok.1 h
        obtain ⟨s₂, σ₄, hs₂, h⟩ := bind_eq_ok.1 h
        obtain ⟨types', σ₅, htypes, h⟩ := bind_eq_ok.1 h
        obtain ⟨js, hjs, hjoins⟩ := ih h
        rw [List.flatMap_cons, hparts]
        exact ⟨k :: v :: js, .infer hk (.infer hv (.between (scopeless_compose _ _) hs₁
          (.between (scopeless_compose _ _) hs₂ (.between scopeless_enterField htypes hjs)))),
          (hjoins.cons hs₂).cons hs₁⟩
      all_goals exact hne

lemma inferBranch_joins {condition body : Node} {elseifs : List Node}
    {otherwise : Option Node}
    (h : outcome (inferBranch (inferTo depth) l condition body otherwise) σ = (.ok i, σ')) :
    ∃ js, Gathered depth σ (.branch l condition body elseifs otherwise) js ∧
      Joins i.subst .empty js := by
  obtain ⟨c, σ₁, b, σ₂, σ₃, henter, hb, h⟩ := inferBranch_eq_ok h
  cases otherwise with
  | none =>
    obtain ⟨t, σ₄, -, h⟩ := bind_eq_ok.1 h
    cases h
    exact ⟨[b], .alone henter hb, fun y => by simp [Subst.empty, Subst.find?]⟩
  | some other =>
    obtain ⟨_, σ₄, hnarrow, h⟩ := bind_eq_ok.1 h
    obtain ⟨e, σ₅, he, h⟩ := bind_eq_ok.1 h
    have hother : outcome (enterOther (inferTo depth) l condition body) σ = (.ok b, σ₄) :=
      bind_eq_ok.2 ⟨c, σ₁, henter, bind_eq_ok.2 ⟨b, σ₂, hb,
        bind_eq_ok.2 ⟨(), σ₄, hnarrow, rfl⟩⟩⟩
    simp only [joinBranches, bind_eq_ok, pure_eq_ok] at h
    obtain ⟨s, σ₆, hs, _, _, _, _, _, _, _, _, _, _, _, _, rfl, -⟩ := h
    refine ⟨[b, e], .both hother he, fun y => (compose_find? hs).trans ?_⟩
    simp [Subst.empty, Subst.find?, and_comm]

/-- The substitution of a tree that gathers the types of its parts binds what theirs do. -/
lemma inferStep_joins {n : Node} (hn : n.gathers = true)
    (hfunction : ∀ l params isVararg body name note, n ≠ .function l params isVararg body name note)
    (h : outcome (inferStep (inferTo depth) n) σ = (.ok i, σ')) :
    ∃ js, Gathered depth σ n js ∧ Joins i.subst .empty js := by
  cases n with
  | table l fields =>
    obtain ⟨js, hjs, hjoins⟩ := inferFields_joins h
    exact ⟨js, .table hjs, hjoins⟩
  | returns l exprs =>
    obtain ⟨q, σ₁, hq, h⟩ := bind_eq_ok.1 h
    obtain ⟨js, hjs, hjoins⟩ := inferReturned_joins hq
    cases h
    exact ⟨js, .returns hjs, hjoins⟩
  | branch l condition body elseifs otherwise => exact inferBranch_joins h
  | chunk l statements last =>
    obtain ⟨js, hjs, hjoins⟩ := inferChunk_joins h
    exact ⟨js, .chunk hjs, hjoins⟩
  | function => exact absurd rfl (hfunction _ _ _ _ _ _)
  | _ => cases hn

/-! ## All trees -/

/-- A tree that does not gather the types of its parts has a resolved type. -/
lemma inferStep_resolves {n : Node} {u : Ty} (hn : n.gathers = false) (hσ : σ.Fresh)
    (hnames : ∀ x ∈ n.names, Drawn σ.supply.count x)
    (h : outcome (inferStep (inferTo depth) n) σ = (.ok i, σ'))
    (hu : i.subst.apply i.type = .ok u) : i.subst.Resolves i.type := by
  cases n with
  | var l x => exact inferVar_resolves h
  | vararg l => exact inferVararg_resolves h hu
  | index l object key => exact inferIndex_resolves h
  | unary l op value => exact Subst.resolves_of_openVars_eq_nil (inferUnary_openVars h)
  | binary l left op right => exact Subst.resolves_of_openVars_eq_nil (inferBinary_openVars h)
  | call l callee args => exact inferCall_resolves hσ hnames h
  | declare l names exprs note => exact Subst.resolves_of_openVars_eq_nil (inferDeclare_openVars h)
  | assign l targets exprs => exact Subst.resolves_of_openVars_eq_nil (inferAssign_openVars h)
  | reveal l expr => exact Subst.resolves_of_openVars_eq_nil (inferReveal_openVars h)
  | nil l | number l v | string l v | boolean l v =>
    simp only [inferStep, pure_eq_ok] at h
    obtain ⟨rfl, _⟩ := h
    exact Subst.resolves_empty _
  | table | function | returns | branch | chunk => simp [Node.gathers] at hn
  | elseif | typeNote | resultNote => simp [inferStep, fault] at h

/-- When an inferred type is resolved by its own substitution: always, unless the tree gathers the
types of its parts. Of a function the parameters are always resolved, so that it depends on the
result and on the variable arguments. The types of the other trees that gather types are resolved if
what is inferred of no part, where it stands, binds a variable that is open in them; the condition of
a conditional statement does not count. -/
theorem apply_infer_eq_iff {n : Node} {u : Ty} (hσ : σ.Fresh)
    (hnames : ∀ x ∈ n.names, Drawn σ.supply.count x)
    (h : outcome (Check.infer n) σ = (.ok i, σ')) (hu : i.subst.apply i.type = .ok u) :
    (u = i.type ↔ (n.gathers = true → i.subst.Resolves i.type)) ∧
      (∀ l params isVararg body name note, n = .function l params isVararg body name note →
        ∃ types result rest, i.type = .function types result rest (some (.flag isVararg)) ∧
          i.subst.Resolves types ∧
          (u = i.type ↔ i.subst.Resolves result ∧ i.subst.Resolves rest)) ∧
      (n.gathers = true →
        (∀ l params isVararg body name note, n ≠ .function l params isVararg body name note) →
        ∃ js, Gathered (depthFor n - 1) σ n js ∧
          (u = i.type ↔ ∀ j ∈ js, j.subst.Resolves i.type)) := by
  have hself := Subst.apply_eq_self_iff hu
  have hstep : outcome (inferStep (inferTo (2 * n.size + 999)) n) σ = (.ok i, σ') := h
  refine ⟨?_, ?_, fun hn hfunction => ?_⟩
  · rw [hself]
    refine ⟨fun hr _ => hr, fun hr => ?_⟩
    cases hn : n.gathers with
    | true => exact hr hn
    | false => exact inferStep_resolves hn hσ hnames hstep hu
  · rintro l params isVararg body name note rfl
    obtain ⟨types, result, rest, htype, hparams⟩ := inferFunction_type hstep
    refine ⟨types, result, rest, htype, hparams, ?_⟩
    rw [hself, htype, resolves_function]
    exact ⟨fun hr => hr.2, fun hr => ⟨hparams, hr⟩⟩
  · obtain ⟨js, hjs, hjoins⟩ := inferStep_joins hn hfunction hstep
    refine ⟨js, hjs, hself.trans ⟨fun hr j hj x hx => ((hjoins x).1 (hr x hx)).2 j hj,
      fun hr x hx => (hjoins x).2 ⟨rfl, fun j hj => hr j hj x hx⟩⟩⟩

/-- The function that uses its parameter as a number and gives it back. -/
def usedParameter : Node :=
  .function default ["x"] false
    (.chunk default
      [.declare default [.bare "y"]
        [.binary default (.var default "x") .add (.number default (.ofNat 1))] none]
      (some (.returns default [.var default "x"])))
    none (.resultNote default none)

theorem apply_infer_eq_iff_usedParameter : ∃ i σ' u,
    outcome (Check.infer usedParameter) .initial = (.ok i, σ') ∧ i.subst.apply i.type = .ok u ∧
      (u = i.type ↔ (usedParameter.gathers = true → i.subst.Resolves i.type)) :=
  ⟨_, _, _, rfl, rfl,
    (apply_infer_eq_iff Session.fresh_initial (fun _ hx => absurd hx List.not_mem_nil) rfl rfl).1⟩

/-- The result of this function keeps the variable of the parameter, which the body has bound. -/
theorem infer_unresolved_result : ∃ i σ' u,
    outcome (Check.infer usedParameter) .initial = (.ok i, σ') ∧ i.subst.apply i.type = .ok u ∧
      u ≠ i.type := by
  refine ⟨_, _, _, rfl, rfl, ?_⟩
  intro h
  cases h

end Check

end LuaTyping
