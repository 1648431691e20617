import LuaTyping.Proofs.Conditions
import LuaTyping.Proofs.Preorder
import LuaTyping.Proofs.ScopeLeaks
import LuaTyping.Proofs.Unfolding

set_option autoImplicit false

/-!
# Arguments and parameters

A call is checked by two unifications: the function that the call wants with the function that it
has, which turns the direction round for the parameters, and then the parameters with the arguments.
Both ask whether the parameter extends the argument. So a call with arguments that extend their
parameters is refused if a parameter allows more than its argument, and one with arguments that
allow more than their parameters is accepted.

## Main definitions

* `Ty.Broad` — unions of numbers, texts, booleans and the absent value.
* `ParamsExtend` — each parameter extends its argument.

## Main results

* `Check.callKnown_cases` — calls with given types of arguments.
* `Check.call_accepted_iff` — which calls are accepted.
-/

namespace LuaTyping

open Naming Ty

/-! ## Types of parameters -/

namespace Ty

variable {t : Ty}

/-- A union, however nested, of types of numbers, texts, booleans and the absent value, without
literal values. -/
inductive Broad : Ty → Prop
  | con {c : String} (checks : List Checked) : c ∈ scalarNames → Broad (.con c [] none checks)
  | union {left right : Ty} : Broad left → Broad right → Broad (.union left right)

lemma Broad.regular (h : t.Broad) : t.Regular := by
  induction h with
  | con checks hc => exact .con checks (ne_of_mem_scalarNames hc).1 (by simp) nofun
  | union _ _ ihl ihr => exact .union ihl ihr

lemma Broad.scalar (h : t.Broad) : t.Scalar := by
  induction h with
  | con checks hc => exact .con checks hc nofun
  | union _ _ ihl ihr => exact .union ihl ihr

lemma Scalar.broad (h : t.Scalar) : t.broaden.Broad := by
  induction h with
  | con checks hc _ => exact .con checks hc
  | union _ _ ihl ihr => exact .union ihl ihr

end Ty

/-- Each parameter extends the argument in its place. -/
def ParamsExtend (params types : List Ty) : Prop :=
  ∀ (i : Nat) p t, params[i]? = some p → types[i]? = some t → p.UsableAs t

namespace Check

variable {params results types : List Ty} {rest : Ty} {value : Option Literal}
  {checks : List Checked} {r f : String} {σ : Session}

/-! ## Unifying parameters and arguments -/

lemma regular_tuple (h : ∀ t ∈ types, t.Regular) : (Ty.tuple types).Regular :=
  .con [] (by decide) h nofun

lemma succeeds_swap_iff {p t : Ty} {w : Unified} {k k' : Letters} (hp : p.Regular) (ht : t.Regular)
    (h : outcome (do return (← unify p t).swap : Naming Unified) k = (.ok w, k')) :
    w.succeeds = true ↔ p.UsableAs t := by
  obtain ⟨u, k₁, hu, h⟩ := bind_eq_ok.1 h
  cases h
  rw [hp.usableAs_iff ht, ← succeeds_iff_under hp.simple ht.simple hu]
  rfl

/-- The parameters of the function that a call wants are unified with those that it has against the
direction: each of the latter has to extend the former. -/
lemma unifyLists_swap_sat (htypes : ∀ t ∈ types, t.Regular) (hparams : ∀ p ∈ params, p.Regular) :
    (unifyLists (fun t p => do return (← unify p t).swap) (Subst.composeWith (fitsBy unify)) .empty
      types params).Sat
      (fun u => (u.left = types ∧ u.right = params ∧ ∀ s, u.outcome = .ok s → s.bindings = []) ∧
        ((∃ s, u.outcome = .ok s) ↔ ParamsExtend params types)) fun _ => False := by
  have hmember : ∀ t ∈ types, ∀ p ∈ params,
      (do return (← unify p t).swap : Naming Unified).Sat (Unchanged t p) fun _ => False := by
    intro t ht p hp
    have hunify := unify_unchanged (hparams p hp).simple (hparams p hp).trueless.args
      (htypes t ht).simple (htypes t ht).trueless
    exact hunify.bind fun u ⟨hleft, hright, hs⟩ => .pure ⟨hright, hleft, hs⟩
  have hlists : (unifyLists (fun t p => do return (← unify p t).swap)
      (Subst.composeWith (fitsBy unify)) .empty types params).Sat
      (fun u => u.left = types ∧ u.right = params ∧ ∀ s, u.outcome = .ok s → s.bindings = [])
      fun _ => False :=
    unifyLists_unchanged (fun s t hs ht => composeWith_unbound hs ht) rfl hmember
  refine (hlists.and (hlists.imp_of_eq_ok fun u k k' h => ?_)).imp (fun _ h => h) fun _ h => h.1
  constructor
  · intro hu i p t hp ht
    obtain ⟨w, k₁, k₂, hw, hsucceeds⟩ := succeeds_of_unifyLists h hu ht hp
    exact (succeeds_swap_iff (hparams p (List.mem_of_getElem? hp))
      (htypes t (List.mem_of_getElem? ht)) hw).1 hsucceeds
  · intro hextend
    refine unifyLists_succeeds h fun i t p w k₁ k₂ ht hp hw => ?_
    exact (succeeds_swap_iff (hparams p (List.mem_of_getElem? hp))
      (htypes t (List.mem_of_getElem? ht)) hw).2 (hextend i p t hp ht)

/-- The function that a call wants unifies with the one that it has if each parameter extends its
argument, and then the result is that of the function.

**Proof sketch.** By the rule for functions. The parameters are unified first, against the
direction, and bind nothing; the result that is wanted is a variable, which is then bound. -/
lemma unify_wanted_sat (htypes : ∀ t ∈ types, t.Regular) (hparams : ∀ p ∈ params, p.Regular)
    (r : String) (results : List Ty) (rest : Ty) (value : Option Literal) (checks : List Checked) :
    (unify (wanted types (.var r))
      (.con "function" [.tuple params, .tuple results, rest] value checks)).Sat
      (fun u => (u.left = wanted types (.var r) ∧
          u.right = .con "function" [.tuple params, .tuple results, rest] value checks ∧
          ∀ s, u.outcome = .ok s → s.bindings = [(r, .tuple results)]) ∧
        ((∃ s, u.outcome = .ok s) ↔ ParamsExtend params types)) fun _ => False := by
  have hresult : unify (.var r) (.tuple results) =
      pure ⟨.ok (.single r (.tuple results)), .var r, .tuple results⟩ := by
    rw [unify_eq]
    rfl
  have hfunctions : unify (wanted types (.var r))
      (.con "function" [.tuple params, .tuple results, rest] value checks) =
      unifyFunctions unify none value [] checks [.tuple types, .var r, .nil]
        [.tuple params, .tuple results, rest] := by
    rw [unify_eq]
    rfl
  rw [hfunctions]
  refine .bind (unifyLists_swap_sat htypes hparams) fun u ⟨⟨hleft, hright, hs⟩, hiff⟩ => ?_
  rw [hleft, hright]
  cases hout : u.outcome with
  | error m =>
    refine .pure ⟨⟨rfl, rfl, nofun⟩, ?_⟩
    rw [← hiff, hout]
  | ok s =>
    have hfound : ((Subst.single r (.tuple results)).composeWith (fitsBy unify) s).Sat
        (fun found => found.bindings = [(r, .tuple results)]) fun _ => False := by
      simp only [Subst.composeWith, hs s hout, Subst.composeBindings]
      exact .pure rfl
    change (unify (.var r) (.tuple results) >>= _).Sat _ _
    rw [hresult, pure_bind]
    refine .bind hfound fun found hbindings => .pure ⟨⟨rfl, rfl, ?_⟩, ?_⟩
    · rintro _ ⟨⟩
      exact hbindings
    · exact iff_of_true ⟨found, rfl⟩ (hiff.1 ⟨s, hout⟩)

/-- The parameters unify with the arguments if each parameter extends its argument, too. -/
lemma unify_params_extend_sat (htypes : ∀ t ∈ types, t.Regular)
    (hparams : ∀ p ∈ params, p.Regular) (hlen : params.length = types.length) :
    (unify (.tuple params) (.tuple types)).Sat
      (fun u => (∀ s, u.outcome = .ok s → s.bindings = []) ∧
        ((∃ s, u.outcome = .ok s) ↔ ParamsExtend params types)) fun _ => False := by
  have hp := regular_tuple hparams
  have ht := regular_tuple htypes
  have hunify := unify_unchanged hp.simple hp.trueless.args ht.simple ht.trueless
  refine (hunify.and (hunify.imp_of_eq_ok fun u k k' h => ?_)).imp (fun _ h => ⟨h.1.2.2, h.2⟩)
    fun _ h => h.1
  rw [← Unified.succeeds_iff, succeeds_iff_under hp.simple ht.simple h, Ty.tuple, Ty.tuple,
    under_con_iff]
  have husable : ∀ (i : Nat) p t, params[i]? = some p → types[i]? = some t →
      (p.UsableAs t ↔ Under p t) := fun i p t hp ht =>
    (hparams p (List.mem_of_getElem? hp)).usableAs_iff (htypes t (List.mem_of_getElem? ht))
  constructor
  · rintro ⟨-, -, -, hargs⟩ i p t hp ht
    exact (husable i p t hp ht).2 (hargs i p t hp ht)
  · intro hextend
    exact ⟨rfl, rfl, hlen, fun i p t hp ht => (husable i p t hp ht).1 (hextend i p t hp ht)⟩

/-! ## Calls -/

/-- A unification that does not break off gives a substitution, or is reported. -/
lemma unifyAt_cases {a b : Ty} {Q : Unified → Prop} (h : (unify a b).Sat Q fun _ => False)
    (l : Location) (σ : Session) :
    ∃ u σ', Q u ∧
      ((∃ s, u.outcome = .ok s ∧ outcome (unifyAt l a b) σ = (.ok (s, u), σ')) ∨
        ∃ m, u.outcome = .error m ∧ outcome (unifyAt l a b) σ = (.error (.report l m), σ')) := by
  obtain ⟨u, letters, hu, hQ⟩ := h.exists_ok σ.letters
  refine ⟨u, { σ with letters }, hQ, ?_⟩
  cases hout : u.outcome with
  | ok s =>
    refine .inl ⟨s, rfl, ?_⟩
    simp only [unifyAt, outcome_bind, outcome_naming, hu, hout]
    rfl
  | error m =>
    refine .inr ⟨m, rfl, ?_⟩
    simp only [unifyAt, outcome_bind, outcome_naming, hu, hout]
    rfl

/-- A substitution without bindings leaves a binding of a closed type as it is. -/
lemma exists_compose_unbound {s t : Subst} {w : Ty} (hs : s.bindings = []) (hw : w.Ground)
    (ht : t.bindings = [(r, w)]) (σ : Session) :
    ∃ all, outcome (compose s t) σ = (.ok all, σ) ∧ all.bindings = [(r, w)] := by
  refine ⟨⟨[(r, w)], s.returning || t.returning⟩, ?_, rfl⟩
  have hcompose : s.compose t = pure ⟨[(r, w)], s.returning || t.returning⟩ := by
    simp only [Subst.compose, Subst.composeWith, hs, ht, Subst.composeBindings, List.lookup,
      hw.apply]
    rfl
  rw [compose, hcompose]
  rfl

/-- A call with given types of arguments gives the result of the function if each parameter extends
its argument, and is reported otherwise.

**Proof sketch.** Both unifications succeed exactly if each parameter extends its argument, so that
the first one decides. What they bind is the variable of the result alone. -/
theorem callKnown_cases (htypes : ∀ t ∈ types, t.Regular) (hparams : ∀ p ∈ params, p.Regular)
    (hlen : params.length = types.length) (hresults : (Ty.tuple results).Ground)
    (hvalue : ∀ v, value = some v → v.equal (.flag true) = false) (r : String) (l : Location)
    (σ : Session) :
    (ParamsExtend params types ∧ ∃ s σ', outcome (callKnown l
      (.con "function" [.tuple params, .tuple results, rest] value checks) value .empty .empty types
      (.var r)) σ = (.ok ⟨s, .tuple results⟩, σ')) ∨
    (¬ ParamsExtend params types ∧ ∃ m σ', outcome (callKnown l
      (.con "function" [.tuple params, .tuple results, rest] value checks) value .empty .empty types
      (.var r)) σ = (.error (.report l m), σ')) := by
  have hsplit : ∀ fargs, outcome (splitArgs l fargs value types) σ = (.ok (types, none), σ) := by
    intro fargs
    cases value with
    | none => rfl
    | some v => simp [splitArgs, hvalue v rfl]
  obtain ⟨u, σ₁, ⟨⟨hleft, hright, hbindings⟩, hiff⟩, hfirst⟩ :=
    unifyAt_cases (unify_wanted_sat htypes hparams r results rest value checks) l σ
  rcases hfirst with ⟨s, hs, hfirst⟩ | ⟨m, hm, hfirst⟩
  · have hextend := hiff.1 ⟨s, hs⟩
    obtain ⟨w, σ₂, ⟨hunbound, hiff'⟩, hsecond⟩ :=
      unifyAt_cases (unify_params_extend_sat htypes hparams hlen) l σ₁
    rcases hsecond with ⟨t, ht, hsecond⟩ | ⟨m, hm, -⟩
    · obtain ⟨all, hall, hresult⟩ := exists_compose_unbound (hunbound t ht) hresults
        (hbindings s hs) σ₂
      refine .inl ⟨hextend, all, σ₂, ?_⟩
      have happly : all.apply (.var r) = .ok (.tuple results) := by
        obtain ⟨bindings, returning⟩ := all
        obtain rfl : bindings = [(r, .tuple results)] := hresult
        simp only [Subst.apply, List.length_singleton, Subst.follow, Ty.replaceVars, List.lookup,
          beq_self_eq_true]
        exact hresults.replaceVars _
      have hmember : outcome (member (argsOf u.right) 0) σ₁ = (.ok (.tuple params), σ₁) := by
        rw [hright]
        rfl
      have hargs : argsOf ((argsOf u.left).headD (.tuple types)) = types := by
        rw [hleft]
        rfl
      simp only [callKnown, outcome_bind, hsplit, hfirst, hmember, hargs, hsecond, bindRest,
        outcome_pure, outcome_compose_empty, hall, apply_eq_ok.2 ⟨happly, rfl⟩]
    · obtain ⟨s', hs'⟩ := hiff'.2 hextend
      simp [hm] at hs'
  · refine .inr ⟨fun hextend => ?_, m, σ₁, ?_⟩
    · obtain ⟨s, hs⟩ := hiff.2 hextend
      simp [hm] at hs
    · simp only [callKnown, outcome_bind, hsplit, hfirst]

/-- The types of arguments that are local names. -/
lemma outcome_inferArgs_vars {args : List (Location × String)} {before : List Ty} {depth : Nat}
    (hargs : List.Forall₂ (fun a t => σ.scopes.local? a.2 = some t) args types)
    (htypes : ∀ t ∈ types, t.Scalar) :
    outcome (inferArgs (inferTo (depth + 1)) .empty before (args.map fun a => .var a.1 a.2)) σ =
      (.ok (.empty, before ++ types.map Ty.broaden), σ) := by
  unfold inferArgs
  induction hargs generalizing before with
  | nil => simp [inferEach]
  | @cons a t args types ha _ ih =>
    obtain ⟨ht, htypes⟩ := List.forall_mem_cons.1 htypes
    have hvar : outcome (inferTo (depth + 1) (.var a.1 a.2)) σ = (.ok (ofType t), σ) :=
      outcome_inferVar ha ht.ground
    simp only [List.map_cons, inferEach, outcome_bind, hvar, ofType, outcome_compose_empty,
      outcome_pure, components_of_ne ht.single.2, List.map_nil, ih htypes, List.append_assoc,
      List.singleton_append]

/-- The call `f(a₁, …, aₙ)` of a name with names. -/
def callNames (l lf : Location) (f : String) (args : List (Location × String)) : Node :=
  .call l (.var lf f) (args.map fun a => .var a.1 a.2)

/-- The call of a local name with local names comes to the call of its type with their types. -/
lemma infer_callNames {args : List (Location × String)} {fargs : List Ty}
    (hf : σ.scopes.local? f = some (.con "function" fargs value checks))
    (hground : (Ty.con "function" fargs value checks).Ground)
    (hargs : List.Forall₂ (fun a t => σ.scopes.local? a.2 = some t) args types)
    (htypes : ∀ t ∈ types, t.Scalar) (l lf : Location) :
    ∃ r σ', outcome (Check.infer (callNames l lf f args)) σ =
      outcome (callKnown l (.con "function" fargs value checks) value .empty .empty
        (types.map Ty.broaden) (.var r)) σ' := by
  obtain ⟨depth, hdepth⟩ : ∃ depth, depthFor (callNames l lf f args) = depth + 2 := ⟨_, rfl⟩
  have hinfer : Check.infer (callNames l lf f args) =
      inferCall (inferTo (depth + 1)) l (.var lf f) (args.map fun a => .var a.1 a.2) := by
    rw [Check.infer, hdepth]
    rfl
  obtain ⟨r, supply, hfresh⟩ : ∃ r supply,
      outcome fresh σ = (.ok (.var r), { σ with supply }) := ⟨_, _, rfl⟩
  have hcallee : outcome (inferTo (depth + 1) (.var lf f)) { σ with supply } =
      (.ok (ofType (.con "function" fargs value checks)), { σ with supply }) :=
    outcome_inferVar hf hground
  have hflatten : (Ty.con "function" fargs value checks).flatten =
      .ok (.con "function" fargs value checks) :=
    Ty.flatten_of_ne (by decide) _ _ _
  refine ⟨r, { σ with supply }, ?_⟩
  simp only [hinfer, inferCall, outcome_bind, outcome_inferArgs_vars hargs htypes, hfresh, hcallee,
    ofType, hflatten, ofExcept, outcome_pure, List.nil_append]

/-- **Which calls are accepted**. Let a local name have the type of a function that does not take
any number of arguments, with parameters that are unions of numbers, texts, booleans and the absent
value without literal values, and with a closed result. Let it be called with as many local names,
whose types are such unions, with or without literal values. Then the call is accepted, with the
result of the function as its type, exactly if each *parameter* extends the type of its argument
with literal values forgotten; otherwise the call is reported. -/
theorem call_accepted_iff {args : List (Location × String)}
    (hf : σ.scopes.local? f =
      some (.con "function" [.tuple params, .tuple results, rest] value checks))
    (hvalue : ∀ v, value = some v → v.equal (.flag true) = false)
    (hparams : ∀ p ∈ params, p.Broad) (hresults : (Ty.tuple results).Ground) (hrest : rest.Ground)
    (hargs : List.Forall₂ (fun a t => σ.scopes.local? a.2 = some t) args types)
    (htypes : ∀ t ∈ types, t.Scalar) (hlen : params.length = types.length) (l lf : Location) :
    (ParamsExtend params (types.map Ty.broaden) ∧
      ∃ s σ', outcome (Check.infer (callNames l lf f args)) σ = (.ok ⟨s, .tuple results⟩, σ')) ∨
    (¬ ParamsExtend params (types.map Ty.broaden) ∧
      ∃ m σ', outcome (Check.infer (callNames l lf f args)) σ = (.error (.report l m), σ')) := by
  have hparamsGround : (Ty.tuple params).Ground :=
    within_tuple_iff.2 fun p hp => (hparams p hp).scalar.ground
  have hground : (Ty.con "function" [.tuple params, .tuple results, rest] value checks).Ground :=
    ground_con_iff.2 (by simp [hparamsGround, hresults, hrest])
  have hregular : ∀ t ∈ types.map Ty.broaden, t.Regular :=
    List.forall_mem_map.2 fun t ht => (htypes t ht).broad.regular
  obtain ⟨r, σ', hcall⟩ := infer_callNames hf hground hargs htypes l lf
  rw [hcall]
  exact callKnown_cases hregular (fun p hp => (hparams p hp).regular) (by simpa using hlen) hresults
    hvalue r l σ'

/-- A session in which `f` takes one argument of a type and gives a text, and `a` has another type.
-/
def calling (param arg : Ty) : Session :=
  .withLocals [("f", .own (.con "function" [.tuple [param], .tuple [.string], .nil] none [])),
    ("a", .own arg)]

theorem call_accepted_iff_wide_argument :
    ¬ (Ty.union .number .string).UsableAs .number ∧
      ∃ s σ', outcome (Check.infer (callNames default default "f" [(default, "a")]))
        (calling .number (.union .number .string)) = (.ok ⟨s, .tuple [.string]⟩, σ') := by
  have hnumber : Ty.number.Broad := .con [] (by decide)
  have hstring : Ty.string.Broad := .con [] (by decide)
  have hunion : (Ty.union .number .string).Broad := .union hnumber hstring
  have hextend : ParamsExtend [.number] ([Ty.union .number .string].map Ty.broaden) := by
    intro i p t hp ht
    cases i with
    | zero =>
      cases hp
      cases ht
      exact fun _ => rfl
    | succ i => simp at hp
  have hwide : outcome ((Ty.union .number .string).fits .number) [] = (.ok false, []) := rfl
  refine ⟨fun h => Bool.false_ne_true (Sat.of_eq_ok (Q := (· = true)) h hwide), ?_⟩
  have hf : (calling .number (.union .number .string)).scopes.local? "f" =
      some (.con "function" [.tuple [.number], .tuple [.string], .nil] none []) := rfl
  have hargs : List.Forall₂
      (fun a t => (calling .number (.union .number .string)).scopes.local? a.2 = some t)
      [((default : Location), "a")] [.union .number .string] := .cons rfl .nil
  have hcall := call_accepted_iff hf nofun (List.forall_mem_singleton.2 hnumber) ground_strings
    (within_plain "nil") hargs (List.forall_mem_singleton.2 hunion.scalar) rfl default default
  exact hcall.elim And.right fun hno => absurd hextend hno.1

/-- A number extends the union of numbers and texts, but a call that hands it over where this union
is wanted is reported. -/
theorem narrow_argument_refused :
    Ty.number.broaden.UsableAs (.union .number .string) ∧
      ∃ m σ', outcome (Check.infer (callNames default default "f" [(default, "a")]))
        (calling (.union .number .string) .number) = (.error (.report default m), σ') :=
  ⟨fun _ => rfl, _, _, rfl⟩

end Check

end LuaTyping
