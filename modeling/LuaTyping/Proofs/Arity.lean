import LuaTyping.Proofs.ReturnMerging
import LuaTyping.Proofs.ScopeLeaks
import LuaTyping.Proofs.Unfolding

set_option autoImplicit false

/-!
# The number of arguments

A call unifies the function that it wants with the one that it has, and this compares parameters and
arguments only as far as both go. Then it unifies the tuple of parameters with the tuple of
arguments, which fails if their numbers differ. Before that, tuples among the arguments are spread,
and a function that takes any number of arguments has those behind its parameters cut off. So the
arguments of an accepted call are as many as the parameters, or at least as many for such a
function.

## Main definitions

* `Ty.width` — the number of values that a type stands for among arguments.
* `Check.CallTypes` — the types of the arguments and of the callee of a call.

## Main results

* `Check.callKnown_arity` — the number of types that a function is called with.
* `Check.accepted_call_arity` — the number of arguments of an accepted call.
-/

namespace LuaTyping

namespace Ty

/-- The number of values that a type stands for among arguments: a tuple counts with all its
components. -/
def width (t : Ty) : Nat := (t.tupleArgs?.map List.length).getD 1

/-- Wrapping in a constructor wraps in its first argument. -/
lemma Wraps.exists_first {c : String} {p t : Ty} {as : List Ty} {v : Option Literal}
    {checks : List Checked} (h : Wraps (.con c (p :: as) v checks) t) :
    ∃ q bs, t = .con c (q :: bs) v checks ∧ Wraps p q := by
  generalize hs : Ty.con c (p :: as) v checks = s at h
  induction h generalizing p as with
  | refl => exact ⟨p, as, hs.symm, .refl p⟩
  | trans _ _ ih₁ ih₂ =>
    obtain ⟨q, bs, hq, hpq⟩ := ih₁ hs
    obtain ⟨r, cs, hr, hqr⟩ := ih₂ hq.symm
    exact ⟨r, cs, hr, hpq.trans hqr⟩
  | @arg a b d before after w more hab _ =>
    rw [Ty.con.injEq] at hs
    obtain ⟨rfl, hargs, rfl, rfl⟩ := hs
    cases before with
    | nil =>
      cases hargs
      exact ⟨b, after, rfl, hab⟩
    | cons q before =>
      cases hargs
      exact ⟨p, before ++ b :: after, rfl, .refl p⟩
  | result q r rest w more _ =>
    rw [Ty.con.injEq] at hs
    obtain ⟨rfl, hargs, rfl, rfl⟩ := hs
    obtain ⟨rfl, -⟩ := List.cons.inj hargs
    exact ⟨p, .tuple [r] :: rest, rfl, .refl p⟩
  | field | key | left | right => simp at hs

end Ty

namespace Check

open Ty (Wraps)

variable {infer : Inference} {σ σ' : Session} {s s' : Subst} {l : Location} {i : Inferred}
  {args : List Node} {types : List Ty}

/-! ## Unifying parameters and arguments -/

variable {c : String} {checks : List Checked}

/-- Constructors that unify have one name and equally many arguments, and no different values. -/
lemma eq_of_unify_con {d : String} {as bs : List Ty} {v w : Option Literal} {more : List Checked}
    {u : Unified} {k k' : Letters}
    (h : outcome (unify (.con c as v checks) (.con d bs w more)) k = (.ok u, k'))
    (hu : u.succeeds = true) :
    c = d ∧ as.length = bs.length ∧ ∀ x y, v = some x → w = some y → x.equal y = true := by
  rw [unify_eq] at h
  exact Ty.eq_of_unifyConstructors h hu

/-- Functions whose values do not differ are unified by their parameters and results. -/
lemma unify_functions_eq {as bs : List Ty} {v w : Option Literal} {more : List Checked}
    (hlen : as.length = bs.length) (hvalues : ∀ x y, v = some x → w = some y → x.equal y = true) :
    unify (.con "function" as v checks) (.con "function" bs w more) =
      unifyFunctions unify v w checks more as bs := by
  rw [unify_eq]
  cases v with
  | none => simp [unifyStep, unifyConstructors, hlen]
  | some x =>
    cases w with
    | none => simp [unifyStep, unifyConstructors, hlen]
    | some y => simp [unifyStep, unifyConstructors, hlen, hvalues x y rfl rfl]

/-- Only a function whose parameters are given by a constructor unifies with the function that a
call wants. -/
lemma params_of_unify_wanted {result : Ty} {fargs : List Ty} {value : Option Literal}
    {u : Unified} {k k' : Letters}
    (h : outcome (unify (wanted types result) (.con c fargs value checks)) k = (.ok u, k'))
    (hu : u.succeeds = true) :
    c = "function" ∧
      ∃ d params pvalue pchecks rest, fargs = .con d params pvalue pchecks :: rest := by
  obtain ⟨rfl, hlen, -⟩ := eq_of_unify_con h hu
  refine ⟨rfl, ?_⟩
  rw [wanted, Ty.function, unify_functions_eq hlen (by simp)] at h
  cases fargs with
  | nil => simp at hlen
  | cons p rest =>
    cases p with
    | con d params pvalue pchecks => exact ⟨d, params, pvalue, pchecks, rest, rfl⟩
    | var | table | union | all => simp [unifyFunctions, Ty.tuple] at h

/-- Whether the value of a function says that it takes any number of arguments behind its
parameters. -/
def takesMore (value : Option Literal) : Bool :=
  (value.map fun v => v.equal (.flag true)).getD false

/-- A function that takes any number of arguments is called with the first ones, at most as many as
it has parameters, and any other function with all of them. -/
lemma splitArgs_length {d : String} {params rest types' : List Ty} {pvalue value : Option Literal}
    {pchecks : List Checked} {more : Option Ty}
    (h : outcome (splitArgs l (.con d params pvalue pchecks :: rest) value types) σ =
      (.ok (types', more), σ')) :
    types'.length = if takesMore value = true then min params.length types.length
      else types.length := by
  rw [splitArgs] at h
  change outcome (if takesMore value = true then _ else _) σ = _ at h
  by_cases hmore : takesMore value = true
  · rw [if_pos hmore] at h
    obtain ⟨t, σ₁, ht, h⟩ := bind_eq_ok.1 h
    cases ht
    obtain ⟨r, σ₂, -, h⟩ := bind_eq_ok.1 h
    obtain ⟨heq, -⟩ := pure_eq_ok.1 h
    cases heq
    rw [if_pos hmore, List.length_take]
  · rw [if_neg hmore] at h
    obtain ⟨heq, -⟩ := pure_eq_ok.1 h
    cases heq
    rw [if_neg hmore]

/-- What can be called with success is a function with a tuple of parameters, as many as there are
types, or at most as many if it takes any number of arguments.

**Proof sketch.** The first unification compares the parameters with the types as far as both go. It
changes neither their numbers nor that the parameters are a constructor. The second one compares the
numbers. -/
theorem callKnown_arity {fargs : List Ty} {value : Option Literal} {f a : Subst} {result : Ty}
    (h : outcome (callKnown l (.con c fargs value checks) value f a types result) σ = (.ok i, σ')) :
    c = "function" ∧ ∃ params pvalue pchecks rest,
      fargs = .con "tuple" params pvalue pchecks :: rest ∧
      if takesMore value = true then params.length ≤ types.length
      else types.length = params.length := by
  rw [callKnown] at h
  obtain ⟨⟨types', more⟩, σ₁, hsplit, h⟩ := bind_eq_ok.1 h
  obtain ⟨⟨s, u⟩, σ₂, hfirst, h⟩ := bind_eq_ok.1 h
  obtain ⟨p, σ₃, hp, h⟩ := bind_eq_ok.1 h
  obtain ⟨⟨t, w⟩, σ₄, hsecond, -⟩ := bind_eq_ok.1 h
  obtain ⟨k, k', hfirst, hu⟩ := exists_unify_of_unifyAt hfirst
  obtain ⟨k₂, k₂', hsecond, hw⟩ := exists_unify_of_unifyAt hsecond
  obtain ⟨rfl, d, params, pvalue, pchecks, rest, rfl⟩ := params_of_unify_wanted hfirst hu
  obtain ⟨hleft, hright⟩ := wraps_of_unifyTo hfirst
  -- what the first unification leaves of the arguments
  obtain ⟨q, bs, hq, hwraps⟩ := hleft.exists_first
  obtain ⟨types'', rfl, htypes⟩ := hwraps.exists_con
  have hargs : argsOf ((argsOf u.left).headD (.tuple types')) = types'' := by
    rw [hq]
    rfl
  -- and of the parameters
  obtain ⟨p', ps, hp', hwraps'⟩ := hright.exists_first
  obtain ⟨params', rfl, hparams⟩ := hwraps'.exists_con
  obtain rfl : .con d params' pvalue pchecks = p := by
    rw [hp'] at hp
    exact (pure_eq_ok.1 hp).1
  rw [hargs] at hsecond
  obtain ⟨rfl, hlen, -⟩ := eq_of_unify_con hsecond hw
  refine ⟨rfl, params, pvalue, pchecks, rest, rfl, ?_⟩
  have hcount := splitArgs_length hsplit
  split_ifs at hcount ⊢
  · omega
  · omega

/-! ## Calls -/

/-- Arguments are inferred one after the other, and what each concludes is composed with what has
been concluded before. -/
inductive ArgTypes (infer : Inference) :
    Subst → Session → List Node → List Ty → Subst → Session → Prop
  | nil (s : Subst) (σ : Session) : ArgTypes infer s σ [] [] s σ
  | cons {s s₁ s₂ : Subst} {σ σ₁ σ₂ σ₃ : Session} {arg : Node} {rest : List Node} {a : Inferred}
      {types : List Ty} : outcome (infer arg) σ = (.ok a, σ₁) →
      outcome (compose a.subst s) σ₁ = (.ok s₁, σ₂) → ArgTypes infer s₁ σ₂ rest types s₂ σ₃ →
      ArgTypes infer s σ (arg :: rest) (a.type :: types) s₂ σ₃

/-- The rule for arguments hands over as many types as the types of the arguments stand for. -/
lemma argTypes_of_inferArgs {before all : List Ty}
    (h : outcome (inferArgs infer s before args) σ = (.ok (s', all), σ')) :
    ∃ types, ArgTypes infer s σ args types s' σ' ∧
      all.length = before.length + (types.map Ty.width).sum := by
  unfold inferArgs at h
  induction args generalizing s before σ with
  | nil =>
    obtain ⟨heq, rfl⟩ := pure_eq_ok.1 h
    obtain ⟨rfl, rfl⟩ := Prod.mk.inj heq
    exact ⟨[], .nil s σ, rfl⟩
  | cons arg rest ih =>
    obtain ⟨a, σ₁, ha, h⟩ := bind_eq_ok.1 h
    obtain ⟨more, σ₂, hmore, h⟩ := bind_eq_ok.1 h
    cases hmore
    obtain ⟨s₁, σ₂, hs₁, h⟩ := bind_eq_ok.1 h
    obtain ⟨types, htypes, hlen⟩ := ih h
    refine ⟨a.type :: types, .cons ha hs₁ htypes, ?_⟩
    rw [hlen, List.length_append, List.length_map, List.map_cons, List.sum_cons, Ty.width,
      Ty.components]
    cases a.type.tupleArgs? with
    | none => simp only [Option.map_none, Option.getD_none, List.length_singleton]; omega
    | some as => simp only [Option.map_some, Option.getD_some]; omega

/-- What a call in a session has inferred when it comes to check its arguments: their types in turn,
and then the type of its callee, without the tuples around it. -/
def CallTypes (σ : Session) (l : Location) (callee : Node) (args : List Node) (types : List Ty)
    (f : Ty) : Prop :=
  ∃ s σ₁ result σ₂ i σ₃,
    ArgTypes (inferTo (depthFor (.call l callee args) - 1)) .empty σ args types s σ₁ ∧
    outcome fresh σ₁ = (.ok result, σ₂) ∧
    outcome (inferTo (depthFor (.call l callee args) - 1) callee) σ₂ = (.ok i, σ₃) ∧
    i.type.flatten = .ok f

/-- **Accepted calls have the right number of arguments**. If a call is accepted, then the type of
its callee is a variable, of which nothing is known, or that of a function whose parameters are a
tuple. The arguments stand for as many values as there are parameters, where an argument whose type
is a tuple stands for all its components; or for at least as many, if the function takes any number
of arguments. -/
theorem accepted_call_arity {callee : Node}
    (h : outcome (Check.infer (.call l callee args)) σ = (.ok i, σ')) :
    ∃ types f, CallTypes σ l callee args types f ∧
      ((∃ x, f = .var x) ∨ ∃ params pvalue pchecks rest value checks,
        f = .con "function" (.con "tuple" params pvalue pchecks :: rest) value checks ∧
        if takesMore value = true then params.length ≤ (types.map Ty.width).sum
        else (types.map Ty.width).sum = params.length) := by
  have hcall : outcome (inferCall (inferTo (depthFor (.call l callee args) - 1)) l callee args) σ =
    (.ok i, σ') := h
  obtain ⟨⟨s, all⟩, σ₁, hargs, hcall⟩ := bind_eq_ok.1 hcall
  obtain ⟨result, σ₂, hresult, hcall⟩ := bind_eq_ok.1 hcall
  obtain ⟨f, σ₃, hf, hcall⟩ := bind_eq_ok.1 hcall
  obtain ⟨t, σ₄, ht, hcall⟩ := bind_eq_ok.1 hcall
  obtain ⟨types, htypes, hlen⟩ := argTypes_of_inferArgs hargs
  rw [List.length_nil, Nat.zero_add] at hlen
  have hflatten : f.type.flatten = .ok t := by
    cases hflat : f.type.flatten with
    | error e => simp [hflat, ofExcept, fault] at ht
    | ok t' =>
      rw [hflat, ofExcept, pure_eq_ok] at ht
      rw [ht.1]
  refine ⟨types, t, ⟨s, σ₁, result, σ₂, f, σ₃, htypes, hresult, hf, hflatten⟩, ?_⟩
  cases t with
  | var x => exact .inl ⟨x, rfl⟩
  | con c fargs value checks =>
    obtain ⟨rfl, params, pvalue, pchecks, rest, rfl, harity⟩ := callKnown_arity hcall
    exact .inr ⟨params, pvalue, pchecks, rest, value, checks, rfl, hlen ▸ harity⟩
  | table | union | all => simp [fault] at hcall

/-- A session in which `f` takes a text and any number of further arguments, and `p` is a pair of
texts. -/
def pairAtHand : Session :=
  .withLocals [("f", .own (.function (.tuple [.string]) (.tuple []) .nil (some (.flag true)))),
    ("p", .own (.tuple [.string, .string]))]

/-- The call `f(p)`. -/
def callPair : Node := .call default (.var default "f") [.var default "p"]

/-- One argument that is a pair is more than enough for one parameter, if the function takes any
number of arguments. -/
theorem accepted_call_arity_pair :
    ∃ i σ', outcome (Check.infer callPair) pairAtHand = (.ok i, σ') ∧
      ∃ types f, CallTypes pairAtHand default (.var default "f") [.var default "p"] types f ∧
        ((∃ x, f = .var x) ∨ ∃ params pvalue pchecks rest value checks,
          f = .con "function" (.con "tuple" params pvalue pchecks :: rest) value checks ∧
          if takesMore value = true then params.length ≤ (types.map Ty.width).sum
          else (types.map Ty.width).sum = params.length) := by
  have hok : (outcome (Check.infer callPair) pairAtHand).1.isOk = true := by decide +kernel
  obtain ⟨i, σ', h⟩ := exists_of_isOk hok
  exact ⟨i, σ', h, accepted_call_arity h⟩

end Check

end LuaTyping
