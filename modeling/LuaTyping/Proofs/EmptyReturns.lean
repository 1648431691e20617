import LuaTyping.Proofs.BranchNarrowing
import LuaTyping.Proofs.ReturnMerging
import LuaTyping.Proofs.Unfolding

set_option autoImplicit false

/-!
# Returns of nothing

A chunk collects what its statements return. As long as that has no components, it does not matter
to a chunk whose type has none whether nothing has been returned or something without components.
But it matters to what comes later: if something without components has been returned, then a later
component may be nil, since it was not there before.

## Main definitions

* `Ty.EmptyTuple`, `Ty.OptionalTuple` — tuples without components, and tuples
  whose components may all be nil.
* `Check.Progress.Tupled`, `Check.Progress.Hushed` — what has been returned is a
  tuple, and one without components.
* `Check.finish` — the end of a chunk.

## Main results

* `Check.outcome_addReturn_nothing`, `Check.addReturn_refused`,
  `Check.addReturn_closing` — what a statement adds that returns nothing.
* `Check.rest_hushed` — a chunk without components comes to the same from all progress
  without components.
* `Check.rest_optional` — what is returned after a return of nothing.
-/

namespace LuaTyping

/-! ## Tuples without components -/

namespace Ty

/-- A tuple without components: the type of what returns nothing. -/
def EmptyTuple (t : Ty) : Prop := ∃ v checks, t = .con "tuple" [] v checks

variable {t u : Ty}

lemma emptyTuple_tuple : EmptyTuple (.tuple []) := ⟨none, [], rfl⟩

lemma emptyTuple_iff : t.EmptyTuple ↔ t.isNamed "tuple" = true ∧ Check.argsOf t = [] := by
  constructor
  · rintro ⟨v, checks, rfl⟩
    exact ⟨rfl, rfl⟩
  · rintro ⟨hnamed, hargs⟩
    obtain ⟨args, v, checks, rfl⟩ := exists_con_of_isNamed hnamed
    obtain rfl : args = [] := hargs
    exact ⟨v, checks, rfl⟩

lemma EmptyTuple.apply (h : t.EmptyTuple) (s : Subst) : s.apply t = .ok t := by
  obtain ⟨v, checks, rfl⟩ := h
  obtain ⟨f, hf⟩ := s.exists_apply_eq (.con "tuple" [] v checks)
  rw [hf]
  rfl

lemma emptyTuple_broaden_iff : t.broaden.EmptyTuple ↔ t.EmptyTuple := by
  cases t with
  | con c args v checks =>
    rw [emptyTuple_iff, emptyTuple_iff]
    simp [Ty.broaden, isNamed, Check.argsOf, broadenList_eq_map]
  | union left right => simp [emptyTuple_iff, Ty.broaden, isNamed]
  | var | table | all => rfl

lemma Wraps.emptyTuple_iff (h : t.Wraps u) : u.EmptyTuple ↔ t.EmptyTuple := by
  constructor
  · intro hu
    obtain ⟨args, v, checks, rfl⟩ :=
      exists_con_of_isNamed ((h.isNamed_eq "tuple").symm.trans (Ty.emptyTuple_iff.1 hu).1)
    obtain ⟨bs, rfl, hbs⟩ := h.exists_args
    obtain rfl : bs = [] := (Ty.emptyTuple_iff.1 hu).2
    obtain rfl := List.forall₂_nil_right_iff.1 hbs
    exact ⟨v, checks, rfl⟩
  · rintro ⟨v, checks, rfl⟩
    exact ⟨v, checks, h.eq_of_nil⟩

/-- A substitution neither adds components to a tuple nor takes any away. -/
lemma emptyTuple_of_apply {s : Subst} (hu : s.apply t = .ok u) (ht : t.isNamed "tuple" = true)
    (h : u.EmptyTuple) : t.EmptyTuple := by
  obtain ⟨args, v, checks, rfl⟩ := exists_con_of_isNamed ht
  obtain ⟨f, hf⟩ := s.exists_apply_eq (.con "tuple" args v checks)
  obtain ⟨args', rfl, hargs⟩ := replaceVars_con (hf.symm.trans hu)
  obtain rfl : args' = [] := (Ty.emptyTuple_iff.1 h).2
  obtain rfl := List.forall₂_nil_right_iff.1 hargs
  exact ⟨v, checks, rfl⟩

lemma EmptyTuple.unify_broaden (ht : t.EmptyTuple) (hu : u.EmptyTuple) :
    unify t u.broaden = pure ⟨.ok .empty, t, u.broaden⟩ := by
  obtain ⟨v, checks, rfl⟩ := ht
  obtain ⟨w, more, rfl⟩ := hu
  rw [unify_eq]
  cases v <;> rfl

variable {as bs : List Ty}

/-- Constructors with different numbers of arguments do not unify. -/
lemma succeeds_eq_false_of_length {c : String} {v w : Option Literal} {checks more : List Checked}
    (hlen : as.length ≠ bs.length) {r : Unified} {k k' : Letters}
    (h : outcome (unify (.con c as v checks) (.con c bs w more)) k = (.ok r, k')) :
    r.succeeds = false := by
  rw [unify_eq] at h
  simp only [unifyStep, unifyConstructors, ne_eq, not_true_eq_false, if_false, hlen,
    not_false_eq_true, if_true] at h
  obtain ⟨left, k₁, -, h⟩ := bind_eq_ok.1 h
  obtain ⟨right, k₂, -, h⟩ := bind_eq_ok.1 h
  obtain rfl := Except.ok.inj (Prod.mk.inj h).1
  rfl

/-- Where no variable is bound, a type is left as it is. -/
lemma eq_of_apply_empty (h : Subst.empty.apply t = .ok u) : u = t := by
  change t.replaceVars (fun x => .ok (.var x)) = .ok u at h
  induction t generalizing u with
  | var x => exact (Except.ok.inj h).symm
  | con c args v checks ih =>
    obtain ⟨args', rfl, hargs⟩ := replaceVars_con h
    have heq : List.Forall₂ Eq args args' :=
      forall₂_imp_of_mem hargs fun a ha b hab => (ih a ha hab).symm
    rw [List.forall₂_eq_eq_eq] at heq
    rw [heq]
  | table fields ih =>
    simp only [replaceVars, except_bind_eq_ok, replaceVarsFields_eq_ok, pure, Except.pure,
      Except.ok.injEq] at h
    obtain ⟨fields', hfields, rfl⟩ := h
    have heq : List.Forall₂ Eq fields fields' :=
      forall₂_imp_of_mem hfields fun e he g hg => Prod.ext hg.1 ((ih e he).2 hg.2).symm
    rw [List.forall₂_eq_eq_eq] at heq
    rw [heq]
  | union left right ihl ihr =>
    simp only [replaceVars, except_bind_eq_ok, pure, Except.pure, Except.ok.injEq] at h
    obtain ⟨left', hl, right', hr, rfl⟩ := h
    rw [ihl hl, ihr hr]
  | all x body => cases h

/-- Nil is one of the alternatives of a type. -/
def mayBeNil : Ty → Bool
  | .union left right => left.mayBeNil || right.mayBeNil
  | t => t.isNamed "nil"

lemma mayBeNil_broaden (t : Ty) : t.broaden.mayBeNil = t.mayBeNil := by
  induction t with
  | union left right ihl ihr => simp only [Ty.broaden, mayBeNil, ihl, ihr]
  | _ => rfl

lemma mayBeNil_replaceVars {f : String → Except Fault Ty} (h : t.replaceVars f = .ok u)
    (ht : t.mayBeNil = true) : u.mayBeNil = true := by
  induction t generalizing u with
  | var | table | all => cases ht
  | con c args v checks =>
    obtain ⟨args', rfl, -⟩ := replaceVars_con h
    exact ht
  | union left right ihl ihr =>
    simp only [replaceVars, except_bind_eq_ok, pure, Except.pure, Except.ok.injEq] at h
    obtain ⟨left', hl, right', hr, rfl⟩ := h
    simp only [mayBeNil, Bool.or_eq_true] at ht ⊢
    exact ht.imp (ihl hl) (ihr hr)

lemma mayBeNil_join {depth : Nat} {a b : Ty} {k k' : Letters}
    (h : outcome (joinTo depth a b) k = (.ok t, k')) (ha : a.mayBeNil = true) :
    t.mayBeNil = true := by
  rcases joinTo_cases h with rfl | ⟨x, rfl, rfl⟩ | ⟨fields, more, rfl, rfl, _⟩ |
    ⟨c, as, v, checks, bs, w, more, args, rfl, rfl, rfl, -⟩
  · simp [mayBeNil, ha]
  · cases ha
  · cases ha
  · exact ha

/-- Joined types may be nil if those on the left may: what is only on the right becomes optional. -/
lemma Joined.mayBeNil {ts : List Ty} (h : Joined true as bs ts)
    (has : ∀ a ∈ as, a.mayBeNil = true) : ∀ t ∈ ts, t.mayBeNil = true := by
  induction h with
  | both ht _ ih =>
    rw [List.forall_mem_cons] at has ⊢
    exact ⟨mayBeNil_join ht has.1, ih has.2⟩
  | left as => exact has
  | right bs =>
    intro t ht
    obtain ⟨b, -, rfl⟩ := List.mem_map.1 ht
    simp [Ty.mayBeNil, nil, plain, isNamed]

lemma Joined.eq_nil_iff {ts : List Ty} (h : Joined true as bs ts) :
    ts = [] ↔ as = [] ∧ bs = [] := by
  cases h with
  | both => simp
  | left as => simp
  | right bs => simp

/-- A tuple each of whose components may be nil. -/
def OptionalTuple (t : Ty) : Prop :=
  ∃ args v checks, t = .con "tuple" args v checks ∧ ∀ a ∈ args, a.mayBeNil = true

lemma EmptyTuple.optional (h : t.EmptyTuple) : t.OptionalTuple := by
  obtain ⟨v, checks, rfl⟩ := h
  exact ⟨[], v, checks, rfl, nofun⟩

lemma OptionalTuple.broaden (h : t.OptionalTuple) : t.broaden.OptionalTuple := by
  obtain ⟨args, v, checks, rfl, hargs⟩ := h
  refine ⟨broadenList args, none, checks, rfl, ?_⟩
  rw [broadenList_eq_map, List.forall_mem_map]
  exact fun a ha => (mayBeNil_broaden a).trans (hargs a ha)

lemma OptionalTuple.apply (h : t.OptionalTuple) {s : Subst} (hu : s.apply t = .ok u) :
    u.OptionalTuple := by
  obtain ⟨args, v, checks, rfl, hargs⟩ := h
  obtain ⟨f, hf⟩ := s.exists_apply_eq (.con "tuple" args v checks)
  obtain ⟨args', rfl, hforall⟩ := replaceVars_con (hf.symm.trans hu)
  refine ⟨args', v, checks, rfl, fun b hb => ?_⟩
  obtain ⟨a, ha, hab⟩ := exists_left_of_forall₂ hforall hb
  exact mayBeNil_replaceVars hab (hargs a ha)

end Ty

/-! ## Returns of nothing -/

namespace Check

open Ty

variable {infer : Inference} {l : Location} {p p' q : Progress} {i j : Inferred} {σ σ' : Session}

/-- What has been returned so far is a tuple. -/
def Progress.Tupled (p : Progress) : Prop := ∀ r, p.result = some r → r.isNamed "tuple" = true

/-- What has been returned so far has no components. -/
def Progress.Hushed (p : Progress) : Prop := ∀ r, p.result = some r → r.EmptyTuple

lemma Progress.Hushed.tupled (hp : p.Hushed) : p.Tupled :=
  fun r hr => (emptyTuple_iff.1 (hp r hr)).1

variable {r t : Ty}

lemma Progress.Hushed.getD (hp : p.Hushed) (ht : t.EmptyTuple) : (p.result.getD t).EmptyTuple := by
  cases hresult : p.result with
  | none => exact ht
  | some r => exact hp r hresult

lemma outcome_unifyOrNot_nothing {u : Ty} (ht : t.EmptyTuple) (hu : u.EmptyTuple) :
    outcome (unifyOrNot t u.broaden) σ = (.ok (.empty, ⟨.ok .empty, t, u.broaden⟩), σ) := by
  rw [unifyOrNot, outcome_bind, ht.unify_broaden hu, outcome_naming_pure]
  rfl

/-- A statement that returns nothing is added to what has no components: it becomes the result if it
is the first one, and leaves the result as it is otherwise. -/
lemma outcome_addReturn_nothing (hi : i.type.EmptyTuple) (hp : p.Hushed) :
    outcome (addReturn l p i) σ =
      (.ok { p with
        result := some (p.result.getD i.type)
        returned := p.returned || i.subst.returning }, σ) := by
  have hresult := hp.getD hi
  obtain ⟨s, result, returned⟩ := p
  have hchosen : (if result.isNone then i.type else result.getD i.type) = result.getD i.type := by
    cases result <;> rfl
  cases hreturning : i.subst.returning with
  | false =>
    have hat : outcome (unifyAt l i.type (result.getD i.type).broaden) σ =
        (.ok (.empty, ⟨.ok .empty, i.type, (result.getD i.type).broaden⟩), σ) := by
      rw [unifyAt, outcome_bind, hi.unify_broaden hresult, outcome_naming_pure]
      rfl
    simp only [addReturn, hreturning, Bool.false_eq_true, if_false, outcome_bind, hat, hchosen,
      outcome_pure, Bool.or_false]
  | true =>
    have hor := outcome_unifyOrNot_nothing (σ := σ) hi hresult
    have happly : outcome (apply .empty (result.getD i.type)) σ = (.ok (result.getD i.type), σ) :=
      apply_eq_ok.2 ⟨hresult.apply .empty, rfl⟩
    simp only [addReturn, hreturning, if_true, outcome_bind, hor, hchosen]
    obtain ⟨v, checks, heq⟩ := hresult
    obtain ⟨w, more, heq'⟩ := hi
    rw [heq] at happly ⊢
    rw [heq']
    simp only [argsOf, joinReturns, outcome_naming_pure, withArgs, happly, outcome_pure,
      Bool.or_true]

/-- After components have been returned, a statement that may go on and returns nothing is
refused. -/
lemma addReturn_refused (hi : i.type.EmptyTuple) (hreturning : i.subst.returning = false)
    (hr : p.result = some r) (hnamed : r.isNamed "tuple" = true) (hargs : argsOf r ≠ []) :
    outcome (addReturn l p i) σ ≠ (.ok p', σ') := by
  intro h
  obtain ⟨u, k, k', hu, hsucceeds, -⟩ := addReturn_not_returning hreturning h
  obtain ⟨v, checks, heq⟩ := hi
  obtain ⟨args, w, more, rfl⟩ := exists_con_of_isNamed hnamed
  rw [hr, Option.getD_some, heq, Ty.broaden, broadenList_eq_map] at hu
  have hlen : ([] : List Ty).length ≠ (args.map Ty.broaden).length := by
    cases args with
    | nil => exact absurd rfl hargs
    | cons a args => simp
  rw [succeeds_eq_false_of_length hlen hu] at hsucceeds
  cases hsucceeds

/-- A tuple without components does not bind variables of another tuple. -/
lemma unifyOrNot_nothing {u : Ty} (ht : t.EmptyTuple) (hu : u.isNamed "tuple" = true) {s : Subst}
    {r : Unified} (h : outcome (unifyOrNot t u.broaden) σ = (.ok (s, r), σ')) :
    r.left = t ∧ s = .empty := by
  obtain ⟨r', σ₁, hrun, hchoice⟩ := bind_eq_ok.1 h
  obtain ⟨k, hr'⟩ := naming_eq_ok hrun
  have hleft : r'.left = t := by
    obtain ⟨v, checks, rfl⟩ := ht
    exact (wraps_of_unifyTo hr').1.eq_of_nil
  rcases hout : r'.outcome with m | s' <;> rw [hout] at hchoice <;>
    obtain ⟨rfl, rfl⟩ := Prod.mk.inj (Except.ok.inj (Prod.mk.inj hchoice).1)
  · exact ⟨hleft, rfl⟩
  · -- they unify only if the other tuple has no components either
    refine ⟨hleft, ?_⟩
    obtain ⟨args, w, more, rfl⟩ := exists_con_of_isNamed hu
    cases args with
    | nil =>
      rw [ht.unify_broaden ⟨w, more, rfl⟩] at hr'
      obtain ⟨rfl, -⟩ := pure_eq_ok.1 hr'
      exact (Except.ok.inj hout).symm
    | cons a args =>
      obtain ⟨v, checks, rfl⟩ := ht
      have hfails := succeeds_eq_false_of_length (by simp [broadenList]) hr'
      simp [Unified.succeeds, hout] at hfails

/-- A statement that passes for one that returns in every case, and returns nothing, leaves what has
been returned as it is, and closes the chunk. -/
lemma addReturn_closing (hi : i.type.EmptyTuple) (hreturning : i.subst.returning = true)
    (hr : p.result = some r) (hnamed : r.isNamed "tuple" = true)
    (h : outcome (addReturn l p i) σ = (.ok p', σ')) : p' = { p with returned := true } := by
  obtain ⟨s, result, returned⟩ := p
  obtain rfl : result = some r := hr
  rw [addReturn, if_pos hreturning] at h
  obtain ⟨⟨s', u⟩, σ₁, hu, h⟩ := bind_eq_ok.1 h
  obtain ⟨args, σ₂, hargs, h⟩ := bind_eq_ok.1 h
  obtain ⟨r', σ₃, hr', h⟩ := bind_eq_ok.1 h
  cases h
  obtain ⟨hleft, rfl⟩ := unifyOrNot_nothing hi hnamed hu
  obtain ⟨k, hargs⟩ := naming_eq_ok hargs
  obtain ⟨rs, v, checks, rfl⟩ := exists_con_of_isNamed hnamed
  have hnil : argsOf u.left = [] := by rw [hleft, (emptyTuple_iff.1 hi).2]
  have hsame : joinReturns rs [] = pure rs := by cases rs <;> rfl
  change outcome (joinReturns rs (argsOf u.left)) σ₁.letters = _ at hargs
  rw [hnil, hsame] at hargs
  cases hargs
  rw [eq_of_apply_empty (apply_eq_ok.1 hr').1]
  rfl

lemma emptyTuple_withArgs_iff {args : List Ty} (ht : t.isNamed "tuple" = true) :
    (withArgs args t).EmptyTuple ↔ args = [] := by
  obtain ⟨as, v, checks, rfl⟩ := exists_con_of_isNamed ht
  simp [withArgs, EmptyTuple]

/-- Components that have been returned are not taken back: if nothing has any after a statement,
then neither what was returned before nor the statement had any. -/
lemma hushed_of_addReturn (hp : p.Tupled)
    (hi : i.type.isNamed "tuple" = true) (h : outcome (addReturn l p i) σ = (.ok p', σ'))
    (hp' : p'.Hushed) : p.Hushed ∧ i.type.EmptyTuple := by
  by_cases hreturning : i.subst.returning = true
  · obtain ⟨s, t, args, r, hwraps, hjoined, hr, rfl⟩ := addReturn_returning hreturning h
    have ht : t.isNamed "tuple" = true := (hwraps.isNamed_eq "tuple").trans hi
    have hchosen : (p.result.getD t).isNamed "tuple" = true := by
      cases hresult : p.result with
      | none => exact ht
      | some r => exact hp r hresult
    have hargs : (withArgs args (p.result.getD t)).EmptyTuple := by
      refine emptyTuple_of_apply hr ?_ (hp' r rfl)
      obtain ⟨as, v, checks, heq⟩ := exists_con_of_isNamed hchosen
      rw [heq]
      rfl
    obtain ⟨hbefore, hnow⟩ := hjoined.eq_nil_iff.1 ((emptyTuple_withArgs_iff hchosen).1 hargs)
    refine ⟨fun r hresult => ?_, hwraps.emptyTuple_iff.1 (emptyTuple_iff.2 ⟨ht, hnow⟩)⟩
    rw [hresult, Option.getD_some] at hbefore
    exact emptyTuple_iff.2 ⟨hp r hresult, hbefore⟩
  · rw [Bool.not_eq_true] at hreturning
    obtain ⟨u, k, k', hu, hsucceeds, rfl⟩ := addReturn_not_returning hreturning h
    have hchosen : (p.result.getD u.left).EmptyTuple := hp' _ rfl
    refine ⟨fun r hresult => ?_, ?_⟩
    · rwa [hresult, Option.getD_some] at hchosen
    · cases hresult : p.result with
      | none =>
        rw [hresult, Option.getD_none] at hchosen
        exact (wraps_of_unifyTo hu).1.emptyTuple_iff.1 hchosen
      | some r =>
        rw [hresult, Option.getD_some] at hchosen hu
        obtain ⟨v, checks, rfl⟩ := hchosen
        obtain ⟨args, w, more, heq⟩ := exists_con_of_isNamed hi
        cases args with
        | nil => exact ⟨w, more, heq⟩
        | cons a args =>
          rw [heq] at hu
          rw [succeeds_eq_false_of_length (by simp [broadenList]) hu] at hsucceeds
          cases hsucceeds

/-! ## Runs from progress without components -/

lemma tupled_addStatement {statement : Node} (hp : p.Tupled)
    (h : outcome (addStatement l p statement i) σ = (.ok p', σ')) : p'.Tupled := by
  rw [addStatement] at h
  split at h
  · rename_i htuple
    exact addReturn_isNamed hp (Bool.and_eq_true_iff.1 htuple).1 h
  · cases h
    exact hp

/-- Where a statement adds no components, there were none, and it does to other progress without
components what it does to this one. -/
lemma addStatement_hushed {statement : Node} (hp : p.Tupled)
    (h : outcome (addStatement l p statement i) σ = (.ok p', σ')) (hp' : p'.Hushed) :
    p.Hushed ∧ ∀ q : Progress, q.Hushed → q.subst = p.subst →
      ∃ q', outcome (addStatement l q statement i) σ = (.ok q', σ') ∧ q'.Hushed ∧
        q'.subst = p'.subst := by
  simp only [addStatement] at h ⊢
  by_cases htuple : (i.type.isNamed "tuple" && !isCall statement) = true
  · simp only [if_pos htuple] at h ⊢
    obtain ⟨hhushed, hi⟩ := hushed_of_addReturn hp (Bool.and_eq_true_iff.1 htuple).1 h hp'
    obtain ⟨rfl, rfl⟩ := eq_of_outcome_eq (outcome_addReturn_nothing hi hhushed) h
    refine ⟨hhushed, fun q hq hsubst => ⟨_, outcome_addReturn_nothing hi hq, ?_, hsubst⟩⟩
    rintro r ⟨⟩
    exact hq.getD hi
  · simp only [if_neg htuple] at h ⊢
    cases h
    exact ⟨hp', fun q hq hsubst => ⟨q, rfl, hq, hsubst⟩⟩

/-- Where statements return no components, nothing had been returned before, and they do to other
progress without components what they do to this one. -/
lemma inferStatements_hushed {statements : List Node} (hp : p.Tupled)
    (h : outcome (inferStatements infer l p statements) σ = (.ok p', σ')) (hp' : p'.Hushed) :
    p.Hushed ∧ ∀ q : Progress, q.Hushed → q.subst = p.subst →
      ∃ q', outcome (inferStatements infer l q statements) σ = (.ok q', σ') ∧ q'.Hushed ∧
        q'.subst = p'.subst := by
  induction statements generalizing p σ with
  | nil =>
    cases h
    exact ⟨hp', fun q hq hsubst => ⟨q, rfl, hq, hsubst⟩⟩
  | cons statement rest ih =>
    simp only [inferStatements_cons] at h ⊢
    obtain ⟨i, σ₁, hi, h⟩ := bind_eq_ok.1 h
    obtain ⟨p₁, σ₂, hadd, h⟩ := bind_eq_ok.1 h
    obtain ⟨s, σ₃, hs, h⟩ := bind_eq_ok.1 h
    have htupled := tupled_addStatement hp hadd
    obtain ⟨hp₁, hothers⟩ := ih (p := { p₁ with subst := s }) htupled h
    obtain ⟨hhushed, hothers₁⟩ := addStatement_hushed hp hadd hp₁
    refine ⟨hhushed, fun q hq hsubst => ?_⟩
    obtain ⟨q₁, hadd', hq₁, hsubst₁⟩ := hothers₁ q hq hsubst
    obtain ⟨q', hrest, hq', hsubst'⟩ := hothers { q₁ with subst := s } hq₁ rfl
    refine ⟨q', ?_, hq', hsubst'⟩
    rw [← hsubst₁] at hs
    exact bind_eq_ok.2 ⟨i, σ₁, hi, bind_eq_ok.2 ⟨q₁, σ₂, hadd', bind_eq_ok.2 ⟨s, σ₃, hs, hrest⟩⟩⟩

/-! ## The end of a chunk -/

/-- The end of a chunk: its return statement, and what it has come to. -/
def finish (infer : Inference) (last : Option Node) (p : Progress) : Check Inferred :=
  match last with
  | some last => do
    let i ← infer last
    let result ← addLast p.result i.type
    let s ← compose i.subst p.subst
    return ⟨{ s with returning := true }, result⟩
  | none =>
    match p.result with
    | none => return ⟨{ p.subst with returning := false }, .tuple []⟩
    | some result =>
      let result := if p.returned then result
        else .tuple ((argsOf result).map fun t => .union t .nil)
      return ⟨{ p.subst with returning := true }, result⟩

lemma inferChunk_eq (infer : Inference) (l : Location) (statements : List Node)
    (last : Option Node) :
    inferChunk infer l statements last =
      inScope (inferStatements infer l ⟨.empty, none, false⟩ statements >>= finish infer last) := by
  cases last <;> rfl

/-- A return of nothing leaves what has no components without any. -/
lemma addLast_nothing {last : Ty} (hp : p.Hushed) (hlast : last.EmptyTuple) :
    ∃ t, outcome (addLast p.result last) σ = (.ok t, σ) ∧ t.EmptyTuple := by
  cases hresult : p.result with
  | none => exact ⟨last, rfl, hlast⟩
  | some r =>
    have hr := hp r hresult
    have hbroad := emptyTuple_broaden_iff.2 hr
    have hor := outcome_unifyOrNot_nothing (σ := σ) hlast hr
    have happly : outcome (apply .empty r.broaden) σ = (.ok r.broaden, σ) :=
      apply_eq_ok.2 ⟨hbroad.apply .empty, rfl⟩
    refine ⟨r.broaden, ?_, hbroad⟩
    simp only [addLast, outcome_bind, hor, happly, (emptyTuple_iff.1 hlast).1, if_true,
      (emptyTuple_iff.1 hlast).2, (emptyTuple_iff.1 hbroad).2, joinReturns,
      outcome_naming_pure, outcome_pure]
    obtain ⟨v, checks, heq⟩ := hbroad
    rw [heq]
    rfl

/-- A chunk whose type has no components returns none in its return statement, and none before. -/
lemma hushed_of_addLast {last : Ty} (hp : p.Tupled)
    (h : outcome (addLast p.result last) σ = (.ok t, σ')) (ht : t.EmptyTuple) :
    p.Hushed ∧ last.EmptyTuple := by
  cases hresult : p.result with
  | none =>
    rw [hresult] at h
    cases h
    exact ⟨fun r hr => absurd (hresult.symm.trans hr) nofun, ht⟩
  | some r =>
    rw [hresult] at h
    obtain ⟨s, u, r', args, hwraps, hu, hr', hargs, rfl⟩ := addLast_eq_ok h
    have hbroad : r.broaden.isNamed "tuple" = true := by
      obtain ⟨as, v, checks, rfl⟩ := exists_con_of_isNamed (hp r hresult)
      rfl
    have hnamed := isNamed_apply hr' hbroad
    obtain ⟨hbefore, hlast⟩ := hargs.eq_nil_iff.1 ((emptyTuple_withArgs_iff hnamed).1 ht)
    have hempty := emptyTuple_of_apply hr' hbroad (emptyTuple_iff.2 ⟨hnamed, hbefore⟩)
    refine ⟨fun r₁ hr₁ => ?_, hwraps.emptyTuple_iff.1 (emptyTuple_iff.2 ⟨hu, hlast⟩)⟩
    cases hresult.symm.trans hr₁
    exact emptyTuple_broaden_iff.1 hempty

lemma outcome_finish_none (infer : Inference) (p : Progress) (σ : Session) :
    outcome (finish infer none p) σ =
      (.ok ⟨{ p.subst with returning := p.result.isSome }, p.type⟩, σ) := by
  obtain ⟨s, _ | r, returned⟩ := p <;> rfl

lemma emptyTuple_type_iff (hp : p.Tupled) : p.type.EmptyTuple ↔ p.Hushed := by
  obtain ⟨s, _ | r, returned⟩ := p
  · exact ⟨fun _ => nofun, fun _ => emptyTuple_tuple⟩
  · have hhushed : Progress.Hushed ⟨s, some r, returned⟩ ↔ r.EmptyTuple :=
      ⟨fun h => h r rfl, fun h r' hr' => Option.some.inj hr' ▸ h⟩
    rw [hhushed, Progress.type]
    cases returned with
    | true => rfl
    | false =>
      obtain ⟨args, v, checks, rfl⟩ := exists_con_of_isNamed (hp r rfl)
      simp [EmptyTuple, Ty.tuple, argsOf]

/-- A chunk whose type has no components comes to the same from other progress without
components. -/
lemma finish_hushed {last : Option Node} (hp : p.Tupled)
    (h : outcome (finish infer last p) σ = (.ok i, σ')) (hi : i.type.EmptyTuple) :
    p.Hushed ∧ (q.Hushed → q.subst = p.subst →
      ∃ j, outcome (finish infer last q) σ = (.ok j, σ') ∧ j.type.EmptyTuple) := by
  cases last with
  | some last =>
    obtain ⟨t, σ₁, ht, h⟩ := bind_eq_ok.1 h
    obtain ⟨result, σ₂, hresult, h⟩ := bind_eq_ok.1 h
    obtain ⟨s, σ₃, hs, h⟩ := bind_eq_ok.1 h
    obtain ⟨rfl, rfl⟩ := pure_eq_ok.1 h
    obtain ⟨hhushed, hlast⟩ := hushed_of_addLast hp hresult hi
    refine ⟨hhushed, fun hq hsubst => ?_⟩
    obtain ⟨result', hresult', hempty⟩ := addLast_nothing (σ := σ₁) hq hlast
    obtain ⟨result'', hresult'', -⟩ := addLast_nothing (σ := σ₁) hhushed hlast
    obtain ⟨-, rfl⟩ := eq_of_outcome_eq hresult'' hresult
    rw [← hsubst] at hs
    exact ⟨_, bind_eq_ok.2 ⟨t, σ₁, ht, bind_eq_ok.2 ⟨result', σ₁, hresult',
      bind_eq_ok.2 ⟨s, σ₃, hs, rfl⟩⟩⟩, hempty⟩
  | none =>
    obtain ⟨rfl, rfl⟩ := eq_of_outcome_eq (outcome_finish_none infer p σ) h
    refine ⟨(emptyTuple_type_iff hp).1 hi, fun hq _ => ⟨_, outcome_finish_none .., ?_⟩⟩
    exact (emptyTuple_type_iff hq.tupled).2 hq

lemma rest_hushed {rest : List Node} {last : Option Node} (hp : p.Tupled) (hq : q.Hushed)
    (hsubst : q.subst = p.subst)
    (h : ∃ i, outcome (inferStatements infer l p rest >>= finish infer last) σ = (.ok i, σ') ∧
      i.type.EmptyTuple) :
    ∃ j, outcome (inferStatements infer l q rest >>= finish infer last) σ = (.ok j, σ') ∧
      j.type.EmptyTuple := by
  obtain ⟨i, h, hi⟩ := h
  obtain ⟨p', σ₁, hrest, h⟩ := bind_eq_ok.1 h
  have hp' : p'.Tupled :=
    inferStatements_result (P := fun result => ∀ r, result = some r → r.isNamed "tuple" = true)
      (fun hj hq hadd => addReturn_isNamed hq hj hadd) hp hrest
  obtain ⟨hhushed, -⟩ := finish_hushed (q := p') hp' h hi
  obtain ⟨q', hrest', hq', hsubst'⟩ := (inferStatements_hushed hp hrest hhushed).2 q hq hsubst
  obtain ⟨j, hj, hempty⟩ := (finish_hushed hp' h hi).2 hq' hsubst'
  exact ⟨j, bind_eq_ok.2 ⟨q', σ₁, hrest', hj⟩, hempty⟩

/-! ## What comes after a return of nothing -/

lemma optional_withArgs {bs args : List Ty} (h : t.OptionalTuple)
    (hargs : Joined true (argsOf t) bs args) : (withArgs args t).OptionalTuple := by
  obtain ⟨as, v, checks, rfl, has⟩ := h
  exact ⟨args, v, checks, rfl, hargs.mayBeNil has⟩

/-- Where all components may be nil, what is added may be nil. -/
lemma addReturn_optional (hr : p.result = some r) (hoptional : r.OptionalTuple)
    (h : outcome (addReturn l p i) σ = (.ok p', σ')) :
    ∃ r', p'.result = some r' ∧ r'.OptionalTuple := by
  by_cases hi : i.subst.returning = true
  · obtain ⟨s, t, args, r', _, hargs, hr', rfl⟩ := addReturn_returning hi h
    rw [hr, Option.getD_some] at hargs hr'
    exact ⟨r', rfl, (optional_withArgs hoptional hargs).apply hr'⟩
  · rw [Bool.not_eq_true] at hi
    obtain ⟨u, _, _, _, _, rfl⟩ := addReturn_not_returning hi h
    exact ⟨r, by rw [hr, Option.getD_some], hoptional⟩

lemma optional_type (hr : p.result = some r) (hoptional : r.OptionalTuple) :
    p.type.OptionalTuple := by
  obtain ⟨s, result, returned⟩ := p
  obtain rfl : result = some r := hr
  obtain ⟨args, v, checks, rfl, hargs⟩ := hoptional
  cases returned with
  | true => exact ⟨args, v, checks, rfl, hargs⟩
  | false =>
    refine ⟨_, none, [], rfl, ?_⟩
    rw [List.forall_mem_map]
    intro a ha
    rw [mayBeNil, hargs a ha, Bool.true_or]

/-- After a return of nothing, all components of what a chunk returns may be nil. -/
lemma rest_optional {rest : List Node} {last : Option Node} (hr : p.result = some r)
    (hoptional : r.OptionalTuple)
    (h : outcome (inferStatements infer l p rest >>= finish infer last) σ = (.ok i, σ')) :
    i.type.OptionalTuple := by
  obtain ⟨p', σ₁, hrest, h⟩ := bind_eq_ok.1 h
  obtain ⟨r', hr', hoptional'⟩ := inferStatements_result
    (P := fun result => ∃ r', result = some r' ∧ r'.OptionalTuple)
    (fun _ ⟨r, hr, hoptional⟩ hadd => addReturn_optional hr hoptional hadd) ⟨r, hr, hoptional⟩ hrest
  cases last with
  | none =>
    obtain ⟨rfl, -⟩ := eq_of_outcome_eq (outcome_finish_none infer p' σ₁) h
    exact optional_type hr' hoptional'
  | some last =>
    obtain ⟨t, σ₂, -, h⟩ := bind_eq_ok.1 h
    obtain ⟨result, σ₃, hresult, h⟩ := bind_eq_ok.1 h
    obtain ⟨s, σ₄, -, h⟩ := bind_eq_ok.1 h
    cases h
    rw [hr'] at hresult
    obtain ⟨s, u, r₁, args, -, -, hr₁, hargs, rfl⟩ := addLast_eq_ok hresult
    exact optional_withArgs (hoptional'.broaden.apply hr₁) hargs

end Check

end LuaTyping
