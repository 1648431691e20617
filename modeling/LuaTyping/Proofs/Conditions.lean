import LuaTyping.Proofs.Composition
import LuaTyping.Proofs.Scalars
import LuaTyping.Proofs.TypeTests

set_option autoImplicit false

/-!
# Conditions made of type tests

Conditions are trees of tests, put together with `and` and `or`. If a name has a union of simple
values as its type, then the inference of every condition on it ends without a fault or a report.
It gives a truth value, which carries the checks of the tests one after the other, from left to
right. Nothing in it depends on whether a test asks for equality or for its contrary, or on whether
tests are joined by `and` or by `or`.

Every variable that is drawn on the way is bound to a closed type at once, and no variable twice.
So substitutions are composed by putting one list of bindings after the other.

## Main definitions

* `Condition` — trees of tests, `Condition.Written` — the syntax trees for them.
* `NameTest` — the tests `type(x) == "name"` and `type(x) ~= "name"`.
* `Subst.Closed` — substitutions that bind each of some drawn variables to a closed type.

## Main results

* `Check.succeeds_infer_condition` — what is inferred of a condition.
-/

namespace LuaTyping

/-- The computation succeeds, with a result for which `Q` holds. -/
abbrev Succeeds {ε σ α : Type} (x : ExceptT ε (StateM σ) α) (s : σ) (Q : α → σ → Prop) : Prop :=
  Ensures x s Q fun _ _ => False

lemma Succeeds.exists_eq {ε σ α : Type} {x : ExceptT ε (StateM σ) α} {s : σ} {Q : α → σ → Prop}
    (h : Succeeds x s Q) : ∃ a s', outcome x s = (.ok a, s') ∧ Q a s' := by
  unfold Succeeds Ensures at h
  rcases houtcome : outcome x s with ⟨e | a, s'⟩ <;> rw [houtcome] at h
  · exact h.elim
  · exact ⟨a, s', rfl, h⟩

lemma Succeeds.of_eq {ε σ α : Type} {x : ExceptT ε (StateM σ) α} {s s' : σ} {a : α}
    {Q : α → σ → Prop} (h : outcome x s = (.ok a, s')) (hQ : Q a s') : Succeeds x s Q := by
  unfold Succeeds Ensures
  rw [h]
  exact hQ

/-! ## Trees of tests -/

/-- A condition: tests that are joined by `and` and `or`. -/
inductive Condition (α : Type) where
  | test (a : α)
  | both (left right : Condition α)
  | either (left right : Condition α)

namespace Condition

variable {α : Type}

/-- The tests of a condition, from left to right. -/
def tests : Condition α → List α
  | test a => [a]
  | both left right => left.tests ++ right.tests
  | either left right => left.tests ++ right.tests

/-- Whether a condition holds, if it is known which tests do. -/
def holds (p : α → Bool) : Condition α → Bool
  | test a => p a
  | both left right => left.holds p && right.holds p
  | either left right => left.holds p || right.holds p

/-- The syntax trees for a condition, given those for its tests. -/
inductive Written (W : α → Node → Prop) : Condition α → Node → Prop
  | test {a : α} {n : Node} : W a n → Written W (test a) n
  | both (l : Location) {left right : Condition α} {m n : Node} :
      Written W left m → Written W right n → Written W (both left right) (.binary l m .and n)
  | either (l : Location) {left right : Condition α} {m n : Node} :
      Written W left m → Written W right n → Written W (either left right) (.binary l m .or n)

end Condition

/-- A test whether the type of a variable has a name. -/
inductive NameTest where
  | is (name : String)
  | isNot (name : String)

namespace NameTest

/-- The name that a test is for. -/
def name : NameTest → String
  | is name => name
  | isNot name => name

/-- Whether a test holds for the values of a type that is no union. -/
def holds (m : Ty) : NameTest → Bool
  | is name => m.isNamed name
  | isNot name => !m.isNamed name

/-- The tests `type(x) == "name"` and `type(x) ~= "name"`, wherever their parts stand. -/
inductive Written (x : String) : NameTest → Node → Prop
  | is (lb lc lt lx ls : Location) (name : String) :
      Written x (.is name)
        (.binary lb (.call lc (.var lt "type") [.var lx x]) .equal (.string ls name))
  | isNot (lb lc lt lx ls : Location) (name : String) :
      Written x (.isNot name)
        (.binary lb (.call lc (.var lt "type") [.var lx x]) .notEqual (.string ls name))

end NameTest

/-! ## Substitutions for drawn variables -/

namespace Subst

/-- The substitution binds each of some of the variables drawn after the first `lo` and up to `hi`
to a closed type. -/
structure Closed (lo hi : Nat) (s : Subst) : Prop where
  le : lo ≤ hi
  ground : ∀ b ∈ s.bindings, b.2.Ground
  drawn : ∀ b ∈ s.bindings, ∃ k, lo < k ∧ k ≤ hi ∧ b.1 = s!"t{k}"
  nodup : (s.bindings.map Prod.fst).Nodup

variable {lo mid hi : Nat} {s t : Subst}

lemma closed_empty (h : lo ≤ hi) : Closed lo hi .empty :=
  ⟨h, by simp [empty], by simp [empty], by simp [empty]⟩

lemma Closed.mono (h : s.Closed lo mid) (hle : mid ≤ hi) : s.Closed lo hi :=
  ⟨h.le.trans hle, h.ground, fun b hb =>
    let ⟨k, hlo, hmid, hk⟩ := h.drawn b hb
    ⟨k, hlo, hmid.trans hle, hk⟩, h.nodup⟩

lemma composeBindings_append {covers : Covers} {known rest : List (String × Ty)}
    (happly : ∀ b ∈ rest, s.apply b.2 = .ok b.2) (hnodup : ((known ++ rest).map Prod.fst).Nodup) :
    composeBindings covers s known rest = pure (known ++ rest) := by
  simpa using composeBindings_of_nodup (f := id) happly hnodup covers

/-- Substitutions for variables drawn one after the other are composed by putting the bindings
together. -/
lemma Closed.compose (hs : s.Closed lo mid) (ht : t.Closed mid hi) :
    s.compose t = pure ⟨s.bindings ++ t.bindings, s.returning || t.returning⟩ ∧
      Closed lo hi ⟨s.bindings ++ t.bindings, s.returning || t.returning⟩ := by
  have hnodup : ((s.bindings ++ t.bindings).map Prod.fst).Nodup := by
    rw [List.map_append, List.nodup_append]
    refine ⟨hs.nodup, ht.nodup, fun x hx y hy heq => ?_⟩
    obtain ⟨b, hb, rfl⟩ := List.mem_map.1 hx
    obtain ⟨b', hb', rfl⟩ := List.mem_map.1 hy
    obtain ⟨k, _, hk, hname⟩ := hs.drawn b hb
    obtain ⟨k', hk', _, hname'⟩ := ht.drawn b' hb'
    have : k = k' := drawn_name_inj (hname.symm.trans (heq.trans hname'))
    omega
  refine ⟨?_, hs.le.trans ht.le, ?_, ?_, hnodup⟩
  · simp only [Subst.compose, composeWith,
      composeBindings_append (fun b hb => (ht.ground b hb).apply _) hnodup]
    rfl
  · intro b hb
    exact (List.mem_append.1 hb).elim (hs.ground b) (ht.ground b)
  · intro b hb
    rcases List.mem_append.1 hb with hb | hb
    · obtain ⟨k, hlo, hmid, hk⟩ := hs.drawn b hb
      exact ⟨k, hlo, hmid.trans ht.le, hk⟩
    · obtain ⟨k, hmid, hhi, hk⟩ := ht.drawn b hb
      exact ⟨k, lt_of_le_of_lt hs.le hmid, hhi, hk⟩

lemma Closed.empty_compose (h : s.Closed lo hi) : Subst.empty.compose s = pure s := by
  rw [((closed_empty le_rfl).compose h).1]
  simp [empty]

end Subst

namespace Check

open Naming Ty

variable {σ : Session} {x name : String} {T : Ty} {l : Location}

/-! ## The call of the standard function -/

lemma outcome_naming_pure {α : Type} (a : α) : outcome (naming (pure a)) σ = (.ok a, σ) := rfl

lemma outcome_compose {s t u : Subst} (h : s.compose t = pure u) :
    outcome (compose s t) σ = (.ok u, σ) := by
  rw [compose, h, outcome_naming_pure]

section Call

variable {v r : String} {covers : Covers}

lemma composeBindings_meet {s : Subst} {known : List (String × Ty)} {u m : Ty}
    (h : meetWith covers T u = pure (some m)) :
    Subst.composeBindings covers s ((v, u) :: known) [(v, T)] = pure ((v, m) :: known) := by
  simp only [Subst.composeBindings, List.lookup, beq_self_eq_true, h, pure_bind, Subst.enter,
    if_true]

/-- A union of simple values has a meet with any that shares a name with it. -/
lemma exists_meetWith (covers : Covers) {u : Ty} (hT : T.Scalar) (hu : u.Scalar)
    (hshared : ∃ c, (∃ m ∈ T.members, m.isNamed c = true) ∧ ∃ m ∈ u.members, m.isNamed c = true) :
    ∃ m, meetWith covers T u = pure (some m) ∧ m.Scalar ∧
      ∃ c, m.isNamed c = true ∧ ∃ a ∈ T.members, a.isNamed c = true := by
  obtain ⟨r, hr, hsome, hshares⟩ := hT.exists_meetTo hu covers le_rfl
  obtain ⟨m, rfl⟩ := Option.isSome_iff_exists.1 (hshares hshared)
  exact ⟨m, hr, hsome m rfl⟩

/-- The parameter of the standard function takes a union of simple values. -/
lemma unify_params (hT : T.Scalar) :
    ∃ m, unify (.tuple [.var v]) (.tuple [T]) =
        pure ⟨.ok (.single v m), .tuple [.var v], .tuple [T]⟩ ∧ m.Scalar ∧
      ∃ c, m.isNamed c = true ∧ ∃ a ∈ T.members, a.isNamed c = true := by
  obtain ⟨d, hd⟩ := exists_depthFor (Nat.add_pos_left (Ty.size_pos (.tuple [.var v]))
    (Ty.tuple [T]).size)
  obtain ⟨c, hc⟩ := hT.exists_isNamed
  obtain ⟨m, hmeet, hm⟩ := exists_meetWith (fitsBy (unifyTo (d + 2))) hT hT ⟨c, hc, hc⟩
  have hself : (Subst.single v T).composeWith (fitsBy (unifyTo (d + 2))) (.single v T) =
      pure (.single v m) := by
    simp only [Subst.composeWith, Subst.single, composeBindings_meet hmeet, pure_bind]
    rfl
  have hlist : unifyLists (unifyTo (d + 2))
      (fun found _ => found.composeWith (fitsBy (unifyTo (d + 2))) found) .empty [.var v] [T] =
      pure ⟨.ok (.single v m), [.var v], [T]⟩ := by
    simp only [unifyLists, unifyTo_var hT.ground, pure_bind, hself]
  refine ⟨m, ?_, hm⟩
  unfold unify
  rw [hd]
  change (do
    let u ← unifyLists (unifyTo (d + 2))
      (fun found _ => found.composeWith (fitsBy (unifyTo (d + 2))) found) .empty [.var v] [T]
    return (⟨u.outcome, .con "tuple" u.left none [], .con "tuple" u.right none []⟩ : Unified)) = _
  rw [hlist, pure_bind]
  rfl

lemma exists_compose_wantedSubst (hT : T.Scalar) (hv : v ≠ r) {u : Ty} (hu : u.Scalar)
    (hshared : ∃ c, u.isNamed c = true ∧ ∃ a ∈ T.members, a.isNamed c = true) :
    ∃ m, (Subst.single v u).compose (wantedSubst v r T) =
      pure ⟨[(v, m), (r, .tuple [.string])], false⟩ ∧ m.Scalar := by
  obtain ⟨c, hc, hmem⟩ := hshared
  have humem : ∃ m ∈ u.members, m.isNamed c = true := by
    cases hu with
    | con => exact ⟨_, List.mem_singleton_self _, hc⟩
    | union => cases hc
  obtain ⟨m, hmeet, hm, _⟩ := exists_meetWith fits hT hu ⟨c, hmem, humem⟩
  refine ⟨m, ?_, hm⟩
  rw [compose_wantedSubst hv, composeBindings_meet hmeet]
  rfl

/-- The standard function can be called with a union of simple values. -/
lemma succeeds_callKnown (hT : T.Scalar) (hv : v ≠ r) :
    Succeeds (callKnown l (describingAt v) none .empty .empty [T] (.var r)) σ fun i σ' =>
      σ' = σ ∧ i.type = .tuple [.string] ∧
        ∃ m, i.subst = ⟨[(v, m), (r, .tuple [.string])], false⟩ ∧ m.Scalar := by
  obtain ⟨u, hparams, hu, hshared⟩ := unify_params (v := v) hT
  obtain ⟨m, hcompose, hm⟩ := exists_compose_wantedSubst hT hv hu hshared
  have htaken : outcome (unifyAt l (.tuple [.var v]) (.tuple [T])) σ =
      (.ok (.single v u, ⟨.ok (.single v u), .tuple [.var v], .tuple [T]⟩), σ) := by
    simp only [unifyAt, hparams]
    rfl
  unfold callKnown
  refine .bind_of_eq (a := ([T], none)) rfl ?_
  refine .bind_of_eq (outcome_unifyAt_wanted hT.ground hv) ?_
  refine .bind_of_eq (a := .tuple [.var v]) rfl ?_
  refine .bind_of_eq htaken ?_
  refine .bind_of_eq (a := .single v u) rfl ?_
  refine .bind_of_eq (outcome_compose_empty _) ?_
  refine .bind_of_eq (outcome_compose_empty _) ?_
  refine .bind_of_eq (outcome_compose hcompose) ?_
  refine .bind_of_eq (apply_eq_ok.2 ⟨apply_bound hv ground_strings, rfl⟩) ?_
  exact .pure ⟨rfl, rfl, m, rfl, hm⟩

/-- The call in a test succeeds with a string, and binds what it has drawn. -/
lemma succeeds_inferCall (depth : Nat) {lt lx : Location} (h : Testable x T σ.scopes)
    (hT : T.Scalar) :
    Succeeds (inferCall (inferTo (depth + 1)) l (.var lt "type") [.var lx x]) σ
      (fun i σ' => i.type = .tuple [.string] ∧ σ'.scopes = σ.scopes ∧
        i.subst.Closed σ.supply.count σ'.supply.count) := by
  refine ensures_inferCall_of depth h fun hne =>
    (succeeds_callKnown hT.broaden hne).imp ?_ fun _ _ => id
  rintro ⟨s, t⟩ _ ⟨rfl, rfl, m, rfl, hm⟩
  refine ⟨rfl, rfl, Nat.le_add_right _ 2, ?_, ?_, ?_⟩
  · simp [hm.ground, ground_strings]
  · simp only [List.mem_cons, List.not_mem_nil, or_false, forall_eq_or_imp, forall_eq]
    exact ⟨⟨σ.supply.count + 2, by omega, le_rfl, rfl⟩,
      ⟨σ.supply.count + 1, by omega, Nat.le_succ _, rfl⟩⟩
  · simp

end Call

/-! ## A test -/

/-- A name that tests know stands for a type, and any other for none. -/
lemma succeeds_typeNamed? (name : String) :
    Succeeds (typeNamed? name) σ fun r σ' =>
      (name ∈ typeNames → ∃ t, r = some t ∧ Named name t) ∧ (name ∉ typeNames → r = none) ∧
        σ'.scopes = σ.scopes ∧ σ.supply.count ≤ σ'.supply.count := by
  by_cases hname : name ∈ typeNames
  · simp only [typeNames, List.mem_cons, List.not_mem_nil, or_false] at hname
    have hknown : ∀ {t : Ty} {σ' : Session}, outcome (typeNamed? name) σ = (.ok (some t), σ') →
        Named name t → σ'.scopes = σ.scopes → σ.supply.count ≤ σ'.supply.count →
        name ∈ typeNames → Succeeds (typeNamed? name) σ fun r σ' =>
          (name ∈ typeNames → ∃ t, r = some t ∧ Named name t) ∧ (name ∉ typeNames → r = none) ∧
            σ'.scopes = σ.scopes ∧ σ.supply.count ≤ σ'.supply.count :=
      fun houtcome ht hscopes hcount hmem => .of_eq houtcome
        ⟨fun _ => ⟨_, rfl, ht⟩, fun hnot => absurd hmem hnot, hscopes, hcount⟩
    rcases hname with rfl | rfl | rfl | rfl | rfl | rfl
    · exact hknown rfl (.plain (by simp)) rfl le_rfl (by decide)
    · exact hknown rfl (.plain (by simp)) rfl le_rfl (by decide)
    · exact hknown rfl (.plain (by simp)) rfl le_rfl (by decide)
    · exact hknown rfl (.plain (by simp)) rfl le_rfl (by decide)
    · exact hknown rfl (.table rfl) rfl le_rfl (by decide)
    · exact hknown rfl (.function _ _ _ rfl) rfl (Nat.le_add_right _ 3) (by decide)
  · have hnone : outcome (typeNamed? name) σ = (.ok none, σ) := by
      simp only [typeNames, List.mem_cons, List.not_mem_nil, or_false, not_or] at hname
      obtain ⟨h₁, h₂, h₃, h₄, h₅, h₆⟩ := hname
      unfold typeNamed?
      split <;> first | contradiction | rfl
    exact .of_eq hnone ⟨fun h => absurd h hname, fun _ => rfl, rfl, le_rfl⟩

lemma unify_string_literal (name : String) :
    ∃ m, unify .string (.literal "string" (.text name)) =
      pure ⟨.error m, .string, .literal "string" (.text name)⟩ := ⟨_, rfl⟩

/-- Checks of the variable `x` by tests for some names, in this order. -/
def ChecksFor (x : String) (names : List String) (checks : List Checked) : Prop :=
  List.Forall₂ (fun n k => (∃ l, k.1 = .var l x) ∧ Named n k.2) names checks

/-- What is inferred from `σ` is a truth value that lets conclude that `x` has a type that each of
some names stands for; nothing is bound, and the variables that are drawn have closed types. -/
structure Concludes (x : String) (names : List String) (σ : Session) (i : Inferred) (σ' : Session) :
    Prop where
  type : ∃ checks, i.type = .con "boolean" [] none checks ∧ ChecksFor x names checks
  scopes : σ'.scopes = σ.scopes
  subst : i.subst.Closed σ.supply.count σ'.supply.count

lemma Concludes.boolean {names : List String} {σ' : Session} {i : Inferred}
    (h : Concludes x names σ i σ') : ∃ checks, i.type = .con "boolean" [] none checks :=
  h.type.imp fun _ => And.left

section Test

variable {lc lt lx ls : Location}

/-- A test of a place for a name that tests know makes one check, and for any other name none. -/
lemma succeeds_comparisonChecks {a b : Ty} {p : Node} (hp : p.isPlace = true)
    (hlocal : σ.scopes.local? "type" = none) :
    Succeeds (comparisonChecks (.call lc (.var lt "type") [p]) (.string ls name) a b) σ
      fun checks σ' => List.Forall₂ (fun n k => k.1 = p ∧ Named n k.2)
          ([name].filter (· ∈ typeNames)) checks ∧
        σ'.scopes = σ.scopes ∧ σ.supply.count ≤ σ'.supply.count := by
  have hnot : σ.scopes.isLocal "type" = false := by simp [Scopes.isLocal, hlocal]
  unfold comparisonChecks
  refine .bind_of_eq (a := σ.scopes) rfl ?_
  rw [hnot, hp]
  refine .bind (succeeds_typeNamed? name) ?_
  rintro r σ' ⟨hknown, hunknown, hscopes, hcount⟩
  by_cases hname : name ∈ typeNames
  · obtain ⟨t, rfl, ht⟩ := hknown hname
    have hfilter : [name].filter (· ∈ typeNames) = [name] := by simp [hname]
    rw [hfilter]
    exact .pure ⟨.cons ⟨rfl, ht⟩ .nil, hscopes, hcount⟩
  · obtain rfl := hunknown hname
    have hfilter : [name].filter (· ∈ typeNames) = [] := by simp [hname]
    rw [hfilter]
    exact .pure ⟨.nil, hscopes, hcount⟩

/-- The text that the standard function gives never unifies with a literal one, and the comparison
concludes from the test alone. -/
lemma succeeds_inferComparison {s : Subst} (hlocal : σ.scopes.local? "type" = none) :
    Succeeds (inferComparison (.call lc (.var lt "type") [.var lx x]) (.string ls name) ⟨s, .string⟩
      (ofType (.literal "string" (.text name)))) σ fun i σ' =>
        (∃ checks, i.type = .con "boolean" [] none checks ∧
          ChecksFor x ([name].filter (· ∈ typeNames)) checks) ∧
          σ'.scopes = σ.scopes ∧ σ.supply.count ≤ σ'.supply.count ∧ i.subst = s := by
  obtain ⟨m, hunify⟩ := unify_string_literal name
  have hfirst : outcome (unifyOrNot .string (.literal "string" (.text name))) σ =
      (.ok (.empty, ⟨.error m, .string, .literal "string" (.text name)⟩), σ) := by
    simp only [unifyOrNot, hunify]
    rfl
  have hagain : outcome (naming (unify .string (.literal "string" (.text name)))) σ =
      (.ok ⟨.error m, .string, .literal "string" (.text name)⟩, σ) := by
    rw [hunify, outcome_naming_pure]
  unfold inferComparison
  refine .bind_of_eq hfirst ?_
  refine .bind_of_eq hagain ?_
  refine .bind_of_eq (a := .empty) rfl ?_
  refine .bind (succeeds_comparisonChecks rfl hlocal) fun checks σ' ⟨hchecks, hscopes, hcount⟩ => ?_
  refine .bind_of_eq (outcome_compose_empty _) ?_
  refine .bind_of_eq (outcome_compose_empty _) ?_
  exact .pure ⟨⟨checks, rfl, hchecks.imp fun _ _ h => ⟨⟨lx, h.1⟩, h.2⟩⟩, hscopes, hcount, rfl⟩

end Test

/-- The names that tests know and that the tests of a condition are for. -/
def knownNames (C : Condition NameTest) : List String :=
  (C.tests.map NameTest.name).filter (· ∈ typeNames)

/-- A test succeeds, whether it asks for equality or for its contrary. -/
lemma succeeds_infer_test {test : NameTest} {n : Node} (hn : test.Written x n)
    (h : Testable x T σ.scopes) (hT : T.Scalar) (depth : Nat) :
    Succeeds (inferTo (depth + 3) n) σ (Concludes x (knownNames (.test test)) σ) := by
  have hrun : ∀ {lc lt lx ls : Location} (name : String), Succeeds (do
      let a ← inferTo (depth + 2) (.call lc (.var lt "type") [.var lx x])
      let a : Inferred := ⟨a.subst, ← ofExcept a.type.flatten⟩
      let b ← inferTo (depth + 2) (.string ls name)
      let b : Inferred := ⟨b.subst, ← ofExcept b.type.flatten⟩
      inferComparison (.call lc (.var lt "type") [.var lx x]) (.string ls name) a b) σ
      (Concludes x ([name].filter (· ∈ typeNames)) σ) := by
    intro lc lt lx ls name
    refine .bind (succeeds_inferCall depth h hT) fun i σ₁ ⟨htype, hscopes, hclosed⟩ => ?_
    rw [htype]
    refine .bind_of_eq (a := .string) rfl ?_
    refine .bind_of_eq (a := ofType (.literal "string" (.text name))) rfl ?_
    refine .bind_of_eq (a := .literal "string" (.text name)) rfl ?_
    refine (succeeds_inferComparison (hscopes ▸ h.unbound)).imp ?_ fun _ _ h => h
    rintro j σ₂ ⟨hj, hscopes', hcount, hsubst⟩
    exact ⟨hj, hscopes'.trans hscopes, hsubst ▸ hclosed.mono hcount⟩
  cases hn with
  | is lb lc lt lx ls name => exact hrun name
  | isNot lb lc lt lx ls name => exact hrun name

/-! ## A condition -/

/-- The checks of both sides of a connective are joined, the left ones first. -/
lemma inferConnective_checks (left right : Node) (s t : Subst) (checks more : List Checked) :
    inferConnective left right ⟨s, .con "boolean" [] none checks⟩
      ⟨t, .con "boolean" [] none more⟩ = do
        let both ← compose s t
        return ⟨← compose .empty (← compose .empty both),
          .con "boolean" [] none (checks ++ more)⟩ := rfl

/-- Both sides of a connective are inferred one after the other. -/
lemma ensures_connective {infer : Inference} {m n : Node} {P Q : Inferred → Session → Prop}
    {R : Session → Inferred → Session → Prop} {E : Stop → Session → Prop}
    (hP : ∀ i τ, P i τ → ∃ checks, i.type = .con "boolean" [] none checks)
    (hR : ∀ τ i τ', R τ i τ' → ∃ checks, i.type = .con "boolean" [] none checks)
    (hm : Ensures (infer m) σ P E) (hn : ∀ a σ₁, P a σ₁ → Ensures (infer n) σ₁ (R σ₁) E)
    (hQ : ∀ a b σ₁ σ₂, P a σ₁ → R σ₁ b σ₂ → Ensures (inferConnective m n a b) σ₂ Q E) :
    Ensures (do
      let a ← infer m
      let a : Inferred := ⟨a.subst, ← ofExcept a.type.flatten⟩
      let b ← infer n
      let b : Inferred := ⟨b.subst, ← ofExcept b.type.flatten⟩
      inferConnective m n a b) σ Q E := by
  have hflat : ∀ (i : Inferred) τ, (∃ checks, i.type = .con "boolean" [] none checks) →
      outcome (ofExcept i.type.flatten) τ = (.ok i.type, τ) := by
    rintro i τ ⟨checks, htype⟩
    rw [htype]
    rfl
  refine .bind hm fun a σ₁ ha => .bind_of_eq (hflat a σ₁ (hP a σ₁ ha)) ?_
  refine .bind (hn a σ₁ ha) fun b σ₂ hb => .bind_of_eq (hflat b σ₂ (hR σ₁ b σ₂ hb)) ?_
  exact hQ a b σ₁ σ₂ ha hb

/-- The checks of both sides of a connective are those of its tests. -/
lemma succeeds_inferConnective {left right : Node} {a b : Inferred} {names more : List String}
    {σ₀ σ₁ : Session} (ha : Concludes x names σ₀ a σ₁) (hb : Concludes x more σ₁ b σ) :
    Succeeds (inferConnective left right a b) σ (Concludes x (names ++ more) σ₀) := by
  obtain ⟨s, _⟩ := a
  obtain ⟨t, _⟩ := b
  obtain ⟨⟨checks, rfl, hchecks⟩, hscopes, hs⟩ := ha
  obtain ⟨⟨checks', rfl, hchecks'⟩, hscopes', ht⟩ := hb
  obtain ⟨hboth, hclosed⟩ := hs.compose ht
  rw [inferConnective_checks]
  refine .bind_of_eq (outcome_compose hboth) ?_
  refine .bind_of_eq (outcome_compose hclosed.empty_compose) ?_
  refine .bind_of_eq (outcome_compose hclosed.empty_compose) ?_
  exact .pure ⟨⟨checks ++ checks', rfl, List.rel_append hchecks hchecks'⟩,
    hscopes'.trans hscopes, hclosed⟩

/-- **A condition of tests on a union of simple values succeeds**: it is a truth value with the
checks of all its tests for known names. -/
theorem succeeds_infer_condition {C : Condition NameTest} {n : Node}
    (hn : C.Written (NameTest.Written x) n) (h : Testable x T σ.scopes) (hT : T.Scalar)
    {depth : Nat} (hdepth : n.size ≤ depth) :
    Succeeds (inferTo depth n) σ (Concludes x (knownNames C) σ) := by
  have hparts : ∀ {m n : Node} {depth : Nat}, m.size + n.size + 1 ≤ depth →
      ∃ d, depth = d + 1 ∧ m.size ≤ d ∧ n.size ≤ d := fun {m n depth} hle =>
    ⟨depth - 1, by omega, by omega, by omega⟩
  induction hn generalizing depth σ with
  | @test test n hn =>
    have hsize : 3 ≤ n.size := by
      cases hn <;> simp [Node.size, Node.sizeList]
    obtain ⟨depth, rfl⟩ := Nat.exists_eq_add_of_le' (hsize.trans hdepth)
    exact succeeds_infer_test hn h hT depth
  | both l _ _ ihm ihn | either l _ _ ihm ihn =>
    obtain ⟨d, rfl, hm, hn⟩ := hparts hdepth
    rw [knownNames, Condition.tests, List.map_append, List.filter_append]
    exact ensures_connective (fun _ _ hi => hi.boolean) (fun _ _ _ hi => hi.boolean) (ihm h hm)
      (fun _ σ₁ ha => ihn (ha.scopes ▸ h) hn) fun _ _ _ _ => succeeds_inferConnective

end Check

end LuaTyping
