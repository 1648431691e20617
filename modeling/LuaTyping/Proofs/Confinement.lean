import LuaTyping.Proofs.Formation

set_option autoImplicit false

/-!
# What inference does to the scopes

Inference changes the scopes only in the ways of `Scopes.Moves`. What is in its reach can
be read off the tree: the names that it binds outside of functions, branches and chunks, the names
that it assigns to, and whether it assigns to paths. Narrowing also assigns to the paths that a
condition has compared, which may come from checks in the types of the session; so the reach is
given for sessions whose checks are about certain places only.

## Main definitions

* `Regime.about` — checks are about certain places only.
* `Node.Assigning` — a well-formed tree that assigns to certain names only.
* `Check.Still` — a computation leaves scopes and register as they are.

## Main results

* `Check.inferTo_confined` — inference is confined to the reach of the tree.
-/

namespace LuaTyping

/-! ## Checks about certain places -/

/-- Anything may occur, but checks are about certain places only. -/
def Permit.about (place : Node → Prop) : Permit where
  var _ := True
  literal _ _ := True
  key _ := True
  checked := True
  place := place
  quantified := True

lemma Permit.about_le {place place' : Node → Prop} (h : ∀ p, place p → place' p) :
    (Permit.about place).Le (.about place') :=
  ⟨fun _ => id, fun _ _ => id, fun _ => id, id, h, id⟩

/-- Anything may occur and happen, but checks are about certain places only. -/
def Regime.about (place : Node → Prop) : Regime where
  permit _ := .about place
  fault _ := True
  start := 0
  le _ := .refl _
  fresh _ _ := trivial
  rest _ := trivial
  flag _ _ := trivial
  key _ _ := trivial
  checked _ := trivial
  allows _ _ _ := trivial
  unbound _ := trivial

namespace Node

variable {B G : String → Prop} {n t : Node} {T : Ty → Prop}

lemma binds_eq_nil (h : n.isBinding = false) : n.binds = [] := by
  cases n with
  | declare | assign => cases h
  | _ => rfl

lemma Formed.operands {ρ : Role} (h : n.Formed T ρ) :
    ∀ m ∈ n.operands, ∃ ρ', m.Formed T ρ' ∧ m.isBinding = false := by
  intro m hm
  obtain ⟨ρ', _, hm', hchunk | hbinding⟩ := h.part m (n.operands_subset_parts hm)
  · obtain ⟨l, ss, last, rfl⟩ := hchunk
    exact absurd hm List.not_mem_nil
  · exact ⟨ρ', hm', hbinding⟩

lemma Formed.bindsIn {ρ : Role} (h : n.Formed T ρ) (hB : ∀ x ∈ n.binds, B x) : n.BindsIn B := by
  refine .intro hB fun m hm => ?_
  refine bindsIn_of (q := fun m => ∃ ρ, m.Formed T ρ ∧ m.isBinding = false)
    (fun k ⟨_, _, hk⟩ x hx => ?_) (fun k ⟨_, hk, _⟩ => hk.operands) (h.operands m hm)
  rw [binds_eq_nil hk] at hx
  exact absurd hx List.not_mem_nil

/-- A formed tree that assigns to plain names of a kind only. -/
structure Assigning (T : Ty → Prop) (G : String → Prop) (t : Node) : Prop where
  formed : ∃ ρ, t.Formed T ρ
  assigned : ∀ x ∈ t.assigned, G x

lemma assigned_subset_of_mem_parts {m : Node} (hm : m ∈ t.parts) : m.assigned ⊆ t.assigned := by
  intro x hx
  obtain ⟨k, hk, hx⟩ := List.mem_flatMap.1 hx
  exact List.mem_flatMap.2 ⟨k, subtrees_subset_of_mem_parts m hm hk, hx⟩

lemma Assigning.part {m : Node} (h : t.Assigning T G) (hm : m ∈ t.parts) : m.Assigning T G := by
  obtain ⟨_, ht⟩ := h.formed
  obtain ⟨ρ, _, hm', _⟩ := ht.part m hm
  exact ⟨⟨ρ, hm'⟩, fun x hx => h.assigned x (assigned_subset_of_mem_parts hm hx)⟩

lemma Assigning.pathKeys (h : t.Assigning T G) :
    ∀ k ∈ t.pathKeys, k.Assigning T G ∧ k.isBinding = false := by
  refine of_mem_pathKeys (fun l object key h => ?_) h
  obtain ⟨_, hformed⟩ := h.formed
  cases hformed with
  | index _ _ hkey =>
    exact ⟨h.part (by simp [parts]), h.part (by simp [parts]), hkey.isBinding_eq_false (by decide)⟩

lemma Formed.suits {place : Node → Prop} {ρ : Role} (h : t.Formed T ρ)
    (hT : ∀ u, T u → u.Within (.about place))
    (hplaces : ∀ l left op right, t = .binary l left op right → op.family? = some .comparison →
      ∀ p ∈ comparedPlaces left right, place p) : t.Suits (.about place) 0 := by
  cases h with
  | binary l op => exact hplaces _ _ _ _ rfl
  | function _ _ _ _ _ _ hresult =>
    exact fun l t hnote => hT t (hresult t (Node.resultNote.inj hnote).2)
  | declare _ _ _ hnote =>
    refine ⟨fun _ _ _ => trivial, fun l t heq => ?_⟩
    obtain ⟨ln, u, hn, hu⟩ := hnote _ heq
    exact hT t ((Node.typeNote.inj hn).2 ▸ hu)
  | _ => trivial

lemma Assigning.targets (h : t.Assigning T G) : ∀ x ∈ t.targetNames, G x :=
  fun x hx => h.assigned x (List.mem_flatMap.2 ⟨t, t.mem_subtrees, hx⟩)

end Node

namespace Check

variable {α β : Type} {place : Node → Prop} {r : Reach} {infer : Inference} {l : Location}

/-! ## Computations that leave the scopes alone -/

/-- A computation changes neither the scopes nor the register. -/
def Still (x : Check α) : Prop :=
  ∀ σ, (outcome x σ).2.scopes = σ.scopes ∧ (outcome x σ).2.supply.shared = σ.supply.shared

variable {x : Check α} {f : α → Check β}

lemma Still.bind (hx : Still x) (hf : ∀ a, Still (f a)) : Still (x >>= f) := by
  intro σ
  rw [outcome_bind]
  have h := hx σ
  rcases hout : outcome x σ with ⟨e | a, σ'⟩ <;> rw [hout] at h
  · exact h
  · exact ⟨(hf a σ').1.trans h.1, (hf a σ').2.trans h.2⟩

lemma Scopeless.still (h : Scopeless x) : Still x := h.scopes_eq

lemma still_pure (a : α) : Still (pure a) := (Scopeless.pure a).still

lemma outcome_scopes (σ : Session) : outcome scopes σ = (.ok σ.scopes, σ) := rfl

lemma still_scopes : Still scopes := fun _ => ⟨rfl, rfl⟩

lemma still_fresh : Still fresh := Scopeless.fresh.still

lemma still_await (x : String) : Still (await x) := (Scopeless.await _).still

lemma still_naming (x : Naming α) : Still (naming x) := (Scopeless.naming _).still

lemma still_ite {c : Prop} [Decidable c] {x y : Check α} (hx : Still x) (hy : Still y) :
    Still (if c then x else y) := by
  split
  · exact hx
  · exact hy

lemma still_ofExcept (e : Except Fault α) : Still (ofExcept e) := (scopeless_ofExcept _).still

lemma still_apply (s : Subst) (t : Ty) : Still (apply s t) := (scopeless_apply _ _).still

lemma still_compose (s t : Subst) : Still (compose s t) := (scopeless_compose _ _).still

lemma still_member (as : List α) (k : Nat) : Still (member as k) := (scopeless_member _ _).still

lemma still_unifyAt (l : Location) (a b : Ty) : Still (unifyAt l a b) :=
  (scopeless_unifyAt _ _ _).still

lemma still_forM {f : α → Check Unit} (h : ∀ a, Still (f a)) : ∀ as : List α, Still (as.forM f)
  | [] => still_pure _
  | a :: as => (h a).bind fun _ => still_forM h as

lemma still_comparisonChecks (left right : Node) (a b : Ty) :
    Still (comparisonChecks left right a b) := by
  unfold comparisonChecks
  simp only
  split
  · refine still_scopes.bind fun _ => still_ite
      ((scopeless_typeNamed? _).still.bind fun o => ?_) (still_pure _)
    split <;> exact still_pure _
  · exact still_pure _

lemma still_inferComparison (left right : Node) (a b : Inferred) :
    Still (inferComparison left right a b) := by
  have htail : ∀ t u s, Still (comparisonOf left right a b t u s) := fun _ _ _ =>
    (still_comparisonChecks _ _ _ _).bind fun _ => (still_compose _ _).bind fun _ =>
      (still_compose _ _).bind fun _ => still_pure _
  refine (scopeless_unifyOrNot _ _).still.bind fun _ => (still_naming _).bind fun again => ?_
  split
  · exact (still_compose _ _).bind fun s => htail _ _ s
  · exact htail _ _ _

variable {σ : Session}

lemma Still.within (hx : Still x) (hσ : σ.Within (.about place)) :
    (outcome x σ).2.Within (.about place) :=
  ⟨Nat.zero_le _, (hx σ).2.symm ▸ hσ.shared, (hx σ).1.symm ▸ hσ.scopes⟩

/-! ## The inference -/

/-- Inference to any depth keeps checks to their places, and is confined to the reach of the tree. -/
theorem inferTo_confined {t : Node} (hplaces : ∀ p, place p →
      Admits (.about place) r 0 p ∧ ∀ l o k, p = .index l o k → r.paths)
    (depth : Nat) (ht : Admits (.about place) r 0 t) (hbinds : t.BindsIn r.bound) :
    Infers (.about place) r 0 (inferTo depth) t :=
  inferTo_keeps_reach trivial (fun _ p hp => ⟨⟨(hplaces p hp).1.suits, (hplaces p hp).1.obeys⟩,
    (hplaces p hp).2⟩) depth ht hbinds

end Check

end LuaTyping
