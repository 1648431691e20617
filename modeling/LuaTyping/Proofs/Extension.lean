import LuaTyping.Proofs.Admission
import LuaTyping.Proofs.Operations

set_option autoImplicit false

/-!
# The types that a literal extends

The checker tests whether a value can be used where a type is wanted by unifying the type of the value
with it. For a literal this file compares the test with what the type admits. A literal extends
exactly the types that admit it. And where a type that admits a literal unifies with another type,
that one admits the literal as well, up to its value, unless one of its alternatives is a variable.

## Main definitions

* `Ty.Accepts` — a literal extends a type, by the test that the checker uses.
* `Ty.isOpen` — an alternative of a type is a variable.

## Main results

* `Ty.accepts_iff` — a literal extends exactly the types that admit it.
-/

namespace LuaTyping

lemma Unified.succeeds_iff {u : Unified} : u.succeeds = true ↔ ∃ s, u.outcome = .ok s := by
  rw [Unified.succeeds]
  rcases u.outcome with m | s <;> simp

/-- Anything may occur, and checks do not count. -/
def Permit.free : Permit where
  var _ := True
  literal _ _ := True
  key _ := True
  checked := False
  place _ := True
  quantified := True

lemma Ty.within_free (t : Ty) : t.Within .free := by
  induction t with
  | var => exact .var trivial
  | con c args v checks ih => exact .con (fun _ _ => trivial) ih (fun h => h.elim) fun h => h.elim
  | table fields ih =>
    exact .table (fun _ _ => trivial) (fun f hf => (ih f hf).1) fun f hf => (ih f hf).2
  | union left right ihl ihr => exact .union ihl ihr
  | all x body ih => exact .all trivial trivial ih

lemma wraps_of_unifyTo {depth : Nat} {a b : Ty} {u : Unified} {k k' : Letters}
    (h : outcome (unifyTo depth a b) k = (.ok u, k')) : a.Wraps u.left ∧ b.Wraps u.right := by
  have hof := ((unifyTo_renderTo_sat depth).1 a b a.within_free b.within_free).of_eq_ok h
  exact ⟨hof.left, hof.right⟩

namespace Ty

variable {broad : Bool} {l : String × Literal}

/-- An alternative of a type is a variable. -/
def isOpen : Ty → Bool
  | .var _ => true
  | .union left right => left.isOpen || right.isOpen
  | _ => false

variable {a b left right t : Ty} {c : String} {v : Option Literal} {checks more : List Checked}
  {u : Unified} {k k' : Letters} {bs : List Ty} {depth : Nat}

lemma isOpen_union : (Ty.union left right).isOpen = false ↔
    left.isOpen = false ∧ right.isOpen = false :=
  Bool.or_eq_false_iff

lemma Wraps.isOpen_eq (h : Wraps a b) : b.isOpen = a.isOpen := by
  induction h with
  | trans _ _ ih₁ ih₂ => rw [ih₂, ih₁]
  | left right _ ih => rw [isOpen, isOpen, ih]
  | right left _ ih => rw [isOpen, isOpen, ih]
  | refl | arg | field | key | result => rfl

/-- A constructor unifies with a union if it does with one of the alternatives. -/
lemma unify_union_right {unify : Unifier} {render : Renderer} {args : List Ty}
    (h : outcome (unifyStep unify render (.con c args v checks) (.union left right)) k =
      (.ok u, k')) :
    ∃ u₁ u₂ k₁ k₂, outcome (unify (.con c args v checks) left) k = (.ok u₁, k₁) ∧
      outcome (unify u₁.left right) k₁ = (.ok u₂, k₂) ∧
      u.succeeds = (u₁.succeeds || u₂.succeeds) := by
  simp only [unifyStep] at h
  obtain ⟨u₁, k₁, hu₁, h⟩ := bind_eq_ok.1 h
  obtain ⟨u₂, k₂, hu₂, h⟩ := bind_eq_ok.1 h
  refine ⟨u₁, u₂, k₁, k₂, hu₁, hu₂, ?_⟩
  rcases u₁ with ⟨m₁ | s₁, _, _⟩ <;> rcases u₂ with ⟨m₂ | s₂, _, _⟩
  case ok.ok =>
    obtain ⟨s, k₃, _, h⟩ := bind_eq_ok.1 h
    rw [← (pure_eq_ok.1 h).1]
    rfl
  all_goals
    rw [← (pure_eq_ok.1 h).1]
    rfl

/-- A union unifies with a type only if both alternatives do, unless the type is a variable. -/
lemma unify_union_left {unify : Unifier} {render : Renderer}
    (h : outcome (unifyStep unify render (.union left right) b) k = (.ok u, k'))
    (hb : b.isOpen = false) (hu : u.succeeds = true) :
    ∃ u₁ u₂ k₁ k₂, outcome (unify left b) k = (.ok u₁, k₁) ∧ u₁.succeeds = true ∧
      outcome (unify right u₁.right) k₁ = (.ok u₂, k₂) ∧ u₂.succeeds = true := by
  cases b with
  | var => cases hb
  | con | table | union | all =>
    simp only [unifyStep] at h
    obtain ⟨u₁, k₁, hu₁, h⟩ := bind_eq_ok.1 h
    rcases hs₁ : u₁.outcome with m | s₁
    · simp only [hs₁, pure_eq_ok] at h
      rw [← h.1] at hu
      cases hu
    · simp only [hs₁] at h
      obtain ⟨u₂, k₂, hu₂, h⟩ := bind_eq_ok.1 h
      rcases hs₂ : u₂.outcome with m | s₂
      · simp only [hs₂, pure_eq_ok] at h
        rw [← h.1] at hu
        cases hu
      · exact ⟨u₁, u₂, k₁, k₂, hu₁, Unified.succeeds_iff.2 ⟨s₁, hs₁⟩, hu₂,
          Unified.succeeds_iff.2 ⟨s₂, hs₂⟩⟩

lemma isOpen_broaden (t : Ty) : t.broaden.isOpen = t.isOpen := by
  induction t with
  | union left right ihl ihr => rw [broaden, isOpen, isOpen, ihl, ihr]
  | var | con | table | all => rfl

lemma any_isOpen_broadenList {count : Nat} {ts : List Ty} :
    ((broadenList ts).take count).any isOpen = (ts.take count).any isOpen := by
  induction ts generalizing count with
  | nil => rfl
  | cons t ts ih =>
    cases count with
    | zero => rfl
    | succ count =>
      rw [broadenList, List.take_succ_cons, List.take_succ_cons, List.any_cons, List.any_cons,
        isOpen_broaden, ih]

lemma not_succeeds_of_shown {render : Renderer} {message : String → String → String}
    (h : outcome (do
      let shown ← render a
      let other ← render b
      return (⟨.error (message shown other), left, right⟩ : Unified)) k = (.ok u, k')) :
    u.succeeds = false := by
  obtain ⟨shown, k₁, _, h⟩ := bind_eq_ok.1 h
  obtain ⟨other, k₂, _, h⟩ := bind_eq_ok.1 h
  rw [← (pure_eq_ok.1 h).1]
  rfl

/-- Constructors that unify have one name and equally many arguments, and no different values. -/
lemma eq_of_unifyConstructors {unify : Unifier} {render : Renderer} {d : String} {as : List Ty}
    {w : Option Literal}
    (h : outcome (unifyConstructors unify render c as v checks d bs w more) k = (.ok u, k'))
    (hu : u.succeeds = true) :
    c = d ∧ as.length = bs.length ∧ ∀ x y, v = some x → w = some y → x.equal y = true := by
  unfold unifyConstructors at h
  by_cases hcd : c = d
  · refine ⟨hcd, ?_⟩
    by_cases hlen : as.length = bs.length
    · refine ⟨hlen, ?_⟩
      rintro x y rfl rfl
      by_contra hxy
      rw [Bool.not_eq_true] at hxy
      simp only [hcd, ne_eq, not_true_eq_false, if_false, hlen, hxy, Bool.not_false, if_true] at h
      exact Bool.false_ne_true ((not_succeeds_of_shown h).symm.trans hu)
    · simp only [hcd, ne_eq, not_true_eq_false, if_false, hlen, not_false_eq_true, if_true] at h
      exact absurd ((not_succeeds_of_shown h).symm.trans hu) Bool.false_ne_true
  · simp only [ne_eq, hcd, not_false_eq_true, if_true, outcome_pure, Prod.mk.injEq,
      Except.ok.injEq] at h
    rw [← h.1] at hu
    cases hu

/-- A constructor unifies neither with a table nor with a scheme. -/
lemma succeeds_eq_false {unify : Unifier} {render : Renderer} {args : List Ty}
    (h : outcome (unifyStep unify render (.con c args v checks) b) k = (.ok u, k'))
    (hb : (∃ fields, b = .table fields) ∨ ∃ x body, b = .all x body) : u.succeeds = false := by
  rcases hb with ⟨fields, rfl⟩ | ⟨x, body, rfl⟩
  all_goals
    simp only [unifyStep] at h
    obtain ⟨left, k₁, _, h⟩ := bind_eq_ok.1 h
    obtain ⟨right, k₂, _, h⟩ := bind_eq_ok.1 h
    rw [← (pure_eq_ok.1 h).1]
    rfl

/-- A literal type unifies with the constructor of its name that has no value or the same one. -/
lemma succeeds_of_unifyConstructors {unify : Unifier} {render : Renderer} {x : Literal}
    {w : Option Literal}
    (h : outcome (unifyConstructors unify render c [] (some x) checks c [] w more) k = (.ok u, k'))
    (hw : w.all x.equal = true) : u.succeeds = true := by
  have hend : ∀ {y : Naming Unified}, y = (if c = "function" then
      unifyFunctions unify (some x) w checks more [] []
    else pure ⟨.ok .empty, .con c [] (some x) checks, .con c [] w more⟩) →
      outcome y k = (.ok u, k') → u.succeeds = true := by
    rintro y rfl hy
    by_cases hc : c = "function"
    · rw [if_pos hc] at hy
      cases hy
    · rw [if_neg hc, pure_eq_ok] at hy
      rw [← hy.1]
      rfl
  refine hend ?_ h
  cases w with
  | none => simp [unifyConstructors, unifyLists]
  | some y =>
    have hxy : x.equal y = true := hw
    simp [unifyConstructors, unifyLists, hxy]

/-- A literal type unifies with the types that admit its literal. -/
lemma succeeds_of_admits (h : outcome (unifyTo depth (literal l.1 l.2) t) k = (.ok u, k'))
    (ht : t.admits false l = true) : u.succeeds = true := by
  induction depth generalizing t u k k' with
  | zero => cases h
  | succ depth ih =>
    cases t with
    | con c args v checks =>
      obtain ⟨hc, rfl, hv⟩ := admits_con.1 ht
      subst hc
      exact succeeds_of_unifyConstructors h (hv.resolve_left (by simp))
    | union left right =>
      obtain ⟨u₁, u₂, k₁, k₂, hu₁, hu₂, heither⟩ := unify_union_right h
      rw [(wraps_of_unifyTo hu₁).1.eq_of_nil] at hu₂
      rw [heither, Bool.or_eq_true]
      exact (admits_union.1 ht).imp (ih hu₁) (ih hu₂)
    | var | table | all => cases ht

/-- The test whether a literal extends a constructor of its name says yes if that has no value, or
the same one. -/
lemma fits_literal (hname : l.1 ≠ "function") (hv : v.all l.2.equal = true) (k : Letters) :
    outcome ((literal l.1 l.2).fits (.con l.1 [] v checks)) k = (.ok true, k) := by
  have hdepth : ∃ depth, depthFor ((literal l.1 l.2).size + (Ty.con l.1 [] v checks).size) =
      depth + 1 := Nat.exists_eq_succ_of_ne_zero (by simp [depthFor])
  obtain ⟨depth, hdepth⟩ := hdepth
  have hunify : unify (literal l.1 l.2) (.con l.1 [] v checks) =
      pure ⟨.ok .empty, literal l.1 l.2, .con l.1 [] v checks⟩ := by
    rw [unify, hdepth, unifyTo, literal, unifyStep]
    cases v with
    | none => simp [unifyConstructors, unifyLists, hname]
    | some y =>
      have hxy : l.2.equal y = true := hv
      simp [unifyConstructors, unifyLists, hname, hxy]
  have hfits : (literal l.1 l.2).fits (.con l.1 [] v checks) =
      unify (literal l.1 l.2) (.con l.1 [] v checks) >>= fun u => pure u.succeeds := rfl
  rw [hfits, hunify]
  rfl

/-- A literal extends a type: the test says yes for one of its alternatives, and does not say no for
the type as a whole. -/
def Accepts (t : Ty) (l : String × Literal) : Prop :=
  (∃ a ∈ t.members, ∀ k, outcome ((literal l.1 l.2).fits a) k = (.ok true, k)) ∧
    ∀ k k', outcome ((literal l.1 l.2).fits t) k ≠ (.ok false, k')

/-- A literal for which the test says yes unifies in a step. -/
lemma exists_unifyStep_of_fits (h : outcome ((literal l.1 l.2).fits t) k = (.ok true, k')) :
    ∃ depth u k₁, u.succeeds = true ∧
      outcome (unifyStep (unifyTo depth) (renderTo depth) (literal l.1 l.2) t) k = (.ok u, k₁) := by
  cases t with
  | var => cases h
  | con | table | union | all =>
    obtain ⟨u, k₁, hu, hpure⟩ := bind_eq_ok.1 h
    simp only [pure_eq_ok] at hpure
    rw [unify] at hu
    generalize depthFor _ = depth at hu
    cases depth with
    | zero => cases hu
    | succ depth => exact ⟨depth, u, k₁, hpure.1, hu⟩

/-- A type admits a literal if the test says yes for one of its alternatives. -/
lemma admits_of_fits (ha : a ∈ t.members)
    (h : outcome ((literal l.1 l.2).fits a) k = (.ok true, k')) : t.admits false l = true := by
  induction t with
  | con c args v checks =>
    obtain rfl := List.mem_singleton.1 ha
    obtain ⟨depth, u, k₁, hu, hstep⟩ := exists_unifyStep_of_fits h
    obtain ⟨hc, hlen, hvalues⟩ := eq_of_unifyConstructors hstep hu
    refine admits_con.2 ⟨hc, List.length_eq_zero_iff.1 hlen.symm, .inr ?_⟩
    cases v with
    | none => rfl
    | some y => exact hvalues l.2 y rfl rfl
  | union left right ihl ihr =>
    rw [members, List.mem_append] at ha
    exact admits_union.2 (ha.imp ihl ihr)
  | var =>
    obtain rfl := List.mem_singleton.1 ha
    cases h
  | table | all =>
    obtain rfl := List.mem_singleton.1 ha
    obtain ⟨depth, u, k₁, hu, hstep⟩ := exists_unifyStep_of_fits h
    rw [succeeds_eq_false hstep (by simp)] at hu
    cases hu

/-- A literal extends exactly the types that admit it. -/
theorem accepts_iff (hname : l.1 ≠ "function") : t.Accepts l ↔ t.admits false l = true := by
  constructor
  · rintro ⟨⟨a, ha, hfits⟩, _⟩
    exact admits_of_fits ha (hfits default)
  · intro h
    constructor
    · induction t with
      | con c args v checks =>
        obtain ⟨hc, rfl, hv⟩ := admits_con.1 h
        subst hc
        exact ⟨_, List.mem_singleton.2 rfl, fits_literal hname (hv.resolve_left (by simp))⟩
      | union left right ihl ihr =>
        rw [members]
        rcases admits_union.1 h with hl | hr
        · obtain ⟨a, ha, hfits⟩ := ihl hl
          exact ⟨a, List.mem_append_left _ ha, hfits⟩
        · obtain ⟨a, ha, hfits⟩ := ihr hr
          exact ⟨a, List.mem_append_right _ ha, hfits⟩
      | var | table | all => cases h
    · intro k k' hfits
      cases t with
      | con | union =>
        obtain ⟨u, k₁, hu, hfits⟩ := bind_eq_ok.1 hfits
        rw [succeeds_of_admits hu h] at hfits
        cases hfits
      | var | table | all => cases h

/-- A type without variables among its alternatives that a type unifies with admits what that type
does, up to values.

**Proof sketch.** Induction on the depth. Both alternatives of a union on the left have to unify, so
the one that admits the literal does. On the right, one of the alternatives has to unify. -/
lemma admits_of_unifyTo (h : outcome (unifyTo depth a b) k = (.ok u, k')) (hu : u.succeeds = true)
    (ha : a.admits broad l = true) (hb : b.isOpen = false) : b.admits true l = true := by
  induction depth generalizing a b u k k' with
  | zero => cases h
  | succ depth ih =>
    rw [unifyTo] at h
    cases a with
    | con c as v checks =>
      obtain ⟨rfl, rfl, hv⟩ := admits_con.1 ha
      cases b with
      | con d bs w more =>
        obtain ⟨rfl, hlen, _⟩ := eq_of_unifyConstructors h hu
        exact admits_con.2 ⟨rfl, List.length_eq_zero_iff.1 hlen.symm, .inl rfl⟩
      | union left right =>
        obtain ⟨u₁, u₂, k₁, k₂, hu₁, hu₂, heither⟩ := unify_union_right h
        rw [hu, eq_comm, Bool.or_eq_true] at heither
        rw [(wraps_of_unifyTo hu₁).1.eq_of_nil] at hu₂
        rw [isOpen_union] at hb
        exact admits_union.2 (heither.imp (ih hu₁ · ha hb.1) (ih hu₂ · ha hb.2))
      | table | all =>
        rw [succeeds_eq_false h (by simp)] at hu
        cases hu
      | var => cases hb
    | union left right =>
      obtain ⟨u₁, u₂, k₁, k₂, hu₁, hleft, hu₂, hright⟩ := unify_union_left h hb hu
      have hwraps := (wraps_of_unifyTo hu₁).2
      rcases admits_union.1 ha with hl | hr
      · exact ih hu₁ hleft hl hb
      · rw [← hwraps.admits_eq]
        exact ih hu₂ hright hr (hwraps.isOpen_eq.trans hb)
    | var | table | all => cases ha

/-- Types that types unify with one by one admit what those do, up to values. -/
lemma admitAll_of_unifyLists {combine : Subst → Subst → Naming Subst} {s : Subst}
    {ls : List (String × Literal)} {as : List Ty} {u : UnifiedLists}
    (h : outcome (unifyLists (unifyTo depth) combine s as bs) k = (.ok u, k'))
    (hu : ∃ s', u.outcome = .ok s') (has : admitAll broad ls as = true)
    (hlen : as.length = bs.length) (hbs : (bs.take ls.length).any isOpen = false) :
    admitAll true ls bs = true := by
  induction ls generalizing s as bs u k with
  | nil => rfl
  | cons l ls ih =>
    cases as with
    | nil => cases has
    | cons a as =>
      cases bs with
      | nil => cases hlen
      | cons b bs =>
        rw [admitAll, Bool.and_eq_true] at has ⊢
        rw [List.length_cons, List.take_succ_cons, List.any_cons, Bool.or_eq_false_iff] at hbs
        obtain ⟨u₁, k₁, hu₁, h⟩ := bind_eq_ok.1 h
        rcases hs₁ : u₁.outcome with m | s₁
        · simp only [hs₁, pure_eq_ok] at h
          obtain ⟨s', hs'⟩ := hu
          rw [← h.1] at hs'
          cases hs'
        · simp only [hs₁] at h
          obtain ⟨s₂, k₂, _, h⟩ := bind_eq_ok.1 h
          obtain ⟨rest, k₃, hrest, h⟩ := bind_eq_ok.1 h
          cases h
          have hsucceeds : u₁.succeeds = true := by rw [Unified.succeeds, hs₁]
          exact ⟨admits_of_unifyTo hu₁ hsucceeds has.1 hbs.1,
            ih hrest hu has.2 (Nat.succ.inj hlen) hbs.2⟩

/-- A tuple type without variables among the alternatives of its components, which a tuple type
unifies with, covers what that type does, up to values. -/
lemma covers_of_unify {ls : List (String × Literal)}
    (h : outcome (unify a (.con "tuple" bs none more)) k = (.ok u, k')) (hu : u.succeeds = true)
    (ha : a.covers broad ls = true) (hbs : (bs.take ls.length).any isOpen = false) :
    (Ty.con "tuple" bs none more).covers true ls = true := by
  obtain ⟨as, checks, rfl, has⟩ := exists_tuple_of_covers ha
  unfold unify at h
  generalize depthFor _ = depth at h
  cases depth with
  | zero => cases h
  | succ depth =>
    rw [unifyTo, unifyStep] at h
    have hlen := (eq_of_unifyConstructors h hu).2.1
    have hname : ("tuple" : String) ≠ "function" := by decide
    simp only [unifyConstructors, ne_eq, not_true_eq_false, if_false, hlen,
      Bool.false_eq_true, hname] at h
    obtain ⟨lists, k₁, hlists, h⟩ := bind_eq_ok.1 h
    rw [← (pure_eq_ok.1 h).1, Unified.succeeds_iff] at hu
    exact covers_con.2 ⟨rfl, rfl, admitAll_of_unifyLists hlists hu has hlen hbs⟩

end Ty

end LuaTyping
