import LuaTyping.Types.Instantiate
import LuaTyping.Proofs.Extension

set_option autoImplicit false

/-!
# The order of simple types

Closed types without tables and functions are unions of constructors whose arguments are of the same
sort. One of them extends another if each of its alternatives has the name of an alternative of the
other, a value that serves where the other's is wanted, and arguments that extend the other's one by
one. Where the unification of two such types returns, it succeeds exactly if the first one extends
the second.

## Main definitions

* `Ty.Simple` — closed types without tables and functions.
* `Literal.serves` — a value can be used where another one is wanted.
* `Ty.Ordered`, `Ty.Under` — one type extends another.

## Main results

* `Ty.Ordered.trans` — the order is transitive.
* `Ty.succeeds_iff_under` — what a unification of simple types shows.
-/

namespace LuaTyping

/-! ## Values -/

namespace Literal

/-- Whether a value can be used where another one is wanted: any can where none is wanted, and one
that equals the wanted one. -/
def serves (given : Option Literal) : Option Literal → Bool
  | none => true
  | some wanted => given.any (·.equal wanted)

variable {v w u : Option Literal}

lemma serves_self (h : ∀ x, v = some x → x.equal x = true) : serves v v = true := by
  cases v with
  | none => rfl
  | some x => exact h x rfl

lemma serves_trans (h : serves v w = true) (h' : serves w u = true) : serves v u = true := by
  cases u with
  | none => rfl
  | some z =>
    obtain ⟨y, rfl, hyz⟩ := (Option.any_eq_true _ _).1 h'
    obtain ⟨x, rfl, hxy⟩ := (Option.any_eq_true _ _).1 h
    exact equal_of_equal hxy ((equal_comm z y).trans hyz)

end Literal

namespace Ty

/-! ## Simple types -/

/-- A closed type without tables and functions. -/
inductive Simple : Ty → Prop
  | con {c : String} {args : List Ty} {v : Option Literal} {checks : List Checked} :
      c ≠ "function" → (∀ a ∈ args, Simple a) → Simple (.con c args v checks)
  | union {left right : Ty} : Simple left → Simple right → Simple (.union left right)

variable {a b t : Ty}

variable {c : String} {v : Option Literal} {checks : List Checked}

lemma simple_con_iff {args : List Ty} :
    Simple (.con c args v checks) ↔ c ≠ "function" ∧ ∀ a ∈ args, Simple a :=
  ⟨fun | .con hc h => ⟨hc, h⟩, fun h => .con h.1 h.2⟩

lemma simple_union_iff {left right : Ty} :
    Simple (.union left right) ↔ Simple left ∧ Simple right :=
  ⟨fun | .union hl hr => ⟨hl, hr⟩, fun h => .union h.1 h.2⟩

lemma broadenList_eq_map (ts : List Ty) : broadenList ts = ts.map broaden := by
  induction ts with
  | nil => rfl
  | cons t ts ih => rw [broadenList, ih, List.map_cons]

namespace Simple

lemma isOpen (h : t.Simple) : t.isOpen = false := by
  induction h with
  | con => rfl
  | union _ _ ihl ihr => exact isOpen_union.2 ⟨ihl, ihr⟩

lemma broaden (h : t.Simple) : t.broaden.Simple := by
  induction h with
  | con hc _ ih =>
    refine .con hc ?_
    rw [broadenList_eq_map]
    exact List.forall_mem_map.2 ih
  | union _ _ ihl ihr => exact .union ihl ihr

lemma freeVars (h : t.Simple) : t.freeVars = [] := by
  induction h with
  | @con c args v checks _ _ ih =>
    rw [Ty.freeVars]
    induction args with
    | nil => rfl
    | cons a args ihargs =>
      rw [freeVarsList, ih a (by simp), ihargs (by simp_all) (by simp_all)]
      rfl
  | union _ _ ihl ihr => rw [Ty.freeVars, ihl, ihr]; rfl

lemma generalize (h : t.Simple) (fixed : List String) : t.generalize fixed = t := by
  simp [Ty.generalize, h.freeVars]

/-- A simple type is its only instance. -/
lemma freshen (h : t.Simple) (own : Bool) (i : Instances) : t.freshen own i = (t, i) := by
  induction h generalizing own i with
  | @con c args v checks _ _ ih =>
    have hargs : freshenList own args i = (args, i) := by
      clear checks
      induction args with
      | nil => rfl
      | cons a args ihargs =>
        have hrest := ihargs (by simp_all) (by simp_all)
        simp only [freshenList, bind, StateT.bind, ih a (by simp) own i, hrest, pure, StateT.pure]
    simp only [Ty.freshen, bind, StateT.bind, hargs, pure, StateT.pure]
  | union _ _ ihl ihr =>
    simp only [Ty.freshen, bind, StateT.bind, ihl, ihr, pure, StateT.pure]

lemma instantiate (h : t.Simple) (s : Supply) : t.instantiate s = (t, s) := by
  simp only [Ty.instantiate, StateT.run, h.freshen]

/-- Substitutions do not change simple types. -/
lemma replaceVars (h : t.Simple) (f : String → Except Fault Ty) : t.replaceVars f = .ok t := by
  induction h with
  | @con c args v checks _ _ ih =>
    have hargs : replaceVarsList f args = .ok args := by
      clear checks
      induction args with
      | nil => rfl
      | cons a args ihargs =>
        have hrest := ihargs (by simp_all) (by simp_all)
        simp only [replaceVarsList, ih a (by simp), hrest]
        rfl
    simp only [Ty.replaceVars, hargs]
    rfl
  | union _ _ ihl ihr =>
    simp only [Ty.replaceVars, ihl, ihr]
    rfl

lemma apply (h : t.Simple) (s : Subst) : s.apply t = .ok t := by
  obtain ⟨f, hf⟩ := Subst.exists_apply_eq s t
  rw [hf, h.replaceVars]

lemma wraps_eq (ha : a.Simple) (h : a.Wraps b) : b = a := by
  induction h with
  | refl => rfl
  | trans _ _ ih₁ ih₂ =>
    obtain rfl := ih₁ ha
    exact ih₂ ha
  | arg c before after v checks _ ih =>
    rw [ih ((simple_con_iff.1 ha).2 _ (by simp))]
  | field | key => cases ha
  | left right _ ih => rw [ih (simple_union_iff.1 ha).1]
  | right left _ ih => rw [ih (simple_union_iff.1 ha).2]
  | result => exact absurd rfl (simple_con_iff.1 ha).1

end Simple

/-! ## The order -/

/-- One type is below another, with a relation between the values of constructors of one name: each
alternative of the first one is a constructor whose name and number of arguments an alternative of
the second one has, with related values and with arguments that are below one by one. -/
inductive Ordered (R : Option Literal → Option Literal → Bool) : Ty → Ty → Prop
  | con (c : String) {v w : Option Literal} (checks more : List Checked) {as bs : List Ty} :
      R v w = true → as.length = bs.length →
      (∀ (i : Nat) a b, as[i]? = some a → bs[i]? = some b → Ordered R a b) →
      Ordered R (.con c as v checks) (.con c bs w more)
  | union {left right t : Ty} : Ordered R left t → Ordered R right t → Ordered R (.union left right) t
  | left {t left : Ty} (right : Ty) : Ordered R t left → Ordered R t (.union left right)
  | right {t right : Ty} (left : Ty) : Ordered R t right → Ordered R t (.union left right)

/-- One type extends another: its values serve where the other's are wanted. -/
abbrev Under : Ty → Ty → Prop := Ordered Literal.serves

section Ordered

variable {R : Option Literal → Option Literal → Bool} {c d : String} {as bs : List Ty}
  {v w : Option Literal} {checks more : List Checked} {left right : Ty}

lemma ordered_union_left_iff :
    Ordered R (.union left right) t ↔ Ordered R left t ∧ Ordered R right t := by
  refine ⟨fun h => ?_, fun h => .union h.1 h.2⟩
  generalize hs : Ty.union left right = s at h
  induction h with
  | con => cases hs
  | union hl hr =>
    cases hs
    exact ⟨hl, hr⟩
  | left right' _ ih => exact ⟨.left _ (ih hs).1, .left _ (ih hs).2⟩
  | right left' _ ih => exact ⟨.right _ (ih hs).1, .right _ (ih hs).2⟩

/-- The order is transitive if the relation between values is.

**Proof sketch.** Induction on the first step. Below a union in the middle, the second step goes on
from the alternative that was taken. From a constructor in the middle, the second step leads to an
alternative that is a constructor with the same name, where values and arguments are compared. -/
theorem Ordered.trans {c : Ty} (hR : ∀ u v w, R u v = true → R v w = true → R u w = true)
    (hab : Ordered R a b) (hbc : Ordered R b c) : Ordered R a c := by
  induction hab generalizing c with
  | union _ _ ihl ihr => exact .union (ihl hbc) (ihr hbc)
  | left _ _ ih => exact ih (ordered_union_left_iff.1 hbc).1
  | right _ _ ih => exact ih (ordered_union_left_iff.1 hbc).2
  | @con n v w checks more as bs hv hlen _ ih =>
    generalize hs : Ty.con n bs w more = s at hbc
    induction hbc with
    | con d checks' more' hv' hlen' hargs =>
      cases hs
      refine .con _ _ _ (hR _ _ _ hv hv') (hlen.trans hlen') fun i x z hx hz => ?_
      obtain ⟨hi, _⟩ := List.getElem?_eq_some_iff.1 hx
      have hy : bs[i]? = some bs[i] := List.getElem?_eq_getElem (hlen ▸ hi)
      exact ih i x _ hx hy (hargs i _ z hy hz)
    | union => cases hs
    | left _ _ ih' => exact .left _ (ih' hs)
    | right _ _ ih' => exact .right _ (ih' hs)

lemma under_union_left_iff : Under (.union left right) t ↔ Under left t ∧ Under right t :=
  ordered_union_left_iff

lemma under_union_right_iff : Under (.con c as v checks) (.union left right) ↔
    Under (.con c as v checks) left ∨ Under (.con c as v checks) right := by
  refine ⟨fun h => ?_, fun h => h.elim (.left _) (.right _)⟩
  cases h with
  | left _ h => exact .inl h
  | right _ h => exact .inr h

lemma under_con_iff : Under (.con c as v checks) (.con d bs w more) ↔
    c = d ∧ Literal.serves v w = true ∧ as.length = bs.length ∧
      ∀ (i : Nat) a b, as[i]? = some a → bs[i]? = some b → Under a b := by
  constructor
  · intro h
    cases h with
    | con _ _ _ hv hlen hargs => exact ⟨rfl, hv, hlen, hargs⟩
  · rintro ⟨rfl, hv, hlen, hargs⟩
    exact .con _ _ _ hv hlen hargs

lemma Under.trans {c : Ty} (hab : Under a b) (hbc : Under b c) : Under a c :=
  Ordered.trans (fun _ _ _ => Literal.serves_trans) hab hbc

end Ordered

variable {as : List Ty}

lemma under_iff_exists_members
    (hb : b.Simple) :
    Under (.con c as v checks) b ↔ ∃ n ∈ b.members, Under (.con c as v checks) n := by
  induction hb with
  | con => simp only [members, List.mem_singleton, exists_eq_left]
  | union _ _ ihl ihr =>
    simp only [under_union_right_iff, ihl, ihr, members, List.mem_append, or_and_right, exists_or]

/-! ## What a unification shows -/

variable {u : Unified} {k k' : Letters}

lemma Simple.unified {depth : Nat} (ha : a.Simple) (hb : b.Simple)
    (h : outcome (unifyTo depth a b) k = (.ok u, k')) : u.left = a ∧ u.right = b :=
  ⟨ha.wraps_eq (wraps_of_unifyTo h).1, hb.wraps_eq (wraps_of_unifyTo h).2⟩

variable {unify : Unifier} {render : Renderer} {bs : List Ty}

/-- Constructors that are no functions, with one name and equally many arguments, unify as their
arguments do if the value on the left serves on the right. -/
lemma unifyConstructors_eq
    {w : Option Literal} {more : List Checked} (hc : c ≠ "function")
    (hlen : as.length = bs.length) (hv : Literal.serves v w = true) :
    unifyConstructors unify render c as v checks c bs w more = (do
      let u ← unifyLists unify (fun found _ => found.composeWith (fitsBy unify) found) .empty as bs
      return ⟨u.outcome, .con c u.left v checks, .con c u.right w more⟩) := by
  cases w with
  | none => cases v <;> simp [unifyConstructors, hlen, hc]
  | some y =>
    obtain ⟨x, rfl, hxy⟩ := (Option.any_eq_true _ _).1 hv
    simp [unifyConstructors, hlen, hc, hxy]

/-- Of constructors that unify, the value on the left serves on the right, unless they are
functions. -/
lemma serves_of_unifyConstructors {d : String}
    {w : Option Literal} {more : List Checked} (hc : c ≠ "function")
    (h : outcome (unifyConstructors unify render c as v checks d bs w more) k = (.ok u, k'))
    (hu : u.succeeds = true) : Literal.serves v w = true := by
  obtain ⟨rfl, hlen, hvalues⟩ := eq_of_unifyConstructors h hu
  cases w with
  | none => rfl
  | some y =>
    cases v with
    | some x => exact hvalues x y rfl rfl
    | none =>
      -- without a value on the left, the rule breaks off or shows both types and fails
      have hfails : u.succeeds = false := by
        simp only [unifyConstructors, ne_eq, not_true_eq_false, if_false, hlen, hc,
          Bool.false_eq_true] at h
        rcases y with d | s | _ | _
        case flag.true => cases h
        all_goals exact not_succeeds_of_shown h
      exact absurd (hfails.symm.trans hu) Bool.false_ne_true

/-- If two lists unify, then so do their members, one by one. -/
lemma succeeds_of_unifyLists {combine : Subst → Subst → Naming Subst}
    {s : Subst} {u : UnifiedLists}
    (h : outcome (unifyLists unify combine s as bs) k = (.ok u, k'))
    (hu : ∃ s', u.outcome = .ok s') {i : Nat} (ha : as[i]? = some a) (hb : bs[i]? = some b) :
    ∃ w k₁ k₂, outcome (unify a b) k₁ = (.ok w, k₂) ∧ w.succeeds = true := by
  induction as generalizing s bs u k i with
  | nil => simp at ha
  | cons x as ih =>
    cases bs with
    | nil => simp at hb
    | cons y bs =>
      obtain ⟨w, k₁, hw, h⟩ := bind_eq_ok.1 h
      rcases hs : w.outcome with m | found
      · simp only [hs, pure_eq_ok] at h
        obtain ⟨s', hs'⟩ := hu
        rw [← h.1] at hs'
        cases hs'
      · simp only [hs] at h
        obtain ⟨s₂, k₂, _, h⟩ := bind_eq_ok.1 h
        obtain ⟨rest, k₃, hrest, h⟩ := bind_eq_ok.1 h
        cases h
        cases i with
        | zero =>
          cases ha
          cases hb
          exact ⟨w, k, k₁, hw, Unified.succeeds_iff.2 ⟨found, hs⟩⟩
        | succ i => exact ih hrest hu ha hb

/-- Two lists unify if their members do, one by one, and the unification does not break off. -/
lemma unifyLists_succeeds {combine : Subst → Subst → Naming Subst} {s : Subst}
    {u : UnifiedLists}
    (h : outcome (unifyLists unify combine s as bs) k = (.ok u, k'))
    (hsucceeds : ∀ (i : Nat) a b w k₁ k₂, as[i]? = some a → bs[i]? = some b →
      outcome (unify a b) k₁ = (.ok w, k₂) → w.succeeds = true) : ∃ s', u.outcome = .ok s' := by
  induction as generalizing s bs u k with
  | nil =>
    simp only [unifyLists, pure_eq_ok] at h
    exact ⟨s, by rw [← h.1]⟩
  | cons x as ih =>
    cases bs with
    | nil =>
      simp only [unifyLists, pure_eq_ok] at h
      exact ⟨s, by rw [← h.1]⟩
    | cons y bs =>
      obtain ⟨w, k₁, hw, h⟩ := bind_eq_ok.1 h
      obtain ⟨found, hs⟩ := Unified.succeeds_iff.1 (hsucceeds 0 x y w k k₁ rfl rfl hw)
      simp only [hs] at h
      obtain ⟨s₂, k₂, _, h⟩ := bind_eq_ok.1 h
      obtain ⟨rest, k₃, hrest, h⟩ := bind_eq_ok.1 h
      cases h
      have hlater : ∃ s', rest.outcome = .ok s' :=
        ih hrest fun i a b w k₁ k₂ ha hb => hsucceeds (i + 1) a b w k₁ k₂ ha hb
      exact hlater

/-- A union unifies with a type if both alternatives do, and the unification does not break off. -/
lemma union_left_succeeds {left right : Ty}
    (h : outcome (unifyStep unify render (.union left right) b) k = (.ok u, k'))
    (hb : b.isOpen = false)
    (hleft : ∀ w k₁, outcome (unify left b) k = (.ok w, k₁) → w.succeeds = true ∧ w.right = b)
    (hright : ∀ w k₁ k₂, outcome (unify right b) k₁ = (.ok w, k₂) → w.succeeds = true) :
    u.succeeds = true := by
  cases b with
  | var => cases hb
  | con | table | union | all =>
    simp only [unifyStep] at h
    obtain ⟨u₁, k₁, hu₁, h⟩ := bind_eq_ok.1 h
    obtain ⟨hs₁, hsame⟩ := hleft u₁ k₁ hu₁
    obtain ⟨s₁, hs₁⟩ := Unified.succeeds_iff.1 hs₁
    simp only [hs₁] at h
    obtain ⟨u₂, k₂, hu₂, h⟩ := bind_eq_ok.1 h
    rw [hsame] at hu₂
    obtain ⟨s₂, hs₂⟩ := Unified.succeeds_iff.1 (hright u₂ k₁ k₂ hu₂)
    simp only [hs₂] at h
    obtain ⟨s, k₃, _, h⟩ := bind_eq_ok.1 h
    rw [← (pure_eq_ok.1 h).1]
    rfl

/-- Where the unification of two simple types returns, it succeeds exactly if the first one extends
the second.

**Proof sketch.** Induction on the depth, by the shapes of both types. A union on the left needs both
alternatives and one on the right needs one, in the unification as in the order; constructors unify
if their names and numbers of arguments agree, the value serves, and the arguments unify one by
one. -/
theorem succeeds_iff_under {depth : Nat} (ha : a.Simple) (hb : b.Simple)
    (h : outcome (unifyTo depth a b) k = (.ok u, k')) : u.succeeds = true ↔ Under a b := by
  induction depth generalizing a b u k k' with
  | zero => cases h
  | succ depth ih =>
    rw [unifyTo] at h
    cases ha with
    | union hleft hright =>
      rw [under_union_left_iff]
      constructor
      · intro hu
        obtain ⟨u₁, u₂, k₁, k₂, hu₁, hs₁, hu₂, hs₂⟩ := unify_union_left h hb.isOpen hu
        rw [(hleft.unified hb hu₁).2] at hu₂
        exact ⟨(ih hleft hb hu₁).1 hs₁, (ih hright hb hu₂).1 hs₂⟩
      · rintro ⟨hl, hr⟩
        refine union_left_succeeds h hb.isOpen (fun w k₁ hw => ?_) fun w k₁ k₂ hw => ?_
        · exact ⟨(ih hleft hb hw).2 hl, (hleft.unified hb hw).2⟩
        · exact (ih hright hb hw).2 hr
    | @con c as v checks hc hargs =>
      cases hb with
      | @union left right hleft hright =>
        obtain ⟨u₁, u₂, k₁, k₂, hu₁, hu₂, heither⟩ := unify_union_right h
        rw [((Simple.con hc hargs).unified hleft hu₁).1] at hu₂
        rw [heither, Bool.or_eq_true, ih (.con hc hargs) hleft hu₁, ih (.con hc hargs) hright hu₂,
          under_union_right_iff]
      | @con d bs w more hd hbs =>
        rw [unifyStep] at h
        rw [under_con_iff]
        constructor
        · intro hu
          obtain ⟨rfl, hlen, _⟩ := eq_of_unifyConstructors h hu
          have hv := serves_of_unifyConstructors hc h hu
          refine ⟨rfl, hv, hlen, fun i x y hx hy => ?_⟩
          rw [unifyConstructors_eq hc hlen hv] at h
          obtain ⟨lists, k₁, hlists, h⟩ := bind_eq_ok.1 h
          rw [← (pure_eq_ok.1 h).1, Unified.succeeds_iff] at hu
          obtain ⟨w', k₂, k₃, hw', hs⟩ := succeeds_of_unifyLists hlists hu hx hy
          exact (ih (hargs x (List.mem_of_getElem? hx)) (hbs y (List.mem_of_getElem? hy)) hw').1 hs
        · rintro ⟨rfl, hv, hlen, hunder⟩
          rw [unifyConstructors_eq hc hlen hv] at h
          obtain ⟨lists, k₁, hlists, h⟩ := bind_eq_ok.1 h
          rw [← (pure_eq_ok.1 h).1, Unified.succeeds_iff]
          refine unifyLists_succeeds hlists fun i x y w' k₂ k₃ hx hy hw' => ?_
          exact (ih (hargs x (List.mem_of_getElem? hx)) (hbs y (List.mem_of_getElem? hy)) hw').2
            (hunder i x y hx hy)

end Ty

end LuaTyping
