import LuaTyping.Proofs.Kinds
import LuaTyping.Proofs.SchemeInstances

set_option autoImplicit false

/-!
# What unification binds

Unification invents nothing. Of two types without quantifiers, it binds only variables that occur in
them, to types whose variables occur in them, and it never says that code has returned. So if the
types are closed, a substitution that it returns is empty. It may also break off: where `boolean` is
to be unified with the literal type `true`, this takes the place of a failure.

## Main definitions

* `Unified.Unbinding` — the empty substitution, or a failure.

## Main results

* `unify_invents_nothing` — it binds no others, and none if the types are closed.
-/

namespace LuaTyping

/-- Only certain variables may occur, and no quantifiers. What checks hold does not count. -/
def Permit.over (names : List String) : Permit where
  var x := x ∈ names
  literal _ _ := True
  key _ := True
  checked := False
  place _ := True
  quantified := False

/-- A unification gives the empty substitution or a failure. -/
def Unified.Unbinding (u : Unified) : Prop := u.outcome = .ok .empty ∨ ∃ m, u.outcome = .error m

variable {a b : Ty}

lemma Ty.Mono.within_over {t : Ty} {names : List String} (ht : t.Mono)
    (hnames : t.freeVars ⊆ names) : t.Within (.over names) := by
  induction ht with
  | var x => exact .var (hnames (List.mem_singleton_self x))
  | con c v checks _ ih =>
    refine within_con_iff.2 ⟨fun _ _ => trivial, fun a ha => ?_, False.elim⟩
    exact ih a ha fun x hx => hnames (mem_freeVarsList.2 ⟨a, ha, hx⟩)
  | table _ _ ihk ihv =>
    refine within_table_iff.2 fun f hf =>
      ⟨trivial, ihk f hf fun x hx => ?_, ihv f hf fun x hx => ?_⟩
    · exact hnames (mem_freeVarsFields.2 ⟨f, hf, .inl hx⟩)
    · exact hnames (mem_freeVarsFields.2 ⟨f, hf, .inr hx⟩)
  | union _ _ ihl ihr =>
    obtain ⟨hleft, hright⟩ := List.append_subset.1 hnames
    exact .union (ihl hleft) (ihr hright)

lemma unify_found (ha : a.Mono) (hb : b.Mono) : (unify a b).Sat
    (fun u => ∀ s, u.outcome = .ok s → s.Found (.over (a.freeVars ++ b.freeVars)))
    (Permit.over (a.freeVars ++ b.freeVars)).Allows :=
  (unify_sat (ha.within_over (List.subset_append_left _ _))
    (hb.within_over (List.subset_append_right _ _))).imp (fun _ hu => hu.subst) fun _ hf => hf

lemma Subst.Found.eq_empty {s : Subst} (h : s.Found (.over [])) : s = .empty := by
  have hbindings : s.bindings = [] :=
    List.eq_nil_iff_forall_not_mem.2 fun p hp => List.not_mem_nil (h.within p hp).1
  rcases s with ⟨bindings, returning⟩
  exact congrArg₂ Subst.mk hbindings h.ongoing

/-- Of two closed types, unification gives the empty substitution or a failure where it does not
break off. -/
lemma unify_unbinding (ha : a.Mono) (hb : b.Mono) (hclosed : a.freeVars = [] ∧ b.freeVars = []) :
    (unify a b).Sat Unified.Unbinding (Permit.over []).Allows := by
  have hfound := unify_found ha hb
  rw [hclosed.1, hclosed.2] at hfound
  refine hfound.imp (fun u hu => ?_) fun _ hf => hf
  rcases hout : u.outcome with m | s
  · exact .inr ⟨m, hout⟩
  · exact .inl (hout.trans (congrArg Except.ok (hu s hout).eq_empty))

lemma Ty.Simple.freeVars_eq_nil {t : Ty} (h : t.Simple) : t.freeVars = [] := by
  induction h with
  | con _ _ ih =>
    refine List.eq_nil_iff_forall_not_mem.2 fun x hx => ?_
    obtain ⟨a, ha, hxa⟩ := mem_freeVarsList.1 hx
    exact List.not_mem_nil (ih a ha ▸ hxa)
  | union _ _ ihl ihr => rw [Ty.freeVars, ihl, ihr, List.append_nil]

/-- Unification binds only variables that occur in the two types, to types whose variables occur in
them, and never says that code has returned. Of closed types it gives the empty substitution or a
failure where it does not break off, and it does not if `true` occurs neither in the second of two
simple types nor in the arguments of constructors of the first. -/
theorem unify_invents_nothing (ha : a.Mono) (hb : b.Mono) :
    (∀ k u s k', outcome (unify a b) k = (.ok u, k') → u.outcome = .ok s →
      (∀ p ∈ s.bindings, p.1 ∈ a.freeVars ++ b.freeVars ∧
        p.2.freeVars ⊆ a.freeVars ++ b.freeVars) ∧ s.returning = false) ∧
    (a.freeVars = [] ∧ b.freeVars = [] → ∀ k u k', outcome (unify a b) k = (.ok u, k') →
      u.Unbinding) ∧
    (a.Simple ∧ a.TruelessArgs → b.Simple ∧ b.Trueless →
      ∀ k, ∃ u k', outcome (unify a b) k = (.ok u, k') ∧ u.Unbinding) := by
  refine ⟨fun k u s k' h hs => ?_, fun hclosed k u k' h => ?_, fun hsimple htrueless k => ?_⟩
  · have hfound : s.Found (.over (a.freeVars ++ b.freeVars)) := (unify_found ha hb).of_eq_ok h s hs
    refine ⟨fun p hp => ?_, hfound.ongoing⟩
    obtain ⟨hname, htype⟩ := hfound.within p hp
    exact ⟨hname, htype.freeVars⟩
  · exact (unify_unbinding ha hb hclosed).of_eq_ok h
  · obtain ⟨u, k', hu, -⟩ :=
      (Ty.unify_unchanged hsimple.1 hsimple.2 htrueless.1 htrueless.2).exists_ok k
    have hclosed := And.intro hsimple.1.freeVars_eq_nil htrueless.1.freeVars_eq_nil
    exact ⟨u, k', hu, (unify_unbinding ha hb hclosed).of_eq_ok hu⟩

lemma Ty.mono_plain (c : String) : (Ty.plain c).Mono := .con c none [] (List.forall_mem_nil _)

/-- The pair `(a, nil)` with a variable and the pair `(string, b)` with another one, and closed
types. -/
theorem unify_invents_nothing_pairs :
    let a : Ty := .tuple [.var "a", .nil]
    let b : Ty := .tuple [.string, .var "b"]
    (∃ u s k', outcome (unify a b) [] = (.ok u, k') ∧ u.outcome = .ok s ∧
      s.bindings = [("b", .nil)] ∧
      (∀ p ∈ s.bindings, p.1 ∈ ["a", "b"] ∧ p.2.freeVars ⊆ ["a", "b"]) ∧ s.returning = false) ∧
    ∃ u k', outcome (unify .string (.union .nil .string)) [] = (.ok u, k') ∧ u.Unbinding := by
  intro a b
  have ha : a.Mono := .con _ _ _ (by simp [Ty.Mono.var, Ty.mono_plain, Ty.nil])
  have hb : b.Mono := .con _ _ _ (by simp [Ty.Mono.var, Ty.mono_plain, Ty.string])
  have hunify : outcome (unify a b) [] = (.ok ⟨.ok ⟨[("b", .nil)], false⟩, a, b⟩, []) := rfl
  refine ⟨⟨_, _, _, hunify, rfl, rfl, (unify_invents_nothing ha hb).1 _ _ _ _ hunify rfl⟩, ?_⟩
  have hregular : ∀ c, c ≠ "function" → (Ty.plain c).Simple ∧ (Ty.plain c).Trueless :=
    fun c hc => ⟨.con hc (by simp), .con (by simp) (by simp) (by simp)⟩
  have hstring := hregular "string" (by decide)
  have hnil := hregular "nil" (by decide)
  exact (unify_invents_nothing (Ty.mono_plain _) (.union (Ty.mono_plain _) (Ty.mono_plain _))).2.2
    ⟨hstring.1, hstring.2.args⟩ ⟨.union hnil.1 hstring.1, .union hnil.2 hstring.2⟩ []

/-- The unification of `boolean` with `true` breaks off, though both are closed. -/
theorem unify_boolean_true_breaks_off :
    let a : Ty := .boolean
    let b : Ty := .literal "boolean" (.flag true)
    (a.Mono ∧ b.Mono) ∧ (a.freeVars = [] ∧ b.freeVars = []) ∧
      ∀ k, outcome (unify a b) k = (.error .unmet, k) :=
  ⟨⟨Ty.mono_plain _, .con _ _ _ (List.forall_mem_nil _)⟩, ⟨rfl, rfl⟩, fun _ => rfl⟩

end LuaTyping
