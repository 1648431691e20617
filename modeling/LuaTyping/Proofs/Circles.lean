import LuaTyping.Proofs.SchemeInstances
import LuaTyping.Proofs.Within

set_option autoImplicit false

/-!
# Applications that come to an end

A substitution is applied by following its bindings, from variable to variable, until none is bound.
The keys of tables are not followed, so only circles among open variables matter: an application
comes to an end exactly if no open variable leads into one, and then as many bindings as there are
suffice. What it gives is complete, since nothing in it is bound any more.

## Main definitions

* `Ty.fill` — a type with types in place of its open variables.

## Main results

* `Subst.apply_ends_iff_not_circular` — both facts, and that no depth would do for a
  circle.
-/

namespace LuaTyping

/-- Anything may occur in types but quantifiers. -/
def Permit.unquantified : Permit where
  var _ := True
  literal _ _ := True
  key _ := True
  checked := False
  place _ := True
  quantified := False

namespace Ty

variable {t : Ty}

/-- The types without quantifiers are those that stay within a permit. -/
lemma mono_iff_within : t.Mono ↔ t.Within .unquantified := by
  constructor
  · intro h
    induction h with
    | var x => exact .var trivial
    | con _ _ _ _ ih => exact .con (fun _ _ => trivial) ih False.elim False.elim
    | table _ _ ihk ihv => exact .table (fun _ _ => trivial) ihk ihv
    | union _ _ ihl ihr => exact .union ihl ihr
  · intro h
    induction h with
    | var _ => exact .var _
    | con _ _ _ _ ih _ => exact .con _ _ _ ih
    | table _ _ _ ihk ihv => exact .table ihk ihv
    | union _ _ ihl ihr => exact .union ihl ihr
    | all hq => exact hq.elim

/-! ## Filling in types -/

mutual

/-- A type with types in place of its open variables. -/
@[simp]
def fill (g : String → Ty) : Ty → Ty
  | .var x => g x
  | .con c args v checks => .con c (fillList g args) v checks
  | .table fields => .table (fillFields g fields)
  | .union left right => .union (left.fill g) (right.fill g)
  | .all x body => .all x body

/-- Some types with types in place of their open variables. -/
def fillList (g : String → Ty) : List Ty → List Ty
  | [] => []
  | t :: ts => t.fill g :: fillList g ts

/-- Some fields with types in place of the open variables of their values. -/
def fillFields (g : String → Ty) : List (Ty × Ty) → List (Ty × Ty)
  | [] => []
  | (k, v) :: rest => (k, v.fill g) :: fillFields g rest

end

variable {g : String → Ty}

lemma fillList_eq_map (ts : List Ty) : fillList g ts = ts.map (fill g) := by
  induction ts with
  | nil => rfl
  | cons t ts ih => rw [fillList, ih, List.map_cons]

lemma fillFields_eq_map (fields : List (Ty × Ty)) :
    fillFields g fields = fields.map fun e => (e.1, e.2.fill g) := by
  induction fields with
  | nil => rfl
  | cons e fields ih => rw [fillFields, ih, List.map_cons]

lemma fill_var (t : Ty) : t.fill .var = t := by
  induction t with
  | con c args v checks ih =>
    rw [fill, fillList_eq_map, List.map_congr_left ih, List.map_id']
  | table fields ih =>
    have hfields : fields.map (fun e => (e.1, e.2.fill .var)) = fields.map id :=
      List.map_congr_left fun e he => by rw [(ih e he).2]; rfl
    rw [fill, fillFields_eq_map, hfields, List.map_id]
  | union left right ihl ihr => rw [fill, ihl, ihr]
  | var | all => rfl

/-- A replacement of variables that does not fail fills in what it gives for them. -/
lemma Mono.replaceVars_eq_fill (ht : t.Mono) {r : String → Except Fault Ty}
    (hr : ∀ x ∈ t.openVars, r x = .ok (g x)) : t.replaceVars r = .ok (t.fill g) := by
  induction ht with
  | var x => exact hr x (by simp [openVars])
  | con c v checks _ ih =>
    have hargs := replaceVarsList_eq_ok.2 (List.forall₂_map_right_iff.2 (List.forall₂_same.2
      fun a ha => ih a ha fun x hx => hr x (mem_openVarsList.2 ⟨a, ha, hx⟩)))
    simp only [replaceVars, hargs, fill, fillList_eq_map]
    rfl
  | table _ _ _ ih =>
    have hfields := replaceVarsFields_eq_ok.2 (List.forall₂_map_right_iff (f := fun e =>
      (e.1, e.2.fill g)).2 (List.forall₂_same.2 fun e he =>
        ⟨rfl, ih e he fun x hx => hr x (mem_openVarsFields.2 ⟨e, he, hx⟩)⟩))
    simp only [replaceVars, hfields, fill, fillFields_eq_map]
    rfl
  | union _ _ ihl ihr =>
    simp only [openVars, List.mem_append] at hr
    simp only [replaceVars, ihl fun x hx => hr x (.inl hx), ihr fun x hx => hr x (.inr hx)]
    rfl

/-- Variables that are replaced by themselves leave a type without quantifiers as it is. -/
lemma Mono.replaceVars_self (ht : t.Mono) {f : String → Except Fault Ty}
    (hf : ∀ x ∈ t.openVars, f x = .ok (.var x)) : t.replaceVars f = .ok t :=
  (ht.replaceVars_eq_fill hf).trans (congrArg _ (fill_var t))

end Ty

namespace Subst

variable {s : Subst} {t u : Ty}
variable {origin : Ty} {depth : Nat}

/-- Types without quantifiers can be followed without a fault, except for being cut off. -/
lemma follow_mono {bindings : List (String × Ty)} (hb : ∀ b ∈ bindings, b.2.Mono) (ht : t.Mono) :
    (∀ u, follow bindings origin depth t = .ok u → u.Mono) ∧
      ∀ e, follow bindings origin depth t = .error e →
        e = .endless (c := .bindings bindings origin) := by
  simp only [Ty.mono_iff_within] at hb ht ⊢
  induction depth generalizing t with
  | zero =>
    refine ht.replaceVars (fun x hx => ?_) False.elim
    cases hl : bindings.lookup x with
    | none => simp [Permit.unquantified]
    | some w => simp
  | succ depth ih =>
    refine ht.replaceVars (fun x hx => ?_) False.elim
    cases hl : bindings.lookup x with
    | none => simp [Permit.unquantified]
    | some w => exact ih (hb _ (mem_of_lookup hl))

/-- What following ends with, however deep it goes, was not reached through a circle. -/
lemma not_circular_of_follow (h : follow s.bindings origin depth t = .ok u) : ¬s.Circular t := by
  induction depth generalizing t u with
  | zero =>
    rintro ⟨x, hx, y, hxy, hyy⟩
    obtain ⟨z, ⟨w, hw, -⟩, -⟩ :=
      Relation.TransGen.head'_iff.1 (Relation.TransGen.trans_right hxy hyy)
    have hl : s.bindings.lookup x = some w := hw
    obtain ⟨v, hv⟩ := Ty.exists_ok_of_mem_openVars h hx
    simp [hl] at hv
  | succ depth ih =>
    rintro ⟨x, hx, y, hxy, hyy⟩
    -- the way from `x` into the circle has a first step, and goes on from what `x` is bound to
    obtain ⟨z, ⟨w, hw, hz⟩, hzy⟩ :=
      Relation.TransGen.head'_iff.1 (Relation.TransGen.trans_right hxy hyy)
    have hl : s.bindings.lookup x = some w := hw
    obtain ⟨v, hv⟩ := Ty.exists_ok_of_mem_openVars h hx
    simp only [hl] at hv
    exact ih hv ⟨z, hz, y, hzy, hyy⟩

lemma exists_apply_iff (ht : t.Mono) (hs : ∀ b ∈ s.bindings, b.2.Mono) :
    (∃ u, s.apply t = .ok u) ↔ ¬s.Circular t := by
  refine ⟨fun ⟨u, hu⟩ => not_circular_of_follow hu, fun hcircle => ?_⟩
  cases hu : s.apply t with
  | ok u => exact ⟨u, rfl⟩
  | error e =>
    obtain rfl := (follow_mono hs ht).2 e hu
    exact absurd (circular_of_apply hu) hcircle

lemma follow_of_resolves {bindings : List (String × Ty)} (ht : t.Mono)
    (h : ∀ x ∈ t.openVars, bindings.lookup x = none) : follow bindings origin depth t = .ok t := by
  cases depth with
  | zero => exact ht.replaceVars_self fun x hx => by simp [h x hx]
  | succ depth => exact ht.replaceVars_self fun x hx => by simp [h x hx]

lemma apply_of_resolves (ht : t.Mono) (h : s.Resolves t) : s.apply t = .ok t :=
  follow_of_resolves ht h

/-- Without quantifiers, an application comes to an end exactly if no open variable leads into a
circle; following a circle is cut off at every depth. What an application gives has no open variable
that is bound, and is not changed by another application. -/
theorem apply_ends_iff_not_circular (ht : t.Mono) (hs : ∀ b ∈ s.bindings, b.2.Mono) :
    ((∃ u, s.apply t = .ok u) ↔ ¬s.Circular t) ∧
      (s.Circular t → ∀ depth, follow s.bindings t depth t =
        .error (.endless (c := .bindings s.bindings t))) ∧
      ∀ u, s.apply t = .ok u → s.Resolves u ∧ s.apply u = .ok u := by
  refine ⟨exists_apply_iff ht hs, fun hcircle depth => ?_, fun u hu => ?_⟩
  · cases hu : follow s.bindings t depth t with
    | ok u => exact absurd hcircle (not_circular_of_follow hu)
    | error e => rw [(follow_mono hs ht).2 e hu]
  · have hu' := apply_resolves hu
    exact ⟨hu', apply_of_resolves ((follow_mono hs ht).1 u hu) hu'⟩

/-- Bindings that lead back to `a` only through the key of a table. -/
def keyCircle : Subst :=
  ⟨[("a", .table [(.var "a", .var "b")]), ("b", .plain "number")], false⟩

/-- A key that leads back is not followed, so there is no circle. -/
theorem apply_ends_keyCircle :
    ¬keyCircle.Circular (.union (.var "a") (.var "c")) ∧
      ∃ u, keyCircle.apply (.union (.var "a") (.var "c")) = .ok u ∧ keyCircle.Resolves u ∧
        keyCircle.apply u = .ok u := by
  have hmono : ∀ b ∈ keyCircle.bindings, b.2.Mono := by
    simp only [keyCircle, List.mem_cons, List.not_mem_nil, or_false, forall_eq_or_imp, forall_eq]
    exact ⟨.table (by simp [Ty.Mono.var]) (by simp [Ty.Mono.var]), .con _ _ _ (by simp)⟩
  obtain ⟨hends, -, hdone⟩ :=
    apply_ends_iff_not_circular (.union (.var "a") (.var "c")) hmono
  have hu : keyCircle.apply (.union (.var "a") (.var "c")) =
      .ok (.union (.table [(.var "a", .plain "number")]) (.var "c")) := rfl
  exact ⟨hends.1 ⟨_, hu⟩, _, hu, hdone _ hu⟩

end Subst

end LuaTyping
