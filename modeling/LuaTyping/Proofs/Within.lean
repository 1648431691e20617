import LuaTyping.Proofs.Application
import LuaTyping.Proofs.Computation
import LuaTyping.Proofs.Wrapping

set_option autoImplicit false

/-!
# What occurs in types

Many facts about a run say that something never turns up in its types: a variable that is not drawn
yet, a literal of the wrong kind, a quantifier below the outermost ones. They are all of one form. A
*permit* says which variables, literals, keys and checks may occur, and a type is *within* it if
nothing else occurs in it. The operations on types build their results from parts of what they are
given, so they stay within a permit; and a permit also says which faults they can end in.

## Main definitions

* `Permit` — what may occur in types.
* `Ty.Within`, `Subst.Within` — nothing else occurs.
* `Permit.Allows` — the faults that operations on such types can end in.

## Main results

* `Ty.Within.wraps`, `Ty.Within.broaden` — wrapping and broadening stay within.
* `Subst.Within.apply` — so does the application of a substitution,
* `Ty.meetWith_sat`, `Subst.composeWith_sat` — and so do meets and compositions.
-/

namespace LuaTyping

/-- What may occur in types. -/
structure Permit where
  /-- The variables that may occur. -/
  var : String → Prop
  /-- The literal values that a constructor of a given name may have. -/
  literal : String → Literal → Prop
  /-- The types that may be keys of tables. -/
  key : Ty → Prop
  /-- What may be a key may also be one with function results put into tuples. -/
  key_wraps : ∀ k l, key k → k.Wraps l → key l := by exact fun _ _ _ _ => trivial
  /-- Whether what the checks of a type hold counts as occurring in it. -/
  checked : Prop
  /-- The places that checks may be about. -/
  place : Node → Prop
  /-- Whether quantified types may stand inside others. -/
  quantified : Prop

namespace Ty

/-- Nothing occurs in a type but what is permitted. -/
inductive Within (P : Permit) : Ty → Prop
  | var {x : String} : P.var x → Within P (.var x)
  | con {c : String} {args : List Ty} {v : Option Literal} {checks : List Checked} :
      (∀ l, v = some l → P.literal c l) → (∀ a ∈ args, Within P a) →
      (P.checked → ∀ k ∈ checks, P.place k.1) → (P.checked → ∀ k ∈ checks, Within P k.2) →
      Within P (.con c args v checks)
  | table {fields : List (Ty × Ty)} : (∀ f ∈ fields, P.key f.1) → (∀ f ∈ fields, Within P f.1) →
      (∀ f ∈ fields, Within P f.2) → Within P (.table fields)
  | union {left right : Ty} : Within P left → Within P right → Within P (.union left right)
  | all {x : String} {body : Ty} : P.quantified → P.var x → Within P body → Within P (.all x body)

/-- Nothing occurs in the fields of a table but what is permitted. -/
def FieldsWithin (P : Permit) (fields : List (Ty × Ty)) : Prop :=
  ∀ f ∈ fields, P.key f.1 ∧ Within P f.1 ∧ Within P f.2

/-- Nothing occurs in checks but what is permitted. -/
def ChecksWithin (P : Permit) (checks : List Checked) : Prop :=
  P.checked → ∀ k ∈ checks, P.place k.1 ∧ Within P k.2

variable {P : Permit}

@[simp]
lemma within_var_iff {x : String} : Within P (.var x) ↔ P.var x :=
  ⟨fun | .var h => h, .var⟩

@[simp]
lemma within_con_iff {c : String} {args : List Ty} {v : Option Literal} {checks : List Checked} :
    Within P (.con c args v checks) ↔
      (∀ l, v = some l → P.literal c l) ∧ (∀ a ∈ args, Within P a) ∧ ChecksWithin P checks := by
  constructor
  · rintro (_ | ⟨hv, hargs, hplaces, htypes⟩)
    exact ⟨hv, hargs, fun h k hk => ⟨hplaces h k hk, htypes h k hk⟩⟩
  · rintro ⟨hv, hargs, hchecks⟩
    exact .con hv hargs (fun h k hk => (hchecks h k hk).1) fun h k hk => (hchecks h k hk).2

@[simp]
lemma within_table_iff {fields : List (Ty × Ty)} :
    Within P (.table fields) ↔ FieldsWithin P fields := by
  constructor
  · rintro (_ | _ | ⟨hkeys, hks, hvs⟩)
    exact fun f hf => ⟨hkeys f hf, hks f hf, hvs f hf⟩
  · intro h
    exact .table (fun f hf => (h f hf).1) (fun f hf => (h f hf).2.1) fun f hf => (h f hf).2.2

@[simp]
lemma within_union_iff {left right : Ty} :
    Within P (.union left right) ↔ Within P left ∧ Within P right :=
  ⟨fun | .union h₁ h₂ => ⟨h₁, h₂⟩, fun ⟨h₁, h₂⟩ => .union h₁ h₂⟩

@[simp]
lemma within_all_iff {x : String} {body : Ty} :
    Within P (.all x body) ↔ P.quantified ∧ P.var x ∧ Within P body :=
  ⟨fun | .all hq hx hb => ⟨hq, hx, hb⟩, fun ⟨hq, hx, hb⟩ => .all hq hx hb⟩

lemma checksWithin_nil : ChecksWithin P [] := fun _ _ hk => absurd hk List.not_mem_nil

lemma ChecksWithin.append {checks more : List Checked} (h : ChecksWithin P checks)
    (h' : ChecksWithin P more) : ChecksWithin P (checks ++ more) := by
  intro hP k hk
  rcases List.mem_append.1 hk with hk | hk
  · exact h hP k hk
  · exact h' hP k hk

@[simp]
lemma within_plain (c : String) : Within P (plain c) := by
  simp [plain, checksWithin_nil]

@[simp]
lemma within_tuple_iff {args : List Ty} : Within P (.tuple args) ↔ ∀ a ∈ args, Within P a := by
  simp [tuple, checksWithin_nil]

@[simp]
lemma within_function_iff {params result rest : Ty} {v : Option Literal} :
    Within P (.function params result rest v) ↔
      (∀ l, v = some l → P.literal "function" l) ∧
        Within P params ∧ Within P result ∧ Within P rest := by
  simp [function, checksWithin_nil]

lemma FieldsWithin.append {fields more : List (Ty × Ty)} (h : FieldsWithin P fields)
    (h' : FieldsWithin P more) : FieldsWithin P (fields ++ more) := by
  intro f hf
  rcases List.mem_append.1 hf with hf | hf
  · exact h f hf
  · exact h' f hf

/-! ## Wrapping and broadening -/

/-- Putting function results into tuples adds nothing that a permit could forbid. -/
lemma Within.wraps {a b : Ty} (h : Within P a) (hw : Wraps a b) : Within P b := by
  induction hw with
  | refl t => exact h
  | trans _ _ ih₁ ih₂ => exact ih₂ (ih₁ h)
  | arg c before after v checks _ ih =>
    simp only [within_con_iff, List.mem_append, List.mem_cons] at h ⊢
    obtain ⟨hv, hargs, hchecks⟩ := h
    refine ⟨hv, ?_, hchecks⟩
    rintro t (ht | rfl | ht)
    · exact hargs t (.inl ht)
    · exact ih (hargs _ (.inr (.inl rfl)))
    · exact hargs t (.inr (.inr ht))
  | field before after k _ ih =>
    simp only [within_table_iff, FieldsWithin, List.mem_append, List.mem_cons] at h ⊢
    rintro f (hf | rfl | hf)
    · exact h f (.inl hf)
    · obtain ⟨hkey, hk, hv⟩ := h _ (.inr (.inl rfl))
      exact ⟨hkey, hk, ih hv⟩
    · exact h f (.inr (.inr hf))
  | key before after v hw ih =>
    simp only [within_table_iff, FieldsWithin, List.mem_append, List.mem_cons] at h ⊢
    rintro f (hf | rfl | hf)
    · exact h f (.inl hf)
    · obtain ⟨hkey, hk, hv⟩ := h _ (.inr (.inl rfl))
      exact ⟨P.key_wraps _ _ hkey hw, ih hk, hv⟩
    · exact h f (.inr (.inr hf))
  | left right _ ih =>
    rw [within_union_iff] at h ⊢
    exact ⟨ih h.1, h.2⟩
  | right left _ ih =>
    rw [within_union_iff] at h ⊢
    exact ⟨h.1, ih h.2⟩
  | result p r rest v checks _ =>
    simp only [within_con_iff, List.mem_cons, forall_eq_or_imp, within_tuple_iff,
      List.not_mem_nil, false_implies, implies_true, and_true] at h ⊢
    exact h

lemma mem_broadenList {t : Ty} {ts : List Ty} : t ∈ broadenList ts ↔ ∃ u ∈ ts, u.broaden = t := by
  induction ts with
  | nil => simp [broadenList]
  | cons u ts ih => simp [broadenList, ih, eq_comm]

/-- Forgetting literal values stays within a permit. -/
lemma Within.broaden {t : Ty} (h : Within P t) : Within P t.broaden := by
  induction t with
  | var x => exact h
  | con c args v checks ih =>
    rw [within_con_iff] at h
    obtain ⟨_, hargs, hchecks⟩ := h
    rw [Ty.broaden, within_con_iff]
    refine ⟨by simp, ?_, hchecks⟩
    intro b hb
    obtain ⟨a, ha, rfl⟩ := mem_broadenList.1 hb
    exact ih a ha (hargs a ha)
  | table fields _ => exact h
  | union left right ihl ihr =>
    rw [within_union_iff] at h
    exact .union (ihl h.1) (ihr h.2)
  | all x body _ => exact h

end Ty

/-! ## Faults -/

/-- The faults that operations on types within a permit can end in: a quantified type is only met
where it may occur, and a literal of the wrong kind likewise; the operations go deep enough, and an
application that does not end follows bindings in a circle. -/
def Permit.Allows (P : Permit) : Fault → Prop
  | .unknownType _ => P.quantified
  | .wrongKind => ∃ text, P.literal "number" (.text text)
  | .notImplemented _ | .unboundName _ | .endless (c := .depth) => False
  | .endless (c := .bindings bindings t) => (Subst.mk bindings false).Circular t
  | .unmet | .outOfRange | .noComponents => True

/-! ## Application -/

/-- Replacing variables by types within a permit stays within it. -/
lemma Ty.Within.replaceVars {P : Permit} {f : String → Except Fault Ty} {G : Fault → Prop}
    (hf : ∀ x, P.var x → (∀ u, f x = .ok u → Within P u) ∧ ∀ e, f x = .error e → G e)
    (hG : P.quantified → ∀ u, G (.unknownType u)) {t : Ty} (h : Within P t) :
    (∀ u, t.replaceVars f = .ok u → Within P u) ∧ ∀ e, t.replaceVars f = .error e → G e := by
  induction t with
  | var x => exact hf x (within_var_iff.1 h)
  | con c args v checks ih =>
    obtain ⟨hv, hargs, hchecks⟩ := within_con_iff.1 h
    constructor
    · intro u hu
      simp only [Ty.replaceVars, except_bind_eq_ok, replaceVarsList_eq_ok, pure, Except.pure,
        Except.ok.injEq] at hu
      obtain ⟨us, hus, rfl⟩ := hu
      refine within_con_iff.2 ⟨hv, fun b hb => ?_, hchecks⟩
      obtain ⟨a, ha, hab⟩ := exists_left_of_forall₂ hus hb
      exact (ih a ha (hargs a ha)).1 b hab
    · intro e he
      simp only [Ty.replaceVars, except_bind_eq_error, pure, Except.pure, reduceCtorEq, and_false,
        exists_false, or_false] at he
      obtain ⟨a, ha, hae⟩ := replaceVarsList_eq_error he
      exact (ih a ha (hargs a ha)).2 e hae
  | table fields ih =>
    rw [within_table_iff] at h
    constructor
    · intro u hu
      simp only [Ty.replaceVars, except_bind_eq_ok, replaceVarsFields_eq_ok, pure, Except.pure,
        Except.ok.injEq] at hu
      obtain ⟨gs, hgs, rfl⟩ := hu
      refine within_table_iff.2 fun g hg => ?_
      obtain ⟨f, hf, hkey, hfg⟩ := exists_left_of_forall₂ hgs hg
      obtain ⟨hk, hk', hv⟩ := h f hf
      exact hkey ▸ ⟨hk, hk', ((ih f hf).2 hv).1 g.2 hfg⟩
    · intro e he
      simp only [Ty.replaceVars, except_bind_eq_error, pure, Except.pure, reduceCtorEq, and_false,
        exists_false, or_false] at he
      obtain ⟨f, hf, hfe⟩ := replaceVarsFields_eq_error he
      exact ((ih f hf).2 (h f hf).2.2).2 e hfe
  | union left right ihl ihr =>
    rw [within_union_iff] at h
    constructor
    · intro u hu
      simp only [Ty.replaceVars, except_bind_eq_ok, pure, Except.pure, Except.ok.injEq] at hu
      obtain ⟨u₁, hu₁, u₂, hu₂, rfl⟩ := hu
      exact .union ((ihl h.1).1 u₁ hu₁) ((ihr h.2).1 u₂ hu₂)
    · intro e he
      simp only [Ty.replaceVars, except_bind_eq_error, pure, Except.pure, reduceCtorEq, and_false,
        exists_false, or_false] at he
      rcases he with he | ⟨_, _, he⟩
      · exact (ihl h.1).2 e he
      · exact (ihr h.2).2 e he
  | all x body _ =>
    refine ⟨by simp [Ty.replaceVars], fun e he => ?_⟩
    cases he
    exact hG (within_all_iff.1 h).1 _

lemma mem_of_lookup {α : Type} {l : List (String × α)} {x : String} {a : α}
    (h : l.lookup x = some a) : (x, a) ∈ l := by
  obtain ⟨l₁, l₂, rfl, _⟩ := List.lookup_eq_some_iff.1 h
  simp

namespace Subst

/-- Nothing occurs in a substitution but what is permitted. -/
def Within (P : Permit) (s : Subst) : Prop := ∀ b ∈ s.bindings, P.var b.1 ∧ b.2.Within P

variable {P : Permit} {s : Subst}

lemma within_empty : Within P empty := List.forall_mem_nil _

variable {x : String} {t : Ty}

lemma within_single (hx : P.var x) (ht : t.Within P) : Within P (single x t) := by
  intro b hb
  obtain rfl := List.mem_singleton.1 hb
  exact ⟨hx, ht⟩

lemma Within.of_lookup {b : List (String × Ty)} {r : Bool} (h : Within P ⟨b, r⟩)
    (ht : b.lookup x = some t) : t.Within P :=
  (h _ (mem_of_lookup ht)).2

lemma lookup_enter (b : List (String × Ty)) (y : String) :
    (enter x t b).lookup y = if y = x then some t else b.lookup y := by
  induction b with
  | nil => by_cases hyx : y = x <;> simp [enter, List.lookup, hyx, beq_false_of_ne]
  | cons p b ih =>
    obtain ⟨z, u⟩ := p
    by_cases hzx : z = x
    · by_cases hyx : y = x <;> simp [enter, List.lookup, hzx, hyx, beq_false_of_ne]
    · by_cases hyz : y = z <;> simp [enter, List.lookup, hzx, hyz, ih, beq_false_of_ne]

/-- Entering a binding stays within a permit. -/
lemma Within.enter {b : List (String × Ty)} {r r' : Bool} (h : Within P ⟨b, r⟩) (hx : P.var x)
    (ht : t.Within P) : Within P ⟨Subst.enter x t b, r'⟩ := by
  induction b with
  | nil => exact within_single hx ht
  | cons p rest ih =>
    obtain ⟨y, u⟩ := p
    have hhead := h (y, u) (by simp)
    have hrest : ∀ q ∈ rest, P.var q.1 ∧ q.2.Within P := fun q hq => h q (by simp [hq])
    intro q hq
    simp only [Subst.enter] at hq
    split at hq
    · rcases List.mem_cons.1 hq with rfl | hq
      · exact ⟨hhead.1, ht⟩
      · exact hrest q hq
    · rcases List.mem_cons.1 hq with rfl | hq
      · exact hhead
      · exact ih hrest q hq

/-- Applying a substitution stays within a permit. -/
lemma Within.apply (h : Within P s) (ht : t.Within P) :
    (∀ u, s.apply t = .ok u → u.Within P) ∧ ∀ f, s.apply t = .error f → P.Allows f := by
  -- following ends in a fault only at a quantified type or when the bindings are used up
  have hfollow : ∀ (depth : Nat) (v : Ty), v.Within P →
      (∀ u, follow s.bindings t depth v = .ok u → u.Within P) ∧
        ∀ f, follow s.bindings t depth v = .error f → P.quantified ∧ (∃ u, f = .unknownType u) ∨
          f = .endless (c := .bindings s.bindings t) := by
    intro depth
    induction depth with
    | zero =>
      intro v hv
      refine hv.replaceVars (fun x hx => ?_) fun hq u => .inl ⟨hq, u, rfl⟩
      cases hl : s.bindings.lookup x with
      | none => simpa using hx
      | some w => simp
    | succ depth ih =>
      intro v hv
      refine hv.replaceVars (fun x hx => ?_) fun hq u => .inl ⟨hq, u, rfl⟩
      cases hl : s.bindings.lookup x with
      | none => simpa using hx
      | some w => exact ih w (Within.of_lookup (r := s.returning) h hl)
  obtain ⟨hok, herror⟩ := hfollow s.bindings.length t ht
  refine ⟨hok, fun f hf => ?_⟩
  obtain ⟨hq, u, rfl⟩ | rfl := herror f hf
  · exact hq
  · exact circular_of_apply hf

end Subst

/-! ## Meets and compositions -/

namespace Ty

lemma size_pos (t : Ty) : 0 < t.size := by
  cases t <;> simp [size]

lemma exists_succ_of_size_le {t : Ty} {depth : Nat} (h : t.size ≤ depth) : ∃ d, depth = d + 1 :=
  Nat.exists_eq_add_one.2 (lt_of_lt_of_le t.size_pos h)

variable {a : Ty}

lemma size_le_sizeList {args : List Ty} (ha : a ∈ args) : a.size ≤ sizeList args := by
  induction args with
  | nil => simp at ha
  | cons t ts ih =>
    simp only [sizeList]
    rcases List.mem_cons.1 ha with rfl | ha
    · omega
    · have := ih ha
      omega

lemma size_le_sizeFields {f : Ty × Ty} {fields : List (Ty × Ty)} (hf : f ∈ fields) :
    f.1.size + f.2.size ≤ sizeFields fields := by
  induction fields with
  | nil => simp at hf
  | cons g fields ih =>
    simp only [sizeFields]
    rcases List.mem_cons.1 hf with rfl | hf
    · omega
    · have := ih hf
      omega

/-- A test of the keys that may occur ends as promised. -/
def KeysTested (P : Permit) (covers : Covers) (F : Fault → Prop) : Prop :=
  ∀ k l, P.key k → P.key l → Within P k → Within P l → (covers k l).Sat (fun _ => True) F

variable {P : Permit} {covers : Covers} {F : Fault → Prop}

lemma separateFields_sat (hc : KeysTested P covers F) {kept fields : List (Ty × Ty)}
    (hkept : FieldsWithin P kept) (h : FieldsWithin P fields) :
    (separateFields covers kept fields).Sat (FieldsWithin P) F := by
  induction fields generalizing kept with
  | nil => exact .pure hkept
  | cons f rest ih =>
    obtain ⟨k, v⟩ := f
    obtain ⟨hk, hk', hv⟩ := h (k, v) (by simp)
    have hrest : FieldsWithin P rest := fun g hg => h g (by simp [hg])
    simp only [separateFields]
    refine .bind (.anyM fun g hg => hc k g.1 hk (hkept g hg).1 hk' (hkept g hg).2.1) fun b _ => ?_
    split
    · exact ih hkept hrest
    · refine ih (hkept.append fun g hg => ?_) hrest
      obtain rfl := List.mem_singleton.1 hg
      exact ⟨hk, hk', hv⟩

/-- What is known of the meet of two types, if they have one. -/
abbrev MeetWithin (P : Permit) (m : Option Ty) : Prop := ∀ t, m = some t → Within P t

lemma meetLists_sat {meet : Ty → Ty → Naming (Option Ty)} {as bs : List Ty}
    (h : ∀ a ∈ as, ∀ b ∈ bs, (meet a b).Sat (MeetWithin P) F) :
    (meetLists meet as bs).Sat (fun m => ∀ ts, m = some ts → ∀ t ∈ ts, Within P t) F := by
  induction as generalizing bs with
  | nil => exact .pure (by simp)
  | cons a as ih =>
    cases bs with
    | nil => exact .pure (by simp)
    | cons b bs =>
      simp only [meetLists]
      refine .bind (h a (by simp) b (by simp)) fun m hm => ?_
      cases m with
      | none => exact .pure (by simp)
      | some c =>
        refine .bind (ih fun a ha b hb => h a (by simp [ha]) b (by simp [hb])) fun ms hms => ?_
        cases ms with
        | none => exact .pure (by simp)
        | some cs =>
          refine .pure fun ts hts => ?_
          cases hts
          simpa using ⟨hm c rfl, hms cs rfl⟩

/-- The meet with the first alternative of a union that has one. -/
def meetEither (covers : Covers) (depth : Nat) (t left right : Ty) : Naming (Option Ty) := do
  match ← meetTo covers depth t left with
  | some u => return some u
  | none => meetTo covers depth t right

/-- A meet stays within a permit, and goes deep enough. -/
lemma meetTo_sat (hc : KeysTested P covers F) (depth : Nat) {b : Ty} (ha : Within P a)
    (hb : Within P b) (hdepth : a.size + b.size ≤ depth) :
    (meetTo covers depth a b).Sat (MeetWithin P) F := by
  induction depth generalizing a b with
  | zero =>
    have := a.size_pos
    omega
  | succ depth ih =>
    have hsome : ∀ {t : Ty}, Within P t → MeetWithin P (some t) :=
      fun ht _ h => Option.some.inj h ▸ ht
    have hnone : MeetWithin P none := fun _ h => nomatch h
    -- against a union, the first alternative that has a meet decides
    have hunion : ∀ {t left right : Ty}, Within P t → Within P (.union left right) →
        t.size + (Ty.union left right).size ≤ depth + 1 →
        (meetEither covers depth t left right).Sat (MeetWithin P) F := by
      intro t left right ht hu hsize
      rw [within_union_iff] at hu
      simp only [size] at hsize
      refine .bind (ih ht hu.1 (by omega)) fun m hm => ?_
      cases m with
      | none => exact ih ht hu.2 (by omega)
      | some u => exact .pure hm
    rw [meetTo.eq_def]
    simp only
    split
    · exact .pure (hsome hb)
    · exact .pure (hsome ha)
    · exact hunion ha hb hdepth
    · exact hunion hb ha (by omega)
    · refine .bind (separateFields_sat hc (List.forall_mem_nil _)
        ((within_table_iff.1 ha).append (within_table_iff.1 hb))) fun fields hfields => ?_
      exact .pure (hsome (within_table_iff.2 hfields))
    · obtain ⟨hv, hargs, hchecks⟩ := within_con_iff.1 ha
      obtain ⟨_, hbrgs, hmore⟩ := within_con_iff.1 hb
      simp only [size] at hdepth
      split
      · refine .bind (meetLists_sat (P := P) fun a' ha' b' hb' => ?_) fun ms hms => ?_
        · have := size_le_sizeList ha'
          have := size_le_sizeList hb'
          exact ih (hargs a' ha') (hbrgs b' hb') (by omega)
        · cases ms with
          | none => exact .pure hnone
          | some args =>
            exact .pure (hsome (within_con_iff.2 ⟨hv, hms args rfl, hchecks.append hmore⟩))
      · exact .pure hnone
    · exact .pure hnone

lemma meetWith_sat (hc : KeysTested P covers F) {b : Ty} (ha : Within P a) (hb : Within P b) :
    (meetWith covers a b).Sat (MeetWithin P) F :=
  meetTo_sat hc _ ha hb le_rfl

end Ty

namespace Subst

variable {P : Permit} {covers : Covers} {F : Fault → Prop}

lemma composeBindings_sat (hc : Ty.KeysTested P covers F) (hF : ∀ f, P.Allows f → F f) {s : Subst}
    (hs : Within P s) {known more : List (String × Ty)} {r : Bool}
    (hknown : Within P ⟨known, r⟩) (hmore : Within P ⟨more, r⟩) :
    (composeBindings covers s known more).Sat (fun b => Within P ⟨b, r⟩) F := by
  induction more generalizing known with
  | nil => exact .pure hknown
  | cons p rest ih =>
    obtain ⟨x, t⟩ := p
    obtain ⟨hx, ht⟩ := hmore (x, t) (by simp)
    have hrest : Within P ⟨rest, r⟩ := fun q hq => hmore q (by simp_all)
    simp only [composeBindings]
    split
    · rename_i u hu
      refine .bind (Ty.meetWith_sat hc ht (hknown.of_lookup hu)) fun m hm => ?_
      cases m with
      | none => exact .throw (hF _ trivial)
      | some m => exact ih (hknown.enter hx (hm m rfl)) hrest
    · refine .bind (.ofExcept (hs.apply ht).1 fun f hf => hF f ((hs.apply ht).2 f hf))
        fun u hu => ?_
      exact ih (hknown.enter hx hu) hrest

lemma composeWith_sat (hc : Ty.KeysTested P covers F) (hF : ∀ f, P.Allows f → F f) {s t : Subst}
    (hs : Within P s) (ht : Within P t) : (composeWith covers s t).Sat (Within P) F :=
  .bind (composeBindings_sat (r := false) hc hF hs hs ht) fun _ hb => .pure hb

/-- What unification can find: nothing occurs in it but what is permitted, and it does not say that
code has returned. -/
structure Found (P : Permit) (s : Subst) : Prop where
  within : s.Within P
  ongoing : s.returning = false

lemma found_empty : Found P empty := ⟨within_empty, rfl⟩

lemma found_single {x : String} {t : Ty} (hx : P.var x) (ht : t.Within P) : Found P (single x t) :=
  ⟨within_single hx ht, rfl⟩

lemma composeWith_found (hc : Ty.KeysTested P covers F) (hF : ∀ f, P.Allows f → F f) {s t : Subst}
    (hs : Found P s) (ht : Found P t) : (composeWith covers s t).Sat (Found P) F :=
  .bind (composeBindings_sat (r := false) hc hF hs.within hs.within ht.within) fun _ hb =>
    .pure ⟨hb, Bool.or_eq_false_iff.2 ⟨hs.ongoing, ht.ongoing⟩⟩

end Subst

end LuaTyping
