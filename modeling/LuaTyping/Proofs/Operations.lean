import LuaTyping.Proofs.Unification
import LuaTyping.Types.Join

set_option autoImplicit false

/-!
# What operations on types can come to

Unification, the text of a type, meets, joins, differences and compositions of substitutions stay
within a permit, and end only in the faults that it allows. In particular none of them is cut off:
the depth that each one starts with suffices.

For unification and the text of a type the second part has an argument of its own. Their steps go
down into types, which takes bulk away, except that keys of tables are compared anew. But a key is
part of one of the given types, so its bulk is bounded, and tables are nested in it less often than
in the type that it comes from. With bulk at most `m` for a pair of keys and tables nested at most
`n` times in keys, `m + 1` steps for each nesting suffice.

## Main results

* `unify_sat`, `Ty.render_sat`, `Ty.fits_sat`,
  `Ty.meet_sat`, `Ty.join_sat`, `Ty.subtract_sat`,
  `Subst.compose_sat` — what the operations come to.
-/

namespace LuaTyping

/-! ## Staying within a permit -/

/-- To any depth, unification and the text of a type stay within a permit. -/
lemma unifyTo_renderTo_sat {P : Permit} (depth : Nat) :
    (∀ a b : Ty, a.Within P → b.Within P → (unifyTo depth a b).Sat (Unified.Of P a b)
      fun f => P.Allows f ∨ f = .endless (c := .depth)) ∧
    ∀ t : Ty, t.Within P → (renderTo depth t).Sat (fun _ => True)
      fun f => P.Allows f ∨ f = .endless (c := .depth) := by
  induction depth with
  | zero => exact ⟨fun _ _ _ _ => .throw (.inr rfl), fun _ _ => .throw (.inr rfl)⟩
  | succ depth ih =>
    obtain ⟨hu, hr⟩ := ih
    constructor
    · intro a b ha hb
      refine unifyStep_sat (fun a b ha hb _ => hu a b ha hb) (fun t ht _ => hr t ht) ?_
        (fun _ => .inl) ha hb
      exact fun k l _ _ hk hl => fitsBy_sat (hu k l hk hl)
    · intro t ht
      exact renderStep_sat (fun a b ha hb _ => hu a b ha hb) (fun t ht _ => hr t ht)
        (fun _ => .inl) ht

/-! ## Going deep enough -/

/-- Types with keys of bulk at most `m`, in which tables are nested in keys at most as often as
given. -/
def Permit.nested (m : Nat) : Nat → Permit
  | 0 => ⟨fun _ => True, fun _ _ => True, fun _ => False, fun _ _ h _ => h, False,
      fun _ => True, True⟩
  | n + 1 => ⟨fun _ => True, fun _ _ => True, fun k => k.bulk ≤ m ∧ k.Within (nested m n),
      fun _ _ h hw => ⟨hw.bulk_eq ▸ h.1, h.2.wraps hw⟩, False, fun _ => True, True⟩

lemma Permit.nested_var (m n : Nat) (x : String) : (nested m n).var x := by
  cases n <;> trivial

lemma Permit.nested_literal (m n : Nat) (c : String) (v : Literal) : (nested m n).literal c v := by
  cases n <;> trivial

lemma Permit.nested_checked (m n : Nat) : ¬ (nested m n).checked := by
  cases n <;> exact id

lemma Permit.nested_quantified (m n : Nat) : (nested m n).quantified := by
  cases n <;> trivial

/-- Bulk and nesting of a type are bounded by its bulk and its size. -/
lemma Ty.within_nested {m : Nat} (t : Ty) {n : Nat} (hm : t.bulk ≤ m) (hn : t.size ≤ n) :
    t.Within (.nested m n) := by
  induction t generalizing n with
  | var x => exact .var (Permit.nested_var m n x)
  | con c args v checks ih =>
    refine within_con_iff.2 ⟨fun l _ => Permit.nested_literal m n c l, fun a ha => ?_,
      fun h => absurd h (Permit.nested_checked m n)⟩
    simp only [size] at hn
    have := bulk_le_bulkList ha
    have := bulkList_lt_bulk c args v checks
    have := size_le_sizeList ha
    exact ih a ha (by omega) (by omega)
  | table fields ih =>
    refine within_table_iff.2 fun f hf => ?_
    simp only [bulk, size] at hm hn
    have hbulk := bulk_le_bulkFields hf
    have hsize := size_le_sizeFields hf
    obtain ⟨ihk, ihv⟩ := ih f hf
    refine ⟨?_, ihk (by omega) (by omega), ihv (by omega) (by omega)⟩
    -- a table has a field, so its size leaves room for the nesting in the key
    cases n with
    | zero => omega
    | succ n => exact ⟨by omega, ihk (by omega) (by omega)⟩
  | union left right ihl ihr =>
    simp only [bulk, size] at hm hn
    exact .union (ihl (by omega) (by omega)) (ihr (by omega) (by omega))
  | all x body ih =>
    simp only [bulk, size] at hm hn
    exact .all (Permit.nested_quantified m n) (Permit.nested_var m n x)
      (ih (by omega) (by omega))

/-- A depth above the bulk at hand, and `2 * m + 1` for each nesting, suffices. -/
lemma unifyTo_renderTo_deep (m depth : Nat) :
    ∀ n, (∀ a b : Ty, a.Within (.nested m n) → b.Within (.nested m n) →
      a.bulk + b.bulk + n * (2 * m + 1) < depth →
      (unifyTo depth a b).Sat (Unified.Of (.nested m n) a b) (· ≠ .endless (c := .depth))) ∧
    ∀ t : Ty, t.Within (.nested m n) → t.bulk + n * (2 * m + 1) < depth →
      (renderTo depth t).Sat (fun _ => True) (· ≠ .endless (c := .depth)) := by
  induction depth with
  | zero => exact fun n => ⟨fun _ _ _ _ h => absurd h (Nat.not_lt_zero _),
      fun _ _ h => absurd h (Nat.not_lt_zero _)⟩
  | succ depth ih =>
    intro n
    obtain ⟨hu, hr⟩ := ih n
    have hF : ∀ f, (Permit.nested m n).Allows f → f ≠ .endless (c := .depth) := by
      rintro f hf rfl
      exact hf
    constructor
    · intro a b ha hb hdepth
      refine unifyStep_sat (fun a' b' ha' hb' hlt => hu a' b' ha' hb' (by omega))
        (fun t ht hlt => hr t ht (by omega)) ?_ hF ha hb
      -- keys are compared with the depth that one nesting less leaves
      intro k l hk hl _ _
      cases n with
      | zero => exact hk.elim
      | succ n =>
        obtain ⟨hk, hk'⟩ := hk
        obtain ⟨hl, hl'⟩ := hl
        refine fitsBy_sat ((ih n).1 k l hk' hl' ?_)
        rw [Nat.succ_mul] at hdepth
        omega
    · intro t ht hdepth
      exact renderStep_sat (fun a' b' ha' hb' hlt => hu a' b' ha' hb' (by omega))
        (fun t' ht' hlt => hr t' ht' (by omega)) hF ht

lemma lt_depthFor (s : Nat) : 2 * s + s * (2 * (2 * s) + 1) < depthFor s := by
  unfold depthFor
  nlinarith

/-! ## The operations -/

section Operations

variable {P : Permit}

/-- What is allowed or cut off, and is not cut off, is allowed. -/
private lemma allows_of_ne {f : Fault}
    (h : (P.Allows f ∨ f = .endless (c := .depth)) ∧ f ≠ .endless (c := .depth)) : P.Allows f :=
  h.1.resolve_right h.2

/-- Unification stays within a permit. -/
theorem unify_sat {a b : Ty} (ha : a.Within P) (hb : b.Within P) :
    (unify a b).Sat (Unified.Of P a b) P.Allows := by
  have hdeep : (unify a b).Sat (fun _ => True) (· ≠ .endless (c := .depth)) := by
    have := a.bulk_le_size
    have := b.bulk_le_size
    have := lt_depthFor (a.size + b.size)
    refine ((unifyTo_renderTo_deep (2 * (a.size + b.size)) _ (a.size + b.size)).1 a b
      (a.within_nested (by omega) (by omega)) (b.within_nested (by omega) (by omega)) ?_).imp
      (fun _ _ => trivial) fun _ => id
    omega
  exact (((unifyTo_renderTo_sat _).1 a b ha hb).and hdeep).imp (fun _ => And.left)
    fun _ => allows_of_ne

namespace Ty

/-- The text of a type stays within a permit. -/
theorem render_sat {t : Ty} (ht : t.Within P) : t.render.Sat (fun _ => True) P.Allows := by
  have hdeep : t.render.Sat (fun _ => True) (· ≠ .endless (c := .depth)) := by
    have := t.bulk_le_size
    have := lt_depthFor t.size
    refine (unifyTo_renderTo_deep (2 * t.size) _ t.size).2 t
      (t.within_nested (by omega) (by omega)) ?_
    omega
  exact (((unifyTo_renderTo_sat _).2 t ht).and hdeep).imp (fun _ => And.left) fun _ => allows_of_ne

lemma fits_sat {a b : Ty} (ha : a.Within P) (hb : b.Within P) :
    (a.fits b).Sat (fun _ => True) P.Allows :=
  fitsBy_sat (unify_sat ha hb)

lemma keysTested_fits : KeysTested P fits P.Allows := fun _ _ _ _ hk hl => fits_sat hk hl

lemma meet_sat {a b : Ty} (ha : a.Within P) (hb : b.Within P) :
    (a.meet b).Sat (MeetWithin P) P.Allows :=
  meetWith_sat keysTested_fits ha hb

end Ty

lemma Subst.compose_sat {s t : Subst} (hs : s.Within P) (ht : t.Within P) :
    (s.compose t).Sat (Subst.Within P) P.Allows :=
  composeWith_sat Ty.keysTested_fits (fun _ => id) hs ht

/-! ## Joins and differences -/

lemma lastCovering_sat {k : Ty} (hk : k.Within P) {found : Option Ty} {fields : List (Ty × Ty)}
    (h : Ty.FieldsWithin P fields) :
    (lastCovering k found fields).Sat
      (fun r => ∀ t, r = some t → found = some t ∨ ∃ f ∈ fields, f.2 = t) P.Allows := by
  induction fields generalizing found with
  | nil => exact .pure fun _ ht => .inl ht
  | cons f rest ih =>
    obtain ⟨l, v⟩ := f
    have hrest : Ty.FieldsWithin P rest := fun g hg => h g (by simp [hg])
    refine .bind (Ty.fits_sat hk (h (l, v) (by simp)).2.1) fun b _ => .ite (fun _ => ?_) fun _ => ?_
    · refine (ih hrest).imp (fun r hr t ht => ?_) fun _ => id
      rcases hr t ht with heq | ⟨f, hf, hft⟩
      · exact .inr ⟨(l, v), by simp, Option.some.inj heq⟩
      · exact .inr ⟨f, by simp [hf], hft⟩
    · refine (ih hrest).imp (fun r hr t ht => ?_) fun _ => id
      exact (hr t ht).imp_right fun ⟨f, hf, hft⟩ => ⟨f, by simp [hf], hft⟩

lemma joinFields_sat {join : Ty → Ty → Naming Ty} {other kept fields : List (Ty × Ty)}
    (hjoin : ∀ f ∈ fields, ∀ t, t = Ty.nil ∨ (∃ g ∈ other, g.2 = t) →
      (join f.2 t).Sat (Ty.Within P) P.Allows) (hother : Ty.FieldsWithin P other)
    (hkept : Ty.FieldsWithin P kept) (h : Ty.FieldsWithin P fields) :
    (joinFields join other kept fields).Sat (Ty.FieldsWithin P) P.Allows := by
  induction fields generalizing kept with
  | nil => exact .pure hkept
  | cons f rest ih =>
    obtain ⟨k, v⟩ := f
    obtain ⟨hkey, hk, hv⟩ := h (k, v) (by simp)
    have hrest : Ty.FieldsWithin P rest := fun g hg => h g (by simp [hg])
    have hjoin' := fun f (hf : f ∈ rest) => hjoin f (List.mem_cons_of_mem _ hf)
    refine .bind (lastCovering_sat hk hother) fun found hfound => ?_
    refine .bind (.anyM fun g hg => Ty.fits_sat hk (hkept g hg).2.1) fun b _ => ?_
    refine .ite (fun _ => ih hjoin' hkept hrest) fun _ => ?_
    refine .bind (hjoin (k, v) (by simp) _ ?_) fun t ht => ?_
    · cases found with
      | none => exact .inl rfl
      | some t => exact .inr ((hfound t rfl).resolve_left (by simp))
    · refine ih hjoin' (hkept.append fun g hg => ?_) hrest
      obtain rfl := List.mem_singleton.1 hg
      exact ⟨hkey, hk, ht⟩

lemma joinLists_sat {join : Ty → Ty → Naming Ty} {as bs : List Ty}
    (h : ∀ a ∈ as, ∀ b ∈ bs, (join a b).Sat (Ty.Within P) P.Allows) :
    (joinLists join as bs).Sat (fun ts => ∀ t ∈ ts, t.Within P) P.Allows := by
  induction as generalizing bs with
  | nil => exact .pure (by simp)
  | cons a as ih =>
    cases bs with
    | nil => exact .pure (by simp)
    | cons b bs =>
      refine .bind (h a (by simp) b (by simp)) fun t ht => ?_
      refine .bind (ih fun a ha b hb => h a (by simp [ha]) b (by simp [hb])) fun ts hts => ?_
      exact .pure (by simpa using ⟨ht, hts⟩)

namespace Ty

lemma joinTo_sat (depth : Nat) {a b : Ty} (ha : a.Within P) (hb : b.Within P)
    (hdepth : a.size + b.size ≤ depth) : (joinTo depth a b).Sat (Within P) P.Allows := by
  induction depth generalizing a b with
  | zero =>
    have := a.size_pos
    omega
  | succ depth ih =>
    rw [joinTo.eq_def]
    simp only
    split
    · exact .ite (fun _ => .pure ha) fun _ => .pure (.union ha hb)
    · rename_i c as v checks d bs w more
      obtain ⟨hv, hargs, hchecks⟩ := within_con_iff.1 ha
      obtain ⟨_, hbrgs, hmore⟩ := within_con_iff.1 hb
      simp only [size] at hdepth
      refine .ite (fun _ => .ite (fun _ => .pure (.union ha hb)) fun _ => ?_)
        fun _ => .pure (.union ha hb)
      refine .bind (joinLists_sat fun a' ha' b' hb' => ?_) fun args hargs' => ?_
      · have := size_le_sizeList ha'
        have := size_le_sizeList hb'
        exact ih (hargs a' ha') (hbrgs b' hb') (by omega)
      · exact .pure (within_con_iff.2 ⟨hv, hargs', hchecks.append hmore⟩)
    · rename_i fields more
      rw [within_table_iff] at ha hb
      simp only [size] at hdepth
      -- a field is joined with one of the other table or with the absent value
      have hjoin : ∀ {fs gs : List (Ty × Ty)}, FieldsWithin P fs → FieldsWithin P gs →
          sizeFields fs + sizeFields gs < depth → ∀ f ∈ fs, ∀ t,
            t = nil ∨ (∃ g ∈ gs, g.2 = t) → (joinTo depth f.2 t).Sat (Within P) P.Allows := by
        intro fs gs hfs hgs hlt f hf t ht
        have := size_le_sizeFields hf
        have := f.1.size_pos
        rcases ht with rfl | ⟨g, hg, rfl⟩
        · exact ih (hfs f hf).2.2 (within_plain "nil")
            (by simp only [nil, plain, size, sizeList]; omega)
        · have := size_le_sizeFields hg
          exact ih (hfs f hf).2.2 (hgs g hg).2.2 (by omega)
      refine .bind (joinFields_sat (hjoin ha hb (by omega)) hb
        (List.forall_mem_nil _) ha) fun kept hkept => ?_
      refine .bind (joinFields_sat (hjoin hb ha (by omega)) ha hkept hb) fun all hall => ?_
      exact .pure (within_table_iff.2 hall)
    · exact .pure (.union ha hb)

lemma join_sat {a b : Ty} (ha : a.Within P) (hb : b.Within P) :
    (a.join b).Sat (Within P) P.Allows :=
  joinTo_sat _ ha hb le_rfl

lemma subtract_sat {a b : Ty} (ha : a.Within P) (hb : b.Within P) :
    (a.subtract b).Sat (Within P) P.Allows := by
  induction a with
  | union left right ihl ihr =>
    rw [within_union_iff] at ha
    unfold subtract
    refine .bind (fits_sat ha.1 hb) fun _ _ => .ite (fun _ => ihr ha.2) fun _ => ?_
    refine .bind (fits_sat ha.2 hb) fun _ _ => .ite (fun _ => ihl ha.1) fun _ => ?_
    exact .bind (ihl ha.1) fun l hl => .bind (ihr ha.2) fun r hr => .pure (.union hl hr)
  | var | con | table | all => exact .pure ha

end Ty

end Operations

end LuaTyping
