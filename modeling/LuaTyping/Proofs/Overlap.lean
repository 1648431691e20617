import LuaTyping.Proofs.Composition
import LuaTyping.Proofs.ScopeMoves

set_option autoImplicit false

/-!
# When two types have a meet

The meet of two types without tables and quantifiers always comes to an end, and whether there is
one does not depend on their order, although of a union the first alternative that has a meet
decides: two types have a meet exactly if they *overlap*, that is, if an alternative of the one and
an alternative of the other have the same name and overlap in their arguments, where a variable
overlaps with everything. So every such type has a meet with itself, and every substitution can be
composed with itself.

## Main definitions

* `Ty.Tableless` — types without tables and quantifiers.

## Main results

* `meet_defined_symmetric` — the meet, its two orders and its alternatives.
-/

namespace LuaTyping

lemma Naming.pure_inj {α : Type} {a b : α} : (pure a : Naming α) = pure b ↔ a = b := by
  refine ⟨fun h => ?_, congrArg _⟩
  have houtcome := congrArg (fun x => (outcome x []).1) h
  exact Except.ok.inj houtcome

namespace Ty

/-- A type without tables and quantifiers. -/
inductive Tableless : Ty → Prop
  | var (x : String) : Tableless (.var x)
  | con (c : String) {args : List Ty} (v : Option Literal) (checks : List Checked) :
      (∀ a ∈ args, Tableless a) → Tableless (.con c args v checks)
  | union {left right : Ty} : Tableless left → Tableless right → Tableless (.union left right)

/-- Some alternatives of two types agree: one of them is a variable, or they have the same name and
their arguments overlap as far as both go. -/
inductive Overlaps : Ty → Ty → Prop
  | varLeft (x : String) (b : Ty) : Overlaps (.var x) b
  | varRight (a : Ty) (x : String) : Overlaps a (.var x)
  | con (c : String) (v w : Option Literal) (checks more : List Checked) {as bs : List Ty} :
      (∀ p ∈ as.zip bs, Overlaps p.1 p.2) → Overlaps (.con c as v checks) (.con c bs w more)
  | leftOf {a b : Ty} (right : Ty) : Overlaps a b → Overlaps (.union a right) b
  | rightOf {a b : Ty} (left : Ty) : Overlaps a b → Overlaps (.union left a) b
  | ofLeft {a b : Ty} (right : Ty) : Overlaps a b → Overlaps a (.union b right)
  | ofRight {a b : Ty} (left : Ty) : Overlaps a b → Overlaps a (.union left b)

variable {a b left right : Ty}

/-! ## Overlapping types -/

lemma Overlaps.symm (h : Overlaps a b) : Overlaps b a := by
  induction h with
  | varLeft x b => exact .varRight b x
  | varRight a x => exact .varLeft x a
  | @con c v w checks more as bs _ ih =>
    refine .con c w v more checks fun p hp => ?_
    rw [← List.zip_swap] at hp
    obtain ⟨q, hq, rfl⟩ := List.mem_map.1 hp
    exact ih q hq
  | leftOf right _ ih => exact .ofLeft right ih
  | rightOf left _ ih => exact .ofRight left ih
  | ofLeft right _ ih => exact .leftOf right ih
  | ofRight left _ ih => exact .rightOf left ih

lemma overlaps_comm : Overlaps a b ↔ Overlaps b a := ⟨.symm, .symm⟩

lemma Tableless.overlaps_self (h : a.Tableless) : Overlaps a a := by
  induction h with
  | var x => exact .varLeft x _
  | @con c args v checks _ ih =>
    refine .con c v v checks checks fun p hp => ?_
    obtain ⟨i, hi⟩ := List.getElem?_of_mem hp
    obtain ⟨hleft, hright⟩ := List.getElem?_zip_eq_some.1 hi
    rw [← Option.some.inj (hleft.symm.trans hright)]
    exact ih p.1 (List.mem_of_getElem? hleft)
  | union _ _ ihl _ => exact .leftOf _ (.ofLeft _ ihl)

/-- A type overlaps with a union if it overlaps with an alternative. -/
lemma overlaps_union_iff : Overlaps a (.union left right) ↔ Overlaps a left ∨ Overlaps a right := by
  constructor
  · intro h
    generalize hb : Ty.union left right = b at h
    induction h with
    | varLeft x b => exact .inl (.varLeft x left)
    | varRight | con => cases hb
    | leftOf right _ ih => exact (ih hb).imp (.leftOf right) (.leftOf right)
    | rightOf left _ ih => exact (ih hb).imp (.rightOf left) (.rightOf left)
    | ofLeft right h _ =>
      cases hb
      exact .inl h
    | ofRight left h _ =>
      cases hb
      exact .inr h
  · rintro (h | h)
    · exact .ofLeft right h
    · exact .ofRight left h

lemma overlaps_iff_members_right : Overlaps a b ↔ ∃ n ∈ b.members, Overlaps a n := by
  induction b with
  | union left right ihl ihr =>
    simp only [overlaps_union_iff, ihl, ihr, members, List.mem_append, or_and_right, exists_or]
  | var | con | table | all => simp [members]

lemma overlaps_iff_members : Overlaps a b ↔ ∃ m ∈ a.members, ∃ n ∈ b.members, Overlaps m n := by
  rw [overlaps_comm, overlaps_iff_members_right]
  refine exists_congr fun m => and_congr_right fun _ => ?_
  rw [overlaps_comm, overlaps_iff_members_right]

lemma overlaps_con_iff {c d : String} {as bs : List Ty} {v w : Option Literal}
    {checks more : List Checked} : Overlaps (.con c as v checks) (.con d bs w more) ↔
      c = d ∧ ∀ p ∈ as.zip bs, Overlaps p.1 p.2 := by
  constructor
  · intro h
    cases h with
    | con _ _ _ _ _ h => exact ⟨rfl, h⟩
  · rintro ⟨rfl, h⟩
    exact .con c v w checks more h

/-! ## Meets -/

/-- A computation always ends, with a result exactly if something holds. -/
def Decides {α : Type} (x : Naming (Option α)) (p : Prop) : Prop :=
  ∃ m, x = pure m ∧ (m.isSome ↔ p)

namespace Decides

variable {α : Type} {x : Naming (Option α)} {p : Prop}

lemma eq_none_iff (h : Decides x p) : x = pure none ↔ ¬ p := by
  obtain ⟨m, rfl, hiff⟩ := h
  rw [← hiff, Naming.pure_inj]
  cases m <;> simp

lemma eq_some_iff (h : Decides x p) : (∃ a, x = pure (some a)) ↔ p := by
  obtain ⟨m, rfl, hiff⟩ := h
  simp only [← hiff, Naming.pure_inj]
  cases m <;> simp

end Decides

lemma meetLists_decides {meet : Ty → Ty → Naming (Option Ty)} {as bs : List Ty}
    (h : ∀ a ∈ as, ∀ b ∈ bs, Decides (meet a b) (Overlaps a b)) :
    Decides (meetLists meet as bs) (∀ p ∈ as.zip bs, Overlaps p.1 p.2) := by
  induction as generalizing bs with
  | nil => exact ⟨some [], by rw [meetLists]; simp, by simp⟩
  | cons a as ih =>
    cases bs with
    | nil => exact ⟨some [], by rw [meetLists]; simp, by simp⟩
    | cons b bs =>
      obtain ⟨m, hm, hfirst⟩ := h a (by simp) b (by simp)
      obtain ⟨ms, hms, hrest⟩ := ih fun a ha b (hb : b ∈ bs) => h a (by simp [ha]) b (by simp [hb])
      simp only [Decides, meetLists, hm, hms, pure_bind, List.zip_cons_cons, List.forall_mem_cons,
        ← hfirst, ← hrest]
      cases m with
      | none => exact ⟨none, rfl, by simp⟩
      | some c =>
        cases ms with
        | none => exact ⟨none, rfl, by simp⟩
        | some cs => exact ⟨some (c :: cs), rfl, by simp⟩

lemma Tableless.members (h : a.Tableless) : ∀ m ∈ a.members, m.Tableless := by
  induction h with
  | var x => simp [Ty.members, Tableless.var]
  | con c v checks hargs => simpa [Ty.members] using Tableless.con c v checks hargs
  | union _ _ ihl ihr => exact List.forall_mem_append.2 ⟨ihl, ihr⟩

variable {covers : Covers} {depth : Nat}

/-- The meet of two types is found, and there is one exactly if they overlap. The union cases swap
the types, so that the induction is on the depth. -/
lemma meetTo_decides (ha : a.Tableless) (hb : b.Tableless) (hdepth : a.size + b.size ≤ depth) :
    Decides (meetTo covers depth a b) (Overlaps a b) := by
  induction depth generalizing a b with
  | zero =>
    have := a.size_pos
    omega
  | succ depth ih =>
    -- against a union, the first alternative that overlaps decides
    have hunion : ∀ {t left right : Ty}, t.Tableless → left.Tableless → right.Tableless →
        t.size + (Ty.union left right).size ≤ depth + 1 →
        Decides (meetEither covers depth t left right) (Overlaps t (.union left right)) := by
      intro t left right ht hl hr hsize
      simp only [size] at hsize
      obtain ⟨m, hm, hleft⟩ := ih ht hl (by omega)
      obtain ⟨n, hn, hright⟩ := ih ht hr (by omega)
      simp only [Decides, meetEither, hm, hn, pure_bind, overlaps_union_iff, ← hleft, ← hright]
      cases m with
      | none => exact ⟨n, rfl, by simp⟩
      | some u => exact ⟨some u, rfl, by simp⟩
    cases ha with
    | var x => exact ⟨some b, by cases b <;> rfl, by simp [Overlaps.varLeft]⟩
    | @union left right hl hr =>
      cases hb with
      | var x => exact ⟨_, rfl, by simp [Overlaps.varRight]⟩
      | union hl' hr' => exact hunion (.union hl hr) hl' hr' hdepth
      | con d w more hbs =>
        rw [overlaps_comm]
        exact hunion (.con d w more hbs) hl hr (by omega)
    | @con c as v checks has =>
      cases hb with
      | var x => exact ⟨_, rfl, by simp [Overlaps.varRight]⟩
      | union hl' hr' => exact hunion (.con c v checks has) hl' hr' hdepth
      | @con d bs w more hbs =>
        simp only [size] at hdepth
        obtain ⟨ms, hms, hargs⟩ := meetLists_decides fun a ha b hb => by
          have := size_le_sizeList ha
          have := size_le_sizeList hb
          exact ih (has a ha) (hbs b hb) (by omega)
        simp only [Decides, meetTo, hms, pure_bind, overlaps_con_iff, ← hargs]
        by_cases hcd : c = d
        · rw [if_pos hcd]
          cases ms with
          | none => exact ⟨none, rfl, by simp⟩
          | some args => exact ⟨_, rfl, by simp [hcd]⟩
        · rw [if_neg hcd]
          exact ⟨none, rfl, by simp [hcd]⟩

lemma meet_decides (ha : a.Tableless) (hb : b.Tableless) : Decides (a.meet b) (Overlaps a b) :=
  meetTo_decides ha hb le_rfl

end Ty

/-! ## Compositions -/

namespace Subst

variable {s : Subst} {x : String} {t : Ty} {covers : Covers}

lemma enter_eq_enterName (known : List (String × Ty)) : enter x t known = enterName x t known := by
  induction known with
  | nil => rfl
  | cons b known ih => rw [enter, enterName, ih]

lemma lookup_of_mem {l : List (String × Ty)} (hnodup : (l.map Prod.fst).Nodup) {b : String × Ty}
    (hb : b ∈ l) : l.lookup b.1 = some b.2 := by
  induction l with
  | nil => exact absurd hb List.not_mem_nil
  | cons c l ih =>
    obtain ⟨hc, hnodup⟩ := List.nodup_cons.1 hnodup
    rcases List.mem_cons.1 hb with rfl | hb
    · rw [List.lookup_cons, beq_self_eq_true]
    · have hne : b.1 ≠ c.1 := fun heq => hc (heq ▸ List.mem_map_of_mem (f := Prod.fst) hb)
      rw [List.lookup_cons, beq_eq_false_iff_ne.2 hne]
      exact ih hnodup hb

/-- Bindings can be added to others that bind the same variables to overlapping types. -/
lemma exists_composeBindings {known more : List (String × Ty)} (hnodup : (more.map Prod.fst).Nodup)
    (h : ∀ b ∈ more, ∃ u, known.lookup b.1 = some u ∧ (b.2.Tableless ∧ u.Tableless) ∧
      b.2.Overlaps u) : ∃ r, composeBindings covers s known more = pure r := by
  induction more generalizing known with
  | nil => exact ⟨known, rfl⟩
  | cons b more ih =>
    obtain ⟨hb, hnodup⟩ := List.nodup_cons.1 hnodup
    obtain ⟨u, hu, htableless, hoverlaps⟩ := h b (by simp)
    obtain ⟨m, hm⟩ : ∃ m, Ty.meetTo covers _ b.2 u = pure (some m) :=
      (Ty.meetTo_decides htableless.1 htableless.2 le_rfl).eq_some_iff.2 hoverlaps
    simp only [composeBindings, hu, Ty.meetWith, hm, pure_bind]
    refine ih hnodup fun c hc => ?_
    have hne : c.1 ≠ b.1 := fun heq => hb (heq ▸ List.mem_map_of_mem (f := Prod.fst) hc)
    rw [lookup_enter, if_neg hne]
    exact h c (by simp [hc])

lemma exists_composeWith_self (hnodup : s.domain.Nodup) (hs : ∀ b ∈ s.bindings, b.2.Tableless) :
    ∃ r, s.composeWith covers s = pure r := by
  obtain ⟨r, hr⟩ : ∃ r, composeBindings covers s s.bindings s.bindings = pure r :=
    exists_composeBindings hnodup fun b hb =>
      ⟨b.2, lookup_of_mem hnodup hb, ⟨hs b hb, hs b hb⟩, (hs b hb).overlaps_self⟩
  exact ⟨⟨r, s.returning || s.returning⟩, by rw [composeWith, hr]; rfl⟩

end Subst

variable {a b : Ty}

/-- The meet of two types without tables and quantifiers always comes to an end; a type has a meet
with itself, so that a substitution can be composed with itself, whatever the test on keys; it does
not depend on the order of two types whether they have a meet; and they have one exactly if some
alternative of the one has a meet with some alternative of the other. -/
theorem meet_defined_symmetric (ha : a.Tableless) (hb : b.Tableless) :
    (∃ m, a.meet b = pure m) ∧
      (∃ m, a.meet a = pure (some m)) ∧
      (a.meet b = pure none ↔ b.meet a = pure none) ∧
      ((∃ m, a.meet b = pure (some m)) ↔
        ∃ m ∈ a.members, ∃ n ∈ b.members, ∃ t, m.meet n = pure (some t)) ∧
      ∀ (s : Subst) (covers : Covers), s.domain.Nodup → (∀ p ∈ s.bindings, p.2.Tableless) →
        ∃ r, s.composeWith covers s = pure r := by
  have hab := Ty.meet_decides ha hb
  refine ⟨hab.imp fun _ => And.left, ?_, ?_, ?_, fun s covers => Subst.exists_composeWith_self⟩
  · exact (Ty.meet_decides ha ha).eq_some_iff.2 ha.overlaps_self
  · rw [hab.eq_none_iff, (Ty.meet_decides hb ha).eq_none_iff, Ty.overlaps_comm]
  · rw [hab.eq_some_iff, Ty.overlaps_iff_members]
    refine exists_congr fun m => and_congr_right fun hm => exists_congr fun n =>
      and_congr_right fun hn => ?_
    rw [(Ty.meet_decides (ha.members m hm) (hb.members n hn)).eq_some_iff]

/-- The type `number | (string | nil)`, where the right one is a tuple, against `(nil)`. -/
theorem meet_defined_symmetric_optional :
    let a : Ty := .union .number (.tuple [.union .string .nil])
    let b : Ty := .tuple [.nil]
    (a.Tableless ∧ b.Tableless) ∧
      (∃ m, a.meet b = pure (some m)) ∧ (∃ m, b.meet a = pure m) ∧ ¬ b.meet a = pure none ∧
      ∃ r, (Subst.mk [("x", a), ("y", b)] false).composeWith Ty.fits ⟨[("x", a), ("y", b)], false⟩ =
        pure r := by
  intro a b
  have hplain : ∀ c, (Ty.plain c).Tableless := fun c => .con c none [] (List.forall_mem_nil _)
  have hb : b.Tableless := .con _ _ _ (List.forall_mem_singleton.2 (hplain _))
  have ha : a.Tableless :=
    .union (hplain _) (.con _ _ _ (List.forall_mem_singleton.2 (.union (hplain _) (hplain _))))
  obtain ⟨-, -, hsymmetric, hmembers, hself⟩ := meet_defined_symmetric ha hb
  have hmeet : ∃ m, a.meet b = pure (some m) :=
    hmembers.2 ⟨_, .tail _ (.head _), b, .head _, .tuple [.nil], rfl⟩
  refine ⟨⟨ha, hb⟩, hmeet, (meet_defined_symmetric hb ha).1, fun hnone => ?_, ?_⟩
  · obtain ⟨m, hm⟩ := hmeet
    have hsome := hm.symm.trans (hsymmetric.2 hnone)
    simp [Naming.pure_inj] at hsome
  · exact hself _ Ty.fits (by decide) (by simp [ha, hb])

end LuaTyping
