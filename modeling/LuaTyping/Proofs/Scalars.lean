import LuaTyping.Proofs.NamedTypes
import LuaTyping.Proofs.Kinds

set_option autoImplicit false

/-!
# Unions of simple values

The types of numbers, strings, truth values and the absent value, with or without literal values,
and their unions, however nested. On these the operations that narrow types end without a fault and
can be computed: the meet with a named type is the first alternative of this name, and subtracting
the named type leaves the alternatives of other names.

## Main definitions

* `Ty.Scalar` — the unions of simple values.
* `Ty.firstMeet` — the meet of two unions of simple values.
* `Ty.restrictTo`, `Ty.narrowed` — what is left after tests for names.
* `Ty.Extends` — a type can be used where another one is wanted.

## Main results

* `Ty.Scalar.meet_named` — the meet with what a name stands for.
* `Ty.Scalar.narrowed_eq_some_iff` — several tests leave something only if all are for
  one name.
* `Ty.Scalar.fits_restrictTo` — the alternatives that extend what is left.
-/

namespace LuaTyping.Ty

open Check

/-! ## The types -/

/-- The names of the types of simple values. -/
def scalarNames : List String := ["number", "string", "boolean", "nil"]

/-- A union, however nested, of types of numbers, strings, truth values and the absent value, with
or without a literal value. A literal value equals itself, as every value does that a program can
write. -/
inductive Scalar : Ty → Prop
  | con {c : String} {v : Option Literal} (checks : List Checked) :
      c ∈ scalarNames → (∀ x, v = some x → x.equal x = true) → Scalar (.con c [] v checks)
  | union {left right : Ty} : Scalar left → Scalar right → Scalar (.union left right)

variable {a b t U T : Ty} {c d name : String} {v : Option Literal} {checks more : List Checked}

lemma ne_of_mem_scalarNames (h : c ∈ scalarNames) : c ≠ "function" ∧ c ≠ "tuple" ∧ c ≠ "table" := by
  simp only [scalarNames, List.mem_cons, List.not_mem_nil, or_false] at h
  rcases h with rfl | rfl | rfl | rfl <;> decide

namespace Scalar

lemma simple (h : t.Scalar) : t.Simple := by
  induction h with
  | con _ hc _ => exact .con (ne_of_mem_scalarNames hc).1 (by simp)
  | union _ _ ihl ihr => exact .union ihl ihr

lemma ground (h : t.Scalar) : t.Ground := by
  induction h with
  | con => exact ground_con_iff.2 (by simp)
  | union _ _ ihl ihr => exact within_union_iff.2 ⟨ihl, ihr⟩

lemma single (h : t.Scalar) : t.Single := by
  refine ⟨h.ground, ?_⟩
  cases h with
  | con _ hc _ => simpa [isNamed] using (ne_of_mem_scalarNames hc).2.1
  | union => rfl

lemma broaden (h : t.Scalar) : t.broaden.Scalar := by
  induction h with
  | con checks hc _ => exact .con checks hc (by simp)
  | union _ _ ihl ihr => exact .union ihl ihr

lemma exists_con_of_mem (h : t.Scalar) (hm : a ∈ t.members) :
    ∃ c v checks, a = .con c [] v checks ∧ c ∈ scalarNames ∧
      ∀ x, v = some x → x.equal x = true := by
  induction h with
  | con checks hc hv =>
    obtain rfl := List.mem_singleton.1 hm
    exact ⟨_, _, checks, rfl, hc, hv⟩
  | union _ _ ihl ihr => exact (List.mem_append.1 hm).elim ihl ihr

lemma exists_isNamed (h : t.Scalar) : ∃ c, ∃ m ∈ t.members, m.isNamed c = true := by
  induction h with
  | @con c v checks _ _ => exact ⟨c, _, List.mem_singleton_self _, by simp [isNamed]⟩
  | union _ _ ihl _ =>
    obtain ⟨c, m, hm, hc⟩ := ihl
    exact ⟨c, m, List.mem_append_left _ hm, hc⟩

lemma mem (h : t.Scalar) (hm : a ∈ t.members) : a.Scalar := by
  obtain ⟨c, v, checks, rfl, hc, hv⟩ := h.exists_con_of_mem hm
  exact .con checks hc hv

end Scalar

/-! ## Unifying with a type of one name -/

variable {w : Option Literal} {depth : Nat} {m : Ty}

lemma unifyTo_con_of_ne {as bs : List Ty} (hne : c ≠ d) (depth : Nat) :
    unifyTo (depth + 1) (.con c as v checks) (.con d bs w more) =
      pure ⟨.error s!"Types dont unify: Expected `{d}`, got `{c}`", .con c as v checks,
        .con d bs w more⟩ := by
  change unifyConstructors _ _ _ _ _ _ _ _ _ _ = _
  unfold unifyConstructors
  exact if_pos hne

/-- Types without arguments unify with a type without a value if they have its name. -/
lemma unifyTo_con (hc : c ≠ "function") (d : String) (v : Option Literal)
    (checks more : List Checked) (depth : Nat) :
    ∃ r, unifyTo (depth + 1) (.con c [] v checks) (.con d [] none more) =
        pure ⟨r, .con c [] v checks, .con d [] none more⟩ ∧
      ((c = d ∧ r = .ok .empty) ∨ c ≠ d ∧ ∃ m, r = .error m) := by
  by_cases hd : c = d
  · subst hd
    refine ⟨.ok .empty, ?_, .inl ⟨rfl, rfl⟩⟩
    change unifyConstructors _ _ _ _ _ _ _ _ _ _ = _
    rw [unifyConstructors_eq hc rfl rfl]
    rfl
  · exact ⟨_, unifyTo_con_of_ne hd depth, .inr ⟨hd, _, rfl⟩⟩

/-- A union of simple values unifies with a type without a value if all its alternatives have the
name of the type. -/
lemma Scalar.unifyTo_con (ha : a.Scalar) (d : String) (more : List Checked)
    (hdepth : a.size ≤ depth) :
    ∃ r, unifyTo depth a (.con d [] none more) = pure ⟨r, a, .con d [] none more⟩ ∧
      ((a.members.all (isNamed d) = true ∧ r = .ok .empty) ∨
        a.members.all (isNamed d) = false ∧ ∃ m, r = .error m) := by
  induction ha generalizing depth with
  | @con c v checks hc _ =>
    obtain ⟨depth, rfl⟩ := exists_succ_of_size_le hdepth
    obtain ⟨r, hr, h⟩ := Ty.unifyTo_con (ne_of_mem_scalarNames hc).1 d v checks more depth
    exact ⟨r, hr, by simpa [members, isNamed] using h⟩
  | @union left right _ _ ihl ihr =>
    obtain ⟨depth, rfl⟩ := exists_succ_of_size_le hdepth
    rw [size] at hdepth
    obtain ⟨r, hr, h⟩ := ihl (show left.size ≤ depth by omega)
    obtain ⟨r', hr', h'⟩ := ihr (show right.size ≤ depth by omega)
    change ∃ r, unifyStep (unifyTo depth) (renderTo depth) (.union left right) _ = _ ∧ _
    simp only [unifyStep, hr, pure_bind, members, List.all_append]
    rcases h with ⟨hall, rfl⟩ | ⟨hall, m, rfl⟩
    · simp only [hr', pure_bind, hall, Bool.true_and]
      rcases h' with ⟨hall', rfl⟩ | ⟨hall', m, rfl⟩
      · exact ⟨_, rfl, .inl ⟨hall', rfl⟩⟩
      · exact ⟨_, rfl, .inr ⟨hall', m, rfl⟩⟩
    · exact ⟨_, rfl, .inr ⟨by rw [hall]; rfl, m, rfl⟩⟩

lemma size_le_depthFor (n : Nat) : n ≤ LuaTyping.depthFor n := by
  unfold LuaTyping.depthFor
  nlinarith

/-- The test on a type of one name. -/
lemma Scalar.fits_con (ha : a.Scalar) :
    a.fits (.con d [] none more) = pure (a.members.all (isNamed d)) := by
  have hb : (Ty.con d [] none more).size = 1 := rfl
  obtain ⟨r, hr, h⟩ := ha.unifyTo_con d more
    ((Nat.le_add_right a.size (Ty.con d [] none more).size).trans (size_le_depthFor _))
  have hfits : a.fits (.con d [] none more) =
      (do return (← unify a (.con d [] none more)).succeeds) := by
    cases ha <;> rfl
  rw [hfits, unify, hr, pure_bind]
  rcases h with ⟨hall, rfl⟩ | ⟨hall, m, rfl⟩ <;> rw [hall] <;> rfl

/-- What is left of a union without the alternatives of a name, if there are others. -/
lemma Scalar.subtract_named (ha : a.Scalar) (hother : ∃ m ∈ a.members, m.isNamed d = false)
    (more : List Checked) :
    ∃ t, a.subtract (.con d [] none more) = pure t ∧
      t.members = a.members.filter fun m => !m.isNamed d := by
  have hall : ∀ {t : Ty}, (∃ m ∈ t.members, m.isNamed d = false) ↔
      t.members.all (isNamed d) = false := by
    simp [List.all_eq_false]
  induction ha with
  | con checks hc _ =>
    obtain ⟨m, hm, hnot⟩ := hother
    obtain rfl := List.mem_singleton.1 hm
    exact ⟨_, rfl, by simp [members, hnot]⟩
  | @union left right hl hr ihl ihr =>
    simp only [subtract, hl.fits_con, hr.fits_con, pure_bind, members, List.filter_append]
    by_cases hleft : left.members.all (isNamed d) = true
    · have hright : ∃ m ∈ right.members, m.isNamed d = false := by
        rw [hall, members, List.all_append, hleft, Bool.true_and] at hother
        exact hall.2 hother
      obtain ⟨t, ht, hmembers⟩ := ihr hright
      refine ⟨t, by rw [if_pos hleft, ht], ?_⟩
      have hnone : left.members.filter (fun m => !m.isNamed d) = [] := by
        simpa [List.filter_eq_nil_iff] using hleft
      rw [hmembers, hnone, List.nil_append]
    · obtain ⟨t, ht, hmembers⟩ := ihl (hall.2 (by simpa using hleft))
      by_cases hright : right.members.all (isNamed d) = true
      · refine ⟨t, by rw [if_neg hleft, if_pos hright, ht], ?_⟩
        have hnone : right.members.filter (fun m => !m.isNamed d) = [] := by
          simpa [List.filter_eq_nil_iff] using hright
        rw [hmembers, hnone, List.append_nil]
      · obtain ⟨t', ht', hmembers'⟩ := ihr (hall.2 (by simpa using hright))
        refine ⟨.union t t', by rw [if_neg hleft, if_neg hright, ht, ht']; rfl, ?_⟩
        rw [members, hmembers, hmembers']

/-! ## The meet -/

/-- The meet of a union of simple values with a type without arguments: the first alternative of the
same name has one. A type that is no union keeps its value. -/
def meetCon (d : String) (w : Option Literal) (more : List Checked) : Ty → Option Ty
  | .union left right =>
    ((Ty.union left right).members.find? (isNamed d)).map fun m =>
      .con d [] w (more ++ conditionChecks m)
  | .con c args v checks => if c = d then some (.con c args v (checks ++ more)) else none
  | _ => none

/-- What a union of simple values has in common with the types that a name stands for. -/
def restrictTo (name : String) (t : Ty) : Option Ty := t.meetCon name none []

lemma restrictTo_con {args : List Ty} :
    (Ty.con c args v checks).restrictTo name =
      if c = name then some (.con c args v checks) else none := by
  simp [restrictTo, meetCon]

lemma Scalar.meetTo_con (hb : b.Scalar) {covers : Covers} (hdepth : b.size ≤ depth) :
    meetTo covers depth (.con c [] v checks) b =
      pure ((b.members.find? (isNamed c)).map fun m =>
        .con c [] v (checks ++ conditionChecks m)) := by
  induction hb generalizing depth with
  | @con d w more hd _ =>
    obtain ⟨depth, rfl⟩ := exists_succ_of_size_le hdepth
    by_cases hc : c = d
    · subst hc
      simp [meetTo, meetLists, members, isNamed, conditionChecks]
    · simp [meetTo, members, isNamed, hc, Ne.symm hc]
  | @union left right _ _ ihl ihr =>
    obtain ⟨depth, rfl⟩ := exists_succ_of_size_le hdepth
    rw [size] at hdepth
    change meetEither covers depth (.con c [] v checks) left right = _
    simp only [meetEither, ihl (show left.size ≤ depth by omega), ihr (show right.size ≤ depth by omega),
      pure_bind, members, List.find?_append]
    cases left.members.find? (isNamed c) <;> rfl

lemma Scalar.meetTo_meetCon (ha : a.Scalar) {covers : Covers} (hdepth : a.size ≤ depth)
    (w : Option Literal) :
    meetTo covers depth a (.con d [] w more) = pure (a.meetCon d w more) := by
  obtain ⟨depth, rfl⟩ := exists_succ_of_size_le hdepth
  cases ha with
  | @con c v checks hc _ =>
    by_cases hd : c = d
    · subst hd
      simp [meetTo, meetLists, meetCon]
    · simp [meetTo, meetCon, hd]
  | union hl hr => exact (hl.union hr).meetTo_con hdepth

lemma Scalar.isSome_meetCon_iff (ha : a.Scalar) :
    (a.meetCon d w more).isSome = true ↔ ∃ m ∈ a.members, m.isNamed d = true := by
  cases ha with
  | @con c v checks hc _ =>
    by_cases hd : c = d <;> simp [meetCon, members, isNamed, hd]
  | union => simp [meetCon]

/-- The meet with a type without arguments is one of the same name. -/
lemma Scalar.meetCon_eq_some (ha : a.Scalar) (hw : ∀ x, w = some x → x.equal x = true)
    (h : a.meetCon d w more = some t) :
    (∃ v checks, t = .con d [] v checks) ∧ t.Scalar ∧ ∃ m ∈ a.members, m.isNamed d = true := by
  have hmem := ha.isSome_meetCon_iff.1 (Option.isSome_of_eq_some h)
  have hname : d ∈ scalarNames := by
    obtain ⟨m, hm, hnamed⟩ := hmem
    obtain ⟨c, v, checks, rfl, hc, _⟩ := ha.exists_con_of_mem hm
    exact beq_iff_eq.1 hnamed ▸ hc
  cases ha with
  | @con c v checks hc hv =>
    rw [meetCon] at h
    split at h
    · rename_i hd
      cases h
      exact ⟨⟨v, _, by rw [hd]⟩, .con _ hc hv, hmem⟩
    · cases h
  | union =>
    obtain ⟨m, _, rfl⟩ := Option.map_eq_some_iff.1 h
    exact ⟨⟨w, _, rfl⟩, .con _ hname hw, hmem⟩

/-- The meet with one alternative of a union of simple values. -/
def meetOne (a : Ty) : Ty → Option Ty
  | .con d _ w more => a.meetCon d w more
  | _ => none

/-- The meet of unions of simple values: the first alternative of the second one that has a meet with
the first one decides. -/
def firstMeet (a b : Ty) : Option Ty := b.members.findSome? a.meetOne

/-- The meet of unions of simple values ends without a fault. -/
lemma Scalar.meetTo_firstMeet (ha : a.Scalar) (hb : b.Scalar) (covers : Covers)
    (hdepth : a.size + b.size ≤ depth) : meetTo covers depth a b = pure (a.firstMeet b) := by
  induction hb generalizing depth with
  | @con d w more _ _ =>
    have hone : a.firstMeet (.con d [] w more) = a.meetCon d w more := by
      simp [firstMeet, members, meetOne]
    rw [ha.meetTo_meetCon ((Nat.le_add_right _ _).trans hdepth) w, hone]
  | @union left right _ _ ihl ihr =>
    obtain ⟨depth, rfl⟩ := exists_succ_of_size_le ((Nat.le_add_right a.size _).trans hdepth)
    rw [size] at hdepth
    have hunion : meetTo covers (depth + 1) a (.union left right) =
        meetEither covers depth a left right := by
      cases ha <;> rfl
    rw [hunion, meetEither, ihl (show a.size + left.size ≤ depth by omega), pure_bind,
      ihr (show a.size + right.size ≤ depth by omega)]
    simp only [firstMeet, members, List.findSome?_append]
    cases left.members.findSome? a.meetOne <;> rfl

/-- The meet of unions of simple values is a simple value, and there is one if they share a name. -/
lemma Scalar.exists_meetTo (ha : a.Scalar) (hb : b.Scalar) (covers : Covers)
    (hdepth : a.size + b.size ≤ depth) :
    ∃ r, meetTo covers depth a b = pure r ∧
      (∀ t, r = some t → t.Scalar ∧ ∃ c, t.isNamed c = true ∧ ∃ m ∈ a.members, m.isNamed c = true) ∧
      ((∃ c, (∃ m ∈ a.members, m.isNamed c = true) ∧ ∃ m ∈ b.members, m.isNamed c = true) →
        r.isSome = true) := by
  refine ⟨_, ha.meetTo_firstMeet hb covers hdepth, fun t ht => ?_, ?_⟩
  · obtain ⟨m, hm, ht⟩ := List.exists_of_findSome?_eq_some ht
    obtain ⟨d, w, more, rfl, _, hw⟩ := hb.exists_con_of_mem hm
    obtain ⟨⟨v, checks, rfl⟩, hscalar, hmem⟩ := ha.meetCon_eq_some hw ht
    exact ⟨hscalar, d, by simp [isNamed], hmem⟩
  · rintro ⟨c, hmem, m, hm, hnamed⟩
    obtain ⟨d, w, more, rfl, _, _⟩ := hb.exists_con_of_mem hm
    obtain rfl := beq_iff_eq.1 hnamed
    exact List.findSome?_isSome_iff.2 ⟨_, hm, ha.isSome_meetCon_iff.2 hmem⟩

/-- Tables and functions have nothing in common with simple values. -/
lemma Scalar.meetTo_eq_none (ha : a.Scalar) {covers : Covers} (hdepth : a.size ≤ depth)
    (ht : t = .table [] ∨ ∃ args, t = .con "function" args none []) :
    meetTo covers depth a t = pure none ∧ meetTo covers depth t a = pure none := by
  induction ha generalizing depth with
  | @con c v checks hc _ =>
    obtain ⟨depth, rfl⟩ := exists_succ_of_size_le hdepth
    have hfunction := (ne_of_mem_scalarNames hc).1
    rcases ht with rfl | ⟨args, rfl⟩ <;> simp [meetTo, hfunction, hfunction.symm]
  | @union left right _ _ ihl ihr =>
    obtain ⟨depth, rfl⟩ := exists_succ_of_size_le hdepth
    rw [size] at hdepth
    have hboth : meetEither covers depth t left right = pure none := by
      rw [meetEither, (ihl (show left.size ≤ depth by omega)).2, pure_bind,
        (ihr (show right.size ≤ depth by omega)).2]
    rcases ht with rfl | ⟨args, rfl⟩ <;> exact ⟨hboth, hboth⟩

lemma Scalar.restrictTo_eq_none (ha : a.Scalar) (hname : name ∉ scalarNames) :
    a.restrictTo name = none := by
  rw [← Option.not_isSome_iff_eq_none]
  intro hsome
  obtain ⟨m, hm, hnamed⟩ := ha.isSome_meetCon_iff.1 hsome
  obtain ⟨c, v, checks, rfl, hc, _⟩ := ha.exists_con_of_mem hm
  exact hname (beq_iff_eq.1 hnamed ▸ hc)

lemma Scalar.isSome_restrictTo_iff (ha : a.Scalar) :
    (a.restrictTo name).isSome = true ↔ ∃ m ∈ a.members, m.isNamed name = true :=
  ha.isSome_meetCon_iff

lemma Scalar.restrictTo_eq_some (ha : a.Scalar) (h : a.restrictTo name = some t) :
    (∃ v checks, t = .con name [] v checks) ∧ t.Scalar ∧ name ∈ scalarNames := by
  obtain ⟨hcon, hscalar, -⟩ := ha.meetCon_eq_some (by simp) h
  refine ⟨hcon, hscalar, ?_⟩
  by_contra hname
  exact nomatch (ha.restrictTo_eq_none hname).symm.trans h

/-- The meet with what a name stands for is what the name leaves. -/
theorem Scalar.meet_named (ha : a.Scalar) (ht : Named name t) :
    a.meet t = pure (a.restrictTo name) := by
  have hdepth : a.size ≤ a.size + t.size := Nat.le_add_right _ _
  cases ht with
  | plain => exact ha.meetTo_meetCon hdepth none
  | table hname =>
    rw [ha.restrictTo_eq_none (by rw [hname]; decide)]
    exact (ha.meetTo_eq_none hdepth (.inl rfl)).1
  | function x y z hname =>
    rw [ha.restrictTo_eq_none (by rw [hname]; decide)]
    exact (ha.meetTo_eq_none hdepth (.inr ⟨_, rfl⟩)).1

/-! ## Several tests -/

/-- What a union of simple values has in common with all of some named types. -/
def narrowed (names : List String) (t : Ty) : Option Ty :=
  names.foldlM (fun t n => t.restrictTo n) t

/-- What one test leaves is left as it is by further tests for the same name, and nothing is left by
one for another name. -/
lemma Scalar.narrowed_of_restrictTo (ha : a.Scalar) (h : a.restrictTo name = some t)
    (names : List String) : t.narrowed names = if ∀ n ∈ names, n = name then some t else none := by
  obtain ⟨⟨v, checks, rfl⟩, -⟩ := ha.restrictTo_eq_some h
  induction names with
  | nil => rfl
  | cons n names ih =>
    rw [narrowed, List.foldlM_cons]
    by_cases hn : n = name
    · subst hn
      simp only [restrictTo_con, if_true, Option.bind_eq_bind, Option.bind_some,
        List.forall_mem_cons, true_and]
      exact ih
    · have hall : ¬ ∀ n' ∈ n :: names, n' = name := fun h => hn (h n (by simp))
      rw [if_neg hall, restrictTo_con, if_neg (Ne.symm hn)]
      rfl

/-- Several tests leave something only if all are for one name. -/
theorem Scalar.narrowed_eq_some_iff (ha : a.Scalar) {names : List String} :
    a.narrowed names = some t ↔
      names = [] ∧ t = a ∨ ∃ n ∈ names, (∀ n' ∈ names, n' = n) ∧ a.restrictTo n = some t := by
  cases names with
  | nil => simp [narrowed, eq_comm]
  | cons n names =>
    rw [narrowed, List.foldlM_cons]
    cases h : a.restrictTo n with
    | none =>
      simp only [Option.bind_eq_bind, Option.bind_none, reduceCtorEq, false_and, false_or,
        false_iff]
      rintro ⟨n', hn', hall, hsome⟩
      rw [← hall n (by simp), h] at hsome
      cases hsome
    | some u =>
      have hrest := ha.narrowed_of_restrictTo h names
      rw [narrowed] at hrest
      simp only [Option.bind_eq_bind, Option.bind_some, hrest]
      constructor
      · intro hsome
        split at hsome
        · rename_i hall
          cases hsome
          exact .inr ⟨n, by simp, by simpa using hall, h⟩
        · cases hsome
      · rintro (⟨hnil, -⟩ | ⟨n', -, hall, hsome⟩)
        · cases hnil
        · have hn : n = n' := hall n (by simp)
          subst hn
          rw [if_pos fun m hm => hall m (by simp [hm]), ← h, hsome]

lemma Scalar.narrowed {names : List String} (ha : a.Scalar) (h : a.narrowed names = some t) :
    t.Scalar := by
  rcases ha.narrowed_eq_some_iff.1 h with ⟨-, rfl⟩ | ⟨n, -, -, hn⟩
  · exact ha
  · exact (ha.restrictTo_eq_some hn).2.1

/-! ## Which alternatives extend what is left -/

/-- The test says yes of an alternative of `t`, and does not say no of `t` itself. The test of `t`
may stop with a fault, as that of `true` against `true | boolean` does: then the alternative
decides. -/
def Extends (m t : Ty) : Prop :=
  (∃ a ∈ t.members, ∀ k, outcome (m.fits a) k = (.ok true, k)) ∧
    ∀ k k', outcome (m.fits t) k ≠ (.ok false, k')

lemma unifyTo_self (hc : c ≠ "function") (hv : ∀ x, v = some x → x.equal x = true) (depth : Nat) :
    unifyTo (depth + 1) (.con c [] v checks) (.con c [] v checks) =
      pure ⟨.ok .empty, .con c [] v checks, .con c [] v checks⟩ := by
  change unifyConstructors _ _ _ _ _ _ _ _ _ _ = _
  rw [unifyConstructors_eq hc rfl (Literal.serves_self hv)]
  rfl

lemma Scalar.fits_self (h : (Ty.con c [] v checks).Scalar) :
    (Ty.con c [] v checks).fits (.con c [] v checks) = pure true := by
  cases h with
  | con _ hc hv =>
    have hunify : unify (.con c [] v checks) (.con c [] v checks) =
        pure ⟨.ok .empty, .con c [] v checks, .con c [] v checks⟩ :=
      unifyTo_self (ne_of_mem_scalarNames hc).1 hv _
    change (do return (← unify (.con c [] v checks) (.con c [] v checks)).succeeds) = _
    rw [hunify]
    rfl

/-- **The alternatives that extend what a test leaves** are those of the name that it is for. -/
theorem Scalar.fits_restrictTo (ha : a.Scalar) (h : a.restrictTo name = some t)
    (hm : m ∈ a.members) : m.fits t = pure (m.isNamed name) := by
  cases ha with
  | @con c v checks hc hv =>
    obtain rfl := List.mem_singleton.1 hm
    rw [restrictTo_con] at h
    split at h
    · rename_i hname
      cases h
      simpa [isNamed, hname] using (Scalar.con checks hc hv).fits_self
    · cases h
  | union hl hr =>
    obtain ⟨m', _, rfl⟩ := Option.map_eq_some_iff.1 h
    have hmscalar := (hl.union hr).mem hm
    obtain ⟨c, v, checks, rfl, _, _⟩ := (hl.union hr).exists_con_of_mem hm
    rw [hmscalar.fits_con]
    simp [members]

/-- Unifying an alternative with a union succeeds, if it ends without a fault. -/
lemma Scalar.succeeds_of_mem (ha : a.Scalar) {u : Unified} {k k' : Letters} (hm : t ∈ a.members)
    (h : outcome (unifyTo depth t a) k = (.ok u, k')) : u.succeeds = true := by
  obtain ⟨c, v, checks, rfl, hc, hv⟩ := ha.exists_con_of_mem hm
  induction ha generalizing depth u k k' with
  | con _ hd hw =>
    obtain heq := List.mem_singleton.1 hm
    cases depth with
    | zero => cases h
    | succ depth =>
      rw [← heq, unifyTo_self (ne_of_mem_scalarNames hc).1 hv, outcome_pure] at h
      obtain rfl := Except.ok.inj (Prod.mk.inj h).1
      rfl
  | @union left right hl hr ihl ihr =>
    cases depth with
    | zero => cases h
    | succ depth =>
      obtain ⟨u₁, u₂, k₁, k₂, h₁, h₂, hu⟩ := unify_union_right h
      rw [hu]
      rcases List.mem_append.1 hm with hm | hm
      · rw [ihl hm h₁, Bool.true_or]
      · rw [(wraps_of_unifyTo h₁).1.eq_of_nil] at h₂
        rw [ihr hm h₂, Bool.or_true]

lemma Scalar.extends_of_mem (ha : a.Scalar) (hm : m ∈ a.members) : m.Extends a := by
  obtain ⟨c, v, checks, rfl, hc, hv⟩ := ha.exists_con_of_mem hm
  refine ⟨⟨_, hm, fun k => by rw [(Scalar.con checks hc hv).fits_self, outcome_pure]⟩, ?_⟩
  intro k k' h
  rw [fits_eq (ha.mem hm).simple ha.simple] at h
  obtain ⟨u, k₁, hu, h⟩ := bind_eq_ok.1 h
  simp only [pure_eq_ok] at h
  exact absurd (ha.succeeds_of_mem hm hu) (by simp [h.1])

/-- The alternatives that extend what a test leaves, once more. -/
lemma Scalar.extends_restrictTo_iff (ha : a.Scalar) (h : a.restrictTo name = some t)
    (hm : m ∈ a.members) : m.Extends t ↔ m.isNamed name = true := by
  obtain ⟨⟨v, checks, rfl⟩, -⟩ := ha.restrictTo_eq_some h
  have hfits := ha.fits_restrictTo h hm
  simp only [Extends, members, List.mem_singleton, exists_eq_left, hfits, pure_eq_ok]
  cases m.isNamed name <;> simp

end LuaTyping.Ty
