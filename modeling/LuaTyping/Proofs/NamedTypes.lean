import LuaTyping.Proofs.NameChoice
import LuaTyping.Proofs.SchemeInstances
import LuaTyping.Proofs.Unfolding

set_option autoImplicit false

/-!
# Closed types and the types that names stand for

A test compares the text that the standard `type` function gives with the name of a type. The name
stands for a type: `number` for the type of numbers, `table` for that of all tables, and `function`
for functions with any variables as parameters, result and variable arguments. What a closed type
has in common with it depends neither on these variables nor on the letters given so far, and is a
closed type other than a tuple.

## Main definitions

* `Ty.Ground` — closed types, `Ty.Single` — those that are no tuples.
* `Ty.Named` — the types that a name stands for.
* `Naming.Alike` — computations come to the same value from any letters.
* `Ty.Meets` — what a closed type has in common with what a name stands for.

## Main results

* `Ty.Ground.instantiate`, `Ty.Ground.apply` — closed types stay as they are.
* `Ty.Meets.unique` — at most one type is in common,
* `Ty.Meets.single` — and it is closed and no tuple.
-/

namespace LuaTyping

/-! ## Closed types -/

/-- Neither variables nor quantifiers may occur. What checks hold does not count. -/
def Permit.closed : Permit where
  var _ := False
  literal _ _ := True
  key _ := True
  checked := False
  place _ := True
  quantified := False

namespace Ty

/-- A closed type: neither variables nor quantifiers occur in it, not in the keys of tables
either. -/
def Ground (t : Ty) : Prop := t.Within .closed

variable {t : Ty}

lemma ground_con_iff {c : String} {args : List Ty} {v : Option Literal} {checks : List Checked} :
    Ground (.con c args v checks) ↔ ∀ a ∈ args, a.Ground := by
  simp [Ground, ChecksWithin, Permit.closed]

namespace Ground

/-- A closed type is its only instance. -/
lemma freshen (h : t.Ground) (own : Bool) (i : Instances) : t.freshen own i = (t, i) := by
  unfold Ground at h
  induction h generalizing own with
  | var hx => exact hx.elim
  | con _ _ _ _ ih =>
    have hargs := freshenList_eq_map (g := id) fun a ha => ih a ha own
    simp only [Ty.freshen, bind, StateT.bind, hargs, pure, StateT.pure, List.map_id]
  | table _ _ _ ihk ihv =>
    have hfields := freshenFields_eq_map (g := id) (fun f hf => ihk f hf own)
      fun f hf => ihv f hf own
    simp only [Ty.freshen, bind, StateT.bind, hfields, pure, StateT.pure, id, List.map_id']
  | union _ _ ihl ihr =>
    simp only [Ty.freshen, bind, StateT.bind, ihl, ihr, pure, StateT.pure]
  | all hq => exact hq.elim

lemma instantiate (h : t.Ground) (s : Supply) : t.instantiate s = (t, s) := by
  simp only [Ty.instantiate, StateT.run, h.freshen]

/-- Substitutions do not change closed types. -/
lemma replaceVars (h : t.Ground) (f : String → Except Fault Ty) : t.replaceVars f = .ok t := by
  unfold Ground at h
  induction h with
  | var hx => exact hx.elim
  | con _ _ _ _ ih =>
    have hargs := replaceVarsList_eq_ok.2 (List.forall₂_same.2 ih)
    simp only [Ty.replaceVars, hargs]
    rfl
  | table _ _ _ _ ih =>
    have hfields := replaceVarsFields_eq_ok.2 (List.forall₂_same.2 fun e he => ⟨rfl, ih e he⟩)
    simp only [Ty.replaceVars, hfields]
    rfl
  | union _ _ ihl ihr =>
    simp only [Ty.replaceVars, ihl, ihr]
    rfl
  | all hq => exact hq.elim

lemma apply (h : t.Ground) (s : Subst) : s.apply t = .ok t := by
  unfold Subst.apply
  cases s.bindings.length <;> exact h.replaceVars _

end Ground

/-! ## What the name of a type stands for -/

/-- The types that a name stands for in a test; for functions, with any variables as parameters,
result and variable arguments. -/
inductive Named (name : String) : Ty → Prop
  | plain : name ∈ ["number", "string", "boolean", "nil"] → Named name (.plain name)
  | table : name = "table" → Named name (.table [])
  | function (x y z : String) : name = "function" →
      Named name (.function (.var x) (.var y) (.var z) none)

end Ty

/-- From any letters, two computations come to the same value, which has `Q`, or both to faults. -/
abbrev Naming.Alike {α : Type} (Q : α → Prop) : Naming α → Naming α → Prop :=
  Mirror (fun _ _ => True) (fun _ _ => True) fun a b => b = a ∧ Q a

/-- What agrees with the same result agrees. -/
lemma Agree.same {α : Type} {E : Fault → Fault → Prop} {x x' y : Except Fault α}
    (h : Agree E Eq x y) (h' : Agree E Eq x' y) :
    Agree (fun _ _ => True) (fun a b => b = a ∧ True) x x' := by
  cases y with
  | error e =>
    cases x with
    | ok a => exact h.elim
    | error e₁ =>
      cases x' with
      | ok a => exact h'.elim
      | error e₂ => exact trivial
  | ok b =>
    cases x with
    | error e => exact h.elim
    | ok a =>
      cases x' with
      | error e => exact h'.elim
      | ok a' => exact ⟨Eq.trans h' (Eq.symm h), trivial⟩

namespace Naming.Alike

variable {α β : Type} {Q : α → Prop} {R : β → Prop} {x y : Naming α}

lemma pure {a : α} (h : Q a) : Alike Q (Pure.pure a) (Pure.pure a) := Mirror.pure ⟨rfl, h⟩

lemma bind {f g : α → Naming β} (h : Alike Q x y) (hf : ∀ a, Q a → Alike R (f a) (g a)) :
    Alike R (x >>= f) (y >>= g) :=
  Mirror.bind h fun a _ hab => hab.1 ▸ hf a hab.2

lemma of_mirrors {ρ : String → String} {p q : Naming Bool} (h : Naming.Mirrors ρ Eq p q) :
    Alike (fun _ => True) p p :=
  fun k k' _ => ⟨(h k k trivial).1.same (h k' k trivial).1, trivial⟩

/-- What computations give from any letters has what they promise. -/
lemma of_sat {F : Fault → Prop} (h : Alike (fun _ => True) x x) (hx : x.Sat Q F) : Alike Q x x := by
  intro k k' hk
  obtain ⟨hagree, -⟩ := h k k' hk
  refine ⟨?_, trivial⟩
  rcases hrun : outcome x k with ⟨e | a, k₁⟩ <;> rcases hrun' : outcome x k' with ⟨e' | a', k₂⟩ <;>
    rw [hrun, hrun'] at hagree
  · exact trivial
  · exact hagree.elim
  · exact hagree.elim
  · exact ⟨hagree.1, hx.of_eq_ok hrun⟩

end Naming.Alike

lemma Naming.alike_congruent : Congruent (Alike fun _ => True) where
  done r _ _ _ := by
    cases r with
    | ok a => exact ⟨⟨rfl, trivial⟩, trivial⟩
    | error f => exact ⟨trivial, trivial⟩
  bind h hf := h.bind fun a _ => hf a

namespace Ty

open Naming

variable {T t t' : Ty} {name : String}

lemma fits_alike (a b : Ty) : Alike (fun _ => True) (a.fits b) (a.fits b) :=
  .of_mirrors (fits_mirrors id a b)

lemma separateFields_alike {kept fields : List (Ty × Ty)} (hkept : FieldsWithin .closed kept)
    (hfields : FieldsWithin .closed fields) :
    Alike (FieldsWithin .closed) (separateFields fits kept fields)
      (separateFields fits kept fields) :=
  .of_sat (separateFields_congr alike_congruent fits_alike kept fields)
    (separateFields_sat keysTested_fits hkept hfields)

/-! ## The meet of a closed type with a named one -/

/-- A closed type other than a tuple. -/
def Single (t : Ty) : Prop := t.Ground ∧ t.isNamed "tuple" = false

/-- The result of a meet, if there is one, is a closed type other than a tuple. -/
abbrev MeetSingle (m : Option Ty) : Prop := ∀ t, m = some t → t.Single

/-- Two types that one name stands for are the same but for variables. -/
lemma Named.alike (h : Named name t) (h' : Named name t') :
    (∃ xs ys : List String, xs.length = ys.length ∧ name ≠ "tuple" ∧
      t = .con name (xs.map .var) none [] ∧ t' = .con name (ys.map .var) none []) ∨
      t = .table [] ∧ t' = .table [] := by
  cases h with
  | plain hname =>
    cases h' with
    | plain => exact .inl ⟨[], [], rfl, by rintro rfl; simp at hname, rfl, rfl⟩
    | table htable => simp [htable] at hname
    | function _ _ _ hfunction => simp [hfunction] at hname
  | table hname =>
    cases h' with
    | plain hplain => simp [hname] at hplain
    | table => exact .inr ⟨rfl, rfl⟩
    | function _ _ _ hfunction => exact absurd (hname.symm.trans hfunction) (by decide)
  | function x y z hname =>
    cases h' with
    | plain hplain => simp [hname] at hplain
    | table htable => exact absurd (hname.symm.trans htable) (by decide)
    | function x' y' z' =>
      subst hname
      exact .inl ⟨[x, y, z], [x', y', z'], rfl, by decide, rfl, rfl⟩

lemma meetTo_var_alike (depth : Nat) (hT : T.Ground) (x y : String) :
    Alike (· = some T) (meetTo fits depth (.var x) T) (meetTo fits depth (.var y) T) ∧
      Alike (· = some T) (meetTo fits depth T (.var x)) (meetTo fits depth T (.var y)) := by
  cases depth with
  | zero => exact ⟨.throw trivial, .throw trivial⟩
  | succ depth =>
    cases T with
    | var => exact (within_var_iff.1 hT).elim
    | _ => exact ⟨.pure rfl, .pure rfl⟩

/-- The result of a meet of lists, if there is one, is a list of closed types. -/
abbrev MeetsGround (m : Option (List Ty)) : Prop := ∀ ts, m = some ts → ∀ t ∈ ts, t.Ground

lemma meetLists_step {meet meet' : Ty → Ty → Naming (Option Ty)} {a b a' b' c : Ty}
    {as bs as' bs' : List Ty} (hc : c.Ground) (h : Alike (· = some c) (meet a b) (meet' a' b'))
    (hrest : Alike MeetsGround (meetLists meet as bs) (meetLists meet' as' bs')) :
    Alike MeetsGround (meetLists meet (a :: as) (b :: bs))
      (meetLists meet' (a' :: as') (b' :: bs')) := by
  rw [meetLists, meetLists]
  refine h.bind ?_
  rintro _ rfl
  refine hrest.bind fun m hm => ?_
  cases m with
  | none => exact .pure (by simp [MeetsGround])
  | some cs =>
    refine .pure fun ts hts t ht => ?_
    cases hts
    rcases List.mem_cons.1 ht with rfl | ht
    · exact hc
    · exact hm cs rfl t ht

lemma meetLists_vars_alike (depth : Nat) {xs ys : List String} (hlength : xs.length = ys.length)
    {ts : List Ty} (hts : ∀ t ∈ ts, t.Ground) :
    Alike MeetsGround (meetLists (meetTo fits depth) (xs.map .var) ts)
        (meetLists (meetTo fits depth) (ys.map .var) ts) ∧
      Alike MeetsGround (meetLists (meetTo fits depth) ts (xs.map .var))
        (meetLists (meetTo fits depth) ts (ys.map .var)) := by
  have hnil : MeetsGround (some []) := by simp [MeetsGround]
  induction ts generalizing xs ys with
  | nil => cases xs <;> cases ys <;> exact ⟨.pure hnil, .pure hnil⟩
  | cons t ts ih =>
    cases xs with
    | nil =>
      obtain rfl := List.length_eq_zero_iff.1 hlength.symm
      exact ⟨.pure hnil, .pure hnil⟩
    | cons x xs =>
      cases ys with
      | nil => cases hlength
      | cons y ys =>
        have ht := hts t (by simp)
        have hhead := meetTo_var_alike depth ht x y
        have hrest := ih (Nat.succ.inj hlength) fun t ht => hts t (by simp [ht])
        exact ⟨meetLists_step ht hhead.1 hrest.1, meetLists_step ht hhead.2 hrest.2⟩

lemma meet_union_alike {left right left' right' : Naming (Option Ty)}
    (hl : Alike MeetSingle left left') (hr : Alike MeetSingle right right') :
    Alike MeetSingle
      (do match ← left with
        | some t => return some t
        | none => right)
      (do match ← left' with
        | some t => return some t
        | none => right') := by
  refine hl.bind fun m hm => ?_
  cases m with
  | none => exact hr
  | some t => exact .pure hm

/-- Two constructors have a meet if their names are the same and their arguments have one. -/
lemma meet_con_alike {args args' : Naming (Option (List Ty))} (h : Alike MeetsGround args args')
    {c d : String} (hname : c = d → c ≠ "tuple") (v : Option Literal) (checks : List Checked) :
    Alike MeetSingle
      (do if c = d then
            match ← args with
            | none => return none
            | some args => return some (.con c args v checks)
          else return none)
      (do if c = d then
            match ← args' with
            | none => return none
            | some args => return some (.con c args v checks)
          else return none) := by
  split
  · refine h.bind fun m hm => ?_
    cases m with
    | none => exact .pure fun _ h => nomatch h
    | some ts =>
      refine .pure fun t ht => ?_
      cases ht
      exact ⟨ground_con_iff.2 (hm ts rfl), by simpa [isNamed] using hname ‹_›⟩
  · exact .pure fun _ h => nomatch h

lemma meet_table_alike {fields : List (Ty × Ty)} (h : FieldsWithin .closed fields) :
    Alike MeetSingle (do return some (.table (← separateFields fits [] fields)))
      (do return some (.table (← separateFields fits [] fields))) := by
  have hseparate := separateFields_alike (List.forall_mem_nil _) h
  refine hseparate.bind fun kept hkept => .pure fun t ht => ?_
  cases ht
  exact ⟨within_table_iff.2 hkept, rfl⟩

/-- The meet of a closed type with what a name stands for does not depend on the variables in it,
and is no tuple. -/
lemma meetTo_named_alike (depth : Nat) (hT : T.Ground) (h : Named name t) (h' : Named name t') :
    Alike MeetSingle (meetTo fits depth t T) (meetTo fits depth t' T) ∧
      Alike MeetSingle (meetTo fits depth T t) (meetTo fits depth T t') := by
  have hnone : MeetSingle none := fun _ h => nomatch h
  have hshape := h.alike h'
  clear h h'
  induction T generalizing depth with
  | var x => exact (within_var_iff.1 hT).elim
  | con c ts v checks _ =>
    cases depth with
    | zero => exact ⟨.throw trivial, .throw trivial⟩
    | succ depth =>
      rcases hshape with ⟨xs, ys, hlength, hname, rfl, rfl⟩ | ⟨rfl, rfl⟩
      · obtain ⟨hfirst, hsecond⟩ := meetLists_vars_alike depth hlength (ground_con_iff.1 hT)
        exact ⟨meet_con_alike hfirst (fun _ => hname) _ _,
          meet_con_alike hsecond (fun hc => hc ▸ hname) _ _⟩
      · exact ⟨.pure hnone, .pure hnone⟩
  | table fields _ =>
    cases depth with
    | zero => exact ⟨.throw trivial, .throw trivial⟩
    | succ depth =>
      rcases hshape with ⟨xs, ys, _, _, rfl, rfl⟩ | ⟨rfl, rfl⟩
      · exact ⟨.pure hnone, .pure hnone⟩
      · have hfields := within_table_iff.1 hT
        exact ⟨meet_table_alike hfields, meet_table_alike (by rwa [List.append_nil])⟩
  | union left right ihl ihr =>
    obtain ⟨hl, hr⟩ := within_union_iff.1 hT
    cases depth with
    | zero => exact ⟨.throw trivial, .throw trivial⟩
    | succ depth =>
      have hboth := meet_union_alike (ihl depth hl).1 (ihr depth hr).1
      rcases hshape with ⟨xs, ys, _, _, rfl, rfl⟩ | ⟨rfl, rfl⟩ <;> exact ⟨hboth, hboth⟩
  | all x body _ => exact (within_all_iff.1 hT).1.elim

lemma Named.size_eq (h : Named name t) (h' : Named name t') : t.size = t'.size := by
  rcases h.alike h' with ⟨xs, ys, hlength, _, rfl, rfl⟩ | ⟨rfl, rfl⟩
  · have hsize : ∀ zs : List String, sizeList (zs.map .var) = zs.length := by
      intro zs
      induction zs with
      | nil => rfl
      | cons z zs ih => rw [List.map_cons, sizeList, ih, List.length_cons, Nat.add_comm]; rfl
    rw [size, size, hsize, hsize, hlength]
  · rfl

lemma meet_named_alike (hT : T.Ground) (h : Named name t) (h' : Named name t') :
    Alike MeetSingle (T.meet t) (T.meet t') := by
  unfold meet meetWith
  rw [h.size_eq h']
  exact (meetTo_named_alike _ hT h h').2

/-- What a closed type and the types that a name stands for have in common, if anything. -/
def Meets (T : Ty) (name : String) (m : Option Ty) : Prop :=
  ∃ t k, Named name t ∧ (outcome (T.meet t) k).1 = .ok m

lemma Meets.unique {m m' : Option Ty} (hT : T.Ground) (h : Meets T name m) (h' : Meets T name m') :
    m = m' := by
  obtain ⟨t, k, ht, hm⟩ := h
  obtain ⟨t', k', ht', hm'⟩ := h'
  have halike := (meet_named_alike hT ht ht' k k' trivial).1
  rw [hm, hm'] at halike
  exact halike.1.symm

lemma Meets.single {u : Ty} (hT : T.Ground) (h : Meets T name (some u)) : u.Single := by
  obtain ⟨t, k, ht, hm⟩ := h
  have halike := (meet_named_alike hT ht ht k k trivial).1
  rw [hm] at halike
  exact halike.2 u rfl

end Ty

end LuaTyping
