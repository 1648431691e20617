import Mathlib
import LuaTyping.Types.Unify

set_option autoImplicit false

/-!
# Types with function results put into tuples

Unification puts bare function results into tuples, at any depth of the types that it is given. This
file has the relation between a type and what it can become that way, and a measure of types that
such a change leaves alone: the bulk of a type counts its nodes, and for each bare function result
one more, for the tuple that it may be put into.

## Main definitions

* `Ty.Wraps` — a type becomes another by putting function results into tuples.
* `Ty.bulk` — the number of nodes of a type, with room for such tuples.

## Main results

* `Ty.Wraps.bulk_eq` — the bulk stays the same.
* `Ty.bulk_wrapLeft_le`, `Ty.bulk_wrapRight_le` — a result that is put into a
  tuple stays within the room for it.
-/

namespace LuaTyping

namespace Ty

/-- The type on the right is the one on the left with some function results put into tuples. -/
inductive Wraps : Ty → Ty → Prop
  | refl (t : Ty) : Wraps t t
  | trans {a b c : Ty} : Wraps a b → Wraps b c → Wraps a c
  | arg {a b : Ty} (c : String) (before after : List Ty) (v : Option Literal)
      (checks : List Checked) : Wraps a b →
      Wraps (.con c (before ++ a :: after) v checks) (.con c (before ++ b :: after) v checks)
  | field {a b : Ty} (before after : List (Ty × Ty)) (k : Ty) : Wraps a b →
      Wraps (.table (before ++ (k, a) :: after)) (.table (before ++ (k, b) :: after))
  | key {k l : Ty} (before after : List (Ty × Ty)) (v : Ty) : Wraps k l →
      Wraps (.table (before ++ (k, v) :: after)) (.table (before ++ (l, v) :: after))
  | left {a b : Ty} (right : Ty) : Wraps a b → Wraps (.union a right) (.union b right)
  | right {a b : Ty} (left : Ty) : Wraps a b → Wraps (.union left a) (.union left b)
  | result (p r : Ty) (rest : List Ty) (v : Option Literal) (checks : List Checked) :
      r.isNamed "tuple" = false →
      Wraps (.con "function" (p :: r :: rest) v checks)
        (.con "function" (p :: .tuple [r] :: rest) v checks)

/-! ## Bulk -/

mutual

/-- The number of nodes of a type, and one more for each bare function result. -/
def bulk : Ty → Nat
  | .var _ => 1
  | .con c args _ _ => (if c = "function" then bulkFunction args else bulkList args) + 1
  | .table fields => bulkFields fields + 1
  | .union left right => left.bulk + right.bulk + 1
  | .all _ body => body.bulk + 1

/-- The bulk of some types. -/
def bulkList : List Ty → Nat
  | [] => 0
  | t :: ts => t.bulk + bulkList ts

/-- The bulk of the arguments of a function type, of which the second one is the result. -/
def bulkFunction : List Ty → Nat
  | [] => 0
  | [p] => p.bulk
  | p :: r :: rest => p.bulk + (r.bulk + if r.isNamed "tuple" then 0 else 1) + bulkList rest

/-- The bulk of some fields. -/
def bulkFields : List (Ty × Ty) → Nat
  | [] => 0
  | (k, v) :: rest => k.bulk + v.bulk + bulkFields rest

end

lemma bulk_pos (t : Ty) : 0 < t.bulk := by
  cases t <;> simp [bulk]

lemma bulkList_append (ts us : List Ty) : bulkList (ts ++ us) = bulkList ts + bulkList us := by
  induction ts with
  | nil => simp [bulkList]
  | cons t ts ih => simp [bulkList, ih]; omega

lemma bulkFields_append (fs gs : List (Ty × Ty)) :
    bulkFields (fs ++ gs) = bulkFields fs + bulkFields gs := by
  induction fs with
  | nil => simp [bulkFields]
  | cons f fs ih => simp [bulkFields, ih]; omega

lemma bulkList_le_bulkFunction (args : List Ty) : bulkList args ≤ bulkFunction args := by
  match args with
  | [] => simp [bulkList, bulkFunction]
  | [p] => simp [bulkList, bulkFunction]
  | p :: r :: rest => simp only [bulkList, bulkFunction]; omega

lemma bulkList_lt_bulk (c : String) (args : List Ty) (v : Option Literal) (checks : List Checked) :
    bulkList args < (Ty.con c args v checks).bulk := by
  have h := bulkList_le_bulkFunction args
  simp only [bulk]
  split <;> omega

lemma bulk_le_bulkList {a : Ty} {args : List Ty} (ha : a ∈ args) : a.bulk ≤ bulkList args := by
  induction args with
  | nil => simp at ha
  | cons t ts ih =>
    simp only [bulkList]
    rcases List.mem_cons.1 ha with rfl | ha
    · omega
    · have := ih ha
      omega

lemma bulk_le_bulkFields {f : Ty × Ty} {fields : List (Ty × Ty)} (hf : f ∈ fields) :
    f.1.bulk + f.2.bulk ≤ bulkFields fields := by
  induction fields with
  | nil => simp at hf
  | cons g fields ih =>
    simp only [bulkFields]
    rcases List.mem_cons.1 hf with rfl | hf
    · omega
    · have := ih hf
      omega

mutual

lemma bulk_broaden : ∀ t : Ty, t.broaden.bulk = t.bulk
  | .var _ => rfl
  | .con c args _ _ => by
    simp only [broaden, bulk, bulkList_broadenList args, bulkFunction_broadenList args]
  | .table _ => rfl
  | .union left right => by simp only [broaden, bulk, bulk_broaden left, bulk_broaden right]
  | .all _ _ => rfl

lemma bulkList_broadenList : ∀ ts : List Ty, bulkList (broadenList ts) = bulkList ts
  | [] => rfl
  | t :: ts => by simp only [broadenList, bulkList, bulk_broaden t, bulkList_broadenList ts]

lemma bulkFunction_broadenList : ∀ ts : List Ty, bulkFunction (broadenList ts) = bulkFunction ts
  | [] => rfl
  | [p] => by simp only [broadenList, bulkFunction, bulk_broaden p]
  | p :: r :: rest => by
    have hr : r.broaden.isNamed "tuple" = r.isNamed "tuple" := by cases r <;> rfl
    simp only [broadenList, bulkFunction, bulk_broaden p, bulk_broaden r, hr,
      bulkList_broadenList rest]

end

mutual

/-- The room for tuples at most doubles the number of nodes. -/
lemma bulk_le_size : ∀ t : Ty, t.bulk ≤ 2 * t.size
  | .var _ => by simp [bulk, size]
  | .con c args _ _ => by
    have hlist := bulkList_le_sizeList args
    have hfunction := bulkFunction_le_sizeList args
    simp only [bulk, size]
    split <;> omega
  | .table fields => by
    have := bulkFields_le_sizeFields fields
    simp only [bulk, size]
    omega
  | .union left right => by
    have := bulk_le_size left
    have := bulk_le_size right
    simp only [bulk, size]
    omega
  | .all _ body => by
    have := bulk_le_size body
    simp only [bulk, size]
    omega

lemma bulkList_le_sizeList : ∀ ts : List Ty, bulkList ts ≤ 2 * sizeList ts
  | [] => by simp [bulkList]
  | t :: ts => by
    have := bulk_le_size t
    have := bulkList_le_sizeList ts
    simp only [bulkList, sizeList]
    omega

lemma bulkFunction_le_sizeList : ∀ ts : List Ty, bulkFunction ts ≤ 2 * sizeList ts + 1
  | [] => by simp [bulkFunction]
  | [p] => by
    have := bulk_le_size p
    simp only [bulkFunction, sizeList]
    omega
  | p :: r :: rest => by
    have := bulk_le_size p
    have := bulk_le_size r
    have := bulkList_le_sizeList rest
    simp only [bulkFunction, sizeList]
    split <;> omega

lemma bulkFields_le_sizeFields : ∀ fs : List (Ty × Ty), bulkFields fs ≤ 2 * sizeFields fs
  | [] => by simp [bulkFields]
  | (k, v) :: rest => by
    have := bulk_le_size k
    have := bulk_le_size v
    have := bulkFields_le_sizeFields rest
    simp only [bulkFields, sizeFields]
    omega

end

/-! ## What wrapping keeps -/

namespace Wraps

variable {a b : Ty}

lemma isNamed_eq (h : Wraps a b) (c : String) : b.isNamed c = a.isNamed c := by
  induction h with
  | refl t => rfl
  | trans _ _ ih₁ ih₂ => rw [ih₂, ih₁]
  | arg | field | key | left | right | result => rfl

/-- Wrapping keeps the bulk of a type. -/
lemma bulk_eq (h : Wraps a b) : b.bulk = a.bulk := by
  induction h with
  | refl t => rfl
  | trans _ _ ih₁ ih₂ => rw [ih₂, ih₁]
  | @arg a b c before after v checks h ih =>
    have hlist : bulkList (before ++ b :: after) = bulkList (before ++ a :: after) := by
      simp only [bulkList_append, bulkList, ih]
    have hfunction : bulkFunction (before ++ b :: after) = bulkFunction (before ++ a :: after) := by
      -- the argument that changes may be the parameters, the result, or a later one
      match before with
      | [] =>
        cases after <;> simp [bulkFunction, ih]
      | [p] => simp only [List.singleton_append, bulkFunction, ih, h.isNamed_eq]
      | p :: r :: rest =>
        simp only [List.cons_append, bulkFunction, bulkList_append, bulkList, ih]
    simp only [bulk, hlist, hfunction]
  | field before after k _ ih => simp only [bulk, bulkFields_append, bulkFields, ih]
  | key before after v _ ih => simp only [bulk, bulkFields_append, bulkFields, ih]
  | left right _ ih => simp only [bulk, ih]
  | right left _ ih => simp only [bulk, ih]
  | result p r rest v checks hr =>
    have htuple : (Ty.tuple [r]).isNamed "tuple" = true := rfl
    simp only [bulk, bulkFunction, htuple, hr]
    simp [tuple, bulk, bulkList]

/-- Wrapping keeps the number of arguments of a constructor. -/
lemma exists_con {c : String} {as : List Ty} {v : Option Literal} {checks : List Checked}
    {t : Ty} (h : Wraps (.con c as v checks) t) :
    ∃ bs, t = .con c bs v checks ∧ bs.length = as.length := by
  generalize hs : Ty.con c as v checks = s at h
  induction h generalizing as with
  | refl => exact ⟨as, hs.symm, rfl⟩
  | trans _ _ ih₁ ih₂ =>
    obtain ⟨bs, hbs, hab⟩ := ih₁ hs
    obtain ⟨cs, hcs, hbc⟩ := ih₂ hbs.symm
    exact ⟨cs, hcs, hbc.trans hab⟩
  | arg | result =>
    rw [Ty.con.injEq] at hs
    obtain ⟨rfl, rfl, rfl, rfl⟩ := hs
    exact ⟨_, rfl, by simp⟩
  | field | key | left | right => simp at hs

lemma eq_of_nil {c : String} {v : Option Literal} {checks : List Checked}
    (h : Wraps (.con c [] v checks) b) : b = .con c [] v checks := by
  obtain ⟨bs, rfl, hlen⟩ := h.exists_con
  rw [List.eq_nil_of_length_eq_zero hlen]

/-- Wrapping in several arguments of a constructor. -/
lemma args {as bs : List Ty} (h : List.Forall₂ Wraps as bs) (c : String) (before : List Ty)
    (v : Option Literal) (checks : List Checked) :
    Wraps (.con c (before ++ as) v checks) (.con c (before ++ bs) v checks) := by
  induction h generalizing before with
  | nil => exact refl _
  | @cons a b as bs hab _ ih =>
    have hhead := arg c before as v checks hab
    have htail := ih (before ++ [b])
    simp only [List.append_assoc, List.singleton_append] at htail
    exact hhead.trans htail

/-- Wrapping in several fields of a table. -/
lemma fields {fs gs : List (Ty × Ty)}
    (h : List.Forall₂ (fun f g => Wraps f.1 g.1 ∧ Wraps f.2 g.2) fs gs) (before : List (Ty × Ty)) :
    Wraps (.table (before ++ fs)) (.table (before ++ gs)) := by
  induction h generalizing before with
  | nil => exact refl _
  | @cons f g fs gs hfg _ ih =>
    have hhead := (key before fs f.2 hfg.1).trans (field before fs g.1 hfg.2)
    have htail := ih (before ++ [g])
    simp only [List.append_assoc, List.singleton_append] at htail
    exact hhead.trans htail

end Wraps

/-! ## Function results -/

/-- The room that a function type has for its result. -/
def resultBulk (r : Ty) : Nat := r.bulk + if r.isNamed "tuple" then 0 else 1

lemma bulk_tuple_singleton (t : Ty) : (Ty.tuple [t]).bulk = t.bulk + 1 := by
  simp [tuple, bulk, bulkList]

/-- What is left as it is, or put into a tuple although it is none, stays within the room. -/
lemma bulk_le_resultBulk {r w : Ty} (h : w = r ∨ r.isNamed "tuple" = false ∧ w = .tuple [r]) :
    w.bulk ≤ resultBulk r := by
  rcases h with rfl | ⟨hr, rfl⟩
  · exact Nat.le_add_right _ _
  · rw [bulk_tuple_singleton, resultBulk, hr]
    simp

lemma wrapLeft_eq (r : Ty) :
    wrapLeft r = r ∨ r.isNamed "tuple" = false ∧ wrapLeft r = .tuple [r] := by
  cases r with
  | var x => exact .inl rfl
  | con c args v checks =>
    cases h : (Ty.con c args v checks).isNamed "tuple" with
    | true => exact .inl (by simp [wrapLeft, h])
    | false => exact .inr ⟨rfl, by simp [wrapLeft, h]⟩
  | table | union | all => exact .inr ⟨rfl, rfl⟩

lemma wrapRight_eq (other r : Ty) :
    wrapRight other r = r ∨ r.isNamed "tuple" = false ∧ wrapRight other r = .tuple [r] := by
  cases r with
  | var x =>
    cases other with
    | var y => exact .inl rfl
    | con | table | union | all =>
      simp only [wrapRight]
      split
      · exact .inl rfl
      · exact .inr ⟨rfl, rfl⟩
  | con c args v checks =>
    cases other with
    | var y => exact .inl rfl
    | con | table | union | all =>
      simp only [wrapRight]
      split
      · exact .inl rfl
      · exact .inr ⟨by simpa [isNamed] using ‹_›, rfl⟩
  | table | union | all => exact .inr ⟨rfl, rfl⟩

lemma bulk_wrapLeft_le (r : Ty) : (wrapLeft r).bulk ≤ resultBulk r :=
  bulk_le_resultBulk (wrapLeft_eq r)

lemma bulk_wrapRight_le (other r : Ty) : (wrapRight other r).bulk ≤ resultBulk r :=
  bulk_le_resultBulk (wrapRight_eq other r)

/-- A function type becomes one whose result is put into a tuple, or left as it is. -/
lemma Wraps.of_result {r w : Ty} (h : w = r ∨ r.isNamed "tuple" = false ∧ w = .tuple [r]) (p : Ty)
    (rest : List Ty) (v : Option Literal) (checks : List Checked) :
    Wraps (.con "function" (p :: r :: rest) v checks)
      (.con "function" (p :: w :: rest) v checks) := by
  rcases h with rfl | ⟨hr, rfl⟩
  · exact refl _
  · exact result p r rest v checks hr

end Ty

end LuaTyping
