import LuaTyping.Check.Path
import LuaTyping.Proofs.Within

set_option autoImplicit false

/-!
# What an assignment does to fields

An assignment to a path changes the list of fields of one table. It gives new values to the fields
whose keys cover the assigned one, or adds a field if there is none; the keys that were there and
their order stay. This file says so once, with the answers that the test of the keys has given, for
the fields of the table and for a type that the table is in.

## Main definitions

* `Ty.Tests` — an answer of the test whether one type extends another.
* `FieldsEdited` — what an assignment to a key does to a list of fields.
* `Ty.Edited` — one table in a type has been assigned to.

## Main results

* `Check.assignField_edited` — an assignment to a field.
* `Check.changeAt_edited` — an assignment at the end of a path.
-/

namespace LuaTyping

/-! ## Edits -/

/-- The test whether one type can be used where another one is wanted gives an answer, for some
letters. -/
def Ty.Tests (a b : Ty) (yes : Bool) : Prop :=
  ∃ k k', outcome (a.fits b) k = (.ok yes, k')

/-- What an assignment to a key does to a list of fields: those whose keys cover it get new values,
or the key is added if there are none. -/
inductive FieldsEdited (key : Ty) : List (Ty × Ty) → List (Ty × Ty) → Prop
  | replaced {old new : List (Ty × Ty)} : (∃ f ∈ old, key.Tests f.1 true) →
      List.Forall₂ (fun f g => g.1 = f.1 ∧ (g = f ∨ key.Tests f.1 true)) old new →
      FieldsEdited key old new
  | added {old : List (Ty × Ty)} (value : Ty) : (∀ f ∈ old, key.Tests f.1 false) →
      FieldsEdited key old (old ++ [(key, value)])

namespace Ty

/-- At most one table in a type, which fields or a quantifier lead to, has been assigned to. -/
inductive Edited : Ty → Ty → Prop
  | same (t : Ty) : Edited t t
  | here {key : Ty} {old new : List (Ty × Ty)} : FieldsEdited key old new →
      Edited (.table old) (.table new)
  | field {before after : List (Ty × Ty)} {k v v' : Ty} : Edited v v' →
      Edited (.table (before ++ (k, v) :: after)) (.table (before ++ (k, v') :: after))
  | body {y : String} {t u : Ty} : Edited t u → Edited (.all y t) (.all y u)

lemma splitField_eq_some {k : Ty} {fields before after : List (Ty × Ty)} {covers : Covers}
    {acc : List (Ty × Ty)} {f : Ty × Ty} {letters letters' : Letters}
    (h : outcome (splitField covers k acc fields) letters =
      (.ok (some (before, f, after)), letters')) : acc ++ fields = before ++ f :: after := by
  induction fields generalizing acc letters with
  | nil => cases h
  | cons g fields ih =>
    obtain ⟨covered, k', -, h⟩ := bind_eq_ok.1 h
    cases covered with
    | true =>
      obtain ⟨⟨rfl, rfl, rfl⟩, -⟩ : (acc = before ∧ g = f ∧ fields = after) ∧ k' = letters' := by
        simpa using h
      rfl
    | false => simpa using ih h

end Ty

/-! ## Assignments are edits -/

namespace Check

variable {σ σ' : Session} {l : Location} {key value t u : Ty} {old new : List (Ty × Ty)}

lemma outcome_naming {α : Type} (x : Naming α) (σ : Session) :
    outcome (naming x) σ = match outcome x σ.letters with
      | (.ok a, letters) => (.ok a, { σ with letters })
      | (.error f, letters) => (.error (.fault f), { σ with letters }) := by
  simp only [outcome, naming]
  rcases x σ.letters with ⟨_ | _, _⟩ <;> rfl

lemma naming_eq_ok {α : Type} {x : Naming α} {a : α} (h : outcome (naming x) σ = (.ok a, σ')) :
    ∃ letters, outcome x σ.letters = (.ok a, letters) := by
  rw [outcome_naming] at h
  rcases houtcome : outcome x σ.letters with ⟨f | b, letters⟩ <;> rw [houtcome] at h
  · simp at h
  · simp only [Prod.mk.injEq, Except.ok.injEq] at h
    exact ⟨letters, h.1 ▸ rfl⟩

lemma tests_of_naming {a b : Ty} {yes : Bool} (h : outcome (naming (a.fits b)) σ = (.ok yes, σ')) :
    a.Tests b yes := by
  obtain ⟨letters, h⟩ := naming_eq_ok h
  exact ⟨_, _, h⟩

/-- Fields are replaced in place, and the keys tell whether there is one. -/
lemma replaceFields_eq_ok {found : Bool} {value' : Ty}
    (h : outcome (replaceFields l key value old) σ = (.ok (new, found, value'), σ')) :
    List.Forall₂ (fun f g => g.1 = f.1 ∧ (g = f ∨ key.Tests f.1 true)) old new ∧
      (found = true → ∃ f ∈ old, key.Tests f.1 true) ∧
      (found = false → ∀ f ∈ old, key.Tests f.1 false) := by
  induction old generalizing new found value value' σ σ' with
  | nil =>
    obtain ⟨⟨rfl, rfl, -⟩, -⟩ : (new = [] ∧ found = false ∧ value' = value) ∧ σ' = σ := by
      simpa [replaceFields, eq_comm] using h
    exact ⟨.nil, nofun, by simp⟩
  | cons f rest ih =>
    obtain ⟨k, v⟩ := f
    obtain ⟨covered, σ₁, htest, h⟩ := bind_eq_ok.1 h
    have htest := tests_of_naming htest
    cases covered with
    | true =>
      obtain ⟨⟨s, w⟩, σ₂, -, h⟩ := bind_eq_ok.1 h
      obtain ⟨v', σ₃, -, h⟩ := bind_eq_ok.1 h
      obtain ⟨⟨fields, found', value''⟩, σ₄, hrest, h⟩ := bind_eq_ok.1 h
      obtain ⟨⟨rfl, rfl, -⟩, -⟩ : ((k, v') :: fields = new ∧ true = found ∧ value'' = value') ∧
          σ₄ = σ' := by simpa using h
      exact ⟨.cons ⟨rfl, .inr htest⟩ (ih hrest).1, fun _ => ⟨_, List.mem_cons_self, htest⟩, nofun⟩
    | false =>
      obtain ⟨⟨fields, found', value''⟩, σ₂, hrest, h⟩ := bind_eq_ok.1 h
      obtain ⟨⟨rfl, rfl, -⟩, -⟩ : ((k, v) :: fields = new ∧ found' = found ∧ value'' = value') ∧
          σ₂ = σ' := by simpa using h
      obtain ⟨hfields, hyes, hno⟩ := ih hrest
      refine ⟨.cons ⟨rfl, .inl rfl⟩ hfields, fun hfound => ?_, fun hfound => ?_⟩
      · obtain ⟨g, hg, hcovers⟩ := hyes hfound
        exact ⟨g, List.mem_cons_of_mem _ hg, hcovers⟩
      · exact List.forall_mem_cons.2 ⟨htest, hno hfound⟩

lemma assignField_edited (h : outcome (assignField l key value old) σ = (.ok new, σ')) :
    FieldsEdited key old new := by
  obtain ⟨⟨replaced, found, value'⟩, σ₁, hreplaced, h⟩ := bind_eq_ok.1 h
  obtain ⟨hfields, hyes, hno⟩ := replaceFields_eq_ok hreplaced
  cases found with
  | true =>
    cases h
    exact .replaced (hyes rfl) hfields
  | false =>
    cases h
    exact .added value (hno rfl)

/-- A change at the end of a path edits the type that the path begins with, if it edits the fields
that it is made to.

**Proof sketch.** By induction on the keys of the path. A key that is found leads into the value of
its field, and one that is not found is passed over. -/
lemma changeAt_edited {change : List (Ty × Ty) → Check (List (Ty × Ty))} {keys : List Ty}
    (hchange : ∀ old new τ τ', outcome (change old) τ = (.ok new, τ') → FieldsEdited key old new)
    (h : outcome (changeAt change keys t) σ = (.ok u, σ')) : t.Edited u := by
  induction keys generalizing t u σ σ' with
  | nil =>
    cases t with
    | table old =>
      obtain ⟨new, τ, hnew, h⟩ := bind_eq_ok.1 h
      cases h
      exact .here (hchange _ _ _ _ hnew)
    | var | con | union | all =>
      cases h
      exact .same _
  | cons k keys ih =>
    cases t with
    | table fields =>
      obtain ⟨found, τ, hfound, h⟩ := bind_eq_ok.1 h
      obtain ⟨letters, hfound⟩ := naming_eq_ok hfound
      cases found with
      | none => exact ih h
      | some found =>
        obtain ⟨before, ⟨l, v⟩, after⟩ := found
        obtain ⟨v', τ', hv, h⟩ := bind_eq_ok.1 h
        cases h
        obtain rfl : fields = before ++ (l, v) :: after := Ty.splitField_eq_some hfound
        exact .field (ih hv)
    | var | con | union | all => cases h

end Check

end LuaTyping
