import LuaTyping.Proofs.ScopeLeaks
import LuaTyping.Proofs.TypeTests
import LuaTyping.Proofs.Unfolding

set_option autoImplicit false

/-!
# The length of a table

The length operator wants a table without fields or a text, and a table without fields is meant to
stand for every table. But unification asks the other way round: each field of the type on the left
is looked up in the type on the right. This is what an index expression needs, which has the field
that it wants on the left. Here the table at hand is on the left, and none of its fields is found in
a table without fields. So the length of a table is accepted only if the table has no fields.

## Main definitions

* `Check.LengthRefused` — the length of a table is refused because of its first field.

## Main results

* `Check.table_length_accepted_iff` — which tables have a length.
-/

namespace LuaTyping

/-! ## Texts of types -/

lemma Ty.render_table_nil : (Ty.table []).render = pure "[]" := by
  rw [Ty.render_eq]
  rfl

lemma Ty.render_string : Ty.string.render = pure "string" := by
  rw [Ty.render_eq]
  rfl

/-! ## Unification -/

/-- A table with fields does not unify with a table without any: its first field is not there. -/
lemma unify_fields_nil (k v : Ty) (rest : List (Ty × Ty)) :
    unify (.table ((k, v) :: rest)) (.table []) = (do
      let key ← k.render
      return ⟨.error s!"Field `{key}` expected on type `[]`, but was not found",
        .table ((k, v) :: rest), .table []⟩) := by
  rw [unify_eq]
  simp only [unifyStep, unifyFields, seekField, pure_bind, bind_assoc, Ty.render_table_nil,
    String.append_assoc]
  rfl

/-- No table unifies with the type of texts. -/
lemma unify_table_string (fields : List (Ty × Ty)) :
    unify (.table fields) .string = (do
      let table ← (Ty.table fields).render
      return ⟨.error s!"Types dont unify: `{table}` and `string`", .table fields, .string⟩) := by
  rw [unify_eq]
  have hstep : unifyStep unify Ty.render (.table fields) .string = (do
      let left ← (Ty.table fields).render
      let right ← Ty.string.render
      return ⟨.error s!"Types dont unify: `{left}` and `{right}`", .table fields, .string⟩) := rfl
  simp only [hstep, Ty.render_string, pure_bind, String.append_assoc]
  rfl

/-- A table with fields is neither a table without fields nor a text, and the first one is what is
told. Both texts are made, even though the second one is not used. -/
lemma unify_fields_length (k v : Ty) (rest : List (Ty × Ty)) :
    unify (.table ((k, v) :: rest)) (.union (.table []) .string) = (do
      let key ← k.render
      let _ ← (Ty.table ((k, v) :: rest)).render
      return ⟨.error s!"Field `{key}` expected on type `[]`, but was not found",
        .table ((k, v) :: rest), .union (.table []) .string⟩) := by
  rw [unify_eq]
  simp only [unifyStep, unify_fields_nil, unify_table_string, bind_assoc, pure_bind]

lemma unify_nil_length :
    unify (.table []) (.union (.table []) .string) =
      pure ⟨.ok .empty, .table [], .union (.table []) .string⟩ := by
  have hnil : unify (.table []) (.table []) = pure ⟨.ok .empty, .table [], .table []⟩ := by
    rw [unify_eq]
    rfl
  rw [unify_eq]
  simp only [unifyStep, hnil, unify_table_string, Ty.render_table_nil, pure_bind]

namespace Check

variable {x : String} {σ : Session} {fields : List (Ty × Ty)} {l lx : Location}

/-- The length `#x` of a local name whose type is a closed table comes to a unification of the
table. -/
lemma outcome_infer_length (hx : σ.scopes.local? x = some (.table fields))
    (hclosed : (Ty.table fields).Ground) :
    outcome (Check.infer (.unary l .length (.var lx x))) σ =
      outcome (demand l .empty (.table fields) (.union (.table []) .string) .number) σ := by
  obtain ⟨depth, hdepth⟩ : ∃ depth, depthFor (.unary l .length (.var lx x)) = depth + 2 := ⟨_, rfl⟩
  have hinfer : Check.infer (.unary l .length (.var lx x)) =
      inferUnary (inferTo (depth + 1)) l .length (.var lx x) := by
    rw [Check.infer, hdepth]
    rfl
  have hvar : outcome (inferTo (depth + 1) (.var lx x)) σ = (.ok (ofType (.table fields)), σ) :=
    outcome_inferVar hx hclosed
  rw [hinfer, inferUnary, outcome_bind, hvar]
  rfl

/-- The length `#x` in a session is refused since the table `(k, v) :: rest` has a field: the first
key is reported as missing, or the check breaks off as the key or the table has no text. -/
def LengthRefused (σ : Session) (l lx : Location) (x : String) (k v : Ty) (rest : List (Ty × Ty)) :
    Prop :=
  (∃ key letters σ', outcome k.render σ.letters = (.ok key, letters) ∧
    outcome (Check.infer (.unary l .length (.var lx x))) σ = (.error (.report l
      s!"Field `{key}` expected on type `[]`, but was not found"), σ')) ∨
  ∃ f letters letters' σ', (outcome k.render letters = (.error f, letters') ∨
      outcome (Ty.table ((k, v) :: rest)).render letters = (.error f, letters')) ∧
    outcome (Check.infer (.unary l .length (.var lx x))) σ = (.error (.fault f), σ')

/-- **Which tables have a length**. Let a local name have a closed table as its type, with any
fields. If there are none, then its length is a number. Otherwise its length is refused: a report
names the first key as a field that is missing, unless the check breaks off because the key or the
table has no text. -/
theorem table_length_accepted_iff (hx : σ.scopes.local? x = some (.table fields))
    (hclosed : (Ty.table fields).Ground) (l lx : Location) :
    (fields = [] ∧
      outcome (Check.infer (.unary l .length (.var lx x))) σ = (.ok ⟨.empty, .number⟩, σ)) ∨
    ∃ k v rest, fields = (k, v) :: rest ∧ LengthRefused σ l lx x k v rest := by
  cases fields with
  | nil =>
    refine .inl ⟨rfl, ?_⟩
    rw [outcome_infer_length hx hclosed, demand, unifyAt, unify_nil_length]
    rfl
  | cons field rest =>
    obtain ⟨k, v⟩ := field
    refine .inr ⟨k, v, rest, rfl, ?_⟩
    rw [LengthRefused, outcome_infer_length hx hclosed, demand, unifyAt, unify_fields_length]
    simp only [outcome_bind, outcome_naming]
    rcases hkey : outcome k.render σ.letters with ⟨f | key, letters⟩
    · exact .inr ⟨f, σ.letters, letters, { σ with letters }, .inl hkey, rfl⟩
    · simp only
      rcases htable : outcome (Ty.table ((k, v) :: rest)).render letters with ⟨f | text, letters'⟩
      · exact .inr ⟨f, letters, letters', { σ with letters := letters' }, .inr htable, rfl⟩
      · exact .inl ⟨key, letters, { σ with letters := letters' }, rfl, rfl⟩

/-- The type of a table with one field, which has a text as its key. -/
def oneField (key : String) (t : Ty) : Ty := .table [(.literal "string" (.text key), t)]

lemma ground_oneField {t : Ty} (h : t.Ground) (key : String) : (oneField key t).Ground :=
  Ty.within_table_iff.2 (List.forall_mem_singleton.2
    ⟨trivial, Ty.ground_con_iff.2 (by simp), h⟩)

theorem table_length_accepted_iff_nested :
    (oneField "a" (oneField "b" .string)).Ground ∧
      LengthRefused (.withLocals [("x", .own (oneField "a" (oneField "b" .string)))]) default
        default "x" (.literal "string" (.text "a")) (oneField "b" .string) [] := by
  have hclosed : (oneField "a" (oneField "b" .string)).Ground :=
    ground_oneField (ground_oneField (Ty.within_plain "string") "b") "a"
  have hx : (Session.withLocals
      [("x", .own (oneField "a" (oneField "b" .string)))]).scopes.local? "x" =
        some (oneField "a" (oneField "b" .string)) := rfl
  refine ⟨hclosed, ?_⟩
  obtain ⟨hnil, -⟩ | ⟨k, v, rest, hfields, hrefused⟩ :=
    table_length_accepted_iff hx hclosed default default
  · simp at hnil
  · simp only [List.cons.injEq, Prod.mk.injEq] at hfields
    obtain ⟨⟨rfl, rfl⟩, rfl⟩ := hfields
    exact hrefused

/-- The length of a table with a field of numbers is refused. -/
theorem record_length_refused :
    (oneField "a" .number).Ground ∧
      ∃ σ', outcome (Check.infer (.unary default .length (.var default "x")))
        (.withLocals [("x", .own (oneField "a" .number))]) = (.error (.report default
          "Field `\"a\"` expected on type `[]`, but was not found"), σ') :=
  ⟨ground_oneField (Ty.within_plain "number") "a", _, rfl⟩

end Check

end LuaTyping
