import LuaTyping.Proofs.Deepening
import LuaTyping.Proofs.KeyPaths
import LuaTyping.Proofs.LowerBounds
import LuaTyping.Proofs.UpperBounds

set_option autoImplicit false

/-!
# The types of table constructors

The fields of a table constructor are entered into its type one by one. A field whose key extends
that of an earlier field is merged into the first such field: its value is broadened if the two
values unify, and joined with the new one otherwise. So the keys that are there stay, in their
order, and for unions of numbers, texts and the absent value the values only grow. The type of the
constructor thus covers all its fields, also those that have been merged.

## Main definitions

* `Entered`, `Filled` — one field or more are entered into a list.
* `FieldCovered` — the first field that a key leads to has a value that covers another.
* `Check.FieldTypes` — what is inferred of a field in a table constructor.

## Main results

* `Check.table_covers_fields` — the type of a table constructor covers its fields.
-/

namespace LuaTyping

/-! ## Answers -/

namespace Ty

variable {a b c u v w : Ty}

lemma Tests.usableAs (h : a.Tests b true) : a.UsableAs b := by
  obtain ⟨k, k', hk⟩ := h
  intro letters
  obtain ⟨letters', heq⟩ := (fits_alike a b).exists_eq hk letters
  rw [Ensures, heq]

lemma Tests.not_usableAs (h : a.Tests b false) : ¬ a.UsableAs b := by
  obtain ⟨k, k', hk⟩ := h
  exact fun husable => Bool.false_ne_true (husable.of_eq_ok hk)

/-! ## Merged values -/

/-- The value of a field with value `w` that a field with value `v` has been merged into. -/
inductive Merged (v w : Ty) : Ty → Prop
  | joined {r : Unified} {message : String} {u : Ty} {k₁ k₁' k₂ k₂' : Letters} :
      outcome (unify v w) k₁ = (.ok r, k₁') → r.outcome = .error message →
      outcome (r.left.join r.right) k₂ = (.ok u, k₂') → Merged v w u
  | broadened {r : Unified} {s : Subst} {u : Ty} {k k' : Letters} :
      outcome (unify v w) k = (.ok r, k') → r.outcome = .ok s →
      s.apply r.right.broaden = .ok u → Merged v w u

namespace Basic

lemma usableAs_self (h : a.Basic) : a.UsableAs a := (h.usableAs_iff h).2 h.regular.under_self

lemma usableAs_trans (ha : a.Basic) (hb : b.Basic) (hc : c.Basic) (hab : a.UsableAs b)
    (hbc : b.UsableAs c) : a.UsableAs c := by
  rw [ha.usableAs_iff hb] at hab
  rw [hb.usableAs_iff hc] at hbc
  exact (ha.usableAs_iff hc).2 (hab.trans hbc)

lemma broaden (h : a.Basic) : a.broaden.Basic := by
  induction h with
  | con checks hn _ => exact .con checks hn nofun
  | union _ _ ihl ihr => exact .union ihl ihr

lemma under_broaden (h : a.Basic) : Under a a.broaden := by
  induction h with
  | con checks _ _ => exact .con _ _ _ rfl rfl (by simp)
  | union _ _ ihl ihr => exact .union (.left _ ihl) (.right _ ihr)

lemma ofArity (h : a.Basic) : a.OfArity fun _ => 0 := by
  induction h with
  | con checks _ _ => exact .con _ checks rfl (by simp)
  | union _ _ ihl ihr => exact .union ihl ihr

/-- A literal value is kept instead of none only where its type extends the other one anyway. -/
lemma under_of_narrows (ha : a.Basic) (h : Narrows a b) (hb : b.Basic) : Under a b := by
  cases ha with
  | con =>
    cases h with
    | value =>
      cases hb with
      | con => exact .con _ _ _ rfl rfl (by simp)
    | arg _ _ _ _ harg => simp at harg
  | union => cases h

/-- The join of two types is again a union of numbers, texts and the absent value. -/
lemma exists_join (ha : a.Basic) (hb : b.Basic) :
    ∃ r, a.join b = pure r ∧ r.Basic ∧ Bounds a b r := by
  obtain ⟨r, hr, hbounds⟩ := joinTo_bounds ha.regular hb.regular ha.ofArity hb.ofArity
    (Nat.le_add_right a.size b.size)
  have heq : ∀ t, (pure t : Naming Ty) = pure r → t = r :=
    fun t ht => Except.ok.inj (congrArg (fun x => (outcome x []).1) ht)
  have hunion : (Ty.union a b).Basic := .union ha hb
  refine ⟨r, hr, ?_, hbounds⟩
  obtain ⟨depth, hdepth⟩ := Nat.exists_eq_succ_of_ne_zero
    (Nat.ne_of_gt (Nat.add_pos_left a.size_pos b.size))
  rw [hdepth] at hr
  cases ha with
  | union => cases hb <;> exact heq _ hr ▸ hunion
  | con _ hc hv =>
    cases hb with
    | union => exact heq _ hr ▸ hunion
    | con =>
      rw [joinTo_con] at hr
      split at hr
      · exact heq _ hr ▸ .con _ hc hv
      · exact heq _ hr ▸ hunion

end Basic

/-- A merged value covers both values.

**Proof sketch.** If the new value unifies with the old one, it extends it, and both extend what the
old one is broadened to. Otherwise the two are joined. A join covers its first type, and the second
one too unless a literal value is kept where the second one has none; but then the first one extends
the second, and the two unify. -/
lemma Merged.covers (hv : v.Basic) (hw : w.Basic) (h : Merged v w u) :
    u.Basic ∧ v.UsableAs u ∧ w.UsableAs u := by
  have hunchanged := unify_unchanged hv.regular.simple hv.regular.trueless.args hw.regular.simple
    hw.regular.trueless
  cases h with
  | @joined r message _ k₁ k₁' k₂ k₂' hunify hfails hjoin =>
    obtain ⟨rfl, rfl, -⟩ := hunchanged.of_eq_ok hunify
    obtain ⟨t, ht, hbasic, hbounds⟩ := hv.exists_join hw
    rw [ht] at hjoin
    obtain rfl : t = u := Except.ok.inj (Prod.mk.inj hjoin).1
    have hnot : ¬ Under r.left r.right := by
      rw [← succeeds_iff_under hv.regular.simple hw.regular.simple hunify, Unified.succeeds, hfails]
      exact Bool.false_ne_true
    exact ⟨hbasic, (hv.usableAs_iff hbasic).2 hbounds.left, (hw.usableAs_iff hbasic).2
      (hbounds.right.2 fun hnarrows => hnot (hv.under_of_narrows hnarrows hw))⟩
  | @broadened r s _ k k' hunify hok happly =>
    obtain ⟨rfl, rfl, -⟩ := hunchanged.of_eq_ok hunify
    rw [hw.broaden.regular.simple.apply] at happly
    cases happly
    have hunder : Under r.left r.right := by
      rw [← succeeds_iff_under hv.regular.simple hw.regular.simple hunify, Unified.succeeds, hok]
    exact ⟨hw.broaden, (hv.usableAs_iff hw.broaden).2 (hunder.trans hw.under_broaden),
      (hw.usableAs_iff hw.broaden).2 hw.under_broaden⟩

end Ty

/-! ## Entering fields -/

/-- A field is entered into a list: it is merged into the first field whose key covers its own, or
added if there is none. -/
inductive Entered (k v : Ty) : List (Ty × Ty) → List (Ty × Ty) → Prop
  | added : Entered k v [] [(k, v)]
  | merged {l w u : Ty} (rest : List (Ty × Ty)) : k.Tests l true → v.Merged w u →
      Entered k v ((l, w) :: rest) ((l, u) :: rest)
  | later {l : Ty} (w : Ty) {rest rest' : List (Ty × Ty)} : k.Tests l false →
      Entered k v rest rest' → Entered k v ((l, w) :: rest) ((l, w) :: rest')

/-- Fields are entered into a list one after the other. -/
inductive Filled : List (Ty × Ty) → List (Ty × Ty) → List (Ty × Ty) → Prop
  | nil (types : List (Ty × Ty)) : Filled types [] types
  | cons {k v : Ty} {types types' parts filled : List (Ty × Ty)} : Entered k v types types' →
      Filled types' parts filled → Filled types ((k, v) :: parts) filled

/-- The first field whose key covers `k` has a value that covers `v`. -/
inductive FieldCovered (k v : Ty) : List (Ty × Ty) → Prop
  | here {l w : Ty} (rest : List (Ty × Ty)) : k.UsableAs l → v.UsableAs w →
      FieldCovered k v ((l, w) :: rest)
  | later {l : Ty} (w : Ty) {rest : List (Ty × Ty)} : ¬ k.UsableAs l → FieldCovered k v rest →
      FieldCovered k v ((l, w) :: rest)

/-- Keys and values are unions of numbers, texts and the absent value. -/
def BasicFields (fields : List (Ty × Ty)) : Prop := ∀ f ∈ fields, f.1.Basic ∧ f.2.Basic

variable {k v k' v' : Ty} {old new types parts filled : List (Ty × Ty)}

lemma basicFields_cons_iff {l w : Ty} :
    BasicFields ((l, w) :: old) ↔ (l.Basic ∧ w.Basic) ∧ BasicFields old :=
  List.forall_mem_cons

/-- What one entered field does: all fields stay within the types at hand, the entered one is
covered, and what has been covered before still is.

**Proof sketch.** By induction on the fields that the key is tested with. No key changes, so that
the first match of another key stays where it is; if it is the one that is merged into, its value
has grown. -/
lemma Entered.covers (hk : k.Basic) (hv : v.Basic) (hold : BasicFields old)
    (h : Entered k v old new) :
    BasicFields new ∧ FieldCovered k v new ∧
      ∀ k' v', v'.Basic → FieldCovered k' v' old → FieldCovered k' v' new := by
  induction h with
  | added =>
    exact ⟨List.forall_mem_singleton.2 ⟨hk, hv⟩, .here [] hk.usableAs_self hv.usableAs_self, nofun⟩
  | merged rest htest hmerged =>
    obtain ⟨⟨hl, hw⟩, hrest⟩ := basicFields_cons_iff.1 hold
    obtain ⟨hu, hvu, hwu⟩ := hmerged.covers hv hw
    refine ⟨basicFields_cons_iff.2 ⟨⟨hl, hu⟩, hrest⟩, .here rest htest.usableAs hvu, ?_⟩
    intro k' v' hv' hcovers
    cases hcovers with
    | here _ hkey hvalue => exact .here rest hkey (hv'.usableAs_trans hw hu hvalue hwu)
    | later _ hkey hcovers => exact .later _ hkey hcovers
  | later w htest _ ih =>
    obtain ⟨hlw, hrest⟩ := basicFields_cons_iff.1 hold
    obtain ⟨hbasic, hentered, hkept⟩ := ih hrest
    refine ⟨basicFields_cons_iff.2 ⟨hlw, hbasic⟩, .later w htest.not_usableAs hentered, ?_⟩
    intro k' v' hv' hcovers
    cases hcovers with
    | here _ hkey hvalue => exact .here _ hkey hvalue
    | later _ hkey hcovers => exact .later _ hkey (hkept k' v' hv' hcovers)

/-- All entered fields are covered in the end, and what has been covered before still is. -/
theorem Filled.covers (htypes : BasicFields types) (hparts : BasicFields parts)
    (h : Filled types parts filled) :
    (∀ p ∈ parts, FieldCovered p.1 p.2 filled) ∧
      ∀ k' v', v'.Basic → FieldCovered k' v' types → FieldCovered k' v' filled := by
  induction h with
  | nil => exact ⟨by simp, fun _ _ _ h => h⟩
  | cons hentered _ ih =>
    obtain ⟨⟨hk, hv⟩, hparts⟩ := basicFields_cons_iff.1 hparts
    obtain ⟨htypes', hcovers, hkept⟩ := hentered.covers hk hv htypes
    obtain ⟨hlater, hkept'⟩ := ih htypes' hparts
    refine ⟨List.forall_mem_cons.2 ⟨hkept' _ _ hv hcovers, hlater⟩, fun k' v' hv' h => ?_⟩
    exact hkept' k' v' hv' (hkept k' v' hv' h)

/-! ## Table constructors -/

namespace Check

variable {infer : Inference} {σ σ' : Session} {s : Subst} {i : Inferred}
  {fields : List (Node × Node)} {l : Location} {j : Nat}

lemma enterField_eq_ok (h : outcome (enterField k v old) σ = (.ok new, σ')) :
    Entered k v old new := by
  induction old generalizing new σ σ' with
  | nil =>
    obtain ⟨rfl, -⟩ := eq_of_outcome_eq (x := pure [(k, v)]) rfl h
    exact .added
  | cons f rest ih =>
    obtain ⟨l, w⟩ := f
    obtain ⟨covered, σ₁, htest, h⟩ := bind_eq_ok.1 h
    have htest := tests_of_naming htest
    cases covered with
    | false =>
      obtain ⟨rest', σ₂, hrest, h⟩ := bind_eq_ok.1 h
      cases h
      exact .later w htest (ih hrest)
    | true =>
      obtain ⟨r, σ₂, hunify, h⟩ := bind_eq_ok.1 h
      obtain ⟨letters, hunify⟩ := naming_eq_ok hunify
      cases houtcome : r.outcome with
      | error message =>
        simp only [houtcome] at h
        obtain ⟨u, σ₃, hjoin, h⟩ := bind_eq_ok.1 h
        cases h
        obtain ⟨letters', hjoin⟩ := naming_eq_ok hjoin
        exact .merged rest htest (.joined hunify houtcome hjoin)
      | ok s =>
        simp only [houtcome] at h
        obtain ⟨u, σ₃, happly, h⟩ := bind_eq_ok.1 h
        cases h
        exact .merged rest htest (.broadened hunify houtcome (apply_eq_ok.1 happly).1)

/-- The types of the key and the value of a field: those that are inferred after the fields before
it have been entered. -/
def PartTypes (infer : Inference) (s : Subst) (types : List (Ty × Ty)) (σ : Session)
    (fields : List (Node × Node)) (j : Nat) (k v : Ty) : Prop :=
  ∃ key value before sk sv σ₁ σ₂ σ₃, fields[j]? = some (key, value) ∧
    outcome (inferFields infer s types (fields.take j)) σ = (.ok before, σ₁) ∧
    outcome (infer key) σ₁ = (.ok ⟨sk, k⟩, σ₂) ∧ outcome (infer value) σ₂ = (.ok ⟨sv, v⟩, σ₃)

/-- A table constructor enters the types of its fields one by one. -/
lemma inferFields_eq_ok (hfields : ∀ key lv, (key, Node.vararg lv) ∉ fields)
    (h : outcome (inferFields infer s types fields) σ = (.ok i, σ')) :
    ∃ parts filled, i.type = .table filled ∧ Filled types parts filled ∧
      parts.length = fields.length ∧
      ∀ j k v, PartTypes infer s types σ fields j k v → parts[j]? = some (k, v) := by
  induction fields generalizing s types σ with
  | nil =>
    cases h
    refine ⟨[], types, rfl, .nil types, rfl, ?_⟩
    rintro j k v ⟨_, _, _, _, _, _, _, _, hj, -⟩
    simp at hj
  | cons f rest ih =>
    obtain ⟨key, value⟩ := f
    have hvalue : ∀ lv, value ≠ .vararg lv := fun lv hlv => hfields key lv (by simp [hlv])
    rw [inferFields.eq_4 _ _ _ _ _ _ hvalue] at h
    obtain ⟨⟨sk, k⟩, σ₁, hkey, h⟩ := bind_eq_ok.1 h
    obtain ⟨⟨sv, v⟩, σ₂, hval, h⟩ := bind_eq_ok.1 h
    obtain ⟨s₁, σ₃, hs₁, h⟩ := bind_eq_ok.1 h
    obtain ⟨s₂, σ₄, hs₂, h⟩ := bind_eq_ok.1 h
    obtain ⟨types', σ₅, henter, h⟩ := bind_eq_ok.1 h
    obtain ⟨parts, filled, htype, hfilled, hlength, hparts⟩ := ih
      (fun key lv hmem => hfields key lv (List.mem_cons_of_mem _ hmem)) h
    refine ⟨(k, v) :: parts, filled, htype, .cons (enterField_eq_ok henter) hfilled,
      congrArg (· + 1) hlength, ?_⟩
    rintro j k' v' ⟨key', value', before, sk', sv', τ₁, τ₂, τ₃, hj, hbefore, hkey', hval'⟩
    cases j with
    | zero =>
      -- the first field is inferred before anything is entered
      obtain ⟨rfl, rfl⟩ : key = key' ∧ value = value' := by simpa using hj
      cases hbefore
      obtain ⟨hk, rfl⟩ := eq_of_outcome_eq hkey hkey'
      obtain ⟨hv, -⟩ := eq_of_outcome_eq hval hval'
      rw [List.getElem?_cons_zero, (Inferred.mk.inj hk).2, (Inferred.mk.inj hv).2]
    | succ j =>
      rw [List.take_succ_cons, inferFields.eq_4 _ _ _ _ _ _ hvalue, outcome_bind, hkey] at hbefore
      simp only [outcome_bind, hval, hs₁, hs₂, henter] at hbefore
      exact hparts j k' v' ⟨key', value', before, sk', sv', τ₁, τ₂, τ₃, hj, hbefore, hkey', hval'⟩

/-- The types of the key and the value of a field of a table constructor: those that are inferred
after the constructor with the fields before it. -/
def FieldTypes (σ : Session) (l : Location) (fields : List (Node × Node)) (j : Nat) (k v : Ty) :
    Prop :=
  ∃ key value before sk sv σ₁ σ₂ σ₃, fields[j]? = some (key, value) ∧
    outcome (Check.infer (.table l (fields.take j))) σ = (.ok before, σ₁) ∧
    outcome (Check.infer key) σ₁ = (.ok ⟨sk, k⟩, σ₂) ∧
    outcome (Check.infer value) σ₂ = (.ok ⟨sv, v⟩, σ₃)

lemma sizePairs_take_le (fields : List (Node × Node)) (j : Nat) :
    Node.sizePairs (fields.take j) ≤ Node.sizePairs fields := by
  induction fields generalizing j with
  | nil => simp
  | cons f rest ih =>
    cases j with
    | zero => exact Nat.zero_le _
    | succ j =>
      have := ih j
      simp only [List.take_succ_cons, Node.sizePairs]
      omega

/-- What is inferred of a field alone is what the constructor infers of it, going deeper. -/
lemma FieldTypes.partTypes {depth : Nat} (hdepth : depthFor (.table l fields) = depth + 1)
    (h : FieldTypes σ l fields j k v) : PartTypes (inferTo depth) .empty [] σ fields j k v := by
  obtain ⟨key, value, before, sk, sv, σ₁, σ₂, σ₃, hj, hbefore, hkey, hvalue⟩ := h
  have hsize : key.size + value.size ≤ Node.sizePairs fields :=
    Node.size_le_sizePairs (List.mem_of_getElem? hj)
  have htake := sizePairs_take_le fields j
  simp only [depthFor, Node.size] at hdepth
  have hbefore' : outcome (inferTo (depth + 1) (.table l (fields.take j))) σ = (.ok before, σ₁) :=
    inferTo_eq_ok_of_le (by simp only [depthFor, Node.size]; omega) hbefore
  have hkey' : outcome (inferTo depth key) σ₁ = (.ok ⟨sk, k⟩, σ₂) :=
    inferTo_eq_ok_of_le (by simp only [depthFor]; omega) hkey
  have hvalue' : outcome (inferTo depth value) σ₂ = (.ok ⟨sv, v⟩, σ₃) :=
    inferTo_eq_ok_of_le (by simp only [depthFor]; omega) hvalue
  exact ⟨key, value, before, sk, sv, σ₁, σ₂, σ₃, hj, hbefore', hkey', hvalue'⟩

/-- **The type of a table constructor covers its fields**. Let no value be the variable arguments,
and let all keys and values have types that are unions of numbers, texts and the absent value. If
the constructor is accepted, then its type is that of a table, and the key of each field extends a
key of this table, and its value the value of the first such field.

**Proof sketch.** The types of the fields are entered one by one. Each is covered when it is
entered, and stays covered when more are entered, as values only grow. -/
theorem table_covers_fields (hfields : ∀ key lv, (key, Node.vararg lv) ∉ fields)
    (hbasic : ∀ j < fields.length, ∃ k v, FieldTypes σ l fields j k v ∧ k.Basic ∧ v.Basic)
    (h : outcome (Check.infer (.table l fields)) σ = (.ok i, σ')) :
    ∃ filled, i.type = .table filled ∧
      ∀ j k v, FieldTypes σ l fields j k v → FieldCovered k v filled := by
  obtain ⟨depth, hdepth⟩ : ∃ depth, depthFor (.table l fields) = depth + 1 := ⟨_, rfl⟩
  rw [Check.infer, hdepth] at h
  obtain ⟨parts, filled, htype, hfilled, hlength, hparts⟩ := inferFields_eq_ok hfields h
  have hbasicParts : BasicFields parts := by
    intro p hp
    obtain ⟨j, hj⟩ := List.mem_iff_getElem?.1 hp
    obtain ⟨k, v, htypes, hk, hv⟩ := hbasic j (hlength ▸ (List.getElem?_eq_some_iff.1 hj).1)
    obtain rfl := Option.some.inj (hj.symm.trans (hparts j k v (htypes.partTypes hdepth)))
    exact ⟨hk, hv⟩
  refine ⟨filled, htype, fun j k v htypes => ?_⟩
  have hmem := List.mem_of_getElem? (hparts j k v (htypes.partTypes hdepth))
  exact (hfilled.covers (by simp [BasicFields]) hbasicParts).1 _ hmem

/-- The fields `a = "x", a = "y"`. -/
def repeatedKey : List (Node × Node) :=
  [(.string default "a", .string default "x"), (.string default "a", .string default "y")]

theorem table_covers_fields_repeatedKey :
    (∀ key lv, (key, Node.vararg lv) ∉ repeatedKey) ∧
      FieldTypes .initial default repeatedKey 0 (.literal "string" (.text "a"))
        (.literal "string" (.text "x")) ∧
      FieldTypes .initial default repeatedKey 1 (.literal "string" (.text "a"))
        (.literal "string" (.text "y")) ∧
      ∃ filled s σ,
        outcome (Check.infer (.table default repeatedKey)) .initial = (.ok ⟨s, .table filled⟩, σ) ∧
        FieldCovered (.literal "string" (.text "a")) (.literal "string" (.text "x")) filled ∧
        FieldCovered (.literal "string" (.text "a")) (.literal "string" (.text "y")) filled := by
  have hvararg : ∀ key lv, (key, Node.vararg lv) ∉ repeatedKey := by simp [repeatedKey]
  have hfirst : FieldTypes .initial default repeatedKey 0 (.literal "string" (.text "a"))
      (.literal "string" (.text "x")) :=
    ⟨_, _, _, _, _, _, _, _, rfl, rfl, rfl, rfl⟩
  have hsecond : FieldTypes .initial default repeatedKey 1 (.literal "string" (.text "a"))
      (.literal "string" (.text "y")) :=
    ⟨_, _, _, _, _, _, _, _, rfl, rfl, rfl, rfl⟩
  have hbasic : ∀ j < repeatedKey.length, ∃ k v,
      FieldTypes .initial default repeatedKey j k v ∧ k.Basic ∧ v.Basic := by
    intro j hj
    match j, hj with
    | 0, _ => exact ⟨_, _, hfirst, Ty.basic_text "a", Ty.basic_text "x"⟩
    | 1, _ => exact ⟨_, _, hsecond, Ty.basic_text "a", Ty.basic_text "y"⟩
  obtain ⟨s, t, σ, hinfer⟩ : ∃ s t σ, outcome (Check.infer (.table default repeatedKey)) .initial =
      (.ok ⟨s, t⟩, σ) := ⟨_, _, _, rfl⟩
  obtain ⟨filled, rfl, hcovered⟩ := table_covers_fields hvararg hbasic hinfer
  exact ⟨hvararg, hfirst, hsecond, filled, s, σ, hinfer, hcovered 0 _ _ hfirst,
    hcovered 1 _ _ hsecond⟩

end Check

end LuaTyping
