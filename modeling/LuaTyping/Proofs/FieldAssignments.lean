import LuaTyping.Proofs.Admission
import LuaTyping.Proofs.ClosedReading
import LuaTyping.Proofs.NestedAssignments

set_option autoImplicit false

/-!
# Reading back what was assigned

If all keys of tables are literals, and no table has the same key twice, then a type is a tree of
tables in which each path of keys leads to at most one field. An assignment to such a path replaces
one field, or adds one, and what is read of the path afterwards is what was assigned, with its
literal values forgotten if there was a field before. Paths that part from it do not notice.

There is one exception. What is read through a union is what its alternatives have in common, but an
assignment does not go through unions: it is refused, although the path before the last key reads as
a table.

## Main definitions

* `Literal.sameKey`, `Ty.Parted` — keys that are the same, and paths that part.
* `Ty.Keyed` — closed types in which all keys are literals, none twice in a table.

## Main results

* `Check.setPath_read_back` — what is read after an assignment, and when it is refused.
-/

namespace LuaTyping

/-! ## Literal keys -/

namespace Literal

/-- Whether two literals are one key: they are of one kind, and equal. -/
def sameKey : Literal → Literal → Bool
  | .number d, .number e => d.equal e
  | .text s, .text t => s == t
  | .flag b, .flag c => b == c
  | _, _ => false

variable {a b c : Literal}

/-- A key that is written is the same as itself. -/
lemma sameKey_self {key : Node} (h : key.key? = some a) : a.sameKey a = true := by
  cases key with
  | number l v =>
    by_cases hv : v.equal v = true
    · obtain rfl : Literal.number v = a := by simpa [Node.key?, hv] using h
      exact hv
    · simp [Node.key?, hv] at h
  | string l v =>
    cases h
    exact beq_self_eq_true v
  | boolean l v =>
    cases h
    exact beq_self_eq_true v
  | _ => cases h

lemma sameKey_comm : a.sameKey b = b.sameKey a := by
  cases a with
  | number d =>
    cases b with
    | number e => exact Binary64.equal_comm d e
    | text | flag => rfl
  | text s =>
    cases b with
    | text t => exact Bool.beq_comm
    | number | flag => rfl
  | flag v =>
    cases b with
    | flag w => exact Bool.beq_comm
    | number | text => rfl

lemma sameKey_trans (hab : a.sameKey b = true) (hbc : b.sameKey c = true) : a.sameKey c = true := by
  cases b with
  | number e =>
    cases a with
    | number d =>
      cases c with
      | number f =>
        rw [sameKey_comm] at hbc
        exact Binary64.equal_of_equal hab hbc
      | text | flag => cases hbc
    | text | flag => cases hab
  | text t => cases a <;> cases c <;> simp_all [sameKey]
  | flag w => cases a <;> cases c <;> simp_all [sameKey]

lemma sameKey_congr (h : a.sameKey b = true) : a.sameKey c = b.sameKey c := by
  rw [Bool.eq_iff_iff]
  exact ⟨sameKey_trans (sameKey_comm ▸ h), sameKey_trans h⟩

end Literal

namespace Ty

open Naming

lemma exists_render_key (a : Literal) : ∃ text, render a.key = pure text := by
  cases a with
  | number d => exact ⟨_, rfl⟩
  | text s => exact ⟨_, rfl⟩
  | flag b => exact ⟨_, rfl⟩

/-- A literal key covers just those that are the same. -/
lemma fits_key (a b : Literal) : a.key.fits b.key = pure (a.sameKey b) := by
  have hfits : a.key.fits b.key = (do return (← unify a.key b.key).succeeds) := by
    cases a <;> cases b <;> rfl
  have hkinds : ∀ {c d : String} {v w : Option Literal}, c ≠ d →
      (do return (← unify (.con c [] v []) (.con d [] w [])).succeeds) =
        (pure false : Naming Bool) := by
    intro c d v w hne
    rw [unify_eq]
    simp [unifyStep, unifyConstructors, hne, Unified.succeeds]
  have hvalues : ∀ {c : String} {v w : Literal}, c ≠ "function" → v.equal w = a.sameKey b →
      a.key = .con c [] (some v) [] → b.key = .con c [] (some w) [] →
      (do return (← unify a.key b.key).succeeds) = (pure (a.sameKey b) : Naming Bool) := by
    intro c v w hc hequal ha hb
    obtain ⟨left, hleft⟩ := exists_render_key a
    obtain ⟨right, hright⟩ := exists_render_key b
    rw [ha] at hleft
    rw [hb] at hright
    rw [ha, hb, unify_eq]
    simp only [unifyStep, unifyConstructors, hleft, hright]
    cases h : a.sameKey b <;> simp [hequal, h, hc, Unified.succeeds, unifyLists]
  rw [hfits]
  cases a with
  | number d =>
    cases b with
    | number e => exact hvalues (by decide) rfl rfl rfl
    | text | flag => exact hkinds (by decide)
  | text s =>
    cases b with
    | text t => exact hvalues (by decide) rfl rfl rfl
    | number | flag => exact hkinds (by decide)
  | flag v =>
    cases b with
    | flag w => exact hvalues (by decide) (by cases v <;> cases w <;> rfl) rfl rfl
    | number | text => exact hkinds (by decide)

/-- The literal value of a type, if it has one. -/
def literal? : Ty → Option Literal
  | .con _ _ v _ => v
  | _ => none

/-- Whether a type is the same key as a literal. -/
def isKey (a : Literal) (k : Ty) : Bool := k.literal?.any a.sameKey

variable {a b : Literal} {k l t u v w : Ty} {fields before after old new : List (Ty × Ty)}

@[simp]
lemma isKey_key : b.key.isKey a = a.sameKey b := by cases b <;> rfl

lemma isKey_congr (h : a.sameKey b = true) (k : Ty) : k.isKey a = k.isKey b := by
  have heq : a.sameKey = b.sameKey := funext fun c => Literal.sameKey_congr h
  rw [isKey, isKey, heq]

@[simp]
lemma key_inj : a.key = b.key ↔ a = b := by
  cases a <;> cases b <;> simp [Literal.key, literal]

lemma ground_key : a.key.Ground := by
  cases a <;> exact ground_con_iff.2 nofun

/-- All keys of a table are literals. -/
def LiteralKeys (fields : List (Ty × Ty)) : Prop := ∀ f ∈ fields, ∃ a : Literal, f.1 = a.key

/-- No two keys of a table are the same. -/
def DistinctKeys (fields : List (Ty × Ty)) : Prop :=
  fields.Pairwise fun f g => ∀ a : Literal, f.1 = a.key → g.1.isKey a = false

lemma fits_eq_isKey (hk : ∃ b : Literal, k = b.key) : a.key.fits k = pure (k.isKey a) := by
  obtain ⟨b, rfl⟩ := hk
  rw [fits_key, isKey_key]

/-! ### Finding a literal key -/

lemma splitField_others {acc : List (Ty × Ty)} (hkeys : LiteralKeys before)
    (h : ∀ f ∈ before, f.1.isKey a = false) :
    splitField fits a.key acc (before ++ after) = splitField fits a.key (acc ++ before) after := by
  induction before generalizing acc with
  | nil => simp
  | cons f before ih =>
    rw [List.cons_append, splitField, fits_eq_isKey (hkeys f (by simp)), h f (by simp), pure_bind,
      if_neg Bool.false_ne_true, ih (fun g hg => hkeys g (by simp [hg]))
        fun g hg => h g (by simp [hg])]
    simp

lemma splitField_append {f : Ty × Ty} (hkeys : LiteralKeys (before ++ f :: after))
    (hbefore : ∀ g ∈ before, g.1.isKey a = false) (hf : f.1.isKey a = true) :
    splitField fits a.key [] (before ++ f :: after) = pure (some (before, f, after)) := by
  rw [splitField_others (fun g hg => hkeys g (by simp [hg])) hbefore, splitField,
    fits_eq_isKey (hkeys f (by simp)), hf, pure_bind, if_pos rfl, List.nil_append]

lemma splitField_of_find? (hkeys : LiteralKeys fields) {f : Ty × Ty}
    (h : fields.find? (fun f => f.1.isKey a) = some f) :
    ∃ before after, (∀ g ∈ before, g.1.isKey a = false) ∧
      splitField fits a.key [] fields = pure (some (before, f, after)) := by
  obtain ⟨hf, before, after, rfl, hbefore⟩ := List.find?_eq_some_iff_append.1 h
  have hothers : ∀ g ∈ before, g.1.isKey a = false := by simpa using hbefore
  exact ⟨before, after, hothers, splitField_append hkeys hothers hf⟩

lemma splitField_of_find?_eq_none (hkeys : LiteralKeys fields)
    (h : fields.find? (fun f => f.1.isKey a) = none) :
    splitField fits a.key [] fields = pure none := by
  have hothers : ∀ f ∈ fields, f.1.isKey a = false := by simpa using h
  have hsplit : splitField fits a.key [] (fields ++ []) = splitField fits a.key ([] ++ fields) [] :=
    splitField_others hkeys hothers
  rwa [List.append_nil] at hsplit

/-- Among literal keys, what is found is found without letters. -/
lemma Finds.splitField_eq {found : Option (List (Ty × Ty) × (Ty × Ty) × List (Ty × Ty))}
    (h : Finds a.key fields found) (hkeys : LiteralKeys fields) :
    splitField fits a.key [] fields = pure found := by
  obtain ⟨found', hfound⟩ : ∃ found', splitField fits a.key [] fields = pure found' := by
    cases hfind : fields.find? fun f => f.1.isKey a with
    | none => exact ⟨_, splitField_of_find?_eq_none hkeys hfind⟩
    | some f =>
      obtain ⟨before, after, -, hsplit⟩ := splitField_of_find? hkeys hfind
      exact ⟨_, hsplit⟩
  rw [hfound, h.unique ⟨[], [], by rw [hfound]; rfl⟩]

/-- It is the first field with the same key. -/
lemma Finds.first {f : Ty × Ty} (h : Finds a.key fields (some (before, f, after)))
    (hkeys : LiteralKeys fields) :
    fields.find? (fun f => f.1.isKey a) = some f ∧ ∀ g ∈ before, g.1.isKey a = false := by
  cases hfind : fields.find? fun f => f.1.isKey a with
  | none =>
    have hnone : Finds a.key fields none :=
      ⟨[], [], by rw [splitField_of_find?_eq_none hkeys hfind]; rfl⟩
    exact nomatch h.unique hnone
  | some g =>
    obtain ⟨before', after', hothers, hsplit⟩ := splitField_of_find? hkeys hfind
    have hsome : Finds a.key fields (some (before', g, after')) := ⟨[], [], by rw [hsplit]; rfl⟩
    obtain ⟨rfl, rfl, -⟩ : before = before' ∧ f = g ∧ after = after' := by
      simpa using h.unique hsome
    exact ⟨rfl, hothers⟩

/-- A table with literal keys offers what its first field with the same key has. -/
lemma offers_iff_find? (hkeys : LiteralKeys fields) (hfields : (table fields).Ground) :
    Offers a.key (.table fields) w ↔ ∃ l, fields.find? (fun f => f.1.isKey a) = some (l, w) := by
  rw [offers_table_iff hfields]
  constructor
  · rintro ⟨before, l, after, hfinds⟩
    exact ⟨l, (hfinds.first hkeys).1⟩
  · rintro ⟨l, hfind⟩
    obtain ⟨before, after, -, hsplit⟩ := splitField_of_find? hkeys hfind
    exact ⟨before, l, after, [], [], by rw [hsplit]; rfl⟩

/-! ## Types with literal keys -/

/-- A closed type, in which all keys of tables are literals and no table has two that are the
same. -/
inductive Keyed : Ty → Prop
  | con {c : String} {args : List Ty} {v : Option Literal} {checks : List Checked} :
      (∀ t ∈ args, Keyed t) → Keyed (.con c args v checks)
  | table {fields : List (Ty × Ty)} :
      LiteralKeys fields → DistinctKeys fields → (∀ f ∈ fields, Keyed f.2) → Keyed (.table fields)
  | union {left right : Ty} : Keyed left → Keyed right → Keyed (.union left right)

lemma LiteralKeys.ground (h : LiteralKeys fields) (hvalues : ∀ f ∈ fields, f.2.Ground) :
    (table fields).Ground := by
  refine within_table_iff.2 fun f hf => ⟨trivial, ?_, hvalues f hf⟩
  obtain ⟨b, hb⟩ := h f hf
  rw [hb]
  exact ground_key

lemma Keyed.ground (h : t.Keyed) : t.Ground := by
  induction h with
  | con _ ih => exact ground_con_iff.2 ih
  | table hkeys _ _ ih => exact hkeys.ground ih
  | union _ _ ihl ihr => exact .union ihl ihr

lemma Simple.ground (h : t.Simple) : t.Ground := by
  induction h with
  | con _ _ ih => exact ground_con_iff.2 ih
  | union _ _ ihl ihr => exact .union ihl ihr

lemma Keyed.leads {keys : List Ty} (ht : t.Keyed) (h : Leads keys t u) : u.Keyed := by
  induction h with
  | nil t => exact ht
  | @cons k l v _ _ fields _ _ hfind _ ih =>
    obtain _ | ⟨-, -, hvalues⟩ := ht
    exact ih (hvalues (l, v) (by rw [hfind.eq_append]; simp))

/-- If no two keys are the same, then a literal is at most one of them. -/
lemma DistinctKeys.others {f : Ty × Ty} (h : DistinctKeys (before ++ f :: after))
    (hkeys : LiteralKeys (before ++ f :: after)) (hf : f.1.isKey a = true) :
    (∀ g ∈ before, g.1.isKey a = false) ∧ ∀ g ∈ after, g.1.isKey a = false := by
  obtain ⟨-, hrest, hbefore⟩ := List.pairwise_append.1 h
  have hafter := (List.pairwise_cons.1 hrest).1
  constructor
  · intro g hg
    obtain ⟨c, hc⟩ := hkeys g (by simp [hg])
    have hfc : f.1.isKey c = false := hbefore g hg f (by simp) c hc
    rw [hc, isKey_key]
    cases hac : a.sameKey c with
    | false => rfl
    | true =>
      rw [isKey_congr hac, hfc] at hf
      cases hf
  · intro g hg
    obtain ⟨c, hc⟩ := hkeys f (by simp)
    rw [hc, isKey_key] at hf
    rw [isKey_congr hf]
    exact hafter g hg c hc

/-! ## Fields after an assignment -/

/-- The fields of a table after an assignment: the key that was assigned to has `u`, and the others
have what they had. -/
structure Assigned (a : Literal) (u : Ty) (old new : List (Ty × Ty)) : Prop where
  keys : LiteralKeys new
  ground : (table new).Ground
  self : ∃ l, new.find? (fun f => f.1.isKey a) = some (l, u)
  others : ∀ b : Literal, a.sameKey b = false →
    new.find? (fun f => f.1.isKey b) = old.find? (fun f => f.1.isKey b)

/-- A key that is not there is added. -/
lemma Assigned.append (hkeys : LiteralKeys old) (hold : (table old).Ground) (hu : u.Ground)
    (ha : a.sameKey a = true) (h : ∀ f ∈ old, f.1.isKey a = false) :
    Assigned a u old (old ++ [(a.key, u)]) := by
  have hnew : LiteralKeys (old ++ [(a.key, u)]) := by
    intro f hf
    rcases List.mem_append.1 hf with hf | hf
    · exact hkeys f hf
    · obtain rfl := List.mem_singleton.1 hf
      exact ⟨a, rfl⟩
  refine ⟨hnew, hnew.ground fun f hf => ?_, ⟨a.key, ?_⟩, fun b hb => ?_⟩
  · rcases List.mem_append.1 hf with hf | hf
    · exact (within_table_iff.1 hold f hf).2.2
    · obtain rfl := List.mem_singleton.1 hf
      exact hu
  · have hnone : old.find? (fun f => f.1.isKey a) = none := by simpa using h
    simp [List.find?_append, hnone, ha]
  · have hne : b.sameKey a = false := by rwa [Literal.sameKey_comm]
    simp [List.find?_append, hne]

/-- The field of a key that is there gets another type. -/
lemma Finds.assigned (h : Finds a.key old (some (before, (k, w), after))) (hkeys : LiteralKeys old)
    (hold : (table old).Ground) (hu : u.Ground) :
    Assigned a u old (before ++ (k, u) :: after) := by
  obtain ⟨hfind, hbefore⟩ := h.first hkeys
  have hk : k.isKey a = true := by simpa using List.find?_some hfind
  obtain rfl := h.eq_append
  have hnew : LiteralKeys (before ++ (k, u) :: after) := by
    intro f hf
    rcases List.mem_append.1 hf with hf | hf
    · exact hkeys f (by simp [hf])
    · rcases List.mem_cons.1 hf with rfl | hf
      · exact hkeys (k, w) (by simp)
      · exact hkeys f (by simp [hf])
  refine ⟨hnew, hnew.ground fun f hf => ?_, ⟨k, ?_⟩, fun b hb => ?_⟩
  · rcases List.mem_append.1 hf with hf | hf
    · exact (within_table_iff.1 hold f (by simp [hf])).2.2
    · rcases List.mem_cons.1 hf with rfl | hf
      · exact hu
      · exact (within_table_iff.1 hold f (by simp [hf])).2.2
  · have hnone : before.find? (fun f => f.1.isKey a) = none := by simpa using hbefore
    simp [List.find?_append, hnone, hk]
  · have hkb : k.isKey b = false := by
      obtain ⟨c, rfl⟩ : ∃ c : Literal, k = c.key := hkeys (k, w) (by simp)
      rw [isKey_key] at hk ⊢
      rw [Literal.sameKey_comm, ← Literal.sameKey_congr hk, hb]
    simp [List.find?_append, hkb]

namespace Assigned

lemma offers (h : Assigned a u old new) : Offers a.key (.table new) u :=
  (offers_iff_find? h.keys h.ground).2 h.self

lemma offers_same_iff (h : Assigned a u old new) (hb : b.sameKey a = true) :
    Offers b.key (.table new) w ↔ w = u := by
  have hoffers : Offers b.key (.table new) u := by
    rw [offers_iff_find? h.keys h.ground, funext fun f : Ty × Ty => isKey_congr hb f.1]
    exact h.self
  refine ⟨fun hw => hw.unique hoffers h.ground, ?_⟩
  rintro rfl
  exact hoffers

lemma offers_other_iff (h : Assigned a u old new) (hkeys : LiteralKeys old)
    (hold : (table old).Ground) (hb : b.sameKey a = false) :
    Offers b.key (.table new) w ↔ Offers b.key (.table old) w := by
  rw [offers_iff_find? h.keys h.ground, offers_iff_find? hkeys hold,
    h.others b (by rwa [Literal.sameKey_comm])]

end Assigned

/-! ## Other paths -/

/-- Two paths part: at some place they have keys that are not the same. -/
def Parted : List Literal → List Literal → Prop
  | a :: p, b :: q => a.sameKey b = false ∨ Parted p q
  | _, _ => False

/-- What a change of the fields of one table does to a type with literal keys: the path to the key
that was assigned to reads as what was assigned, and paths that part from it read as before. -/
lemma Rewrites.reads {init : List Literal} {t' : Ty}
    (h : Rewrites (.table old) (.table new) (init.map Literal.key) t t') (ht : t.Keyed)
    (hassigned : Assigned a u old new) :
    t'.Ground ∧ Reads (init ++ [a]) t' u ∧
      ∀ path w, Parted path (init ++ [a]) → (Reads path t' w ↔ Reads path t w) := by
  induction init generalizing t t' with
  | nil =>
    obtain _ | _ := h
    have hold := ht.ground
    obtain _ | ⟨hkeys, -, -⟩ := ht
    refine ⟨hassigned.ground, ⟨u, hassigned.offers, rfl⟩, fun path w hpath => ?_⟩
    obtain _ | ⟨b, path⟩ := path
    · exact hpath.elim
    · have hb : b.sameKey a = false := hpath.resolve_right (by cases path <;> exact id)
      simp only [Reads, hassigned.offers_other_iff hkeys hold hb]
  | cons c init ih =>
    obtain _ | @⟨_, l, v, v', _, fields, before, after, hfind, hrest⟩ := h
    have hfields := ht.ground
    obtain _ | ⟨hkeys, -, hvalues⟩ := ht
    have hmem : (l, v) ∈ fields := by rw [hfind.eq_append]; simp
    obtain ⟨hground, hself, hothers⟩ := ih hrest (hvalues _ hmem)
    have hnew : Assigned c v' fields (before ++ (l, v') :: after) :=
      hfind.assigned hkeys hfields hground
    refine ⟨hnew.ground, ⟨v', hnew.offers, hself⟩, fun path w hpath => ?_⟩
    obtain _ | ⟨b, path⟩ := path
    · exact hpath.elim
    · cases hb : b.sameKey c with
      | false => simp only [Reads, hnew.offers_other_iff hkeys hfields hb]
      | true =>
        -- on the way to the change: the field had `v` and has `v'`
        have hsame : Assigned c v fields (before ++ (l, v) :: after) :=
          hfind.assigned hkeys hfields (hvalues _ hmem).ground
        rw [← hfind.eq_append] at hsame
        have hpath : Parted path (init ++ [a]) := hpath.resolve_left (by simp [hb])
        simp only [Reads, hnew.offers_same_iff hb, hsame.offers_same_iff hb, exists_eq_left]
        exact hothers path w hpath

end Ty

/-! ## Assignments -/

namespace Check

open Naming Ty

variable {σ σ' : Session} {x : String} {init path : List Literal} {object key : Node} {k : Literal}
  {l : Location} {T u v w : Ty} {fields before after : List (Ty × Ty)}

lemma outcome_naming_fits (hk : ∃ b : Literal, w = b.key) :
    outcome (naming (k.key.fits w)) σ = (.ok (w.isKey k), σ) := by
  rw [fits_eq_isKey hk, outcome_naming_pure]

/-- Fields with other keys are left as they are. -/
lemma outcome_replaceFields_append (hkeys : LiteralKeys before)
    (h : ∀ f ∈ before, f.1.isKey k = false) :
    outcome (replaceFields l k.key v (before ++ after)) σ =
      match outcome (replaceFields l k.key v after) σ with
      | (.ok r, σ₁) => (.ok (before ++ r.1, r.2), σ₁)
      | (.error e, σ₁) => (.error e, σ₁) := by
  induction before with
  | nil =>
    rw [List.nil_append]
    rcases outcome (replaceFields l k.key v after) σ with ⟨e | r, σ₁⟩ <;> rfl
  | cons f before ih =>
    simp only [List.cons_append, replaceFields, outcome_bind,
      outcome_naming_fits (hkeys f (by simp)), h f (by simp), Bool.false_eq_true, if_false,
      ih (fun g hg => hkeys g (by simp [hg])) fun g hg => h g (by simp [hg])]
    rcases outcome (replaceFields l k.key v after) σ with ⟨e | r, σ₁⟩ <;> rfl

lemma outcome_replaceFields_absent (hkeys : LiteralKeys fields)
    (h : ∀ f ∈ fields, f.1.isKey k = false) :
    outcome (replaceFields l k.key v fields) σ = (.ok (fields, false, v), σ) := by
  have happend : outcome (replaceFields l k.key v (fields ++ [])) σ = _ :=
    outcome_replaceFields_append hkeys h
  simpa [replaceFields] using happend

lemma unifyAt_left (hv : v.Simple) {s : Subst} {r : Unified}
    (h : outcome (unifyAt l v w) σ = (.ok (s, r), σ')) : r.left = v := by
  obtain ⟨r', σ₁, hr, h⟩ := bind_eq_ok.1 h
  obtain ⟨letters, hr⟩ := naming_eq_ok hr
  rcases hout : r'.outcome with m | s' <;> rw [hout] at h
  · cases h
  · obtain ⟨rfl, rfl⟩ := Prod.mk.inj (Except.ok.inj (Prod.mk.inj h).1)
    exact hv.wraps_eq (wraps_of_unifyTo hr).1

lemma outcome_assignField_absent (hkeys : LiteralKeys fields)
    (h : ∀ f ∈ fields, f.1.isKey k = false) :
    outcome (assignField l k.key v fields) σ = (.ok (fields ++ [(k.key, v)]), σ) := by
  rw [assignField, outcome_bind, outcome_replaceFields_absent hkeys h]
  rfl

/-- The type of a field that is there becomes the broadened value, if the value unifies with what
the field has when broadened. -/
lemma outcome_assignField_present (hv : v.Simple) (hkeys : LiteralKeys (before ++ (u, w) :: after))
    (hbefore : ∀ f ∈ before, f.1.isKey k = false) (hu : u.isKey k = true)
    (hafter : ∀ f ∈ after, f.1.isKey k = false) :
    outcome (assignField l k.key v (before ++ (u, w) :: after)) σ =
      match outcome (unifyAt l v w.broaden) σ with
      | (.ok _, σ₁) => (.ok (before ++ (u, v.broaden) :: after), σ₁)
      | (.error e, σ₁) => (.error e, σ₁) := by
  rw [assignField, outcome_bind,
    outcome_replaceFields_append (fun f hf => hkeys f (by simp [hf])) hbefore]
  simp only [replaceFields, outcome_bind, outcome_naming_fits (hkeys (u, w) (by simp)), hu, if_true]
  rcases hunify : outcome (unifyAt l v w.broaden) σ with ⟨e | ⟨s, r⟩, σ₁⟩
  · rfl
  · have happly : outcome (apply s v.broaden) σ₁ = (.ok v.broaden, σ₁) :=
      apply_eq_ok.2 ⟨hv.broaden.apply s, rfl⟩
    simp only [unifyAt_left hv hunify, happly,
      outcome_replaceFields_absent (fun f hf => hkeys f (by simp [hf])) hafter]
    rfl

/-- A change at the end of a path through tables is made there. -/
lemma outcome_changeAt_of_leads {change : List (Ty × Ty) → Check (List (Ty × Ty))} (hT : T.Keyed)
    (h : Leads (init.map Literal.key) T (.table fields)) :
    (∀ e σ', outcome (change fields) σ = (.error e, σ') →
      outcome (changeAt change (init.map Literal.key) T) σ = (.error e, σ')) ∧
    ∀ new σ', outcome (change fields) σ = (.ok new, σ') →
      ∃ T', Rewrites (.table fields) (.table new) (init.map Literal.key) T T' ∧
        outcome (changeAt change (init.map Literal.key) T) σ = (.ok T', σ') := by
  induction init generalizing T with
  | nil =>
    cases h
    refine ⟨fun e σ' he => ?_, fun new σ' hnew => ⟨.table new, .here, ?_⟩⟩
    · rw [List.map_nil, changeAt, outcome_bind, he]
    · rw [List.map_nil, changeAt, outcome_bind, hnew]
      rfl
  | cons a init ih =>
    obtain _ | @⟨_, l, v, _, _, given, before, after, hfind, hrest⟩ := h
    obtain _ | ⟨hkeys, -, hvalues⟩ := hT
    have hmem : (l, v) ∈ given := by rw [hfind.eq_append]; simp
    have hsplit : outcome (naming (splitField fits a.key [] given)) σ =
        (.ok (some (before, (l, v), after)), σ) := by
      rw [hfind.splitField_eq hkeys, outcome_naming_pure]
    obtain ⟨herror, hok⟩ := ih (hvalues _ hmem) hrest
    refine ⟨fun e σ' he => ?_, fun new σ' hnew => ?_⟩
    · simp only [List.map_cons, changeAt, outcome_bind, hsplit, herror e σ' he]
    · obtain ⟨v', hrewrites, hv'⟩ := hok new σ' hnew
      refine ⟨_, .field hfind hrewrites, ?_⟩
      simp only [List.map_cons, changeAt, outcome_bind, hsplit, hv']
      rfl

/-- A path that reads as a table, but not through tables, is refused. -/
lemma outcome_changeAt_unmet {change : List (Ty × Ty) → Check (List (Ty × Ty))} (hT : T.Keyed)
    (hreads : T.Reads init (.table fields)) (h : ¬Leads (init.map Literal.key) T (.table fields)) :
    outcome (changeAt change (init.map Literal.key) T) σ = (.error (.fault .unmet), σ) := by
  induction init generalizing T with
  | nil =>
    obtain rfl : Ty.table fields = T := hreads
    exact absurd (.nil _) h
  | cons a init ih =>
    cases T with
    | table given =>
      obtain ⟨v, hoffers, hreads⟩ := hreads
      obtain ⟨before, l, after, hfind⟩ := (offers_table_iff hT.ground).1 hoffers
      obtain _ | ⟨hkeys, -, hvalues⟩ := hT
      have hmem : (l, v) ∈ given := by rw [hfind.eq_append]; simp
      have hsplit : outcome (naming (splitField fits a.key [] given)) σ =
          (.ok (some (before, (l, v), after)), σ) := by
        rw [hfind.splitField_eq hkeys, outcome_naming_pure]
      have hv := ih (hvalues _ hmem) hreads fun hleads => h (.cons hfind hleads)
      simp only [List.map_cons, changeAt, outcome_bind, hsplit, hv]
    | var | con | union | all => rfl

/-- After an assignment of `u` to a path from `x`, which had type `T`: the path reads as `u`, and
paths that part from it read as before. -/
def Written (x : String) (path : List Literal) (T u : Ty) (s : Scopes) : Prop :=
  ∃ T', s.local? x = some T' ∧ T'.Ground ∧ T'.Reads path u ∧
    ∀ p w, Parted p path → (T'.Reads p w ↔ T.Reads p w)

section Set

variable (hx : σ.scopes.local? x = some T) (hT : T.Keyed) (hobject : KeyPath x init object)
  (hkey : key.key? = some k)

include hx hT hobject hkey

/-- An assignment to a path from a variable with a closed type changes that type. -/
lemma outcome_setPath_keyed :
    outcome (setPath (.index l object key) v) σ =
      match outcome (changeAt (assignField l k.key v) (init.map Literal.key) T) σ with
      | (.ok T', σ₁) => (.ok (), { σ₁ with scopes := σ₁.scopes.update x T' })
      | (.error e, σ₁) => (.error e, σ₁) := by
  have hset := outcome_setPath (s := ⟨[], T, (hT.ground.settled 0).mono⟩) (l := l) (v := v)
    hobject hkey hx (Nat.zero_le _)
  exact hset

/-- An assignment that fails changes no type. -/
lemma setPath_eq_error {e : Stop}
    (h : outcome (setPath (.index l object key) v) σ = (.error e, σ')) : σ'.scopes = σ.scopes := by
  have hstill := Scopeless.scopes_eq (x := changeAt (assignField l k.key v)
    (init.map Literal.key) T) (scopeless_changeAt fun _ => scopeless_assignField) σ
  rw [outcome_setPath_keyed hx hT hobject hkey] at h
  rcases hchange : outcome (changeAt (assignField l k.key v) (init.map Literal.key) T) σ with
    ⟨e | T', σ₁⟩ <;> rw [hchange] at h hstill
  · rw [← (Prod.mk.inj h).2]
    exact hstill.1
  · cases h

/-- An assignment through tables writes what is assigned to the field. -/
lemma setPath_written (hleads : Leads (init.map Literal.key) T (.table fields))
    {new : List (Ty × Ty)} (hassign : outcome (assignField l k.key v fields) σ = (.ok new, σ'))
    (hnew : Assigned k u fields new) :
    ∃ σ₁, outcome (setPath (.index l object key) v) σ = (.ok (), σ₁) ∧
      Written x (init ++ [k]) T u σ₁.scopes := by
  obtain ⟨T', hrewrites, hchange⟩ := (outcome_changeAt_of_leads hT hleads).2 new σ' hassign
  obtain ⟨hground, hself, hothers⟩ := hrewrites.reads hT hnew
  have hstill := Scopeless.scopes_eq (x := changeAt (assignField l k.key v)
    (init.map Literal.key) T) (scopeless_changeAt fun _ => scopeless_assignField) σ
  rw [hchange] at hstill
  refine ⟨{ σ' with scopes := σ'.scopes.update x T' }, ?_, T', ?_, hground, hself, hothers⟩
  · rw [outcome_setPath_keyed hx hT hobject hkey, hchange]
  · exact Scopes.local?_update_self ((congrArg (·.local? x) hstill.1).trans hx)

end Set

lemma infer_iff {p : Node} (hx : σ.scopes.local? x = some T) (hT : T.Ground)
    (hp : KeyPath x path p) :
    (∃ i τ, outcome (infer p) σ = (.ok i, τ) ∧ i.type = w) ↔ T.Reads path w :=
  infer_iff_reads hx hT hp hp.length_lt

lemma Written.infer {p : Node} (h : Written x path T u σ.scopes) (hp : KeyPath x path p) :
    ∃ i τ, outcome (infer p) σ = (.ok i, τ) ∧ i.type = u := by
  obtain ⟨T', hx', hT', hself, -⟩ := h
  exact (infer_iff hx' hT' hp).2 hself

/-- A path that parts from it reads as before. -/
lemma Written.infer_iff {p : Node} {other : List Literal} (h : Written x path T u σ'.scopes)
    (hx : σ.scopes.local? x = some T) (hT : T.Ground) (hp : KeyPath x other p)
    (hother : Parted other path) :
    (∃ i τ, outcome (Check.infer p) σ' = (.ok i, τ) ∧ i.type = w) ↔
      ∃ i τ, outcome (Check.infer p) σ = (.ok i, τ) ∧ i.type = w := by
  obtain ⟨T', hx', hT', -, hothers⟩ := h
  rw [Check.infer_iff hx' hT' hp, Check.infer_iff hx hT hp, hothers other w hother]

/-- A simple type unifies with a closed one that has no values, from any letters, exactly if it
extends it. -/
lemma unifyAt_ok_iff (hv : v.Simple) (hw : w.Ground) (letters : Letters) :
    (∃ r σ', outcome (unifyAt l v w.broaden) σ = (.ok r, σ')) ↔
      ∃ letters', outcome (v.fits w.broaden) letters = (.ok true, letters') := by
  have hfits : v.fits w.broaden = (do return (← unify v w.broaden).succeeds) := by
    cases hw with
    | var h => exact h.elim
    | con | table | union => cases hv <;> rfl
    | all h => exact h.elim
  have hany : (∃ letters', outcome (v.fits w.broaden) letters = (.ok true, letters')) ↔
      ∃ letters', outcome (v.fits w.broaden) σ.letters = (.ok true, letters') :=
    ⟨fun ⟨_, h⟩ => (fits_alike _ _).exists_eq h _, fun ⟨_, h⟩ => (fits_alike _ _).exists_eq h _⟩
  rw [hany, hfits, unifyAt, outcome_bind, outcome_bind, outcome_naming]
  rcases outcome (unify v w.broaden) σ.letters with ⟨e | r, letters'⟩
  · simp
  · rcases hout : r.outcome with m | s
    · simp [Unified.succeeds, hout, report]
    · simp [Unified.succeeds, hout]

section ReadBack

variable (hx : σ.scopes.local? x = some T) (hT : T.Keyed) (hobject : KeyPath x init object)
  (hkey : key.key? = some k) (hv : v.Simple)
  (hleads : Leads (init.map Literal.key) T (.table fields))

include hx hT hobject hkey hv hleads

lemma setPath_absent (hk : k.sameKey k = true) (h : ∀ f ∈ fields, f.1.isKey k = false) :
    ∃ σ', outcome (setPath (.index l object key) v) σ = (.ok (), σ') ∧
      Written x (init ++ [k]) T v σ'.scopes := by
  have hfields := hT.leads hleads
  have hground := hfields.ground
  obtain _ | ⟨hkeys, -, -⟩ := hfields
  exact setPath_written hx hT hobject hkey hleads (outcome_assignField_absent hkeys h)
    (.append hkeys hground hv.ground hk h)

/-- The type of a key that is there becomes the broadened type, if that unifies with it. -/
lemma setPath_present {f : Ty × Ty} (hf : f ∈ fields) (hfk : f.1.isKey k = true) :
    (∀ r σ₁, outcome (unifyAt l v f.2.broaden) σ = (.ok r, σ₁) →
      ∃ σ', outcome (setPath (.index l object key) v) σ = (.ok (), σ') ∧
        Written x (init ++ [k]) T v.broaden σ'.scopes) ∧
    ∀ e σ₁, outcome (unifyAt l v f.2.broaden) σ = (.error e, σ₁) →
      outcome (setPath (.index l object key) v) σ = (.error e, σ₁) := by
  have hfields := hT.leads hleads
  have hground := hfields.ground
  obtain _ | ⟨hkeys, hdistinct, -⟩ := hfields
  obtain ⟨before, after, rfl⟩ := List.append_of_mem hf
  obtain ⟨hbefore, hafter⟩ := hdistinct.others hkeys hfk
  have hassign := outcome_assignField_present (l := l) (σ := σ) hv hkeys hbefore hfk hafter
  refine ⟨fun r σ₁ hunify => ?_, fun e σ₁ hunify => ?_⟩ <;> rw [hunify] at hassign
  · have hfind : Finds k.key (before ++ f :: after) (some (before, f, after)) :=
      ⟨[], [], by rw [splitField_append hkeys hbefore hfk]; rfl⟩
    exact setPath_written hx hT hobject hkey hleads hassign
      (hfind.assigned hkeys hground hv.broaden.ground)
  · rw [outcome_setPath_keyed hx hT hobject hkey,
      (outcome_changeAt_of_leads hT hleads).1 e σ₁ hassign]

end ReadBack

/-- An assignment that succeeds goes through tables, and writes something. -/
lemma written_of_setPath (hx : σ.scopes.local? x = some T) (hT : T.Keyed)
    (hobject : KeyPath x init object) (hkey : key.key? = some k) (hv : v.Simple)
    (hreads : T.Reads init (.table fields))
    (h : outcome (setPath (.index l object key) v) σ = (.ok (), σ')) :
    ∃ u, Written x (init ++ [k]) T u σ'.scopes := by
  by_cases hleads : Leads (init.map Literal.key) T (.table fields)
  · by_cases hpresent : ∃ f ∈ fields, f.1.isKey k = true
    · obtain ⟨f, hf, hfk⟩ := hpresent
      obtain ⟨hok, herror⟩ := setPath_present (l := l) hx hT hobject hkey hv hleads hf hfk
      rcases hunify : outcome (unifyAt l v f.2.broaden) σ with ⟨e | r, σ₁⟩
      · rw [herror e σ₁ hunify] at h
        cases h
      · obtain ⟨σ₂, hset, hwritten⟩ := hok r σ₁ hunify
        obtain ⟨-, rfl⟩ := eq_of_outcome_eq hset h
        exact ⟨_, hwritten⟩
    · have habsent : ∀ f ∈ fields, f.1.isKey k = false := by simpa using hpresent
      obtain ⟨σ₂, hset, hwritten⟩ := setPath_absent (l := l) hx hT hobject hkey hv hleads
        (Literal.sameKey_self hkey) habsent
      obtain ⟨-, rfl⟩ := eq_of_outcome_eq hset h
      exact ⟨_, hwritten⟩
  · rw [outcome_setPath_keyed hx hT hobject hkey, outcome_changeAt_unmet hT hreads hleads] at h
    cases h

/-- Let a path before its last key read as a table. If it does not lead through tables only, an
assignment to the path is refused. Otherwise, if the table lacks the key, the assignment succeeds and
the path then reads as the type that was assigned; and if the table has the key, it succeeds exactly
if the type extends the broadened type of the field, and the path then reads as the broadened type
that was assigned. An assignment that fails changes no type; and whatever it does, all paths that
part from the one assigned to read as before, or cannot be read, as before.

Types are compared here up to a bare function result that is put into a tuple: the text of a refused
assignment shows the types, and showing an array of functions unifies them, which leaves such
results in tuples where types are objects. Here they are values, and stay bare. -/
theorem setPath_read_back (hx : σ.scopes.local? x = some T) (hT : T.Keyed)
    (hobject : KeyPath x init object) (hkey : key.key? = some k) (hv : v.Simple) {i : Inferred}
    {τ : Session} (hread : outcome (infer object) σ = (.ok i, τ)) (htable : i.type = .table fields) :
    (¬Leads (init.map Literal.key) T (.table fields) →
      ∃ σ', outcome (setPath (.index l object key) v) σ = (.error (.fault .unmet), σ')) ∧
    (Leads (init.map Literal.key) T (.table fields) →
      ((∀ f ∈ fields, f.1.isKey k = false) →
        ∃ σ', outcome (setPath (.index l object key) v) σ = (.ok (), σ') ∧
          ∃ i τ, outcome (infer (.index l object key)) σ' = (.ok i, τ) ∧ i.type = v) ∧
      ∀ f ∈ fields, f.1.isKey k = true →
        (∀ letters, (∃ σ', outcome (setPath (.index l object key) v) σ = (.ok (), σ')) ↔
          ∃ letters', outcome (v.fits f.2.broaden) letters = (.ok true, letters')) ∧
        ∀ σ', outcome (setPath (.index l object key) v) σ = (.ok (), σ') →
          ∃ i τ, outcome (infer (.index l object key)) σ' = (.ok i, τ) ∧ i.type = v.broaden) ∧
    ∀ r σ', outcome (setPath (.index l object key) v) σ = (r, σ') →
      (∀ e, r = .error e → σ'.scopes = σ.scopes) ∧
      ∀ path p w, KeyPath x path p → Parted path (init ++ [k]) →
        ((∃ i τ, outcome (infer p) σ' = (.ok i, τ) ∧ i.type = w) ↔
          ∃ i τ, outcome (infer p) σ = (.ok i, τ) ∧ i.type = w) := by
  have hreads : T.Reads init (.table fields) :=
    (infer_iff hx hT.ground hobject).1 ⟨i, τ, hread, htable⟩
  have hpath : KeyPath x (init ++ [k]) (.index l object key) := .index l hobject hkey
  refine ⟨fun hleads => ?_, fun hleads => ⟨fun habsent => ?_, fun f hf hfk => ?_⟩, fun r σ' h => ?_⟩
  · refine ⟨σ, ?_⟩
    rw [outcome_setPath_keyed hx hT hobject hkey, outcome_changeAt_unmet hT hreads hleads]
  · obtain ⟨σ', hset, hwritten⟩ := setPath_absent hx hT hobject hkey hv hleads
      (Literal.sameKey_self hkey) habsent
    exact ⟨σ', hset, hwritten.infer hpath⟩
  · obtain ⟨hok, herror⟩ := setPath_present (l := l) hx hT hobject hkey hv hleads hf hfk
    have hfield : f.2.Ground := (within_table_iff.1 (hT.leads hleads).ground f hf).2.2
    -- the outcome of the assignment is that of a unification
    rcases hunify : outcome (unifyAt l v f.2.broaden) σ with ⟨e | r, σ₁⟩
    · have hset := herror e σ₁ hunify
      refine ⟨fun letters => ?_, fun σ' h => ?_⟩
      · rw [← unifyAt_ok_iff (l := l) (σ := σ) hv hfield letters, hset, hunify]
        simp
      · rw [hset] at h
        cases h
    · obtain ⟨σ₂, hset, hwritten⟩ := hok r σ₁ hunify
      refine ⟨fun letters => ?_, fun σ' h => ?_⟩
      · rw [← unifyAt_ok_iff (l := l) (σ := σ) hv hfield letters, hset, hunify]
        simp
      · obtain ⟨-, rfl⟩ := eq_of_outcome_eq hset h
        exact hwritten.infer hpath
  · cases r with
    | error e =>
      have hscopes := setPath_eq_error hx hT hobject hkey h
      refine ⟨fun _ _ => hscopes, fun path p w hp _ => ?_⟩
      rw [infer_iff (by rw [hscopes, hx]) hT.ground hp, infer_iff hx hT.ground hp]
    | ok =>
      obtain ⟨u, hwritten⟩ := written_of_setPath hx hT hobject hkey hv hreads h
      exact ⟨nofun, fun path p w hp hparted => hwritten.infer_iff hx hT.ground hp hparted⟩

/-! ### A record, and a table that may be missing -/

/-- The type of `{a = {b = "s"}, d = 1}`, where `o.a.b` has been broadened. -/
def record : Ty := .table [(Literal.key (.text "a"), .table [(Literal.key (.text "b"), .string)]),
  (Literal.key (.text "d"), Literal.key (.number (.ofNat 1)))]

/-- The path `o.d`. -/
def pathOD : Node := .index default (.var default "o") (.string default "d")

lemma keyed_record : record.Keyed := by
  have hkey : ∀ a : Literal, a.key.Keyed := fun a => by cases a <;> exact .con nofun
  have hinner : Keyed (.table [(Literal.key (.text "b"), .string)]) :=
    .table (by simp [LiteralKeys]) (by simp [DistinctKeys]) (by simp [string, plain, Keyed.con])
  refine .table ?_ ?_ ?_
  · simp [LiteralKeys]
  · simp [DistinctKeys, Literal.sameKey]
  · simp [hinner, hkey]

/-- An assignment of `"t"` to `o.a.b` succeeds; then `o.a.b` reads as `string`, and `o.d` reads as
`1` like before. -/
theorem setPath_read_back_record :
    ∃ σ' i τ j τ', outcome (setPath pathOAB (.literal "string" (.text "t")))
        (.withLocals [("o", .own record)]) = (.ok (), σ') ∧
      outcome (infer pathOAB) σ' = (.ok i, τ) ∧ i.type = .string ∧
      outcome (infer pathOD) σ' = (.ok j, τ') ∧ j.type = Literal.key (.number (.ofNat 1)) := by
  have hobject : KeyPath "o" [.text "a"] pathOA := .index default (.root default) rfl
  have hkey : Node.key? (.string default "b") = some (.text "b") := rfl
  have hv : (literal "string" (.text "t")).Simple := .con (by decide) nofun
  obtain ⟨-, hthrough, hall⟩ := setPath_read_back (l := default)
    (σ := .withLocals [("o", .own record)]) rfl keyed_record hobject hkey hv rfl rfl
  have hleads : Leads [Literal.key (.text "a")] record
      (.table [(Literal.key (.text "b"), .string)]) := .cons ⟨[], [], rfl⟩ (.nil _)
  obtain ⟨hiff, hback⟩ := (hthrough hleads).2 _ (List.mem_singleton_self _) rfl
  obtain ⟨σ', hset⟩ := (hiff []).2 ⟨[], rfl⟩
  obtain ⟨i, τ, hi, htype⟩ := hback σ' hset
  have hother : KeyPath "o" [.text "d"] pathOD := .index default (.root default) rfl
  have hparted : Parted [.text "d"] [.text "a", .text "b"] := .inl (by simp [Literal.sameKey])
  obtain ⟨j, τ', hj, htype'⟩ := ((hall _ σ' hset).2 _ _ _ hother hparted).2 ⟨_, _, rfl, rfl⟩
  exact ⟨σ', i, τ, j, τ', hset, hi, htype, hj, htype'⟩

/-- The session in which `o` has the type of `{a = {b = {}}}`, where `o.a` may also be nil. -/
def maybeMissing : Session := .withLocals [("o", .own (.table [(Literal.key (.text "a"),
  .union (.table [(Literal.key (.text "b"), .table [])]) .nil)]))]

/-- The path `o.a.b.c`. -/
def pathOABC : Node := .index default pathOAB (.string default "c")

/-- `o.a.b` reads as a table, since `o.a` is a table with the key `b` or nil; yet an assignment to
`o.a.b.c` is refused, since `o.a` itself is no table. -/
theorem setPath_refused_below_union :
    (∃ i τ, outcome (infer pathOAB) maybeMissing = (.ok i, τ) ∧ i.type = .table []) ∧
      ∃ σ', outcome (setPath pathOABC .number) maybeMissing = (.error (.fault .unmet), σ') :=
  ⟨⟨_, _, rfl, rfl⟩, _, rfl⟩

end Check

end LuaTyping
