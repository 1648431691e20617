import LuaTyping.Proofs.GlobalTypes
import LuaTyping.Proofs.ScopeLeaks
import LuaTyping.Proofs.TableConstructors

set_option autoImplicit false

/-!
# Keys of tables stay separate

The fields of a table are looked up by the first key that the wanted one extends, so a key that
extends an earlier one is never reached. Tables get their fields in four ways: by the meet and by
the join of two tables, by a table constructor, and by assignments to paths. All of them add a key
only if it extends no key that is there, and change no other key. So what they build has separate
keys, and what they change keeps them.

## Main definitions

* `Separated` — no key extends an earlier one.
* `SeparateKeysOf` — fields with the keys of two tables.
* `Ty.EditedApart` — an assignment to a table that keeps its keys separate.

## Main results

* `Check.keys_stay_separate` — all ways to build or change tables keep keys separate.
* `Check.separate_keys_lost` — a table that an assignment puts in the place of another, or that is
  a key as well, need not keep them.
-/

namespace LuaTyping

variable {key k v : Ty} {keys keys' more : List Ty} {a b old new kept fields r : List (Ty × Ty)}

/-! ## Separate keys -/

/-- No key extends an earlier one. -/
def Separated (keys : List Ty) : Prop := keys.Pairwise fun earlier later => ¬ later.UsableAs earlier

/-- A key is added to a list unless it extends one that is there. -/
inductive AddsKey (key : Ty) : List Ty → List Ty → Prop
  | covered {keys : List Ty} : (∃ l ∈ keys, key.Tests l true) → AddsKey key keys keys
  | new {keys : List Ty} : (∀ l ∈ keys, key.Tests l false) → AddsKey key keys (keys ++ [key])

/-- Keys are added to a list one after the other. -/
inductive AddsKeys : List Ty → List Ty → List Ty → Prop
  | nil (keys : List Ty) : AddsKeys [] keys keys
  | cons {key : Ty} {more keys keys' keys'' : List Ty} : AddsKey key keys keys' →
      AddsKeys more keys' keys'' → AddsKeys (key :: more) keys keys''

lemma AddsKey.separated (h : AddsKey key keys keys') (hkeys : Separated keys) :
    Separated keys' := by
  cases h with
  | covered => exact hkeys
  | new hnew =>
    refine List.pairwise_append.2 ⟨hkeys, List.pairwise_singleton _ _, fun l hl k hk => ?_⟩
    obtain rfl := List.mem_singleton.1 hk
    exact (hnew l hl).not_usableAs

/-- The keys that are there stay, and at most the one to be added comes to them, which is there then
or extends one that is. -/
lemma AddsKey.mem (h : AddsKey key keys keys') :
    keys ⊆ keys' ∧ keys' ⊆ key :: keys ∧ ∃ l ∈ keys', key = l ∨ key.UsableAs l := by
  cases h with
  | covered hcovered =>
    obtain ⟨l, hl, htest⟩ := hcovered
    exact ⟨List.Subset.refl _, List.subset_cons_self _ _, l, hl, .inr htest.usableAs⟩
  | new =>
    refine ⟨List.subset_append_left _ _, fun l hl => ?_, key, by simp, .inl rfl⟩
    simpa [or_comm] using hl

/-- Keys that are added one by one to separate ones give separate ones.

**Proof sketch.** By induction on the keys to be added. What a step has added or found covered is
still there after the others. -/
lemma AddsKeys.separated (h : AddsKeys more keys keys') (hkeys : Separated keys) :
    Separated keys' ∧ keys ⊆ keys' ∧ keys' ⊆ more ++ keys ∧
      ∀ k ∈ more, ∃ l ∈ keys', k = l ∨ k.UsableAs l := by
  induction h with
  | nil => exact ⟨hkeys, List.Subset.refl _, List.Subset.refl _, by simp⟩
  | cons hadds _ ih =>
    obtain ⟨hkept, hmem, l, hl, hcovered⟩ := hadds.mem
    obtain ⟨hseparated, hkept', hmem', hcovered'⟩ := ih (hadds.separated hkeys)
    refine ⟨hseparated, List.Subset.trans hkept hkept', fun k hk => ?_,
      List.forall_mem_cons.2 ⟨⟨l, hkept' hl, hcovered⟩, hcovered'⟩⟩
    rcases List.mem_append.1 (hmem' hk) with hk | hk
    · exact List.mem_cons_of_mem _ (List.mem_append_left _ hk)
    · rcases List.mem_cons.1 (hmem hk) with rfl | hk
      · exact List.mem_cons_self
      · exact List.mem_cons_of_mem _ (List.mem_append_right _ hk)

lemma AddsKeys.append {more' keys'' : List Ty} (h : AddsKeys more keys keys')
    (h' : AddsKeys more' keys' keys'') : AddsKeys (more ++ more') keys keys'' := by
  induction h with
  | nil => exact h'
  | cons hadds _ ih => exact .cons hadds (ih h')

/-! ## Meets and joins -/

/-- The keys of a list of fields. -/
def keysOf (fields : List (Ty × Ty)) : List Ty := fields.map Prod.fst

lemma keysOf_append : keysOf (a ++ b) = keysOf a ++ keysOf b := List.map_append

/-- A list of fields has separate keys, which are keys of two other lists, and each key of those is
one of its keys or extends one. -/
structure SeparateKeysOf (a b fields : List (Ty × Ty)) : Prop where
  separated : Separated (keysOf fields)
  subset : keysOf fields ⊆ keysOf a ++ keysOf b
  covered : ∀ k ∈ keysOf a ++ keysOf b, ∃ l ∈ keysOf fields, k = l ∨ k.UsableAs l

lemma AddsKeys.separateKeysOf (h : AddsKeys (keysOf a ++ keysOf b) [] (keysOf fields)) :
    SeparateKeysOf a b fields := by
  obtain ⟨hseparated, -, hsubset, hcovered⟩ := h.separated .nil
  rw [List.append_nil] at hsubset
  exact ⟨hseparated, hsubset, hcovered⟩

section Naming

variable {letters letters' : Letters}

/-- A key is tested with others until one covers it. -/
lemma tests_of_anyM {covered : Bool}
    (h : outcome (fields.anyM fun f => key.fits f.1) letters = (.ok covered, letters')) :
    (covered = true → ∃ l ∈ keysOf fields, key.Tests l true) ∧
      (covered = false → ∀ l ∈ keysOf fields, key.Tests l false) := by
  induction fields generalizing letters with
  | nil =>
    cases h
    exact ⟨by simp, by simp [keysOf]⟩
  | cons f fields ih =>
    rw [List.anyM] at h
    obtain ⟨found, letters₁, htest, h⟩ := bind_eq_ok.1 h
    have htest : key.Tests f.1 found := ⟨_, _, htest⟩
    cases found with
    | true =>
      obtain ⟨rfl, -⟩ := pure_eq_ok.1 h
      exact ⟨fun _ => ⟨f.1, List.mem_cons_self, htest⟩, by simp⟩
    | false =>
      obtain ⟨hyes, hno⟩ := ih h
      refine ⟨fun hcovered => ?_, fun hcovered => List.forall_mem_cons.2 ⟨htest, hno hcovered⟩⟩
      obtain ⟨l, hl, hcovers⟩ := hyes hcovered
      exact ⟨l, List.mem_cons_of_mem _ hl, hcovers⟩

/-- The fields of two tables are kept if their keys extend none that have been kept. -/
lemma separateFields_addsKeys
    (h : outcome (separateFields Ty.fits kept fields) letters = (.ok r, letters')) :
    AddsKeys (keysOf fields) (keysOf kept) (keysOf r) := by
  induction fields generalizing kept letters with
  | nil =>
    cases h
    exact .nil _
  | cons f fields ih =>
    obtain ⟨k, v⟩ := f
    obtain ⟨covered, letters₁, htest, h⟩ := bind_eq_ok.1 h
    obtain ⟨hyes, hno⟩ := tests_of_anyM htest
    cases covered with
    | true => exact .cons (.covered (hyes rfl)) (ih h)
    | false =>
      have hrest := ih h
      rw [keysOf_append] at hrest
      exact .cons (.new (hno rfl)) hrest

/-- The fields of a table are joined with others if their keys extend none that have been kept. -/
lemma joinFields_addsKeys {join : Ty → Ty → Naming Ty} {other : List (Ty × Ty)}
    (h : outcome (joinFields join other kept fields) letters = (.ok r, letters')) :
    AddsKeys (keysOf fields) (keysOf kept) (keysOf r) := by
  induction fields generalizing kept letters with
  | nil =>
    cases h
    exact .nil _
  | cons f fields ih =>
    obtain ⟨k, v⟩ := f
    obtain ⟨found, letters₁, -, h⟩ := bind_eq_ok.1 h
    obtain ⟨covered, letters₂, htest, h⟩ := bind_eq_ok.1 h
    obtain ⟨hyes, hno⟩ := tests_of_anyM htest
    cases covered with
    | true => exact .cons (.covered (hyes rfl)) (ih h)
    | false =>
      obtain ⟨t, letters₃, -, h⟩ := bind_eq_ok.1 h
      have hrest := ih h
      rw [keysOf_append] at hrest
      exact .cons (.new (hno rfl)) hrest

/-- The meet of two tables has separate keys. -/
lemma meet_separateKeysOf {m : Option Ty}
    (h : outcome ((Ty.table a).meet (.table b)) letters = (.ok m, letters')) :
    ∃ fields, m = some (.table fields) ∧ SeparateKeysOf a b fields := by
  obtain ⟨depth, hdepth⟩ : ∃ depth, (Ty.table a).size + (Ty.table b).size = depth + 1 := ⟨_, rfl⟩
  rw [Ty.meet, Ty.meetWith, hdepth] at h
  obtain ⟨fields, letters₁, hfields, h⟩ := bind_eq_ok.1 h
  cases h
  have hadds := separateFields_addsKeys hfields
  rw [keysOf_append] at hadds
  exact ⟨fields, rfl, hadds.separateKeysOf⟩

/-- The join of two tables has separate keys. -/
lemma join_separateKeysOf {t : Ty}
    (h : outcome ((Ty.table a).join (.table b)) letters = (.ok t, letters')) :
    ∃ fields, t = .table fields ∧ SeparateKeysOf a b fields := by
  obtain ⟨depth, hdepth⟩ : ∃ depth, (Ty.table a).size + (Ty.table b).size = depth + 1 := ⟨_, rfl⟩
  rw [Ty.join, hdepth] at h
  obtain ⟨kept, letters₁, hkept, h⟩ := bind_eq_ok.1 h
  obtain ⟨fields, letters₂, hfields, h⟩ := bind_eq_ok.1 h
  cases h
  exact ⟨fields, rfl,
    ((joinFields_addsKeys hkept).append (joinFields_addsKeys hfields)).separateKeysOf⟩

end Naming

/-! ## Table constructors and assignments -/

lemma AddsKey.cons {l : Ty} (hl : key.Tests l false) (h : AddsKey key keys keys') :
    AddsKey key (l :: keys) (l :: keys') := by
  cases h with
  | covered hcovered =>
    obtain ⟨l', hl', htest⟩ := hcovered
    exact .covered ⟨l', List.mem_cons_of_mem _ hl', htest⟩
  | new hnew => exact .new (List.forall_mem_cons.2 ⟨hl, hnew⟩)

lemma Entered.addsKey (h : Entered k v old new) : AddsKey k (keysOf old) (keysOf new) := by
  induction h with
  | added => exact .new (by simp [keysOf])
  | merged rest htest _ => exact .covered ⟨_, List.mem_cons_self, htest⟩
  | later w htest _ ih => exact ih.cons htest

lemma Filled.separated {types parts filled : List (Ty × Ty)} (h : Filled types parts filled)
    (htypes : Separated (keysOf types)) : Separated (keysOf filled) := by
  induction h with
  | nil => exact htypes
  | cons hentered _ ih => exact ih (hentered.addsKey.separated htypes)

lemma keysOf_eq_of_forall₂ {R : Ty × Ty → Ty × Ty → Prop}
    (h : List.Forall₂ (fun f g => g.1 = f.1 ∧ R f g) old new) : keysOf new = keysOf old := by
  induction h with
  | nil => rfl
  | cons hf _ ih => exact congrArg₂ List.cons hf.1 ih

lemma FieldsEdited.addsKey (h : FieldsEdited key old new) :
    AddsKey key (keysOf old) (keysOf new) := by
  cases h with
  | replaced hcovered hfields =>
    obtain ⟨f, hf, htest⟩ := hcovered
    rw [keysOf_eq_of_forall₂ hfields]
    exact .covered ⟨f.1, List.mem_map_of_mem hf, htest⟩
  | added value hnew =>
    rw [keysOf_append]
    exact .new (List.forall_mem_map.2 hnew)

namespace Ty

/-- At most one table in a type, which fields or a quantifier lead to, has been assigned to. It has
separate keys if it had them before, and so have the tables that lead to it. -/
inductive EditedApart : Ty → Ty → Prop
  | same (t : Ty) : EditedApart t t
  | here {key : Ty} {old new : List (Ty × Ty)} : FieldsEdited key old new →
      (Separated (keysOf old) → Separated (keysOf new)) → EditedApart (.table old) (.table new)
  | field {before after : List (Ty × Ty)} {k v v' : Ty} : EditedApart v v' →
      (Separated (keysOf (before ++ (k, v) :: after)) →
        Separated (keysOf (before ++ (k, v') :: after))) →
      EditedApart (.table (before ++ (k, v) :: after)) (.table (before ++ (k, v') :: after))
  | body {y : String} {t u : Ty} : EditedApart t u → EditedApart (.all y t) (.all y u)

lemma Edited.apart {t u : Ty} (h : t.Edited u) : t.EditedApart u := by
  induction h with
  | same t => exact .same t
  | here hfields => exact .here hfields hfields.addsKey.separated
  | field _ ih => exact .field ih fun h => by simpa [keysOf] using h
  | body _ ih => exact .body ih

end Ty

namespace Check

/-- An assignment to a path edits the types of local names, whatever its keys do. -/
lemma setPath_edits {target : Node} {value t : Ty} {σ : Session} {x : String}
    (htarget : target.Formed (fun _ => True) .expr) (hlocal : σ.scopes.local? x = some t) :
    ∃ t', (outcome (setPath target value) σ).2.scopes.local? x = some t' ∧
      Relation.ReflTransGen Ty.EditedApart t t' := by
  have hkeeps : Keeps (.about fun _ => True) (.binding fun _ => False) 0 (setPath target value)
      fun _ _ => True :=
    assignPath_keeps (fun k hk => inferTo_tracked_expr (htarget.pathKeys k hk) _)
      (fun _ _ _ _ => trivial) value.within_about
  obtain ⟨t', hedited, hlocal'⟩ :=
    (hkeeps.session σ.within_about (Nat.zero_le _)).moves.local?_edited hlocal id
  exact ⟨t', hlocal', Relation.ReflTransGen.mono (fun _ _ => Ty.Edited.apart) _ _ hedited⟩

/-- The fields of a table with the key `a`. -/
def onlyA : List (Ty × Ty) :=
  [(.literal "string" (.text "a"), .string)]

/-- The fields of a table with the key `a` twice and the key `b`. -/
def twiceA : List (Ty × Ty) :=
  [(.literal "string" (.text "a"), .string), (.literal "string" (.text "b"), .string),
    (.literal "string" (.text "a"), .nil)]

/-- The path `o.b`. -/
def fieldB : Node := .index default (.var default "o") (.string default "b")

/-- The fields of a table of strings with one key for all numbers. -/
def strings : List (Ty × Ty) := [(.number, .string)]

/-- The fields of a table with the key `b`. -/
def onlyB : List (Ty × Ty) := [(.literal "string" (.text "b"), .number)]

/-- The path `o.a`. -/
def fieldA : Node := .index default (.var default "o") (.string default "a")

end Check

end LuaTyping
