import LuaTyping.Proofs.Deepening
import LuaTyping.Proofs.FieldAssignments

set_option autoImplicit false

/-!
# Records and property paths

A record is a table whose keys are different names. A path of names leads from a record through its
fields, which are records in turn, to a type. Inferring a property path gives this type, and an
assignment to it changes the record in this place only, to the type that is assigned with its
literal values forgotten.

## Main definitions

* `Ty.at?` — the type at the end of a path, `Ty.modifyAt` — a change of it.
* `Ty.Records` — the tables along a path are records.
* `PropertyPath` — the syntax trees for a path from a variable.

## Main results

* `Ty.at?_modifyAt_self`, `Ty.at?_modifyAt_of_ne` — a change at a path is seen
  at its end, and at no other end that is no table.
* `Check.ensures_infer_path` — what is inferred of a property path.
* `Check.ensures_assignPath` — what an assignment to a property path does.
-/

namespace LuaTyping

namespace Ensures

variable {ε σ α : Type} {x : ExceptT ε (StateM σ) α} {s : σ} {Q R : α → σ → Prop}

lemma both (h : Ensures x s Q fun _ _ => True) (h' : Ensures x s R fun _ _ => True) :
    Ensures x s (fun a s' => Q a s' ∧ R a s') fun _ _ => True :=
  (h.and h').imp (fun _ _ => id) fun _ _ _ => trivial

lemma nothing : Ensures x s (fun _ _ => True) fun _ _ => True := by
  unfold Ensures
  split <;> trivial

end Ensures

namespace Ty

/-! ## Paths of names -/

/-- The key that a name stands for. -/
def nameKey (k : String) : Ty := .literal "string" (.text k)

/-- Whether a field has a name as its key. -/
def keyed (k : String) (f : Ty × Ty) : Bool :=
  match f.1 with
  | .con "string" [] (some (.text s)) _ => s == k
  | _ => false

/-- The type at the end of a path of names. -/
def at? : List String → Ty → Option Ty
  | [], t => some t
  | k :: path, .table fields => (fields.find? (keyed k)).bind fun f => f.2.at? path
  | _ :: _, _ => none

/-- Changes the type at the end of a path of names. -/
def modifyAt (f : Ty → Ty) : List String → Ty → Ty
  | [], t => f t
  | k :: path, .table fields =>
    .table (fields.map fun e => if keyed k e then (e.1, e.2.modifyAt f path) else e)
  | _ :: _, t => t

/-- The keys of some fields are different names. -/
structure Record (fields : List (Ty × Ty)) : Prop where
  named : ∀ f ∈ fields, ∃ k, f.1 = nameKey k
  distinct : (fields.map Prod.fst).Nodup

/-- The tables along a path of names are records. -/
def Records : List String → Ty → Prop
  | [], _ => True
  | k :: path, .table fields => Record fields ∧ ∀ f ∈ fields, keyed k f = true → f.2.Records path
  | _ :: _, _ => False

variable {k s : String} {path q : List String} {t u v w U T : Ty} {fields : List (Ty × Ty)}
  {f g : Ty → Ty}

@[simp] lemma keyed_nameKey : keyed k (nameKey s, v) = (s == k) := rfl

/-- Checks do not matter on the way to the end of a path. -/
lemma at?_unchecked : t.unchecked.at? path = (t.at? path).map unchecked := by
  induction path generalizing t with
  | nil => rfl
  | cons k path ih =>
    cases t with
    | table fields =>
      have hkeyed : ∀ e : Ty × Ty, keyed k (e.1.unchecked, e.2.unchecked) = keyed k e := by
        rintro ⟨key, v⟩
        cases key with
        | con c args w checks =>
          by_cases hc : c = "string"
          · subst hc
            rcases args with _ | ⟨a, args⟩ <;> rcases w with _ | _ | _ | _ <;> rfl
          · simp [keyed, unchecked, hc]
        | var | table | union | all => rfl
      rw [unchecked, at?, at?]
      induction fields with
      | nil => rfl
      | cons e fields ihf =>
        rw [uncheckedFields, List.find?_cons, List.find?_cons, hkeyed]
        cases keyed k e with
        | true => exact ih
        | false => exact ihf
    | var | con | union | all => rfl

lemma keyed_unique {k' : String} {e : Ty × Ty} (h : keyed k e = true) (h' : keyed k' e = true) :
    k = k' := by
  unfold keyed at h h'
  split at h
  · simp_all
  · cases h

/-- The fields have names other than `k`. -/
def Others (k : String) (fields : List (Ty × Ty)) : Prop :=
  ∀ e ∈ fields, ∃ s, e.1 = nameKey s ∧ s ≠ k

lemma Others.keyed (h : Others k fields) {e : Ty × Ty} (he : e ∈ fields) : keyed k e = false := by
  obtain ⟨s, hs, hne⟩ := h e he
  obtain ⟨_, v⟩ := e
  obtain rfl : _ = nameKey s := hs
  simpa using hne

lemma Record.exists_name (h : Record fields) {e : Ty × Ty} (he : e ∈ fields)
    (hk : Ty.keyed k e = true) : e.1 = nameKey k := by
  obtain ⟨s, hs⟩ := h.named e he
  obtain ⟨key, v⟩ := e
  obtain rfl : key = nameKey s := hs
  obtain rfl : s = k := by simpa using hk
  rfl

lemma Record.eq_of_keyed (h : Record fields) {e e' : Ty × Ty} (he : e ∈ fields) (he' : e' ∈ fields)
    (hk : Ty.keyed k e = true) (hk' : Ty.keyed k e' = true) : e = e' :=
  List.inj_on_of_nodup_map h.distinct he he'
    ((h.exists_name he hk).trans (h.exists_name he' hk').symm)

/-- The fields before and after a field of a record have other names. -/
lemma Record.split (h : Record fields) {e : Ty × Ty} (he : fields.find? (Ty.keyed k) = some e) :
    ∃ before after, fields = before ++ (nameKey k, e.2) :: after ∧ Others k before ∧
      Others k after := by
  have hname := h.exists_name (List.mem_of_find?_eq_some he) (List.find?_some he)
  obtain ⟨hkeyed, before, after, rfl, -⟩ := List.find?_eq_some_iff_append.1 he
  have hdistinct := h.distinct
  rw [List.map_append, List.map_cons, List.nodup_append, List.nodup_cons] at hdistinct
  obtain ⟨-, ⟨hafter, -⟩, hbefore⟩ := hdistinct
  refine ⟨before, after, by rw [← hname], fun g hg => ?_, fun g hg => ?_⟩
  · obtain ⟨s, hs⟩ := h.named g (by simp [hg])
    refine ⟨s, hs, ?_⟩
    rintro rfl
    exact hbefore g.1 (List.mem_map_of_mem hg) e.1 (by simp) (hs.trans hname.symm)
  · obtain ⟨s, hs⟩ := h.named g (by simp [hg])
    refine ⟨s, hs, ?_⟩
    rintro rfl
    exact hafter ((hname.trans hs.symm) ▸ List.mem_map_of_mem hg)

/-! ## Changes -/

/-- A change of one field of a record. -/
lemma map_keyed {before after : List (Ty × Ty)} (hbefore : Others k before)
    (hafter : Others k after) (f : Ty → Ty) (path : List String) :
    ((before ++ (nameKey k, v) :: after).map fun e =>
        if keyed k e then (e.1, e.2.modifyAt f path) else e) =
      before ++ (nameKey k, v.modifyAt f path) :: after := by
  have hid : ∀ {fields : List (Ty × Ty)}, Others k fields →
      (fields.map fun e => if keyed k e then (e.1, e.2.modifyAt f path) else e) = fields := by
    intro fields h
    refine List.map_congr_left (g := id) (fun e he => ?_) |>.trans (List.map_id _)
    simp [h.keyed he]
  simp [hid hbefore, hid hafter]

/-- Changes that agree at the end of a path are the same. -/
lemma modifyAt_congr (h : t.Records path) (hU : t.at? path = some U) (hfg : f U = g U) :
    t.modifyAt f path = t.modifyAt g path := by
  induction path generalizing t with
  | nil =>
    cases hU
    exact hfg
  | cons k path ih =>
    cases t with
    | table fields =>
      obtain ⟨e, he, hend⟩ := Option.bind_eq_some_iff.1 hU
      have hrec := h.2 e (List.mem_of_find?_eq_some he) (List.find?_some he)
      obtain ⟨before, after, rfl, hbefore, hafter⟩ := h.1.split he
      simp only [modifyAt, map_keyed hbefore hafter, ih hrec hend]
    | _ => rfl

lemma modifyAt_id : t.modifyAt id path = t := by
  induction path generalizing t with
  | nil => rfl
  | cons k path ih =>
    cases t with
    | table fields => simp [modifyAt, ih]
    | _ => rfl

lemma modifyAt_eq_self (h : t.Records path) (hU : t.at? path = some U) (hf : f U = U) :
    t.modifyAt f path = t :=
  (modifyAt_congr (g := id) h hU hf).trans modifyAt_id

lemma find?_keyed_modifyAt (k' : String) :
    (fields.map fun e => if keyed k e then (e.1, e.2.modifyAt f path) else e).find? (keyed k') =
      (fields.find? (keyed k')).map fun e =>
        if keyed k e then (e.1, e.2.modifyAt f path) else e := by
  rw [List.find?_map]
  congr 2
  funext e
  simp only [Function.comp]
  split <;> rfl

/-- A change is seen at the end of its path. -/
theorem at?_modifyAt_self (hU : t.at? path = some U) :
    (t.modifyAt f path).at? path = some (f U) := by
  induction path generalizing t with
  | nil =>
    cases hU
    rfl
  | cons k path ih =>
    cases t with
    | table fields =>
      obtain ⟨e, he, hend⟩ := Option.bind_eq_some_iff.1 hU
      simp only [modifyAt, at?, find?_keyed_modifyAt, he, Option.map_some, List.find?_some he,
        if_true, Option.bind_some, ih hend]
    | _ => cases hU

/-- A change at the end of one path is not seen at the end of another, if neither path goes on from
the end of the other. -/
theorem at?_modifyAt_of_ne (hne : path ≠ q) (hU : t.at? path = some U) (hV : t.at? q = some v)
    (hUend : ∀ fields, U ≠ .table fields) (hVend : ∀ fields, v ≠ .table fields) :
    (t.modifyAt f path).at? q = some v := by
  induction path generalizing t q with
  | nil =>
    obtain rfl := Option.some.inj hU
    cases q with
    | nil => exact absurd rfl hne
    | cons k q =>
      cases t with
      | table fields => exact absurd rfl (hUend fields)
      | _ => cases hV
  | cons k path ih =>
    cases t with
    | table fields =>
      cases q with
      | nil => exact absurd (Option.some.inj hV).symm (hVend fields)
      | cons k' q =>
        obtain ⟨e, he, hend⟩ := Option.bind_eq_some_iff.1 hU
        obtain ⟨e', he', hend'⟩ := Option.bind_eq_some_iff.1 hV
        simp only [modifyAt, at?, find?_keyed_modifyAt, he', Option.map_some, Option.bind_some]
        split
        · rename_i hkeyed
          obtain rfl := keyed_unique hkeyed (List.find?_some he')
          obtain rfl : e = e' := Option.some.inj (he.symm.trans he')
          exact ih (fun heq => hne (by rw [heq])) hend hend'
        · exact hend'
    | _ => cases hU

/-- A change at a path, to a closed type, leaves a closed type closed. -/
lemma Ground.modifyAt (h : t.Ground) (hf : ∀ u : Ty, u.Ground → (f u).Ground) :
    (t.modifyAt f path).Ground := by
  induction path generalizing t with
  | nil => exact hf t h
  | cons k path ih =>
    cases t with
    | table fields =>
      refine within_table_iff.2 fun e he => ?_
      obtain ⟨e', he', rfl⟩ := List.mem_map.1 he
      obtain ⟨hkey, hfst, hsnd⟩ := within_table_iff.1 h e' he'
      split
      · exact ⟨hkey, hfst, ih hsnd⟩
      · exact ⟨hkey, hfst, hsnd⟩
    | _ => exact h

/-- Changing values leaves a record a record. -/
lemma Record.modify (h : Record fields) :
    Record (fields.map fun e => if Ty.keyed k e then (e.1, e.2.modifyAt f path) else e) := by
  have hkeys : (fields.map fun e =>
      if Ty.keyed k e then (e.1, e.2.modifyAt f path) else e).map Prod.fst =
        fields.map Prod.fst := by
    rw [List.map_map]
    exact List.map_congr_left fun e _ => by simp only [Function.comp]; split <;> rfl
  refine ⟨fun g hg => ?_, hkeys ▸ h.distinct⟩
  obtain ⟨d, hd, rfl⟩ := List.mem_map.1 hg
  obtain ⟨s, hs⟩ := h.named d hd
  refine ⟨s, ?_⟩
  split <;> exact hs

/-- A change at a path leaves the tables along another path records. -/
lemma Records.modifyAt (h : t.Records q) (hU : t.at? path = some U) (hV : t.at? q = some v)
    (hUend : ∀ fields, U ≠ .table fields) : (t.modifyAt f path).Records q := by
  induction path generalizing t q with
  | nil =>
    obtain rfl := Option.some.inj hU
    cases q with
    | nil => trivial
    | cons k q =>
      cases t with
      | table fields => exact absurd rfl (hUend fields)
      | _ => cases hV
  | cons k path ih =>
    cases q with
    | nil => trivial
    | cons k' q =>
      cases t with
      | table fields =>
        obtain ⟨e, he, hend⟩ := Option.bind_eq_some_iff.1 hU
        obtain ⟨e', he', hend'⟩ := Option.bind_eq_some_iff.1 hV
        refine ⟨h.1.modify, fun g hg hk => ?_⟩
        obtain ⟨d, hd, rfl⟩ := List.mem_map.1 hg
        by_cases hkeyed : keyed k d = true
        · rw [if_pos hkeyed] at hk ⊢
          obtain rfl := keyed_unique (e := d) hkeyed hk
          obtain rfl := h.1.eq_of_keyed hd (List.mem_of_find?_eq_some he) hkeyed
            (List.find?_some he)
          obtain rfl : d = e' := Option.some.inj (he.symm.trans he')
          exact ih (h.2 d hd hkeyed) hend hend'
        · rw [if_neg hkeyed] at hk ⊢
          exact h.2 d hd hk
      | _ => exact h.elim

/-! ## Names as literal keys -/

lemma Others.literalKeys (h : Others k fields) : LiteralKeys fields := by
  intro e he
  obtain ⟨s, hs, -⟩ := h e he
  exact ⟨.text s, hs⟩

lemma Others.isKey (h : Others k fields) : ∀ e ∈ fields, e.1.isKey (.text k) = false := by
  intro e he
  obtain ⟨s, hs, hne⟩ := h e he
  rw [hs]
  exact beq_false_of_ne hne.symm

lemma isKey_nameKey : (nameKey k).isKey (.text k) = true := beq_self_eq_true k

section Field

variable {before after : List (Ty × Ty)} (hbefore : Others k before) (hafter : Others k after)

include hbefore hafter

lemma literalKeys_field : LiteralKeys (before ++ (nameKey k, v) :: after) := by
  intro e he
  rcases List.mem_append.1 he with he | he
  · exact hbefore.literalKeys e he
  · rcases List.mem_cons.1 he with rfl | he
    · exact ⟨.text k, rfl⟩
    · exact hafter.literalKeys e he

lemma splitField_nameKey : splitField fits (nameKey k) [] (before ++ (nameKey k, v) :: after) =
    pure (some (before, (nameKey k, v), after)) :=
  splitField_append (literalKeys_field hbefore hafter) hbefore.isKey isKey_nameKey

end Field

/-- A path of names through records leads to the type at its end. -/
lemma Records.leads (h : t.Records path) (hU : t.at? path = some U) :
    Leads (path.map nameKey) t U := by
  induction path generalizing t with
  | nil => exact Option.some.inj hU ▸ .nil t
  | cons k path ih =>
    cases t with
    | table fields =>
      obtain ⟨e, he, hend⟩ := Option.bind_eq_some_iff.1 hU
      have hrest := h.2 e (List.mem_of_find?_eq_some he) (List.find?_some he)
      obtain ⟨before, after, rfl, hbefore, hafter⟩ := h.1.split he
      exact .cons ⟨[], [], by rw [splitField_nameKey hbefore hafter]; rfl⟩ (ih hrest hend)
    | var | con | union | all => exact h.elim

end Ty

/-! ## Property paths -/

/-- The syntax trees for a path of names from a variable, wherever their parts stand. -/
inductive PropertyPath (x : String) : List String → Node → Prop
  | root (l : Location) : PropertyPath x [] (.var l x)
  | field (l lk : Location) {path : List String} {object : Node} (k : String) :
      PropertyPath x path object → PropertyPath x (path ++ [k]) (.index l object (.string lk k))

lemma PropertyPath.keyPath {x : String} {path : List String} {p : Node}
    (h : PropertyPath x path p) : KeyPath x (path.map .text) p := by
  induction h with
  | root l => exact .root l
  | field l lk k _ ih =>
    rw [List.map_append, List.map_singleton]
    exact .index l ih rfl

namespace Check

open Ty

variable {σ : Session} {x : String} {path : List String} {p : Node} {T U u : Ty}

lemma Still.ensures {α : Type} {y : Check α} (h : Still y) :
    Ensures y σ (fun _ σ' => σ'.scopes = σ.scopes) fun _ _ => True := by
  have hy := (h σ).1
  unfold Ensures
  rcases houtcome : outcome y σ with ⟨e | a, σ'⟩ <;> rw [houtcome] at hy
  · trivial
  · exact hy

/-- What is inferred of a property path is the type at its end. -/
theorem ensures_infer_path (hp : PropertyPath x path p) (hx : σ.scopes.local? x = some T)
    (hT : T.Ground) (hrec : T.Records path) (hU : T.at? path = some U) (depth : Nat) :
    Ensures (inferTo depth p) σ (fun i σ' => i.type = U ∧ σ'.scopes = σ.scopes)
      fun _ _ => True := by
  unfold Ensures
  rcases hrun : outcome (inferTo depth p) σ with ⟨e | i, σ'⟩
  · trivial
  · -- the depth may be too small for the path, so that a greater one is taken
    have hdeep := inferTo_eq_ok_of_le (Nat.le_add_right depth (path.length + 1)) hrun
    have hleads : Leads ((path.map Literal.text).map Literal.key) (T.instantiate σ.supply).1 U := by
      rw [hT.instantiate, List.map_map]
      exact hrec.leads hU
    have hsettled : (T.instantiate σ.supply).1.Settled (T.instantiate σ.supply).2.count := by
      rw [hT.instantiate]
      exact hT.settled _
    have hlength : (path.map Literal.text).length < depth + (path.length + 1) := by
      rw [List.length_map]
      omega
    obtain ⟨i', σ₁, hi', hread⟩ :=
      (read_of_leads hx hsettled hp.keyPath hleads hlength).exists_eq
    obtain ⟨rfl, rfl⟩ := eq_of_outcome_eq hi' hdeep
    exact ⟨hread.type, hread.scopes⟩

/-! ## Assignments -/

variable {l : Location} {k : String}

/-- A field of a record gets the type that is assigned, with its literal values forgotten, and the
others stay as they are. -/
lemma ensures_assignField (hu : u.Simple) {before after : List (Ty × Ty)}
    (hbefore : Others k before) (hafter : Others k after) :
    Ensures (assignField l (nameKey k) u (before ++ (nameKey k, U) :: after)) σ
      (fun fields _ => fields = before ++ (nameKey k, u.broaden) :: after) fun _ _ => True := by
  have hassign : outcome (assignField l (nameKey k) u (before ++ (nameKey k, U) :: after)) σ = _ :=
    outcome_assignField_present hu (literalKeys_field hbefore hafter) hbefore.isKey isKey_nameKey
      hafter.isKey
  unfold Ensures
  rw [hassign]
  rcases outcome (unifyAt l u U.broaden) σ with ⟨e | r, σ'⟩
  · trivial
  · rfl

/-- An assignment at the end of a path changes the type there. -/
lemma ensures_changeAt (hrec : T.Records (path ++ [k])) (hat : T.at? (path ++ [k]) = some U)
    (hu : u.Simple) :
    Ensures (changeAt (assignField l (nameKey k) u) (path.map nameKey) T) σ
      (fun t _ => t = T.modifyAt (fun _ => u.broaden) (path ++ [k])) fun _ _ => True := by
  induction path generalizing T with
  | nil =>
    cases T with
    | table fields =>
      obtain ⟨e, he, hend⟩ := Option.bind_eq_some_iff.1 hat
      obtain ⟨before, after, rfl, hbefore, hafter⟩ := hrec.1.split he
      refine .bind (ensures_assignField hu hbefore hafter) ?_
      rintro _ σ' rfl
      exact .pure (congrArg Ty.table (map_keyed hbefore hafter (fun _ => u.broaden) []).symm)
    | _ => exact hrec.elim
  | cons k' path ih =>
    cases T with
    | table fields =>
      obtain ⟨e, he, hend⟩ := Option.bind_eq_some_iff.1 hat
      have hrest := hrec.2 e (List.mem_of_find?_eq_some he) (List.find?_some he)
      obtain ⟨before, after, rfl, hbefore, hafter⟩ := hrec.1.split he
      have hsplit : outcome (naming (splitField fits (nameKey k') []
          (before ++ (nameKey k', e.2) :: after))) σ =
          (.ok (some (before, (nameKey k', e.2), after)), σ) := by
        rw [splitField_nameKey hbefore hafter, outcome_naming_pure]
      refine .bind_of_eq hsplit ?_
      refine .bind (ih hrest hend) ?_
      rintro _ σ' rfl
      exact .pure (congrArg _ (map_keyed hbefore hafter _ _).symm)
    | _ => exact hrec.elim

/-- An assignment to a property path changes the record that the path begins with. -/
theorem ensures_assignPath (hp : PropertyPath x path p) (hpath : path ≠ [])
    (hx : σ.scopes.local? x = some T) (hT : T.Ground) (hrec : T.Records path)
    (hat : T.at? path = some U) (hu : u.Simple) (depth : Nat) :
    Ensures (assignPath (inferTo depth) p u) σ
      (fun _ σ' => σ'.scopes = σ.scopes.update x (T.modifyAt (fun _ => u.broaden) path))
      fun _ _ => True := by
  have hquantified : ∀ y body, T ≠ .all y body := by
    rintro y body rfl
    exact (within_all_iff.1 hT).1
  cases hp with
  | root => exact absurd rfl hpath
  | @field l lk path object k hobject =>
    cases depth with
    | zero =>
      refine .bind (Q := fun _ _ => False) (.bind .nothing fun _ _ _ => trivial) ?_
      exact fun _ _ h => h.elim
    | succ depth =>
      have hkeys : outcome (pathOf (inferTo (depth + 1)) (.index l object (.string lk k))) σ = _ :=
        outcome_pathOf (PropertyPath.field l lk k hobject).keyPath hx fun y _ _ => hquantified y _
      refine .bind_of_eq hkeys ?_
      refine .bind_of_eq (a := σ.scopes) rfl ?_
      have hlast : (((path ++ [k]).map .text).map Literal.key).getLast? = some (nameKey k) := by
        simp [nameKey, Literal.key]
      have hinit : (((path ++ [k]).map .text).map Literal.key).dropLast = path.map nameKey := by
        simp [nameKey, Literal.key, Function.comp_def]
      dsimp only
      rw [hx, hlast, hinit]
      have hstill : Still (changeAt (assignField l (nameKey k) u) (path.map nameKey) T) :=
        (scopeless_changeAt fun _ => scopeless_assignField).still
      cases T with
      | all y body => exact absurd rfl (hquantified y body)
      | _ =>
        refine .bind ((ensures_changeAt hrec hat hu).both hstill.ensures) ?_
        rintro _ σ' ⟨rfl, hscopes⟩
        exact hscopes ▸ rfl

end Check

end LuaTyping
