import LuaTyping.Proofs.Circles
import LuaTyping.Proofs.Conditions
import LuaTyping.Proofs.Unfolding

set_option autoImplicit false

/-!
# Reading through tables

A path of literal keys leads from a variable through nested tables. Each of its steps asks a table
for the first field whose key covers the literal, and goes on with the type that is there. Inferring
the path gives the type at its end; where a key is not found, the inference stops.

A step draws a variable and binds it to the type that was found. As long as the types that the path
goes through hold only variables drawn before, these bindings do not get into each other's way.

## Main definitions

* `KeyPath` — the syntax trees for a path of literal keys from a variable.
* `Ty.Finds` — the first field whose key covers another one.
* `Ty.Leads` — the type at the end of a path.
* `Ty.Settled`, `Subst.Above` — types without variables that are still to be
  drawn, and substitutions that bind later ones to such types.

## Main results

* `Check.read_of_leads`, `Check.not_infer_of_lacks` — what is inferred of a path.
-/

namespace LuaTyping

/-! ## Literal keys -/

/-- The type of a literal key. -/
def Literal.key : Literal → Ty
  | .number d => .literal "number" (.number d)
  | .text s => .literal "string" (.text s)
  | .flag b => .literal "boolean" (.flag b)

/-- The literal that is written as a key. Not-a-number, which is not written as a number, equals no
literal. -/
def Node.key? : Node → Option Literal
  | .number _ v => if v.equal v then some (.number v) else none
  | .string _ v => some (.text v)
  | .boolean _ v => some (.flag v)
  | _ => none

/-- The syntax trees for a path of literal keys from a variable, wherever their parts stand. -/
inductive KeyPath (x : String) : List Literal → Node → Prop
  | root (l : Location) : KeyPath x [] (.var l x)
  | index (l : Location) {keys : List Literal} {object key : Node} {k : Literal} :
      KeyPath x keys object → key.key? = some k → KeyPath x (keys ++ [k]) (.index l object key)

lemma KeyPath.length_le {x : String} {keys : List Literal} {p : Node} (h : KeyPath x keys p) :
    keys.length ≤ p.size := by
  induction h with
  | root l => exact Nat.zero_le _
  | index l _ _ ih =>
    simp only [List.length_append, List.length_singleton, Node.size]
    omega

lemma KeyPath.length_lt {x : String} {keys : List Literal} {p : Node} (h : KeyPath x keys p) :
    keys.length < Check.depthFor p := by
  have := h.length_le
  unfold Check.depthFor
  omega

lemma Check.inferTo_key {key : Node} {k : Literal} (h : key.key? = some k) (depth : Nat) :
    inferTo (depth + 1) key = pure (ofType k.key) := by
  cases key with
  | number l v =>
    by_cases hv : v.equal v = true
    · obtain rfl : Literal.number v = k := by simpa [Node.key?, hv] using h
      rfl
    · simp [Node.key?, hv] at h
  | string l v =>
    cases h
    rfl
  | boolean l v =>
    cases h
    rfl
  | _ => cases h

/-! ## Finding a field -/

/-- What does not depend on letters has its result from any letters. -/
lemma Naming.Alike.exists_eq {α : Type} {Q : α → Prop} {x : Naming α} (h : Alike Q x x) {a : α}
    {k k' : Letters} (hx : outcome x k = (.ok a, k')) (letters : Letters) :
    ∃ letters', outcome x letters = (.ok a, letters') := by
  obtain ⟨hagree, -⟩ := h k letters trivial
  rw [hx] at hagree
  rcases hrun : outcome x letters with ⟨e | b, k₁⟩ <;> rw [hrun] at hagree
  · exact hagree.elim
  · exact ⟨k₁, by rw [hagree.1]⟩

namespace Ty

open Naming

variable {k l t u v w : Ty} {fields before after : List (Ty × Ty)}
  {found : Option (List (Ty × Ty) × (Ty × Ty) × List (Ty × Ty))}

/-- The first of some fields whose key covers `k`, with the fields before and after it, or none. -/
def Finds (k : Ty) (fields : List (Ty × Ty))
    (found : Option (List (Ty × Ty) × (Ty × Ty) × List (Ty × Ty))) : Prop :=
  ∃ letters letters', outcome (splitField fits k [] fields) letters = (.ok found, letters')

lemma splitField_alike (k : Ty) (before fields : List (Ty × Ty)) :
    Alike (fun found => ∀ r, found = some r → r.2.1 ∈ fields) (splitField fits k before fields)
      (splitField fits k before fields) := by
  induction fields generalizing before with
  | nil => exact .pure nofun
  | cons f fields ih =>
    rw [splitField]
    refine .bind (fits_alike k f.1) fun covered _ => ?_
    cases covered with
    | true =>
      refine .pure fun r hr => ?_
      cases hr
      exact List.mem_cons_self
    | false =>
      exact Mirror.imp (ih _) fun _ _ h => ⟨h.1, fun r hr => List.mem_cons_of_mem _ (h.2 r hr)⟩

lemma Finds.outcome_eq (h : Finds k fields found) (letters : Letters) :
    ∃ letters', outcome (splitField fits k [] fields) letters = (.ok found, letters') := by
  obtain ⟨k₁, k₂, hk⟩ := h
  exact (splitField_alike k [] fields).exists_eq hk letters

lemma Finds.unique {found' : Option (List (Ty × Ty) × (Ty × Ty) × List (Ty × Ty))}
    (h : Finds k fields found) (h' : Finds k fields found') : found = found' := by
  obtain ⟨k₁, k₂, hk⟩ := h
  obtain ⟨k₃, hk'⟩ := h'.outcome_eq k₁
  exact (eq_of_outcome_eq hk hk').1

lemma Finds.eq_append {f : Ty × Ty} (h : Finds k fields (some (before, f, after))) :
    fields = before ++ f :: after := by
  obtain ⟨k₁, k₂, hk⟩ := h
  exact splitField_eq_some hk

/-- A unification with a literal key changes neither the key nor the other type. -/
lemma unify_key_leaves (a : Literal) (t : Ty) :
    (unify a.key t).Sat (Unified.Leaves a.key t) fun _ => True := by
  obtain ⟨c, hc, hkey⟩ : ∃ c, c ≠ "function" ∧ a.key = .con c [] (some a) [] := by
    cases a <;> exact ⟨_, by decide, rfl⟩
  rw [hkey]
  have hfails : ∀ message t, (showFailure render message (.con c [] (some a) []) t).Sat
      (Unified.Leaves (.con c [] (some a) []) t) fun _ => True :=
    fun _ _ => .bind .trivial fun _ _ => .bind .trivial fun _ _ => .pure ⟨rfl, rfl⟩
  induction t with
  | var y =>
    rw [unify_eq]
    exact .pure ⟨rfl, rfl⟩
  | con d args w more _ =>
    rw [unify_eq]
    refine .ite (fun _ => .pure ⟨rfl, rfl⟩) fun _ => .ite (fun _ => hfails _ _) fun hlen => ?_
    refine .ite (fun _ => hfails _ _) fun _ => .ite (fun h => absurd h hc) fun _ => ?_
    obtain rfl : args = [] := List.eq_nil_of_length_eq_zero (not_not.1 hlen).symm
    exact .pure ⟨rfl, rfl⟩
  | table | all =>
    rw [unify_eq]
    exact hfails _ _
  | union left right ihl ihr =>
    rw [unify_eq]
    refine .bind ihl fun u hu => ?_
    rw [hu.1]
    refine .bind ihr fun w hw => ?_
    rw [hu.2, hw.1, hw.2]
    rcases u.outcome with m | s <;> rcases w.outcome with m' | s'
    · exact .pure ⟨rfl, rfl⟩
    · exact .pure ⟨rfl, rfl⟩
    · exact .pure ⟨rfl, rfl⟩
    · exact .bind .trivial fun _ _ => .pure ⟨rfl, rfl⟩

lemma testBy_key (a : Literal) (t : Ty) :
    testBy unify a.key t = (do return ⟨← fits a.key t, a.key, t⟩) := by
  have htest := testBy_sat (R := fun a b => b = a) (fun _ => rfl) (unify_key_leaves a t)
  have hsame : testBy unify a.key t >>= pure =
      testBy unify a.key t >>= fun r => pure ⟨r.holds, a.key, t⟩ := by
    refine htest.bind_congr fun r hr => ?_
    rw [← hr.1, ← hr.2]
  rw [fits, fitsBy_eq, bind_assoc, ← bind_pure (testBy unify a.key t), hsame]
  simp only [bind_assoc, pure_bind]

/-- What looking for a field gives if no key changes. -/
def sought (k : Ty) (fields : List (Ty × Ty)) :
    Option (List (Ty × Ty) × (Ty × Ty) × List (Ty × Ty)) → Ty × List (Ty × Ty) × List (Ty × Ty)
  | none => (k, fields, [])
  | some (before, f, after) => (k, before, f :: after)

/-- Looking for a literal key changes no key. -/
lemma seekField_key (a : Literal) (passed fields : List (Ty × Ty)) :
    seekField unify a.key passed fields =
      (do return sought a.key (passed ++ fields) (← splitField fits a.key passed fields)) := by
  induction fields generalizing passed with
  | nil => simp only [seekField, splitField, sought, pure_bind, List.append_nil]
  | cons f fields ih =>
    rw [seekField, splitField, testBy_key]
    simp only [bind_assoc, pure_bind]
    refine bind_congr fun covered => ?_
    cases covered with
    | true => rfl
    | false =>
      have hrest := ih (passed ++ [f])
      rwa [List.append_assoc, List.singleton_append] at hrest

lemma unify_var_right {r : String} (hw : w ≠ .var r) :
    unify w (.var r) = pure ⟨.ok (.single r w), w, .var r⟩ := by
  rw [unify_eq]
  cases w with
  | var x =>
    have hne : x ≠ r := fun heq => hw (by rw [heq])
    simp [unifyStep, hne]
  | _ => rfl

/-- A wanted field is unified with the one that is found: its variable is bound to the type there. -/
lemma Finds.unify_some {a : Literal} (h : Finds a.key fields (some (before, (l, w), after)))
    {r : String} (hw : w ≠ .var r) (letters : Letters) :
    ∃ letters', outcome (unify (.table [(a.key, .var r)]) (.table fields)) letters =
      (.ok ⟨.ok (.single r w), .table [(a.key, .var r)], .table fields⟩, letters') := by
  obtain ⟨letters', hfind⟩ := h.outcome_eq letters
  refine ⟨letters', ?_⟩
  rw [unify_eq]
  simp only [unifyStep, unifyFields, seekField_key, bind_assoc, pure_bind, outcome_bind, hfind,
    sought, unify_var_right hw, outcome_pure]
  rw [h.eq_append]
  rfl

/-- A wanted field does not unify with a table that lacks it. -/
lemma Finds.unify_none {a : Literal} (h : Finds a.key fields none) {r : String}
    {letters letters' : Letters} {u : Unified} {s : Subst}
    (hu : outcome (unify (.table [(a.key, .var r)]) (.table fields)) letters = (.ok u, letters')) :
    u.outcome ≠ .ok s := by
  obtain ⟨k', hfind⟩ := h.outcome_eq letters
  rw [unify_eq] at hu
  simp only [unifyStep, unifyFields, seekField_key, bind_assoc, pure_bind] at hu
  obtain ⟨fs, k₁, hfs, hu⟩ := bind_eq_ok.1 hu
  obtain ⟨rfl, rfl⟩ := eq_of_outcome_eq hfind hfs
  obtain ⟨fs, k₁, hfs, hu⟩ := bind_eq_ok.1 hu
  obtain ⟨key, k₂, -, hfs⟩ := bind_eq_ok.1 hfs
  obtain ⟨table, k₃, -, hfs⟩ := bind_eq_ok.1 hfs
  obtain rfl := Except.ok.inj (Prod.mk.inj hfs).1
  obtain rfl := Except.ok.inj (Prod.mk.inj hu).1
  rintro ⟨⟩

/-! ## Following a path -/

/-- From one type, each key of a path is found in a table, and the last step leads to another
type. -/
inductive Leads : List Ty → Ty → Ty → Prop
  | nil (t : Ty) : Leads [] t t
  | cons {k l v u : Ty} {keys : List Ty} {fields before after : List (Ty × Ty)} :
      Finds k fields (some (before, (l, v), after)) → Leads keys v u →
      Leads (k :: keys) (.table fields) u

lemma Leads.of_snoc {keys : List Ty} (h : Leads (keys ++ [k]) t u) :
    ∃ fields before l after, Leads keys t (.table fields) ∧
      Finds k fields (some (before, (l, u), after)) := by
  induction keys generalizing t with
  | nil =>
    obtain _ | ⟨hfind, hrest⟩ := h
    cases hrest
    exact ⟨_, _, _, _, .nil _, hfind⟩
  | cons k' keys ih =>
    obtain _ | ⟨hfind, hrest⟩ := h
    obtain ⟨fields, before, l, after, hlead, hlast⟩ := ih hrest
    exact ⟨fields, before, l, after, .cons hfind hlead, hlast⟩

/-! ## Types and substitutions while reading -/

/-- No quantifier occurs in a type, and no variable that is still to be drawn after `n` have been. -/
structure Settled (n : Nat) (t : Ty) : Prop where
  mono : t.Mono
  drawn : ∀ x ∈ t.openVars, Drawn n x

lemma mem_freeVars_of_mem_openVars {x : String} (h : x ∈ t.openVars) : x ∈ t.freeVars := by
  induction t with
  | var y => exact h
  | con c args v checks ih =>
    obtain ⟨a, ha, hx⟩ := mem_openVarsList.1 h
    exact mem_freeVarsList.2 ⟨a, ha, ih a ha hx⟩
  | table fields ih =>
    obtain ⟨e, he, hx⟩ := mem_openVarsFields.1 h
    exact mem_freeVarsFields.2 ⟨e, he, .inr ((ih e he).2 hx)⟩
  | union left right ihl ihr =>
    exact List.mem_append.2 ((List.mem_append.1 h).imp ihl ihr)
  | all y body _ => exact absurd h List.not_mem_nil

lemma Ground.settled (h : t.Ground) (n : Nat) : t.Settled n := by
  have hle : Permit.closed.Le .unquantified :=
    ⟨fun _ _ => trivial, fun _ _ _ => trivial, fun _ _ => trivial, id, fun _ _ => trivial, id⟩
  refine ⟨mono_iff_within.2 (Within.mono hle h), fun x hx => ?_⟩
  exact (Within.freeVars h x (mem_freeVars_of_mem_openVars hx)).elim

lemma Settled.value {n : Nat} (h : Settled n (.table fields)) {f : Ty × Ty} (hf : f ∈ fields) :
    f.2.Settled n := by
  obtain ⟨hmono, hdrawn⟩ := h
  refine ⟨?_, fun x hx => hdrawn x (mem_openVarsFields.2 ⟨f, hf, hx⟩)⟩
  obtain _ | _ | ⟨_, hvalues⟩ := hmono
  exact hvalues f hf

lemma Settled.ne_var {n m : Nat} (h : t.Settled n) (hm : n ≤ m) : t ≠ .var s!"t{m + 1}" := by
  rintro rfl
  have := h.drawn s!"t{m + 1}" (by simp [openVars]) (m + 1) rfl
  omega

lemma Settled.leads {n : Nat} {keys : List Ty} (ht : t.Settled n) (h : Leads keys t u) :
    u.Settled n := by
  induction h with
  | nil t => exact ht
  | @cons k l v _ _ _ _ _ hfind _ ih =>
    exact ih (ht.value (f := (l, v)) (by rw [hfind.eq_append]; simp))

end Ty

namespace Subst

/-- Each of some variables drawn after the first `lo` and up to `hi` is bound to a type that was
settled before. -/
structure Above (lo hi : Nat) (s : Subst) : Prop where
  le : lo ≤ hi
  settled : ∀ b ∈ s.bindings, b.2.Settled lo
  drawn : ∀ b ∈ s.bindings, ∃ k, lo < k ∧ k ≤ hi ∧ b.1 = s!"t{k}"
  nodup : (s.bindings.map Prod.fst).Nodup

variable {lo hi : Nat} {s : Subst} {w : Ty}

lemma above_empty (h : lo ≤ hi) : Above lo hi .empty :=
  ⟨h, by simp [empty], by simp [empty], by simp [empty]⟩

lemma Above.apply (h : s.Above lo hi) (hw : w.Settled lo) : s.apply w = .ok w := by
  refine apply_of_resolves hw.mono fun x hx => ?_
  refine lookup_eq_none_of_not_mem fun hmem => ?_
  obtain ⟨b, hb, rfl⟩ := List.mem_map.1 hmem
  obtain ⟨k, hlo, -, hname⟩ := h.drawn b hb
  have := hw.drawn b.1 hx k hname
  omega

lemma Above.empty_compose (h : s.Above lo hi) : Subst.empty.compose s = pure s := by
  have happly : ∀ b ∈ s.bindings, Subst.empty.apply b.2 = .ok b.2 :=
    fun b hb => (above_empty h.le).apply (h.settled b hb)
  have hbindings : composeBindings Ty.fits .empty [] s.bindings = pure ([] ++ s.bindings) :=
    composeBindings_append happly (by simpa using h.nodup)
  unfold Subst.compose composeWith
  rw [show Subst.empty.bindings = [] from rfl, hbindings]
  rfl

/-- A binding of the next variable is put before the others. -/
lemma Above.cons (h : s.Above lo hi) (hw : w.Settled lo) :
    Above lo (hi + 1) ⟨(s!"t{hi + 1}", w) :: s.bindings, s.returning⟩ := by
  refine ⟨h.le.trans (Nat.le_succ _), List.forall_mem_cons.2 ⟨hw, h.settled⟩,
    List.forall_mem_cons.2 ⟨⟨hi + 1, Nat.lt_succ_of_le h.le, le_rfl, rfl⟩, fun b hb => ?_⟩,
    List.nodup_cons.2 ⟨fun hmem => ?_, h.nodup⟩⟩
  · obtain ⟨k, hlo, hk, hname⟩ := h.drawn b hb
    exact ⟨k, hlo, hk.trans (Nat.le_succ _), hname⟩
  · obtain ⟨b, hb, heq⟩ := List.mem_map.1 hmem
    obtain ⟨k, _, hk, hname⟩ := h.drawn b hb
    have : k = hi + 1 := drawn_name_inj (hname.symm.trans heq)
    omega

lemma Above.single_compose (h : s.Above lo hi) (hw : w.Settled lo) :
    (single s!"t{hi + 1}" w).compose s =
      pure ⟨(s!"t{hi + 1}", w) :: s.bindings, s.returning⟩ := by
  have hsingle : Above lo (hi + 1) (single s!"t{hi + 1}" w) := (above_empty h.le).cons hw
  have hbindings : composeBindings Ty.fits (single s!"t{hi + 1}" w) [(s!"t{hi + 1}", w)]
      s.bindings = pure ([(s!"t{hi + 1}", w)] ++ s.bindings) :=
    composeBindings_append (fun b hb => hsingle.apply (h.settled b hb)) (h.cons hw).nodup
  unfold Subst.compose composeWith
  rw [show (single s!"t{hi + 1}" w).bindings = [(s!"t{hi + 1}", w)] from rfl, hbindings]
  rfl

lemma Above.apply_last (h : s.Above lo hi) (hw : w.Settled lo) :
    Subst.apply ⟨(s!"t{hi + 1}", w) :: s.bindings, s.returning⟩ (.var s!"t{hi + 1}") = .ok w := by
  have hbound := (h.cons hw).apply hw
  simp only [Subst.apply, follow, Ty.replaceVars, List.lookup, beq_self_eq_true, List.length_cons]
  exact follow_of_resolves hw.mono fun x hx => apply_resolves hbound x hx

end Subst

/-! ## Inferring a path -/

namespace Check

open Naming Ty

variable {σ σ' : Session} {x : String} {l : Location} {object key p : Node} {k : Literal}
  {keys : List Literal} {n depth : Nat} {t u w : Ty} {i : Inferred}

/-- A part of a path has been read: its type is settled, and the variables drawn for it are bound to
settled types. -/
structure Read (n : Nat) (t : Ty) (σ : Session) (i : Inferred) (σ' : Session) : Prop where
  type : i.type = t
  settled : t.Settled n
  subst : i.subst.Above n σ'.supply.count
  scopes : σ'.scopes = σ.scopes

lemma outcome_unifyAt {a b : Ty} {v : Unified} {s : Subst} {letters : Letters}
    (hunify : outcome (unify a b) σ.letters = (.ok v, letters)) (hv : v.outcome = .ok s) :
    outcome (unifyAt l a b) σ = (.ok (s, v), { σ with letters }) := by
  have hnaming : outcome (naming (unify a b)) σ = (.ok v, { σ with letters }) := by
    rw [outcome_naming, hunify]
  rw [unifyAt, outcome_bind, hnaming]
  simp only [hv, outcome_pure]

/-- A step that binds its variable to a settled type reads this type. -/
lemma read_index (hkey : key.key? = some k) {o : Inferred} {σ₁ : Session}
    (hobject : outcome (inferTo (depth + 1) object) σ = (.ok o, σ₁)) (ho : Read n t σ o σ₁)
    (hw : w.Settled n) {v : Unified} {letters : Letters}
    (hunify : outcome (unify (.table [(k.key, .var s!"t{σ₁.supply.count + 1}")]) t) σ₁.letters =
      (.ok v, letters)) (hv : v.outcome = .ok (.single s!"t{σ₁.supply.count + 1}" w)) :
    Succeeds (inferTo (depth + 2) (.index l object key)) σ (Read n w σ) := by
  refine .bind_of_eq hobject ?_
  refine .bind_of_eq (a := ofType k.key) (by rw [inferTo_key hkey]; rfl) ?_
  refine .bind_of_eq (a := .var s!"t{σ₁.supply.count + 1}") rfl ?_
  rw [ho.type]
  refine .bind_of_eq (outcome_unifyAt hunify hv) ?_
  refine .bind_of_eq (outcome_compose ho.subst.empty_compose) ?_
  refine .bind_of_eq (outcome_compose (ho.subst.single_compose hw)) ?_
  refine .bind_of_eq (apply_eq_ok.2 ⟨ho.subst.apply_last hw, rfl⟩) ?_
  exact .pure ⟨rfl, hw, ho.subst.cons hw, ho.scopes⟩

/-- A path can be inferred only if what is before its last key can be, and unifies with a table that
has the key. -/
lemma index_eq_ok (hkey : key.key? = some k)
    (h : outcome (inferTo (depth + 1) (.index l object key)) σ = (.ok i, σ')) :
    ∃ o σ₁, outcome (inferTo depth object) σ = (.ok o, σ₁) ∧ ∃ v s letters,
      outcome (unify (.table [(k.key, .var s!"t{σ₁.supply.count + 1}")]) o.type) σ₁.letters =
        (.ok v, letters) ∧ v.outcome = .ok s := by
  obtain ⟨o, σ₁, hobject, h⟩ := bind_eq_ok.1 h
  refine ⟨o, σ₁, hobject, ?_⟩
  cases depth with
  | zero => cases hobject
  | succ depth =>
    obtain ⟨k', σ₂, hk, h⟩ := bind_eq_ok.1 h
    rw [inferTo_key hkey] at hk
    cases hk
    obtain ⟨r, σ₃, hr, h⟩ := bind_eq_ok.1 h
    obtain ⟨rfl, rfl⟩ := eq_of_outcome_eq (x := fresh) rfl hr
    obtain ⟨⟨s, v⟩, σ₄, hunify, -⟩ := bind_eq_ok.1 h
    obtain ⟨v', σ₅, hv', hunify⟩ := bind_eq_ok.1 hunify
    obtain ⟨letters, hv'⟩ := naming_eq_ok hv'
    rcases hout : v'.outcome with m | s' <;> rw [hout] at hunify
    · cases hunify
    · exact ⟨v', s', letters, hv', hout⟩

/-- A variable reads as an instance of its type. -/
lemma read_root (hx : σ.scopes.local? x = some t)
    (hsettled : (t.instantiate σ.supply).1.Settled (t.instantiate σ.supply).2.count) :
    Succeeds (inferTo (depth + 1) (.var l x)) σ
      (Read (t.instantiate σ.supply).2.count (t.instantiate σ.supply).1 σ) := by
  have hvar : outcome (inferTo (depth + 1) (.var l x)) σ =
      (.ok (ofType (t.instantiate σ.supply).1),
        { σ with supply := (t.instantiate σ.supply).2 }) := by
    change outcome (inferVar l x) σ = _
    simp only [inferVar, outcome_bind, outcome_get, hx]
    rfl
  exact .of_eq hvar ⟨rfl, hsettled, Subst.above_empty le_rfl, rfl⟩

section Path

variable (hx : σ.scopes.local? x = some t)
  (hsettled : (t.instantiate σ.supply).1.Settled (t.instantiate σ.supply).2.count)

include hx hsettled

/-- A path whose keys are all found in tables reads as the type that it leads to. -/
theorem read_of_leads (hp : KeyPath x keys p)
    (hleads : Leads (keys.map Literal.key) (t.instantiate σ.supply).1 u)
    (hdepth : keys.length < depth) :
    Succeeds (inferTo depth p) σ (Read (t.instantiate σ.supply).2.count u σ) := by
  induction hp generalizing depth u with
  | root l =>
    cases hleads
    obtain ⟨depth, rfl⟩ : ∃ d, depth = d + 1 := ⟨depth - 1, by simp at hdepth; omega⟩
    exact read_root hx hsettled
  | @index l keys object key k hobject hkey ih =>
    rw [List.length_append, List.length_singleton] at hdepth
    obtain ⟨depth, rfl⟩ : ∃ d, depth = d + 2 := ⟨depth - 2, by omega⟩
    rw [List.map_append, List.map_singleton] at hleads
    obtain ⟨fields, before, l', after, hlead, hfind⟩ := hleads.of_snoc
    obtain ⟨o, σ₁, ho, hread⟩ := (ih hlead (by omega : keys.length < depth + 1)).exists_eq
    have hu := hsettled.leads hleads
    obtain ⟨letters, hunify⟩ := hfind.unify_some (hu.ne_var hread.subst.le) σ₁.letters
    exact read_index hkey ho hread hu hunify rfl

/-- A path on which a key is not found cannot be inferred. -/
theorem not_infer_of_lacks (hp : KeyPath x keys p) {init rest : List Literal}
    {fields : List (Ty × Ty)} (hkeys : keys = init ++ k :: rest)
    (hleads : Leads (init.map Literal.key) (t.instantiate σ.supply).1 (.table fields))
    (hlacks : Finds k.key fields none) (hdepth : keys.length < depth) :
    outcome (inferTo depth p) σ ≠ (.ok i, σ') := by
  intro h
  induction hp generalizing depth rest i σ' with
  | root l => simp at hkeys
  | @index l keys object key k' hobject hkey ih =>
    cases depth with
    | zero => cases h
    | succ depth =>
      obtain ⟨o, σ₁, ho, v, s, letters, hunify, hv⟩ := index_eq_ok hkey h
      have hlength : keys.length < depth := by simpa using hdepth
      rcases rest.eq_nil_or_concat with rfl | ⟨rest, r, rfl⟩
      · -- the key that is not found is the last one
        obtain ⟨rfl, hk⟩ := List.append_inj' hkeys rfl
        obtain rfl : k' = k := by simpa using hk
        obtain ⟨o', σ₂, ho', hread⟩ :=
          (read_of_leads hx hsettled hobject hleads hlength).exists_eq
        obtain ⟨rfl, rfl⟩ := eq_of_outcome_eq ho ho'
        rw [hread.type] at hunify
        exact hlacks.unify_none hunify hv
      · rw [List.concat_eq_append, ← List.cons_append, ← List.append_assoc] at hkeys
        exact ih (List.append_inj' hkeys rfl).1 hlength ho

end Path

end Check

end LuaTyping
