import LuaTyping.Proofs.KeyPaths

set_option autoImplicit false

/-!
# Reading from closed types

An index expression asks for a table with one field, whose type is a new variable. From a closed type
this gives a closed type or nothing: a table offers what its first field for the key has, and of a
union the alternatives that offer something count, together what they have in common. What is
offered depends neither on the variable nor on letters. So a path of literal keys can be inferred
exactly if each of its keys in turn is offered something, and its type is what the last one is
offered.

## Main definitions

* `Ty.Offers` — a type has another one under a key.
* `Ty.Reads` — a type has another one at the end of a path of keys.

## Main results

* `Ty.unify_wanted_mirrors` — what is offered depends neither on variables nor on letters.
* `Check.infer_iff_reads` — what is inferred of a path through closed types.
-/

namespace LuaTyping

open Naming

namespace Ty

variable {t u w : Ty}

/-- Whether a type can be shown does not depend on letters. -/
lemma render_steady (t : Ty) :
    Mirror (fun _ _ => True) (fun _ _ => True) (fun _ _ => True) t.render t.render := by
  intro k k' _
  have h := (render_mirrors id t k k trivial).1
  have h' := (render_mirrors id t k' k trivial).1
  refine ⟨?_, trivial⟩
  cases hx : (outcome t.render k).1 <;> cases hx' : (outcome t.render k').1 <;>
    cases hy : (outcome (t.renamed id).render k).1 <;> rw [hx, hy] at h <;> rw [hx', hy] at h' <;>
    trivial

/-! ## What closed types offer -/

/-- A wanted field can be shown, whatever its variable is. -/
lemma render_wanted (a : Literal) (r r' : String) :
    Mirror (fun _ _ => True) (fun _ _ => True) (fun _ _ => True)
      (render (.table [(a.key, .var r)])) (render (.table [(a.key, .var r')])) := by
  have hshown : ∀ r letters, ∃ text letters',
      outcome (render (.table [(a.key, .var r)])) letters = (.ok text, letters') := by
    intro r letters
    cases a with
    | number d => exact ⟨_, _, rfl⟩
    | text s => exact ⟨_, _, rfl⟩
    | flag b => exact ⟨_, _, rfl⟩
  intro k k' _
  obtain ⟨text, k₁, h⟩ := hshown r k
  obtain ⟨text', k₂, h'⟩ := hshown r' k'
  rw [h, h']
  exact ⟨trivial, trivial⟩

/-- Two unifications of a wanted field agree: both fail, or both bind the variable of the field to
the same closed type. The wanted table stays as it is. -/
structure OffersAlike (k : Ty) (r r' : String) (u u' : Unified) : Prop where
  left : u.left = .table [(k, .var r)]
  left' : u'.left = .table [(k, .var r')]
  outcome : (∃ m m', u.outcome = .error m ∧ u'.outcome = .error m') ∨
    ∃ w : Ty, w.Ground ∧ u.outcome = .ok (.single r w) ∧ u'.outcome = .ok (.single r' w)

/-- Two bindings of one variable to closed types become one to what they have in common. -/
lemma compose_single_alike {w w' : Ty} (hw : w.Ground) (hw' : w'.Ground) (r r' : String) :
    Mirror (fun _ _ => True) (fun _ _ => True)
      (fun s s' => ∃ m : Ty, m.Ground ∧ s = .single r m ∧ s' = .single r' m)
      ((Subst.single r w).composeWith fits (.single r w'))
      ((Subst.single r' w).composeWith fits (.single r' w')) := by
  have hcompose : ∀ r : String, (Subst.single r w).composeWith fits (.single r w') =
      w'.meet w >>= fun m => m.elim (throw .unmet) fun m => pure (.single r m) := by
    intro r
    simp only [Subst.composeWith, Subst.single, Subst.composeBindings, List.lookup,
      beq_self_eq_true, bind_assoc]
    refine bind_congr fun m => ?_
    cases m with
    | none => rfl
    | some m => simp [Subst.enter]
  have hmeet : Alike (MeetWithin .closed) (w'.meet w) (w'.meet w) :=
    .of_sat (meetTo_congr alike_congruent fits_alike _ w' w) (meet_sat hw' hw)
  rw [hcompose r, hcompose r']
  refine Mirror.bind hmeet ?_
  rintro _ m ⟨rfl, hm⟩
  cases m with
  | none => exact .throw trivial
  | some m => exact .pure ⟨m, hm m rfl, rfl, rfl⟩

/-- What a closed type offers depends neither on the variable of the wanted field nor on letters. -/
theorem unify_wanted_mirrors (a : Literal) (ht : t.Ground) (r r' : String) :
    Mirror (fun _ _ => True) (fun _ _ => True) (OffersAlike a.key r r')
      (unify (.table [(a.key, .var r)]) t) (unify (.table [(a.key, .var r')]) t) := by
  induction t with
  | var x => exact (within_var_iff.1 ht).elim
  | con c args v checks _ =>
    rw [unify_eq, unify_eq]
    refine (render_wanted a r r').bind fun _ _ _ => (render_steady _).bind fun _ _ _ => ?_
    exact .pure ⟨rfl, rfl, .inl ⟨_, _, rfl, rfl⟩⟩
  | table fields _ =>
    have hvalues : ∀ f ∈ fields, f.2.Ground := fun f hf => (within_table_iff.1 ht f hf).2.2
    have hne : ∀ {w : Ty} (r : String), w.Ground → w ≠ .var r := by
      rintro _ r hw rfl
      exact within_var_iff.1 hw
    rw [unify_eq, unify_eq]
    simp only [unifyStep, unifyFields, seekField_key, bind_assoc, pure_bind]
    refine Mirror.bind (splitField_alike a.key [] fields) ?_
    rintro _ found ⟨rfl, hfound⟩
    cases found with
    | none =>
      simp only [sought, bind_assoc]
      refine (render_steady _).bind fun _ _ _ => (render_steady _).bind fun _ _ _ => ?_
      exact .pure ⟨rfl, rfl, .inl ⟨_, _, rfl, rfl⟩⟩
    | some found =>
      obtain ⟨before, ⟨l, w⟩, after⟩ := found
      have hw : w.Ground := hvalues _ (hfound _ rfl)
      simp only [sought, unify_var_right (hne r hw), unify_var_right (hne r' hw), pure_bind]
      exact .pure ⟨rfl, rfl, .inr ⟨w, hw, rfl, rfl⟩⟩
  | union left right ihl ihr =>
    obtain ⟨hleft, hright⟩ := within_union_iff.1 ht
    rw [unify_eq, unify_eq]
    refine (ihl hleft).bind fun u u' hu => ?_
    rw [hu.left, hu.left']
    refine (ihr hright).bind fun v v' hv => ?_
    rcases hu.outcome with ⟨m, m', hm, hm'⟩ | ⟨w, hw, hs, hs'⟩ <;>
      rcases hv.outcome with ⟨n, n', hn, hn'⟩ | ⟨w', hw', hs₁, hs₁'⟩
    · simp only [hm, hm', hn, hn']
      exact .pure ⟨hv.left, hv.left', .inl ⟨_, _, rfl, rfl⟩⟩
    · simp only [hm, hm', hs₁, hs₁']
      exact .pure ⟨hv.left, hv.left', .inr ⟨w', hw', rfl, rfl⟩⟩
    · simp only [hs, hs', hn, hn']
      exact .pure ⟨hv.left, hv.left', .inr ⟨w, hw, rfl, rfl⟩⟩
    · simp only [hs, hs', hs₁, hs₁']
      refine (compose_single_alike hw' hw r r').bind ?_
      rintro _ _ ⟨m, hm, rfl, rfl⟩
      exact .pure ⟨hv.left, hv.left', .inr ⟨m, hm, rfl, rfl⟩⟩
  | all x body _ => exact (within_all_iff.1 ht).1.elim

/-- A type has another one under a key: a table that has a variable under the key unifies with the
type, and binds the variable to the other one. -/
def Offers (k t w : Ty) : Prop :=
  ∃ r letters u letters', outcome (unify (.table [(k, .var r)]) t) letters = (.ok u, letters') ∧
    u.outcome = .ok (.single r w)

variable {a : Literal}

/-- What is offered is found with any variable and from any letters. -/
lemma Offers.outcome_eq (h : Offers a.key t w) (ht : t.Ground) (r : String) (letters : Letters) :
    w.Ground ∧ ∃ u letters', outcome (unify (.table [(a.key, .var r)]) t) letters =
      (.ok u, letters') ∧ u.outcome = .ok (.single r w) := by
  obtain ⟨r₀, k, u, k', hu, hs⟩ := h
  obtain ⟨hagree, -⟩ := unify_wanted_mirrors a ht r₀ r k letters trivial
  rcases hrun : outcome (unify (.table [(a.key, .var r)]) t) letters with ⟨e | u', k₁⟩ <;>
    rw [hu, hrun] at hagree
  · exact hagree.elim
  · rcases hagree.outcome with ⟨m, m', hm, -⟩ | ⟨w', hw', hs', hs₁⟩
    · rw [hs] at hm
      cases hm
    · obtain rfl : w = w' := by
        rw [hs] at hs'
        simpa [Subst.single] using Except.ok.inj hs'
      exact ⟨hw', u', k₁, rfl, hs₁⟩

/-- What unifies with a wanted field offers something. -/
lemma offers_of_unify (ht : t.Ground) {r : String} {letters letters' : Letters} {u : Unified}
    {s : Subst} (hu : outcome (unify (.table [(a.key, .var r)]) t) letters = (.ok u, letters'))
    (hs : u.outcome = .ok s) : ∃ w, w.Ground ∧ s = .single r w ∧ Offers a.key t w := by
  obtain ⟨hagree, -⟩ := unify_wanted_mirrors a ht r r letters letters trivial
  rw [hu] at hagree
  rcases hagree.outcome with ⟨m, m', hm, -⟩ | ⟨w, hw, hs', -⟩
  · rw [hs] at hm
    cases hm
  · refine ⟨w, hw, Except.ok.inj (hs.symm.trans hs'), r, letters, u, letters', hu, hs'⟩

lemma Offers.unique (h : Offers a.key t w) (h' : Offers a.key t u) (ht : t.Ground) : w = u := by
  obtain ⟨-, v, k, hv, hw⟩ := h.outcome_eq ht "r" []
  obtain ⟨-, v', k', hv', hu⟩ := h'.outcome_eq ht "r" []
  obtain ⟨rfl, -⟩ := eq_of_outcome_eq hv hv'
  rw [hw] at hu
  simpa [Subst.single] using Except.ok.inj hu

/-- A table offers what the field that is found has. -/
lemma offers_table_iff {fields : List (Ty × Ty)} (ht : (table fields).Ground) :
    Offers a.key (.table fields) w ↔
      ∃ before l after, Finds a.key fields (some (before, (l, w), after)) := by
  have hoffers_of_finds : ∀ {w : Ty},
      (∃ before l after, Finds a.key fields (some (before, (l, w), after))) →
        Offers a.key (.table fields) w := by
    rintro w ⟨before, l, after, hfind⟩
    have hw : w.Ground := (within_table_iff.1 ht (l, w) (by rw [hfind.eq_append]; simp)).2.2
    have hne : w ≠ .var "r" := by
      rintro rfl
      exact within_var_iff.1 hw
    obtain ⟨k', hu⟩ := hfind.unify_some hne []
    exact ⟨"r", [], _, k', hu, rfl⟩
  refine ⟨?_, hoffers_of_finds⟩
  · rintro ⟨r, k, u, k', hu, hs⟩
    have hstep := hu
    rw [unify_eq] at hstep
    simp only [unifyStep, unifyFields, seekField_key, bind_assoc] at hstep
    obtain ⟨found, k₂, hfound, -⟩ := bind_eq_ok.1 hstep
    have hfinds : Finds a.key fields found := ⟨k, k₂, hfound⟩
    cases found with
    | none => exact absurd hs (hfinds.unify_none hu)
    | some found =>
      obtain ⟨before, ⟨l, w'⟩, after⟩ := found
      have hoffers := hoffers_of_finds ⟨before, l, after, hfinds⟩
      obtain rfl := Offers.unique ⟨r, k, u, k', hu, hs⟩ hoffers ht
      exact ⟨before, l, after, hfinds⟩

/-! ## Reading along a path -/

/-- A type has another one at the end of a path of literal keys. -/
def Reads : List Literal → Ty → Ty → Prop
  | [], t, w => w = t
  | a :: keys, t, w => ∃ u, Offers a.key t u ∧ Reads keys u w

lemma reads_append {keys more : List Literal} :
    Reads (keys ++ more) t w ↔ ∃ u, Reads keys t u ∧ Reads more u w := by
  induction keys generalizing t with
  | nil => simp [Reads]
  | cons a keys ih =>
    simp only [List.cons_append, Reads, ih]
    constructor
    · rintro ⟨v, hv, u, hu, hw⟩
      exact ⟨u, ⟨v, hv, hu⟩, hw⟩
    · rintro ⟨u, ⟨v, hv, hu⟩, hw⟩
      exact ⟨v, hv, u, hu, hw⟩

lemma Reads.ground {keys : List Literal} (h : Reads keys t w) (ht : t.Ground) : w.Ground := by
  induction keys generalizing t with
  | nil => exact h ▸ ht
  | cons a keys ih =>
    obtain ⟨u, hu, hw⟩ := h
    exact ih hw (hu.outcome_eq ht "r" []).1

end Ty

namespace Check

open Ty

variable {σ : Session} {x : String} {keys : List Literal} {p : Node} {T w : Ty} {depth : Nat}

section Path

variable (hx : σ.scopes.local? x = some T) (hT : T.Ground)

include hx hT

/-- A path from a variable of closed type reads as what is at its end. -/
lemma read_of_reads (hp : KeyPath x keys p) (h : T.Reads keys w) (hdepth : keys.length < depth) :
    Succeeds (inferTo depth p) σ (Read σ.supply.count w σ) := by
  induction hp generalizing depth w with
  | root l =>
    obtain rfl : w = T := h
    obtain ⟨depth, rfl⟩ : ∃ d, depth = d + 1 := ⟨depth - 1, by simp at hdepth; omega⟩
    have hsettled : (w.instantiate σ.supply).1.Settled (w.instantiate σ.supply).2.count := by
      rw [hT.instantiate]
      exact hT.settled _
    have hroot : Succeeds (inferTo (depth + 1) (.var l x)) σ _ := read_root hx hsettled
    rwa [hT.instantiate] at hroot
  | @index l keys object key k hobject hkey ih =>
    rw [List.length_append, List.length_singleton] at hdepth
    obtain ⟨depth, rfl⟩ : ∃ d, depth = d + 2 := ⟨depth - 2, by omega⟩
    obtain ⟨u, hu, v, hoffers, rfl⟩ := reads_append.1 h
    obtain ⟨o, σ₁, ho, hread⟩ := (ih hu (by omega : keys.length < depth + 1)).exists_eq
    obtain ⟨hw, v, letters, hunify, hv⟩ := hoffers.outcome_eq (hu.ground hT)
      s!"t{σ₁.supply.count + 1}" σ₁.letters
    exact read_index hkey ho hread (hw.settled _) hunify hv

/-- A path from a variable of closed type can be inferred exactly if there is something at its end,
and its type is what is there. -/
theorem infer_iff_reads (hp : KeyPath x keys p) (hdepth : keys.length < depth) :
    (∃ i σ', outcome (inferTo depth p) σ = (.ok i, σ') ∧ i.type = w) ↔ T.Reads keys w := by
  constructor
  · rintro ⟨i, σ', h, rfl⟩
    suffices hreads : ∃ w, T.Reads keys w by
      obtain ⟨w, hw⟩ := hreads
      obtain ⟨i', σ₁, h', hread⟩ := (read_of_reads hx hT hp hw hdepth).exists_eq
      obtain ⟨rfl, -⟩ := eq_of_outcome_eq h h'
      rwa [hread.type]
    induction hp generalizing depth i σ' with
    | root l => exact ⟨T, rfl⟩
    | @index l keys object key k hobject hkey ih =>
      cases depth with
      | zero => cases h
      | succ depth =>
        have hlength : keys.length < depth := by simpa using hdepth
        obtain ⟨o, σ₁, ho, v, s, letters, hunify, hv⟩ := index_eq_ok hkey h
        obtain ⟨u, hu⟩ := ih hlength _ _ ho
        obtain ⟨o', σ₂, ho', hread⟩ := (read_of_reads hx hT hobject hu hlength).exists_eq
        obtain ⟨rfl, rfl⟩ := eq_of_outcome_eq ho ho'
        rw [hread.type] at hunify
        obtain ⟨w, -, -, hoffers⟩ := offers_of_unify (hu.ground hT) hunify hv
        exact ⟨w, reads_append.2 ⟨u, hu, w, hoffers, rfl⟩⟩
  · intro h
    obtain ⟨i, σ', hi, hread⟩ := (read_of_reads hx hT hp h hdepth).exists_eq
    exact ⟨i, σ', hi, hread.type⟩

end Path

end Check

end LuaTyping
