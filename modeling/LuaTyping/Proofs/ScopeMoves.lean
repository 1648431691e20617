import LuaTyping.Check.Scopes
import LuaTyping.Proofs.FieldEdits

set_option autoImplicit false

/-!
# How scopes change

A check changes its scopes in few ways: it binds a name in the innermost frame, makes a name global,
changes the type of a table where its name is bound, and does any of this in a frame of its own that
it drops again. This file says once what follows for the names: which of them keep their types,
which can come up, and which stay.

## Main definitions

* `Reach` — what a computation may do to the scopes.
* `Ty.unchecked`, `Scopes.unchecked` — types, and the types of names, with checks left aside.
* `Scopes.Moves` — changes of scopes within a reach.
* `Ty.holdsFields` — a type is one that assignments to paths change.

## Main results

* `Scopes.Moves.holds`, `Scopes.Moves.local?_eq` — a name that is not in reach
  keeps its type.
* `Scopes.Moves.mem_boundNames`, `Scopes.Moves.mem_globalNames` — a name that comes up
  is in reach.
-/

namespace LuaTyping

/-! ## Entries -/

section Entries

variable {α : Type} {x y : String} {a : α} {l : List (String × α)}

lemma lookup_enterName_self : (enterName x a l).lookup x = some a := by
  induction l with
  | nil => simp [enterName]
  | cons p rest ih =>
    obtain ⟨z, b⟩ := p
    by_cases hz : z = x
    · simp [enterName, hz]
    · have hxz : (x == z) = false := by simpa using fun h => hz h.symm
      simp [enterName, hz, List.lookup, hxz, ih]

lemma lookup_enterName_of_ne (h : y ≠ x) : (enterName x a l).lookup y = l.lookup y := by
  have hyx : (y == x) = false := by simpa using h
  induction l with
  | nil => simp [enterName, List.lookup, hyx]
  | cons p rest ih =>
    obtain ⟨z, b⟩ := p
    by_cases hz : z = x
    · simp [enterName, hz, List.lookup, hyx]
    · simp only [enterName, beq_iff_eq, hz, if_false, List.lookup, ih]

lemma mem_names_enterName {z : String} :
    z ∈ (enterName x a l).map Prod.fst ↔ z = x ∨ z ∈ l.map Prod.fst := by
  induction l with
  | nil => simp [enterName]
  | cons p rest ih =>
    obtain ⟨y, b⟩ := p
    by_cases hy : y = x
    · simp [enterName, hy]
    · simp only [enterName, beq_iff_eq, hy, if_false, List.map_cons, List.mem_cons, ih]
      exact or_left_comm

lemma mem_names_of_lookup (h : l.lookup x = some a) : x ∈ l.map Prod.fst :=
  List.mem_map.2 ⟨(x, a), mem_of_lookup h, rfl⟩

end Entries

/-! ## Checks aside -/

namespace Ty

mutual

/-- A type without the checks in it. -/
def unchecked : Ty → Ty
  | .var x => .var x
  | .con c args v _ => .con c (uncheckedList args) v []
  | .table fields => .table (uncheckedFields fields)
  | .union left right => .union left.unchecked right.unchecked
  | .all x body => .all x body.unchecked

/-- Types without the checks in them. -/
def uncheckedList : List Ty → List Ty
  | [] => []
  | t :: ts => t.unchecked :: uncheckedList ts

/-- Fields without the checks in them. -/
def uncheckedFields : List (Ty × Ty) → List (Ty × Ty)
  | [] => []
  | (k, v) :: rest => (k.unchecked, v.unchecked) :: uncheckedFields rest

end

end Ty

/-- A binding without the checks in its type. -/
def Binding.unchecked : Binding → Binding
  | .own t => .own t.unchecked
  | .shared => .shared

namespace Scopes

/-- Scopes without the checks in the types of names. -/
def unchecked (s : Scopes) : Scopes :=
  ⟨s.frames.map (List.map fun b => (b.1, b.2.unchecked)),
    s.globals.map fun b => (b.1, b.2.unchecked)⟩

lemma lookup_map {α : Type} (f : α → α) (x : String) (l : List (String × α)) :
    (l.map fun b => (b.1, f b.2)).lookup x = (l.lookup x).map f := by
  induction l with
  | nil => rfl
  | cons b l ih =>
    rw [List.map_cons, List.lookup, List.lookup, ih]
    split <;> rfl

@[simp]
lemma global?_unchecked (s : Scopes) (x : String) :
    s.unchecked.global? x = (s.global? x).map Ty.unchecked :=
  lookup_map Ty.unchecked x s.globals

@[simp]
lemma local?_unchecked (s : Scopes) (x : String) :
    s.unchecked.local? x = (s.local? x).map Ty.unchecked := by
  have hbinding : s.unchecked.binding? x = (s.binding? x).map Binding.unchecked := by
    unfold Scopes.binding? unchecked
    induction s.frames with
    | nil => rfl
    | cons frame frames ih =>
      rw [List.map_cons, List.findSome?_cons, List.findSome?_cons,
        lookup_map Binding.unchecked x frame]
      cases frame.lookup x with
      | none => exact ih
      | some b => rfl
  rw [Scopes.local?, Scopes.local?, hbinding]
  cases s.binding? x with
  | none => rfl
  | some b =>
    cases b with
    | own t => rfl
    | shared => exact global?_unchecked s x

end Scopes

/-! ## Changes of scopes -/

/-- What a computation may do to the scopes. -/
structure Reach where
  /-- The names that it may bind in the innermost frame. -/
  bound : String → Prop
  /-- The names that it may make global. -/
  assigned : String → Prop
  /-- Whether it may assign to paths. -/
  paths : Prop

/-- The reach in a frame that is dropped again: there any name may be bound. -/
def Reach.inside (r : Reach) : Reach := { r with bound := fun _ => True }

/-- Anything may be done. -/
abbrev Reach.any : Reach := ⟨fun _ => True, fun _ => True, True⟩

/-- Whether assignments to paths can change a type: it is a table, or one below a quantifier. -/
def Ty.holdsFields : Ty → Bool
  | .table _ | .all _ (.table _) => true
  | _ => false

namespace Scopes

/-- Changes of scopes within a reach. An assignment to a path edits the type of a local name, and
changes it only if it holds fields. -/
inductive Moves : Reach → Scopes → Scopes → Prop
  | refl (r : Reach) (s : Scopes) : Moves r s s
  | trans {r : Reach} {s t u : Scopes} : Moves r s t → Moves r t u → Moves r s u
  | bind {r : Reach} (s : Scopes) {x : String} (t : Ty) : r.bound x → Moves r s (s.bind x t)
  | bindGlobal {r : Reach} {s : Scopes} {x : String} (t : Ty) : r.bound x → r.assigned x →
      s.local? x = none → Moves r s (s.bindGlobal x t)
  | update {r : Reach} {s : Scopes} {x : String} {t u : Ty} : r.paths → s.local? x = some t →
      (t.holdsFields = false → u = t) → t.Edited u → Moves r s (s.update x u)
  | scope {r : Reach} {s t : Scopes} : Moves r.inside s.push t → Moves r s t.pop

variable {r : Reach} {s t : Scopes} {x y : String}

lemma Moves.mono {r' : Reach} (hbound : ∀ x, r.bound x → r'.bound x)
    (hassigned : ∀ x, r.assigned x → r'.assigned x) (hpaths : r.paths → r'.paths)
    (h : Moves r s t) : Moves r' s t := by
  induction h generalizing r' with
  | refl r s => exact .refl r' s
  | trans _ _ ih ih' => exact .trans (ih hbound hassigned hpaths) (ih' hbound hassigned hpaths)
  | bind s t hx => exact .bind s t (hbound _ hx)
  | bindGlobal t hx hg hl => exact .bindGlobal t (hbound _ hx) (hassigned _ hg) hl
  | update hp hl hu hedited => exact .update (hpaths hp) hl hu hedited
  | scope _ ih => exact .scope (ih (fun _ _ => trivial) hassigned hpaths)

/-! ## Names that keep their types -/

/-- Below the `k` innermost frames a name has a type, and none of these frames shares the name with
the global scope. -/
inductive Holds (x : String) (T : Ty) : Nat → Scopes → Prop
  | here {s : Scopes} : s.local? x = some T → Holds x T 0 s
  | under {k : Nat} {frame : Frame} {frames : List Frame} {globals : List (String × Ty)} :
      frame.lookup x ≠ some .shared → Holds x T k ⟨frames, globals⟩ →
      Holds x T (k + 1) ⟨frame :: frames, globals⟩

variable {T : Ty} {k : Nat}

lemma local?_congr (hb : s.binding? x = t.binding? x) (hg : s.global? x = t.global? x) :
    s.local? x = t.local? x := by
  rw [Scopes.local?, Scopes.local?, hb]
  cases t.binding? x with
  | none => rfl
  | some b =>
    cases b with
    | own => rfl
    | shared => exact hg

variable {globals : List (String × Ty)} {u : Ty}
variable {frame : Frame} {frames : List Frame} {b : Binding}

lemma local?_cons_of_none (h : frame.lookup x = none) :
    Scopes.local? ⟨frame :: frames, globals⟩ x = Scopes.local? ⟨frames, globals⟩ x :=
  local?_congr (by simp [Scopes.binding?, h]) rfl

lemma local?_cons_of_own (h : frame.lookup x = some (.own u)) :
    Scopes.local? ⟨frame :: frames, globals⟩ x = some u := by
  simp [Scopes.local?, Scopes.binding?, Scopes.resolve, h]

lemma lookup_cases (h : frame.lookup x ≠ some .shared) :
    frame.lookup x = none ∨ ∃ u, frame.lookup x = some (.own u) := by
  cases hl : frame.lookup x with
  | none => exact .inl rfl
  | some b =>
    cases b with
    | own u => exact .inr ⟨u, rfl⟩
    | shared => exact absurd hl h

lemma Holds.local?_isSome (h : Holds x T k s) : (s.local? x).isSome := by
  induction h with
  | here h => simp [h]
  | under hframe _ ih =>
    rcases lookup_cases hframe with hl | ⟨u, hl⟩
    · rwa [local?_cons_of_none hl]
    · simp [local?_cons_of_own hl]

lemma Holds.withGlobals {globals' : List (String × Ty)} (h : Holds x T k ⟨frames, globals⟩)
    (hg : globals'.lookup x = globals.lookup x) : Holds x T k ⟨frames, globals'⟩ := by
  induction frames generalizing k with
  | nil =>
    cases h with
    | here h => simp [Scopes.local?, Scopes.binding?] at h
  | cons frame rest ih =>
    cases h with
    | here h => exact .here (h ▸ local?_congr rfl hg)
    | under hframe h => exact .under hframe (ih h)

lemma local?_enter_of_ne (h : x ≠ y) : (s.enter y b).local? x = s.local? x := by
  obtain ⟨frames, globals⟩ := s
  cases frames with
  | nil =>
    have hne : (x == y) = false := by simpa using h
    exact local?_congr (by simp [Scopes.enter, Scopes.binding?, List.lookup, hne]) rfl
  | cons frame rest =>
    refine local?_congr ?_ rfl
    simp only [Scopes.enter, Scopes.binding?, List.findSome?_cons, lookup_enterName_of_ne h]

lemma Holds.enter (h : Holds x T k s) (hy : k = 0 → x ≠ y) (hb : b = .shared → x ≠ y) :
    Holds x T k (s.enter y b) := by
  cases h with
  | here h => exact .here (by rw [local?_enter_of_ne (hy rfl), h])
  | @under k frame frames globals hframe h =>
    refine .under ?_ h
    by_cases hxy : x = y
    · subst hxy
      rw [lookup_enterName_self]
      exact fun hshared => hb (Option.some.inj hshared) rfl
    · rwa [lookup_enterName_of_ne hxy]

lemma lookup_updateFrames_of_ne (h : x ≠ y) :
    (updateFrames y u frames).findSome? (·.lookup x) = frames.findSome? (·.lookup x) := by
  induction frames with
  | nil => rfl
  | cons frame rest ih =>
    rw [updateFrames]
    split
    · simp only [List.findSome?_cons, lookup_enterName_of_ne h]
    · simp only [List.findSome?_cons, ih]

lemma local?_update_of_ne (h : x ≠ y) : (s.update y u).local? x = s.local? x := by
  unfold Scopes.update
  split
  · rfl
  · exact local?_congr (lookup_updateFrames_of_ne h) rfl
  · exact local?_congr rfl (lookup_enterName_of_ne h)

/-- A change goes past a frame that does not bind the name. -/
lemma update_cons_of_none (h : frame.lookup y = none) :
    Scopes.update ⟨frame :: frames, globals⟩ y u =
      ⟨frame :: (Scopes.update ⟨frames, globals⟩ y u).frames,
        (Scopes.update ⟨frames, globals⟩ y u).globals⟩ := by
  have hbinding : Scopes.binding? ⟨frame :: frames, globals⟩ y =
      Scopes.binding? ⟨frames, globals⟩ y := by
    simp [Scopes.binding?, h]
  unfold Scopes.update
  rw [hbinding]
  split
  · rfl
  · simp [updateFrames, h]
  · rfl

lemma update_cons_of_own {t : Ty} (h : frame.lookup y = some (.own t)) :
    Scopes.update ⟨frame :: frames, globals⟩ y u =
      ⟨enterName y (.own u) frame :: frames, globals⟩ := by
  simp [Scopes.update, Scopes.binding?, updateFrames, h]

/-- A change of the type of a local name gives it the new type. -/
lemma local?_update_self (h : s.local? x = some T) : (s.update x u).local? x = some u := by
  obtain ⟨frames, globals⟩ := s
  induction frames with
  | nil => simp [Scopes.local?, Scopes.binding?] at h
  | cons frame rest ih =>
    cases hl : frame.lookup x with
    | none =>
      rw [update_cons_of_none hl, local?_cons_of_none hl]
      exact ih (by rwa [local?_cons_of_none hl] at h)
    | some b =>
      cases b with
      | own t => rw [update_cons_of_own hl, local?_cons_of_own lookup_enterName_self]
      | shared =>
        simp [Scopes.update, Scopes.local?, Scopes.binding?, Scopes.resolve, Scopes.global?, hl,
          lookup_enterName_self]

/-- A change of the type of a name leaves what is held below some frames, or is the change of what is
held. -/
lemma Holds.update {t u : Ty} (h : Holds x T k s) (hlocal : s.local? y = some t) :
    Holds x T k (s.update y u) ∨ T = t ∧ Holds x u k (s.update y u) := by
  induction h with
  | here h =>
    by_cases hxy : x = y
    · subst hxy
      exact .inr ⟨Option.some.inj (h.symm.trans hlocal), .here (local?_update_self h)⟩
    · exact .inl (.here (by rwa [local?_update_of_ne hxy]))
  | @under k frame frames globals hframe hrest ih =>
    cases hl : frame.lookup y with
    | none =>
      rw [update_cons_of_none hl]
      exact (ih (by rwa [local?_cons_of_none hl] at hlocal)).imp (.under hframe)
        fun h => ⟨h.1, .under hframe h.2⟩
    | some b =>
      refine .inl ?_
      cases b with
      | own v =>
        rw [update_cons_of_own hl]
        refine .under ?_ hrest
        by_cases hxy : x = y
        · subst hxy
          simp [lookup_enterName_self]
        · rwa [lookup_enterName_of_ne hxy]
      | shared =>
        have hxy : x ≠ y := fun hxy => hframe (hxy ▸ hl)
        rw [show Scopes.update ⟨frame :: frames, globals⟩ y u =
          ⟨frame :: frames, enterName y u globals⟩ by simp [Scopes.update, Scopes.binding?, hl]]
        exact .under hframe (hrest.withGlobals (lookup_enterName_of_ne hxy))

/-- A name that may not be bound outside of some frames keeps a type below them. What holds of this
type goes on to hold of it if it is kept by assignments to paths. -/
theorem Moves.exists_holds {P : Ty → Prop} (hmoves : Moves r s t) (h : Holds x T k s)
    (hbound : k = 0 → ¬ r.bound x) (hT : P T)
    (hstep : r.paths → ∀ t u, P t → (t.holdsFields = false → u = t) → t.Edited u → P u) :
    ∃ T', P T' ∧ Holds x T' k t := by
  induction hmoves generalizing T k with
  | refl => exact ⟨T, hT, h⟩
  | trans _ _ ih ih' =>
    obtain ⟨T', hT', h⟩ := ih h hbound hT hstep
    exact ih' h hbound hT' hstep
  | bind s u hy =>
    exact ⟨T, hT, h.enter (fun hk hxy => hbound hk (hxy ▸ hy)) fun hshared => nomatch hshared⟩
  | @bindGlobal r s y u hy _ hlocal =>
    -- the name is local, the other one is not
    have hxy : x ≠ y := by
      rintro rfl
      simpa [hlocal] using h.local?_isSome
    have hg : (enterName y u s.globals).lookup x = (s.enter y .shared).globals.lookup x := by
      rw [lookup_enterName_of_ne hxy]
      unfold Scopes.enter
      split <;> rfl
    exact ⟨T, hT, (h.enter (fun _ => hxy) fun _ => hxy).withGlobals hg⟩
  | @update r s y t u hp hlocal hu hedited =>
    rcases h.update hlocal with h | ⟨rfl, h⟩
    · exact ⟨T, hT, h⟩
    · exact ⟨u, hstep hp T u hT hu hedited, h⟩
  | @scope r s t _ ih =>
    obtain ⟨T', hT', h⟩ := ih (.under (by simp) h) (by simp) hT hstep
    obtain ⟨frames, globals⟩ := t
    cases h with
    | under _ h => exact ⟨T', hT', h⟩

/-- A name keeps the type that it has below some frames, if it may not be bound outside of them and
its type holds no fields or paths are not assigned to. -/
theorem Moves.holds (hmoves : Moves r s t) (h : Holds x T k s) (hbound : k = 0 → ¬ r.bound x)
    (hpaths : r.paths → T.holdsFields = false) : Holds x T k t := by
  obtain ⟨_, rfl, hheld⟩ := hmoves.exists_holds (P := (· = T)) h hbound rfl
    fun hp t u ht hu _ => (hu (ht ▸ hpaths hp)).trans ht
  exact hheld

/-- A local name that may not be bound stays local, and what becomes of its type are assignments to
tables in it. -/
lemma Moves.local?_edited (hmoves : Moves r s t) (h : s.local? x = some T) (hbound : ¬ r.bound x) :
    ∃ T', Relation.ReflTransGen Ty.Edited T T' ∧ t.local? x = some T' := by
  obtain ⟨T', hT', h⟩ := hmoves.exists_holds (P := Relation.ReflTransGen Ty.Edited T) (.here h)
    (fun _ => hbound) .refl fun _ _ _ hT _ hedited => hT.tail hedited
  cases h with
  | here h => exact ⟨T', hT', h⟩

/-- A local name keeps its type, if it may not be bound and its type holds no fields or paths are not
assigned to. -/
lemma Moves.local?_eq (hmoves : Moves r s t) (h : s.local? x = some T) (hbound : ¬ r.bound x)
    (hpaths : r.paths → T.holdsFields = false) : t.local? x = some T := by
  cases hmoves.holds (.here h) (fun _ => hbound) hpaths with
  | here h => exact h

lemma local?_bind_self : (s.bind x u).local? x = some u := by
  obtain ⟨frames, globals⟩ := s
  cases frames with
  | nil => exact local?_cons_of_own (by simp)
  | cons frame rest => exact local?_cons_of_own lookup_enterName_self

/-! ## Without assignments to paths -/

lemma tail_frames_enter : (s.enter x b).frames.tail = s.frames.tail := by
  unfold Scopes.enter
  split <;> simp_all

lemma Moves.tail_frames (h : Moves r s t) (hpaths : ¬ r.paths) : t.frames.tail = s.frames.tail := by
  induction h with
  | refl => rfl
  | trans _ _ ih ih' => rw [ih' hpaths, ih hpaths]
  | bind | bindGlobal => exact tail_frames_enter
  | update hp => exact absurd hp hpaths
  | scope _ ih =>
    simp only [Scopes.pop, List.drop_one, ih hpaths]
    rfl

/-- Without assignments to paths, the frames stay as they are if no name may be bound. -/
lemma Moves.frames_eq (h : Moves r s t) (hpaths : ¬ r.paths) (hbound : ∀ x, ¬ r.bound x) :
    t.frames = s.frames := by
  induction h with
  | refl => rfl
  | trans _ _ ih ih' => rw [ih' hpaths hbound, ih hpaths hbound]
  | bind _ _ hx | bindGlobal _ hx => exact absurd hx (hbound _)
  | update hp => exact absurd hp hpaths
  | scope h => simpa [Scopes.pop, Scopes.push] using h.tail_frames hpaths

lemma global?_bind : (s.bind y u).global? x = s.global? x := by
  unfold Scopes.bind Scopes.enter
  split <;> rfl

/-- Without assignments to paths, a global name that may not be assigned to keeps its type. -/
lemma Moves.global?_eq (h : Moves r s t) (hpaths : ¬ r.paths) (hx : ¬ r.assigned x) :
    t.global? x = s.global? x := by
  induction h with
  | refl => rfl
  | trans _ _ ih ih' => rw [ih' hpaths hx, ih hpaths hx]
  | bind => exact global?_bind
  | bindGlobal _ _ hy => exact lookup_enterName_of_ne fun hxy => hx (hxy ▸ hy)
  | update hp => exact absurd hp hpaths
  | scope _ ih => exact ih hpaths hx

lemma isSome_lookup_enterName (h : (globals.lookup x).isSome) :
    ((enterName y u globals).lookup x).isSome := by
  by_cases hxy : x = y
  · subst hxy
    simp [lookup_enterName_self]
  · rwa [lookup_enterName_of_ne hxy]

lemma Moves.global?_isSome (hmoves : Moves r s t) (h : (s.global? x).isSome) :
    (t.global? x).isSome := by
  induction hmoves with
  | refl => exact h
  | trans _ _ ih ih' => exact ih' (ih h)
  | bind => rwa [global?_bind]
  | bindGlobal => exact isSome_lookup_enterName h
  | update =>
    unfold Scopes.update
    split
    · exact h
    · exact h
    · exact isSome_lookup_enterName h
  | scope _ ih => exact ih h

/-! ## Names that come up -/

/-- The names that are bound below the `k` innermost frames. -/
def boundNames (k : Nat) (s : Scopes) : List String :=
  (s.frames.drop k).flatMap fun frame => frame.map Prod.fst

lemma mem_boundNames_enter (h : x ∈ (s.enter y b).boundNames k) :
    x ∈ s.boundNames k ∨ k = 0 ∧ x = y := by
  obtain ⟨frames, globals⟩ := s
  cases k with
  | succ k =>
    refine .inl ?_
    cases frames with
    | nil => simp [Scopes.enter, boundNames] at h
    | cons frame rest => exact h
  | zero =>
    cases frames with
    | nil => exact .inr ⟨rfl, by simpa [Scopes.enter, boundNames] using h⟩
    | cons frame rest =>
      rcases List.mem_append.1 h with h | h
      · rcases mem_names_enterName.1 h with rfl | h
        · exact .inr ⟨rfl, rfl⟩
        · exact .inl (List.mem_append_left _ h)
      · exact .inl (List.mem_append_right _ h)

/-- A change of the type of a name changes no frame's names. -/
lemma mem_boundNames_updateFrames :
    (x ∈ ((updateFrames y u frames).drop k).flatMap fun frame => frame.map Prod.fst) ↔
      x ∈ (frames.drop k).flatMap fun frame => frame.map Prod.fst := by
  induction frames generalizing k with
  | nil => rfl
  | cons frame rest ih =>
    rw [updateFrames]
    split
    · rename_i hframe
      cases k with
      | succ k => rfl
      | zero =>
        have hname : y ∈ frame.map Prod.fst := by
          obtain ⟨b, hb⟩ := Option.isSome_iff_exists.1 hframe
          exact mem_names_of_lookup hb
        simp only [List.drop_zero, List.flatMap_cons, List.mem_append, mem_names_enterName]
        exact or_congr_left (or_iff_right_of_imp fun h => h ▸ hname)
    · cases k with
      | succ k => exact ih
      | zero =>
        simp only [List.drop_zero, List.flatMap_cons, List.mem_append]
        exact or_congr_right (ih (k := 0))

/-- A name that comes up in the frames was bound in the innermost one, within reach. -/
theorem Moves.mem_boundNames (hmoves : Moves r s t) (h : x ∈ t.boundNames k) :
    x ∈ s.boundNames k ∨ k = 0 ∧ r.bound x := by
  induction hmoves generalizing k with
  | refl => exact .inl h
  | trans _ _ ih ih' =>
    rcases ih' h with h | h
    · exact ih h
    · exact .inr h
  | bind _ _ hy | bindGlobal _ hy =>
    rcases mem_boundNames_enter h with h | ⟨hk, rfl⟩
    · exact .inl h
    · exact .inr ⟨hk, hy⟩
  | update =>
    refine .inl ?_
    unfold Scopes.update at h
    split at h
    · exact h
    · exact mem_boundNames_updateFrames.1 h
    · exact h
  | @scope r s t _ ih =>
    refine .inl ?_
    have hin : x ∈ t.boundNames (k + 1) := by
      simpa [boundNames, Scopes.pop, Nat.add_comm] using h
    rcases ih hin with h | ⟨hk, _⟩
    · simpa [boundNames, Scopes.push] using h
    · exact absurd hk (Nat.succ_ne_zero k)

/-- A name that becomes global is one that may be assigned to. -/
theorem Moves.mem_globalNames (hmoves : Moves r s t) (h : x ∈ t.globals.map Prod.fst) :
    x ∈ s.globals.map Prod.fst ∨ r.assigned x := by
  induction hmoves with
  | refl => exact .inl h
  | trans _ _ ih ih' =>
    rcases ih' h with h | h
    · exact ih h
    · exact .inr h
  | bind s u =>
    refine .inl ?_
    unfold Scopes.bind Scopes.enter at h
    split at h <;> exact h
  | bindGlobal _ _ hy =>
    rcases mem_names_enterName.1 h with rfl | h
    · exact .inr hy
    · exact .inl h
  | @update r s y t u _ hlocal =>
    refine .inl ?_
    unfold Scopes.update at h
    split at h
    · exact h
    · exact h
    · rename_i hbinding
      rcases mem_names_enterName.1 h with rfl | h
      · -- the name shares its type with the global one, which is there
        rw [Scopes.local?, hbinding] at hlocal
        exact mem_names_of_lookup hlocal
      · exact h
  | scope _ ih => exact ih h

lemma mem_boundNames_of_local? (h : s.local? x = some T) : x ∈ s.boundNames 0 := by
  obtain ⟨b, hb, _⟩ := Option.bind_eq_some_iff.1 h
  obtain ⟨frame, hframe, hl⟩ := List.exists_of_findSome?_eq_some hb
  exact List.mem_flatMap.2 ⟨frame, hframe, mem_names_of_lookup hl⟩

end Scopes

end LuaTyping
