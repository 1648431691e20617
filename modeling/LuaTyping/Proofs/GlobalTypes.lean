import LuaTyping.Proofs.KindKeeping

set_option autoImplicit false

/-!
# The types of global names

An assignment to a name that is bound in no frame makes it global and local at once, with the type
that it is given; what type the global name had is not looked at. From then on the name is bound, in
this scope and in all scopes inside of it: there assignments change its local type only, and its
global type stays. So of all that a chunk assigns to a global name in its own statements, the first
assignment decides, whatever the type of the name was before.

## Main definitions

* `Scopes.Settled` — a name is bound in a frame, and the global name has a type.

## Main results

* `Scopes.Moves.settled` — a bound name keeps its global type.
* `Check.first_assignment_decides` — what assignments do to the type of a global name.
* `Check.global_changes_kind` — a global number becomes a string.
-/

namespace LuaTyping

namespace Scopes

variable {r : Reach} {s t : Scopes} {x y : String} {T : Ty} {k : Nat}

/-! ## Bound names stay bound -/

lemma mem_boundNames_of_enter {b : Binding} (h : x ∈ s.boundNames k) :
    x ∈ (s.enter y b).boundNames k := by
  obtain ⟨frames, globals⟩ := s
  cases frames with
  | nil => simp [boundNames] at h
  | cons frame rest =>
    cases k with
    | succ k => exact h
    | zero =>
      rcases List.mem_append.1 h with h | h
      · exact List.mem_append_left _ (mem_names_enterName.2 (.inr h))
      · exact List.mem_append_right _ h

lemma mem_boundNames_enter_self {b : Binding} : x ∈ (s.enter x b).boundNames 0 := by
  obtain ⟨frames, globals⟩ := s
  cases frames with
  | nil => simp [Scopes.enter, boundNames]
  | cons frame rest => exact List.mem_append_left _ (mem_names_enterName.2 (.inl rfl))

variable {u : Ty}

lemma mem_boundNames_of_update (h : x ∈ s.boundNames k) : x ∈ (s.update y u).boundNames k := by
  unfold Scopes.update
  split
  · exact h
  · exact mem_boundNames_updateFrames.2 h
  · exact h

lemma binding?_eq_none_iff : s.binding? x = none ↔ x ∉ s.boundNames 0 := by
  simp only [Scopes.binding?, List.findSome?_eq_none_iff, boundNames, List.drop_zero,
    List.mem_flatMap, not_exists, not_and]
  refine forall₂_congr fun frame _ => ?_
  constructor
  · intro hl hx
    obtain ⟨⟨z, b⟩, hb, rfl⟩ := List.mem_map.1 hx
    exact absurd hb (by simpa using List.lookup_eq_none_iff.1 hl (z, b))
  · intro hx
    cases hl : frame.lookup x with
    | none => rfl
    | some b => exact absurd (mem_names_of_lookup hl) hx

/-! ## Bound names keep their global types -/

/-- A name is bound below the `k` innermost frames, and the global name has a type. -/
structure Settled (x : String) (T : Ty) (k : Nat) (s : Scopes) : Prop where
  bound : x ∈ s.boundNames k
  global : s.global? x = some T

/-- A name that is bound below some frames is local. -/
lemma Settled.local?_isSome (h : Settled x T k s) : ∃ u, s.local? x = some u := by
  have hbound : x ∈ s.boundNames 0 := by
    obtain ⟨frame, hframe, hx⟩ := List.mem_flatMap.1 h.bound
    exact List.mem_flatMap.2 ⟨frame, List.mem_of_mem_drop hframe, hx⟩
  cases hb : s.binding? x with
  | none => exact absurd hbound (binding?_eq_none_iff.1 hb)
  | some b =>
    cases b with
    | own u => exact ⟨u, by simp [Scopes.local?, hb, Scopes.resolve]⟩
    | shared => exact ⟨T, by simp [Scopes.local?, hb, Scopes.resolve, h.global]⟩

/-- A change of the type of a local name is none of the global name, if that has a type without
fields. -/
lemma global?_update {t : Ty} (hglobal : s.global? x = some T) (hT : T.holdsFields = false)
    (hlocal : s.local? y = some t) (hu : t.holdsFields = false → u = t) :
    (s.update y u).global? x = some T := by
  unfold Scopes.update
  split
  · exact hglobal
  · exact hglobal
  · rename_i hb
    by_cases hxy : x = y
    · subst hxy
      have hresolve : s.global? x = some t := by
        simpa [Scopes.local?, hb, Scopes.resolve] using hlocal
      obtain rfl : T = t := Option.some.inj (hglobal.symm.trans hresolve)
      rw [hu hT]
      exact lookup_enterName_self
    · exact (lookup_enterName_of_ne hxy).trans hglobal

/-- A bound name keeps its global type, if that holds no fields, whatever else is bound, assigned
and changed. -/
theorem Moves.settled (hmoves : Moves r s t) (h : Settled x T k s) (hT : T.holdsFields = false) :
    Settled x T k t := by
  induction hmoves generalizing k with
  | refl => exact h
  | trans _ _ ih ih' => exact ih' (ih h)
  | bind s u => exact ⟨mem_boundNames_of_enter h.bound, global?_bind.trans h.global⟩
  | bindGlobal u _ _ hlocal =>
    refine ⟨mem_boundNames_of_enter h.bound, (lookup_enterName_of_ne ?_).trans h.global⟩
    -- the name is local, the one that becomes global is not
    rintro rfl
    obtain ⟨v, hv⟩ := h.local?_isSome
    exact nomatch hlocal.symm.trans hv
  | update _ hlocal hu =>
    exact ⟨mem_boundNames_of_update h.bound, global?_update h.global hT hlocal hu⟩
  | @scope r s t _ ih =>
    have hpush : Settled x T (k + 1) s.push := ⟨h.bound, h.global⟩
    obtain ⟨hbound, hglobal⟩ := ih hpush
    exact ⟨by simpa [boundNames, Scopes.pop, Nat.add_comm] using hbound, hglobal⟩

lemma Moves.binding?_eq_none (hmoves : Moves r s t) (h : s.binding? x = none) (hx : ¬ r.bound x) :
    t.binding? x = none := by
  rw [binding?_eq_none_iff] at h ⊢
  intro hbound
  rcases hmoves.mem_boundNames hbound with hbound | ⟨_, hreach⟩
  · exact h hbound
  · exact hx hreach

lemma settled_bindGlobal : Settled x T 0 (s.bindGlobal x T) :=
  ⟨mem_boundNames_enter_self, lookup_enterName_self⟩

end Scopes

namespace Check

open Scopes

variable {α : Type} {infer : Inference} {l lx : Location} {x : String} {σ σ' : Session}
  {types : List Ty} {front back exprs : List Node} {P : Ty → Prop} {ρ : Role}

/-! ## Assignments -/

lemma assignTargets_append (infer : Inference) (l : Location) (types : List Ty) (number : Nat)
    (front back : List Node) : assignTargets infer l types number (front ++ back) = (do
      assignTargets infer l types number front
      assignTargets infer l types (number + front.length) back) := by
  induction front generalizing number with
  | nil => rfl
  | cons target front ih =>
    have hnumber : number + (target :: front).length = number + 1 + front.length := by
      rw [List.length_cons]
      omega
    rw [List.cons_append, hnumber]
    cases target <;> simp only [assignTargets, ih, bind_assoc]

/-- An assignment to a name that is not local makes it global, with the type it is given. -/
lemma assignName_of_unbound {number : Nat} (hx : σ.scopes.binding? x = none) :
    outcome (assignName l x types number) σ =
      outcome (do
        let t ← member types number
        modify fun τ => { τ with
          scopes := τ.scopes.bindGlobal x (t.generalize τ.scopes.freeVars) } : Check Unit) σ := by
  have hlocal : σ.scopes.local? x = none := by simp [Scopes.local?, hx]
  rw [assignName, outcome_bind, outcome_scopes]
  dsimp only
  rw [hlocal, outcome_bind, outcome_bind]
  rcases outcome (member types number) σ with ⟨e | t, τ⟩
  · rfl
  · rfl

lemma generalize_of_closed {t : Ty} (h : t.freeVars = []) (bound : List String) :
    t.generalize bound = t := by
  simp [Ty.generalize, h]

variable {n : Node} {i : Inferred}

/-- Assignments to targets bind only names that stand among the targets. -/
lemma assignTargets_moves {number : Nat} {targets : List Node} {e : Except Stop Unit}
    (hkeys : ∀ t ∈ targets, ∀ k ∈ t.pathKeys,
      Tracked (fun _ => False) infer k)
    (h : outcome (assignTargets infer l types number targets) σ = (e, σ')) :
    σ.scopes.Moves (.binding fun y => ∃ ly, .var ly y ∈ targets) σ'.scopes := by
  have hkeeps : Keeps (.about fun _ => True) (.binding fun y => ∃ ly, .var ly y ∈ targets) 0
      (assignTargets infer l types number targets) fun _ _ => True :=
    assignTargets_keeps
      (fun t ht k hk => (hkeys t ht k hk).mono (fun _ => False.elim) (fun _ hy => hy) id)
      (fun ly y hy => ⟨⟨ly, hy⟩, trivial⟩) (fun _ _ _ _ => trivial) fun t _ => t.within_about
  exact hkeeps.moves_of_eq h

/-- Targets of which a name that is bound nowhere is one are accepted only if there is a type for
the name where it stands first. The global name has this type then, if it is closed and holds no
fields. -/
lemma assignTargets_settles {number : Nat}
    (hkeys : ∀ t ∈ front ++ .var lx x :: back, ∀ k ∈ t.pathKeys,
      Tracked (fun _ => False) infer k)
    (hfirst : ∀ ly, .var ly x ∉ front) (hx : σ.scopes.binding? x = none)
    (h : outcome (assignTargets infer l types number (front ++ .var lx x :: back)) σ =
      (.ok (), σ')) :
    ∃ t, types[number + front.length]? = some t ∧
      (t.freeVars = [] → t.holdsFields = false → Settled x t 0 σ'.scopes) := by
  rw [assignTargets_append] at h
  obtain ⟨_, σ₁, hbefore, h⟩ := bind_eq_ok.1 h
  obtain ⟨_, σ₂, hname, hafter⟩ := bind_eq_ok.1 h
  have hx₁ : σ₁.scopes.binding? x = none := by
    have hmoves := assignTargets_moves (fun t ht => hkeys t (by simp [ht])) hbefore
    exact hmoves.binding?_eq_none hx fun ⟨ly, hy⟩ => hfirst ly hy
  rw [assignName_of_unbound hx₁] at hname
  obtain ⟨t, σ₃, hmember, hname⟩ := bind_eq_ok.1 hname
  obtain rfl :
      { σ₃ with scopes := σ₃.scopes.bindGlobal x (t.generalize σ₃.scopes.freeVars) } = σ₂ :=
    congrArg Prod.snd hname
  refine ⟨t, getElem?_of_member hmember, fun hclosed hfields => ?_⟩
  have hsettled : Settled x t 0
      (σ₃.scopes.bindGlobal x (t.generalize σ₃.scopes.freeVars)) := by
    rw [generalize_of_closed hclosed]
    exact settled_bindGlobal
  have hmoves := assignTargets_moves (fun t ht => hkeys t (by simp [ht])) hafter
  exact hmoves.settled hsettled hfields

/-- An assignment to a name that is bound nowhere, in the same way. -/
lemma inferAssign_settles
    (hexprs : ∀ e ∈ exprs, Tracked (fun _ => False) infer e)
    (hkeys : ∀ t ∈ front ++ .var lx x :: back, ∀ k ∈ t.pathKeys,
      Tracked (fun _ => False) infer k)
    (hfirst : ∀ ly, .var ly x ∉ front) (hx : σ.scopes.binding? x = none)
    (h : outcome (inferAssign infer l (front ++ .var lx x :: back) exprs) σ = (.ok i, σ')) :
    ∃ s types σ₁ t, outcome (givenTypes infer (front ++ .var lx x :: back) exprs) σ =
        (.ok (s, types), σ₁) ∧
      types[front.length]? = some t ∧
      (t.freeVars = [] → t.holdsFields = false → Settled x t 0 σ'.scopes) := by
  rw [inferAssign_eq] at h
  obtain ⟨⟨s, types⟩, σ₁, hgiven, h⟩ := bind_eq_ok.1 h
  obtain ⟨_, σ₂, hassigned, h⟩ := bind_eq_ok.1 h
  obtain rfl : σ₂ = σ' := congrArg Prod.snd h
  have hx₁ : σ₁.scopes.binding? x = none :=
    ((givenTypes_keeps hexprs).moves_of_eq hgiven).binding?_eq_none hx id
  obtain ⟨t, ht, hsettled⟩ := assignTargets_settles hkeys hfirst hx₁ hassigned
  rw [Nat.zero_add] at ht
  exact ⟨s, types, σ₁, t, hgiven, ht, hsettled⟩

/-- An assignment to a single name that is bound nowhere is accepted exactly if its expressions are
and give a type. -/
lemma inferAssign_unbound_iff
    (hexprs : ∀ e ∈ exprs, Tracked (fun _ => False) infer e)
    (hx : σ.scopes.binding? x = none) :
    outcome (inferAssign infer l [.var lx x] exprs) σ = (.ok i, σ') ↔
      ∃ t types σ₁, outcome (givenTypes infer [.var lx x] exprs) σ =
          (.ok (i.subst, t :: types), σ₁) ∧ i.type = .nil ∧
        σ' = { σ₁ with scopes := σ₁.scopes.bindGlobal x (t.generalize σ₁.scopes.freeVars) } := by
  rw [inferAssign_eq, bind_eq_ok]
  constructor
  · rintro ⟨⟨s, types⟩, σ₁, hgiven, h⟩
    have hx₁ : σ₁.scopes.binding? x = none :=
      ((givenTypes_keeps hexprs).moves_of_eq hgiven).binding?_eq_none hx id
    obtain ⟨_, σ₂, hassigned, h⟩ := bind_eq_ok.1 h
    obtain ⟨_, σ₃, hname, hassigned⟩ := bind_eq_ok.1 hassigned
    obtain rfl : σ₃ = σ₂ := congrArg Prod.snd hassigned
    rw [assignName_of_unbound hx₁] at hname
    cases h
    cases types with
    | nil => cases hname
    | cons t types => exact ⟨t, types, σ₁, hgiven, rfl, (congrArg Prod.snd hname).symm⟩
  · rintro ⟨t, types, σ₁, hgiven, htype, rfl⟩
    have hx₁ : σ₁.scopes.binding? x = none :=
      ((givenTypes_keeps hexprs).moves_of_eq hgiven).binding?_eq_none hx id
    have hname : outcome (assignName l x (t :: types) 0) σ₁ = (.ok (), { σ₁ with
        scopes := σ₁.scopes.bindGlobal x (t.generalize σ₁.scopes.freeVars) }) := by
      rw [assignName_of_unbound hx₁]
      rfl
    have hassigned : outcome (assignTargets infer l (t :: types) 0 [.var lx x]) σ₁ = (.ok (), _) :=
      bind_eq_ok.2 ⟨(), _, hname, rfl⟩
    refine ⟨_, σ₁, hgiven, bind_eq_ok.2 ⟨(), _, hassigned, ?_⟩⟩
    rw [outcome_pure, ← htype]

/-! ## Chunks -/

/-- What an accepted chunk does to the scopes after its statements. -/
lemma inferChunk_statements {statements : List Node} {last : Option Node}
    (hlast : ∀ s, last = some s → Tracked (fun _ => False) infer s)
    (h : outcome (inferChunk infer l statements last) σ = (.ok i, σ')) :
    ∃ p σ₁ s, outcome (inferStatements infer l ⟨.empty, none, false⟩ statements)
        { σ with scopes := σ.scopes.push } = (.ok p, σ₁) ∧
      σ₁.scopes.Moves (.binding fun _ => False) s ∧ σ'.scopes = s.pop := by
  rw [inferChunk, outcome_inScope, Prod.mk.injEq] at h
  obtain ⟨h, rfl⟩ := h
  obtain ⟨p, σ₁, hp, h⟩ := bind_eq_ok.1 (Prod.ext h rfl)
  refine ⟨p, σ₁, _, hp, Keeps.moves_of_eq (Q := fun _ _ => True) ?_ h, rfl⟩
  cases last with
  | some last =>
    refine .bind (hlast last rfl) fun _ j _ hj => ?_
    refine .bind (addLast_keeps (fun t _ => t.within_about) hj.type) fun _ _ _ _ => ?_
    exact .bind (keeps_compose j.subst.within_about p.subst.within_about) fun _ _ _ _ =>
      keeps_pure fun _ _ => trivial
  | none =>
    dsimp only
    split <;> exact keeps_pure fun _ _ => trivial

lemma inferTo_tracked_of_ne (hn : n.Formed P ρ) (hρ : ρ ≠ .statement) (depth : Nat) :
    Tracked (fun _ => False) (inferTo depth) n := by
  refine inferTo_tracked hn (fun y hy => ?_) depth
  rw [Node.binds_eq_nil (hn.isBinding_eq_false hρ)] at hy
  exact absurd hy List.not_mem_nil

/-- The statements after one that was inferred may do anything to the scopes. -/
lemma addStatement_keeps {p : Progress} {s : Node} {after : List Node} {depth : Nat}
    (hafter : ∀ n ∈ after, n.Formed P .statement) :
    Keeps (.about fun _ => True) (.binding fun _ => True) 0 (do
      let q ← addStatement l p s i
      let s ← compose i.subst q.subst
      inferStatements (inferTo depth) l { q with subst := s } after) fun _ _ => True := by
  have hprogress : ∀ p : Progress, ProgressWithin (.about fun _ => True) p :=
    fun p => ⟨p.subst.within_about, fun t _ => t.within_about⟩
  refine .bind (Q := fun _ _ => True) (keeps_ite (fun _ => ?_) fun _ => keeps_pure fun _ _ => trivial)
    fun m q _ _ => .bind (keeps_compose i.subst.within_about q.subst.within_about) fun m' s _ _ => ?_
  · exact (addReturn_keeps (hprogress p) ⟨i.subst.within_about, i.type.within_about⟩).imp
      fun _ _ _ _ => trivial
  · refine (inferStatements_keeps (fun n hn => ?_) (hprogress _)).imp fun _ _ _ _ => trivial
    exact (inferTo_tracked (hafter n hn) (fun _ _ => trivial) depth).from (Nat.zero_le _)

/-- A chunk that assigns to a name which is bound nowhere, and was not bound by the statements
before. It is accepted only if the expressions of the assignment give a type for the name, and that
is the type of the global name in the end, if it is closed and holds no fields. -/
lemma inferChunk_settles {la : Location} {before after : List Node} {last : Option Node}
    {depth : Nat}
    (hformed : (Node.chunk l (before ++ .assign la (front ++ .var lx x :: back) exprs :: after)
      last).Formed P ρ) (hbefore : ∀ s ∈ before, x ∉ s.binds) (hfirst : ∀ ly, .var ly x ∉ front)
    (hx : σ.scopes.binding? x = none) (h : outcome (inferTo (depth + 2)
      (.chunk l (before ++ .assign la (front ++ .var lx x :: back) exprs :: after) last)) σ =
        (.ok i, σ')) :
    ∃ p σ₀ s types σ₁ t,
      outcome (inferStatements (inferTo (depth + 1)) l ⟨.empty, none, false⟩ before)
        { σ with scopes := σ.scopes.push } = (.ok p, σ₀) ∧
      outcome (givenTypes (inferTo depth) (front ++ .var lx x :: back) exprs) σ₀ =
        (.ok (s, types), σ₁) ∧
      types[front.length]? = some t ∧
      (t.freeVars = [] → t.holdsFields = false → σ'.scopes.global? x = some t) := by
  cases hformed with
  | chunk _ hstatements hlast =>
    obtain ⟨q, σ₃, s', hq, hend, hscopes⟩ := inferChunk_statements
      (fun n hn => inferTo_tracked_of_ne (hlast n hn) (by decide) (depth + 1)) h
    rw [inferStatements_append] at hq
    obtain ⟨p, σ₀, hp, hq⟩ := bind_eq_ok.1 hq
    rw [inferStatements_cons] at hq
    obtain ⟨j, σ₂, hassign, hq⟩ := bind_eq_ok.1 hq
    -- the statements before leave the name unbound
    have hx₀ : σ₀.scopes.binding? x = none := by
      have hkeeps := inferStatements_keeps (l := l) (p := ⟨.empty, none, false⟩)
        (fun n hn => inferTo_tracked (B := (· ≠ x)) (hstatements n (by simp [hn]))
          (fun y hy hyx => hbefore n hn (hyx ▸ hy)) (depth + 1))
        ⟨Subst.within_empty, fun _ h => nomatch h⟩
      exact (hkeeps.moves_of_eq hp).binding?_eq_none hx fun hne => hne rfl
    cases hstatements _ (List.mem_append_right _ List.mem_cons_self) with
    | assign _ _ htargets hexprs =>
      obtain ⟨s, types, σ₁, t, hgiven, ht, hsettled⟩ := inferAssign_settles
        (fun e he => inferTo_tracked_expr (hexprs e he) depth)
        (fun n hn k hk => inferTo_tracked_expr ((htargets n hn).pathKeys k hk) depth)
        hfirst hx₀ hassign
      refine ⟨p, σ₀, s, types, σ₁, t, hp, hgiven, ht, fun hclosed hfields => ?_⟩
      -- whatever comes after, the name is bound
      have hafter : ∀ n ∈ after, n.Formed P .statement := fun n hn => hstatements n (by simp [hn])
      have hmoves := (addStatement_keeps hafter).moves_of_eq hq
      have hlater := hmoves.settled (hsettled hclosed hfields) hfields
      rw [hscopes]
      exact (hend.settled hlater hfields).global

/-- A bound name keeps its global type, if that holds no fields, whatever is inferred and however it
ends. -/
lemma inferTo_settled {T : Ty} (hn : n.Formed P ρ) (hx : σ.scopes.binding? x ≠ none)
    (hglobal : σ.scopes.global? x = some T) (hT : T.holdsFields = false) (depth : Nat) :
    (outcome (inferTo depth n) σ).2.scopes.global? x = some T := by
  have hsettled : Settled x T 0 σ.scopes :=
    ⟨by simpa [binding?_eq_none_iff] using hx, hglobal⟩
  have htracked := inferTo_tracked (B := fun _ => True) hn (fun _ _ => trivial) depth
  exact ((htracked.session σ.within_about (Nat.zero_le _)).moves.settled hsettled hT).global

/-- What assignments do to the type of a global name.

* Where the name is bound in a frame, its global type stays, if it holds no fields: whatever is
  inferred, and however that ends.
* Where it is bound in none, an assignment to the name is accepted exactly if its expressions are
  and give a type. What type the global name had does not matter; afterwards it has the type given.
* So of all assignments in a chunk the first one to the name decides, wherever it stands in the
  chunk and among the targets, and whatever the type of the name was before it: if the chunk is
  accepted, the expressions gave a type for the name, and that is the type of the global name in the
  end, if it is closed and holds no fields.

The global types are compared with checks left aside. The type of a comparison holds in its checks
the very types that places are narrowed to by it, so that an assignment to such a place changes a
global type inside its checks. -/
theorem first_assignment_decides (x : String) (σ : Session) (depth : Nat) :
    (∀ (T : Ty) (n : Node) (ρ : Role), σ.scopes.binding? x ≠ none → σ.scopes.global? x = some T →
      T.holdsFields = false → n.Formed (fun _ => True) ρ →
      (outcome (inferTo depth n) σ).2.scopes.unchecked.global? x = some T.unchecked) ∧
    (σ.scopes.binding? x = none → ∀ (l lx : Location) (exprs : List Node) (i : Inferred)
      (σ' : Session), (∀ e ∈ exprs, e.Formed (fun _ => True) .expr) →
      (outcome (inferTo (depth + 1) (.assign l [.var lx x] exprs)) σ = (.ok i, σ') ↔
        ∃ t types σ₁, outcome (givenTypes (inferTo depth) [.var lx x] exprs) σ =
            (.ok (i.subst, t :: types), σ₁) ∧ i.type = .nil ∧
          σ' = { σ₁ with scopes := σ₁.scopes.bindGlobal x (t.generalize σ₁.scopes.freeVars) })) ∧
    (σ.scopes.binding? x = none → ∀ (l la lx : Location) (before after : List Node)
      (front back exprs : List Node) (last : Option Node) (i : Inferred) (σ' : Session),
      (Node.chunk l (before ++ .assign la (front ++ .var lx x :: back) exprs :: after)
        last).Formed (fun _ => True) .chunk →
      (∀ s ∈ before, x ∉ s.binds) → (∀ ly, .var ly x ∉ front) →
      outcome (inferTo (depth + 2)
        (.chunk l (before ++ .assign la (front ++ .var lx x :: back) exprs :: after) last)) σ =
          (.ok i, σ') →
      ∃ p σ₀ s types σ₁ t,
        outcome (inferStatements (inferTo (depth + 1)) l ⟨.empty, none, false⟩ before)
          { σ with scopes := σ.scopes.push } = (.ok p, σ₀) ∧
        outcome (givenTypes (inferTo depth) (front ++ .var lx x :: back) exprs) σ₀ =
          (.ok (s, types), σ₁) ∧
        types[front.length]? = some t ∧
        (t.freeVars = [] → t.holdsFields = false →
          σ'.scopes.unchecked.global? x = some t.unchecked)) := by
  refine ⟨fun T n ρ hx hglobal hT hn => ?_, ?_, ?_⟩
  · rw [Scopes.global?_unchecked, inferTo_settled hn hx hglobal hT depth, Option.map_some]
  · intro hx l lx exprs i σ' hexprs
    exact inferAssign_unbound_iff (fun e he => inferTo_tracked_expr (hexprs e he) depth) hx
  · intro hx l la lx before after front back exprs last i σ' hformed hbefore hfirst h
    obtain ⟨p, σ₀, s, types, σ₁, t, hp, hgiven, ht, hglobal⟩ :=
      inferChunk_settles hformed hbefore hfirst hx h
    refine ⟨p, σ₀, s, types, σ₁, t, hp, hgiven, ht, fun hclosed hfields => ?_⟩
    rw [Scopes.global?_unchecked, hglobal hclosed hfields, Option.map_some]

/-! ## Examples -/

/-- The statement `g = v`. -/
def setGlobal (v : Node) : Node := .assign default [.var default "g"] [v]

/-- The statement `function f() g = 1 end`. -/
def setInFunction : Node :=
  .assign default [.var default "f"]
    [.function default [] false
      (.chunk default [setGlobal (.number default (.ofNat 1))] none) (some "f")
      (.resultNote default none)]

/-- The program `function f() g = 1 end g = "a" g = "b"`. -/
def setThrice : Node :=
  .chunk default
    ([setInFunction] ++ setGlobal (.string default "a") :: [setGlobal (.string default "b")]) none

lemma setGlobal_formed {v : Node} (hv : v.Formed P .expr) : (setGlobal v).Formed P .statement :=
  .assign _ (by simp [Node.isPlace]) (List.forall_mem_singleton.2 (.var _ _))
    (List.forall_mem_singleton.2 hv)

lemma setThrice_formed : setThrice.Formed P .chunk := by
  have hinside : setInFunction.Formed P .statement := by
    have hbody :
        (Node.chunk default [setGlobal (.number default (.ofNat 1))] none).Formed P .chunk :=
      .chunk _ (List.forall_mem_singleton.2 (setGlobal_formed (.number _ _))) (by simp)
    exact .assign _ (by simp [Node.isPlace]) (List.forall_mem_singleton.2 (.var _ _))
      (List.forall_mem_singleton.2 (.function _ _ _ _ _ hbody (by simp)))
  refine .chunk _ ?_ (by simp)
  simpa using ⟨hinside, setGlobal_formed (.string _ _), setGlobal_formed (.string _ _)⟩

/-- In the program `function f() g = 1 end g = "a" g = "b"`, the first assignment to `g` among the
statements of the program decides: in the end the global name has the type `"a"`. -/
theorem first_assignment_decides_setThrice :
    ∃ i σ', outcome (Check.infer setThrice) Session.initial = (.ok i, σ') ∧
      σ'.scopes.unchecked.global? "g" = some (.literal "string" (.text "a")) := by
  obtain ⟨i, σ', h⟩ := exists_of_isOk
    (x := Check.infer setThrice) (s := Session.initial) (by decide +kernel)
  obtain ⟨p, σ₀, s, types, σ₁, t, -, hgiven, ht, hglobal⟩ :=
    (first_assignment_decides "g" Session.initial (depthFor setThrice - 2)).2.2 (by decide +kernel)
      default default default [setInFunction] [setGlobal (.string default "b")] [] []
      [.string default "a"] none i σ' setThrice_formed (by decide +kernel) (by simp) h
  obtain rfl : [.literal "string" (.text "a")] = types :=
    congrArg Prod.snd (Except.ok.inj (congrArg Prod.fst hgiven))
  obtain rfl : .literal "string" (.text "a") = t := Option.some.inj ht
  exact ⟨i, σ', h, hglobal rfl rfl⟩

/-- After the statement `function f() g = 1 end` the global name `g` has a closed type and is not
local. The statement `g = "a"` is accepted there, and gives the global name a closed type that does
not extend the broadened first one. -/
theorem global_changes_kind :
    ∃ (i j : Inferred) (σ₁ σ₂ : Session) (T T' : Ty),
      outcome (Check.infer setInFunction) Session.initial = (.ok i, σ₁) ∧
      σ₁.scopes.global? "g" = some T ∧ T.freeVars = [] ∧ σ₁.scopes.binding? "g" = none ∧
      outcome (Check.infer (setGlobal (.string default "a"))) σ₁ = (.ok j, σ₂) ∧
      σ₂.scopes.global? "g" = some T' ∧ T'.freeVars = [] ∧
      (outcome (T'.fits T.broaden) σ₂.letters).1.toOption = some false := by
  obtain ⟨i, σ₁, h₁⟩ := exists_of_isOk
    (x := Check.infer setInFunction) (s := Session.initial) (by decide +kernel)
  obtain rfl : (outcome (Check.infer setInFunction) Session.initial).2 = σ₁ := by rw [h₁]
  obtain ⟨j, σ₂, h₂⟩ := exists_of_isOk (x := Check.infer (setGlobal (.string default "a")))
    (s := (outcome (Check.infer setInFunction) Session.initial).2) (by decide +kernel)
  obtain rfl : (outcome (Check.infer (setGlobal (.string default "a")))
    (outcome (Check.infer setInFunction) Session.initial).2).2 = σ₂ := by rw [h₂]
  refine ⟨i, j, _, _, Option.get _ ?_, Option.get _ ?_, h₁, (Option.some_get _).symm, ?_, ?_, h₂,
    (Option.some_get _).symm, ?_, ?_⟩ <;> decide +kernel

end Check

end LuaTyping
