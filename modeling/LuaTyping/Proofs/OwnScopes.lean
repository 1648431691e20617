import LuaTyping.Proofs.Congruence
import LuaTyping.Proofs.Mirroring

set_option autoImplicit false

/-!
# Scopes of their own

An empty frame among the frames of a session binds nothing, so it makes no difference to what can be
seen. It only matters as a place to bind names in, if it is the innermost one. This file shows that
inference comes to the same with such a frame and without it, unless it binds names where the tree
stands and the frame is the innermost. It follows that a tree which binds nothing where it stands
may as well be inferred in a scope of its own.

## Main results

* `Check.inferTo_stable` — inference is stable.
* `Check.outcome_inScope_inferTo` — inference in a scope of its own.
-/

namespace LuaTyping

/-! ## Empty frames -/

/-- The second frames are the first ones, with an empty frame after so many of them. -/
inductive Padded : Nat → List Frame → List Frame → Prop
  | here (fs : List Frame) : Padded 0 fs ([] :: fs)
  | under {k : Nat} {fs gs : List Frame} (f : Frame) :
      Padded k fs gs → Padded (k + 1) (f :: fs) (f :: gs)

namespace Padded

variable {k : Nat} {fs gs : List Frame}

lemma findSome?_eq (h : Padded k fs gs) (x : String) :
    gs.findSome? (·.lookup x) = fs.findSome? (·.lookup x) := by
  induction h with
  | here => rfl
  | under f _ ih => rw [List.findSome?_cons, List.findSome?_cons, ih]

lemma flatMap_eq {α : Type} (h : Padded k fs gs) {g : Frame → List α} (hg : g [] = []) :
    gs.flatMap g = fs.flatMap g := by
  induction h with
  | here => rw [List.flatMap_cons, hg, List.nil_append]
  | under f _ ih => rw [List.flatMap_cons, List.flatMap_cons, ih]

lemma updateFrames (h : Padded k fs gs) (x : String) (t : Ty) :
    Padded k (Scopes.updateFrames x t fs) (Scopes.updateFrames x t gs) := by
  induction h with
  | here fs => exact .here _
  | under f h ih =>
    simp only [Scopes.updateFrames]
    split
    · exact .under _ h
    · exact .under _ ih

end Padded

/-- The second scopes are the first ones, with an empty frame after so many frames. -/
structure Scopes.Padded (k : Nat) (s t : Scopes) : Prop where
  frames : LuaTyping.Padded k s.frames t.frames
  globals : t.globals = s.globals

namespace Scopes.Padded

variable {k : Nat} {s t : Scopes}

lemma global?_eq (h : s.Padded k t) (x : String) : t.global? x = s.global? x := by
  rw [global?, global?, h.globals]

lemma binding?_eq (h : s.Padded k t) (x : String) : t.binding? x = s.binding? x :=
  h.frames.findSome?_eq x

lemma local?_eq (h : s.Padded k t) (x : String) : t.local? x = s.local? x := by
  rw [local?, local?, h.binding?_eq]
  congr 1
  funext b
  cases b with
  | own => rfl
  | shared => exact h.global?_eq x

lemma freeVars_eq (h : s.Padded k t) : t.freeVars = s.freeVars := by
  have hnames : t.frames.flatMap (fun frame => frame.map Prod.fst) =
      s.frames.flatMap (fun frame => frame.map Prod.fst) := h.frames.flatMap_eq rfl
  have hlocal : t.local? = s.local? := funext h.local?_eq
  simp only [freeVars, locals, hnames, hlocal]

lemma push (h : s.Padded k t) : s.push.Padded (k + 1) t.push := ⟨.under [] h.frames, h.globals⟩

lemma pop (h : s.Padded (k + 1) t) : s.pop.Padded k t.pop := by
  obtain ⟨fs, gl⟩ := s
  obtain ⟨gs, gl'⟩ := t
  obtain ⟨hframes, hglobals⟩ := h
  cases hframes with
  | under f hframes => exact ⟨hframes, hglobals⟩

lemma pop_eq (h : s.Padded 0 t) : t.pop = s := by
  obtain ⟨fs, gl⟩ := s
  obtain ⟨gs, gl'⟩ := t
  obtain ⟨hframes, hglobals⟩ := h
  cases hframes with
  | here => rw [Scopes.pop, List.drop_one, List.tail_cons, hglobals]

lemma enter (h : s.Padded k t) (hk : 0 < k) (x : String) (b : Binding) :
    (s.enter x b).Padded k (t.enter x b) := by
  obtain ⟨fs, gl⟩ := s
  obtain ⟨gs, gl'⟩ := t
  obtain ⟨hframes, hglobals⟩ := h
  cases hframes with
  | here => exact absurd hk (lt_irrefl 0)
  | under f hframes => exact ⟨.under _ hframes, hglobals⟩

lemma bind (h : s.Padded k t) (hk : 0 < k) (x : String) (u : Ty) :
    (s.bind x u).Padded k (t.bind x u) :=
  h.enter hk x (.own u)

lemma bindGlobal (h : s.Padded k t) (hk : 0 < k) (x : String) (u : Ty) :
    (s.bindGlobal x u).Padded k (t.bindGlobal x u) :=
  ⟨(h.enter hk x .shared).frames, congrArg (enterName x u) h.globals⟩

lemma update (h : s.Padded k t) (x : String) (u : Ty) : (s.update x u).Padded k (t.update x u) := by
  rw [Scopes.update, Scopes.update, h.binding?_eq]
  split
  · exact h
  · exact ⟨h.frames.updateFrames x u, h.globals⟩
  · exact ⟨h.frames, congrArg (enterName x u) h.globals⟩

end Scopes.Padded

/-- The second session is the first one, with an empty frame after so many frames. -/
inductive Session.Padded (k : Nat) (σ : Session) : Session → Prop
  | intro {t : Scopes} : σ.scopes.Padded k t → Session.Padded k σ { σ with scopes := t }

namespace Check

variable {α β : Type} {k : Nat} {infer : Inference} {l : Location}

/-! ## Stable computations -/

/-- An empty frame after so many frames makes no difference to a computation. -/
abbrev Stable (k : Nat) (x : Check α) : Prop := Mirror (Session.Padded k) Eq Eq x x

lemma Stable.outcome_eq {x : Check α} (h : Stable k x) {σ τ : Session} (hσ : σ.Padded k τ) :
    (outcome x τ).1 = (outcome x σ).1 ∧ (outcome x σ).2.Padded k (outcome x τ).2 := by
  obtain ⟨hagree, hstates⟩ := h σ τ hσ
  refine ⟨?_, hstates⟩
  generalize (outcome x σ).1 = a at hagree ⊢
  generalize (outcome x τ).1 = b at hagree ⊢
  cases a <;> cases b
  · exact congrArg _ (Eq.symm hagree)
  · exact hagree.elim
  · exact hagree.elim
  · exact congrArg _ (Eq.symm hagree)

lemma Scopeless.stable {x : Check α} (h : Scopeless x) : Stable k x := by
  rintro σ _ @⟨t, ht⟩
  rw [h.outcome_withScopes σ t]
  refine ⟨?_, .intro ?_⟩
  · rcases (outcome x σ).1 with e | a <;> exact rfl
  · rw [(h.scopes_eq σ).1]
    exact ht

lemma stable_modifyScopes {f : Scopes → Scopes} (hf : ∀ s t, s.Padded k t → (f s).Padded k (f t)) :
    Stable k (modify fun σ => { σ with scopes := f σ.scopes } : Check Unit) := by
  rintro σ _ ⟨ht⟩
  exact ⟨rfl, .intro (σ := { σ with scopes := f σ.scopes }) (hf _ _ ht)⟩

lemma stable_instantiate (t : Ty) : Stable k (instantiate t) := by
  rintro σ _ ⟨hs⟩
  exact ⟨rfl, .intro (σ := (outcome (instantiate t) σ).2) hs⟩

lemma stable_generalize (t : Ty) : Stable k (generalize t) := by
  rintro σ _ ⟨hs⟩
  exact ⟨congrArg t.generalize hs.freeVars_eq.symm, .intro hs⟩

lemma stable_print (m : String) :
    Stable k (modify fun σ => { σ with printed := σ.printed ++ m } : Check Unit) := by
  rintro σ _ ⟨ht⟩
  exact ⟨rfl, .intro (σ := { σ with printed := σ.printed ++ m }) ht⟩

lemma mirror_inScope {x y : Check α} (h : Mirror (Session.Padded (k + 1)) Eq Eq x y) :
    Mirror (Session.Padded k) Eq Eq (inScope x) (inScope y) := by
  rintro σ _ @⟨t, ht⟩
  have hinner : Session.Padded (k + 1) { σ with scopes := σ.scopes.push }
      { σ with scopes := t.push } := .intro (σ := { σ with scopes := σ.scopes.push }) ht.push
  obtain ⟨hagree, hstates⟩ := h _ _ hinner
  refine ⟨hagree, ?_⟩
  rw [outcome_inScope, outcome_inScope]
  generalize (outcome x { σ with scopes := σ.scopes.push }).2 = σ₁ at hstates ⊢
  generalize (outcome y { σ with scopes := t.push }).2 = τ₁ at hstates ⊢
  obtain ⟨hs⟩ := hstates
  exact .intro (σ := { σ₁ with scopes := σ₁.scopes.pop }) hs.pop

lemma stable_instance (t : Ty) : Stable k (do return ofType (← instantiate t) : Check Inferred) :=
  (stable_instantiate t).bind_eq fun _ => .pure rfl

lemma inferVar_stable (l : Location) (x : String) : Stable k (inferVar l x) := by
  refine Mirror.bind (R := Session.Padded k) (fun _ _ hσ => ⟨hσ, hσ⟩) ?_
  rintro σ _ ⟨ht⟩
  simp only [ht.local?_eq, ht.global?_eq]
  cases σ.scopes.local? x with
  | some t => exact stable_instance t
  | none =>
    cases σ.scopes.global? x with
    | some t => exact stable_instance t
    | none => exact .ite Iff.rfl (scopeless_report _ _).stable (scopeless_report _ _).stable

/-- The rules keep the relation between a run with the empty frame and one without it. -/
lemma padded_congruence : Congruence (fun k => Scopes.Padded k)
    (fun k => Mirror (Session.Padded k) Eq Eq) where
  local?_eq h := h.local?_eq
  bind x u hk h := h.bind hk x u
  bindGlobal x u hk h := h.bindGlobal hk x u
  update x u h := h.update x u
  seq := Mirror.bind_eq
  inScope := mirror_inScope
  scopeless := Scopeless.stable
  look hf := Mirror.bind (R := Scopes.Padded _) (by rintro σ _ ⟨ht⟩; exact ⟨ht, .intro ht⟩) hf
  change := stable_modifyScopes
  print := stable_print
  instantiate := stable_instantiate
  generalize := stable_generalize
  inferVar := inferVar_stable

/-! ## The inference -/

/-- An empty frame makes no difference to inference to any depth, unless the tree binds names where
it stands and the frame is the innermost.

**Proof sketch.** By induction on the depth, for all trees and all places of the frame. The operands
of a tree are inferred where the tree stands. The other parts, and the places that a conditional
statement narrows, are inferred in a further frame, which is then the innermost. -/
theorem inferTo_stable (depth : Nat) {t : Node} (ht : t.BindsIn fun _ => 0 < k) :
    Stable k (inferTo depth t) := by
  induction depth generalizing k t with
  | zero => exact (scopeless_fault _).stable
  | succ depth ih =>
    have hinside : ∀ m, Stable (k + 1) (inferTo depth m) := fun m =>
      ih (.mono (fun _ _ => Nat.succ_pos k) m.bindsIn_all)
    cases ht with
    | intro hown hoperands =>
      exact inferStep_congr padded_congruence hown (fun m hm => ih (hoperands m hm)) hinside

/-- A tree that binds nothing where it stands may as well be inferred in a scope of its own. -/
theorem outcome_inScope_inferTo (depth : Nat) {t : Node} (ht : t.BindsIn fun _ => False)
    (σ : Session) : outcome (inScope (inferTo depth t)) σ = outcome (inferTo depth t) σ := by
  have hstable : Stable 0 (inferTo depth t) := inferTo_stable depth (.mono (fun _ h => h.elim) ht)
  have hpushed : σ.Padded 0 { σ with scopes := σ.scopes.push } := .intro ⟨.here _, rfl⟩
  obtain ⟨hresult, hsession⟩ := hstable.outcome_eq hpushed
  rw [outcome_inScope]
  refine Prod.ext hresult ?_
  generalize (outcome (inferTo depth t) σ).2 = σ₁ at hsession ⊢
  generalize (outcome (inferTo depth t) { σ with scopes := σ.scopes.push }).2 = τ₁ at hsession ⊢
  obtain @⟨s, hs⟩ := hsession
  show { σ₁ with scopes := s.pop } = σ₁
  rw [hs.pop_eq]

end Check

end LuaTyping
