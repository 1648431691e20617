import LuaTyping.Proofs.Acceptance

set_option autoImplicit false

/-!
# Fresh variables over whole runs

A session is fresh for a tree if every variable `t1`, `t2` and so on that occurs in its scopes, in
its register or in the annotations of the tree has been drawn. Here what occurs is computed, down to
the checks of types and the trees that they hold. Inference leads from fresh sessions to fresh
sessions however it ends, and a variable that is drawn in a fresh session occurs nowhere in it. The
annotations of a program that was read from a text have a quote in front of each variable, so the
first session is fresh for every program.

## Main definitions

* `Session.names` — all variables that occur in a session.
* `Inferred.names` — all variables that occur in what is inferred.
* `Session.FreshFor` — no variable that is still to be drawn occurs in a session or in the
  annotations of a tree.

## Main results

* `runs_keep_fresh` — inference keeps sessions fresh.
-/

namespace LuaTyping

/-! ## What occurs in sessions -/

/-- The variables that occur in a register, as entries and in what they stand for. -/
def Register.names (r : Register) : List String := r.flatMap fun e => e.1 :: e.2.names

/-- The variables that occur in what a local name is bound to. -/
def Binding.names : Binding → List String
  | .own t => t.names
  | .shared => []

/-- The variables that occur in the types of local and global names. -/
def Scopes.names (s : Scopes) : List String :=
  (s.frames.flatMap fun frame => frame.flatMap fun b => b.2.names) ++
    s.globals.flatMap fun g => g.2.names

/-- The variables that occur in a session. -/
def Session.names (σ : Session) : List String := σ.supply.shared.names ++ σ.scopes.names

/-- The variables that occur in what is inferred, bound ones and those of the type. -/
def Inferred.names (i : Inferred) : List String :=
  (i.subst.bindings.flatMap fun b => b.1 :: b.2.names) ++ i.type.names

/-- Every drawn variable that occurs in a session or in the annotations of a tree has a number up to
the session's count. -/
def Session.FreshFor (σ : Session) (t : Node) : Prop :=
  ∀ x ∈ σ.names ++ t.names, Drawn σ.supply.count x

section Drawing

variable {may : String → Prop} {n : Nat}

lemma Ty.mem_namesList {x : String} {ts : List Ty} :
    x ∈ Ty.namesList ts ↔ ∃ t ∈ ts, x ∈ t.names := by
  induction ts with
  | nil => simp [Ty.namesList]
  | cons t ts ih => simp [Ty.namesList, ih]

lemma Ty.mem_namesFields {x : String} {fields : List (Ty × Ty)} :
    x ∈ Ty.namesFields fields ↔ ∃ f ∈ fields, x ∈ f.1.names ∨ x ∈ f.2.names := by
  induction fields with
  | nil => simp [Ty.namesFields]
  | cons f rest ih =>
    obtain ⟨k, v⟩ := f
    simp [Ty.namesFields, ih, or_assoc]

lemma Ty.mem_namesChecks {x : String} {checks : List Checked} :
    x ∈ Ty.namesChecks checks ↔ ∃ k ∈ checks, x ∈ k.1.names ∨ x ∈ k.2.names := by
  induction checks with
  | nil => simp [Ty.namesChecks]
  | cons k rest ih =>
    obtain ⟨p, t⟩ := k
    simp [Ty.namesChecks, ih, or_assoc]

/-- What occurs in a type within the permit is permitted. -/
lemma Ty.Within.names_drawn {t : Ty} (h : t.Within (.drawn may n)) :
    ∀ x ∈ t.names, Drawn n x ∧ may x := by
  induction h with
  | var hx => exact fun y hy => List.mem_singleton.1 hy ▸ hx
  | con _ _ hplaces _ ihargs ihtypes =>
    intro x hx
    rcases List.mem_append.1 hx with hx | hx
    · obtain ⟨a, ha, hx⟩ := Ty.mem_namesList.1 hx
      exact ihargs a ha x hx
    · obtain ⟨k, hk, hx | hx⟩ := Ty.mem_namesChecks.1 hx
      · exact hplaces trivial k hk x hx
      · exact ihtypes trivial k hk x hx
  | table _ _ _ ihkeys ihvalues =>
    intro x hx
    obtain ⟨f, hf, hx | hx⟩ := Ty.mem_namesFields.1 hx
    · exact ihkeys f hf x hx
    · exact ihvalues f hf x hx
  | union _ _ ihl ihr =>
    intro x hx
    rcases List.mem_append.1 hx with hx | hx
    · exact ihl x hx
    · exact ihr x hx
  | all _ hx _ ih =>
    intro y hy
    rcases List.mem_cons.1 hy with rfl | hy
    · exact hx
    · exact ih y hy

lemma Ty.Scheme.names_drawn {t : Ty} (h : t.Scheme (.drawn may n)) :
    ∀ x ∈ t.names, Drawn n x ∧ may x := by
  induction h with
  | mono h => exact h.names_drawn
  | all hx _ ih =>
    intro y hy
    rcases List.mem_cons.1 hy with rfl | hy
    · exact hx
    · exact ih y hy

end Drawing

/-- A session is fresh just if all variables that occur in it have been drawn. -/
lemma Session.fresh_iff {σ : Session} : σ.Fresh ↔ ∀ x ∈ σ.names, Drawn σ.supply.count x := by
  constructor
  · rintro ⟨_, hshared, hframes, hglobals⟩ x hx
    rcases List.mem_append.1 hx with hx | hx
    · obtain ⟨e, he, hx⟩ := List.mem_flatMap.1 hx
      rcases List.mem_cons.1 hx with rfl | hx
      · exact (hshared e he).1.1
      · exact ((hshared e he).2.names_drawn x hx).1
    · rcases List.mem_append.1 hx with hx | hx
      · obtain ⟨frame, hframe, hx⟩ := List.mem_flatMap.1 hx
        obtain ⟨⟨y, b⟩, hb, hx⟩ := List.mem_flatMap.1 hx
        cases b with
        | own t => exact ((hframes frame hframe _ hb t rfl).names_drawn x hx).1
        | shared => exact absurd hx List.not_mem_nil
      · obtain ⟨g, hg, hx⟩ := List.mem_flatMap.1 hx
        exact ((hglobals g hg).names_drawn x hx).1
  · intro h
    have hdrawn : ∀ {t : Ty}, t.names ⊆ σ.names → t.Within (.drawn (fun _ => True) σ.supply.count) :=
      fun ht => Ty.within_drawn fun x hx => ⟨h x (ht hx), trivial⟩
    refine ⟨Nat.zero_le _, fun e he => ?_, fun frame hframe b hb t ht => ?_, fun g hg => ?_⟩
    · have hmem : e.1 :: e.2.names ⊆ σ.names := fun x hx =>
        List.mem_append_left _ (List.mem_flatMap.2 ⟨e, he, hx⟩)
      exact ⟨⟨h e.1 (hmem List.mem_cons_self), trivial⟩,
        hdrawn fun x hx => hmem (List.mem_cons_of_mem _ hx)⟩
    · refine .mono (hdrawn fun x hx => List.mem_append_right _ (List.mem_append_left _ ?_))
      exact List.mem_flatMap.2 ⟨frame, hframe, List.mem_flatMap.2 ⟨b, hb, ht ▸ hx⟩⟩
    · refine .mono (hdrawn fun x hx => List.mem_append_right _ (List.mem_append_right _ ?_))
      exact List.mem_flatMap.2 ⟨g, hg, hx⟩

lemma Inferred.Within.names_drawn {n : Nat} {i : Inferred}
    (h : i.Within (.drawn (fun _ => True) n)) : ∀ x ∈ i.names, Drawn n x := by
  intro x hx
  rcases List.mem_append.1 hx with hx | hx
  · obtain ⟨b, hb, hx⟩ := List.mem_flatMap.1 hx
    rcases List.mem_cons.1 hx with rfl | hx
    · exact (h.subst b hb).1.1
    · exact ((h.subst b hb).2.names_drawn x hx).1
  · exact (h.type.names_drawn x hx).1

/-! ## Drawing -/

namespace Session.FreshFor

variable {σ τ : Session} {t : Node}

lemma fresh (h : σ.FreshFor t) : σ.Fresh :=
  fresh_iff.2 fun x hx => h x (List.mem_append_left _ hx)

lemma later (h : σ.FreshFor t) (hle : σ.supply.count ≤ τ.supply.count) (hτ : τ.Fresh) :
    τ.FreshFor t := by
  intro x hx
  rcases List.mem_append.1 hx with hx | hx
  · exact fresh_iff.1 hτ x hx
  · exact (h x (List.mem_append_right _ hx)).mono hle

/-- The next variable of a fresh session occurs nowhere, and drawing it leaves the session fresh. -/
lemma draw (h : σ.FreshFor t) {v : String} {supply : Supply}
    (hdraw : σ.supply.fresh = (.var v, supply)) :
    v ∉ σ.names ++ t.names ∧ Session.FreshFor { σ with supply } t := by
  obtain ⟨hv, rfl⟩ := Prod.mk.inj hdraw
  cases hv
  exact ⟨fun hx => (h _ hx).ne_next rfl, fun x hx => (h x hx).mono (Nat.le_succ _)⟩

end Session.FreshFor

/-! ## Programs -/

/-- In a well-formed tree only those variables occur that occur in its annotations. -/
lemma Node.Formed.names {T : Ty → Prop} {p : String → Prop} (hT : ∀ t, T t → ∀ x ∈ t.names, p x)
    {r : Role} {n : Node} (h : n.Formed T r) : ∀ x ∈ n.names, p x := by
  induction hsize : n.size using Nat.strong_induction_on generalizing r n with
  | _ size ih =>
    subst hsize
    intro x hx
    rw [n.names_eq] at hx
    rcases List.mem_append.1 hx with hx | hx
    · obtain ⟨m, hm, hx⟩ := List.mem_flatMap.1 hx
      obtain ⟨r', hm'⟩ := h.child m hm
      exact ih m.size (size_lt_of_mem_children n m hm) hm' rfl x hx
    · cases h with
      | @function _ _ _ _ _ _ result _ hresult | @resultNote _ result hresult =>
        cases result with
        | none => exact absurd hx List.not_mem_nil
        | some t => exact hT t (hresult t rfl) x hx
      | @declare _ _ _ note _ _ hnote =>
        cases note with
        | none => exact absurd hx List.not_mem_nil
        | some n =>
          obtain ⟨_, t, rfl, ht⟩ := hnote n rfl
          exact hT t ht x hx
      | typeNote _ ht => exact hT _ ht x hx
      | _ => exact absurd hx List.not_mem_nil

lemma Session.freshFor_of_parse {file source : String} {n : Node}
    (h : parse file source = .ok n) : Session.initial.FreshFor n := by
  intro x hx
  rcases List.mem_append.1 hx with hx | hx
  · exact fresh_iff.1 Session.fresh_initial x hx
  · refine drawn_of_head ?_
    rw [(parse_formed h).names (fun _ ht => ht.2) x hx]
    decide

open Check in
/-- Inference keeps sessions fresh. However the inference of a tree ends that a session is fresh for,
no fewer variables have been drawn then, the session is fresh for every tree that it was fresh for,
and each drawn variable in what is inferred has been drawn by then. A variable that is drawn in a
session that is fresh for a tree occurs neither in the session nor in the tree, and leaves it fresh.
The session that a program starts with is fresh for every program that is read from a text. -/
theorem runs_keep_fresh :
    (∀ (σ : Session) (t : Node) (depth : Nat), σ.FreshFor t →
      let σ' := (outcome (inferTo depth t) σ).2
      σ.supply.count ≤ σ'.supply.count ∧ (∀ u, σ.FreshFor u → σ'.FreshFor u) ∧
        ∀ i, (outcome (inferTo depth t) σ).1 = .ok i → ∀ x ∈ i.names, Drawn σ'.supply.count x) ∧
    (∀ (σ : Session) (t : Node), σ.FreshFor t → ∀ v supply, σ.supply.fresh = (.var v, supply) →
      v ∉ σ.names ++ t.names ∧ Session.FreshFor { σ with supply } t) ∧
    ∀ file source n, parse file source = .ok n → Session.initial.FreshFor n := by
  refine ⟨fun σ t depth hσ => ?_, fun σ t hσ v supply => hσ.draw, fun file source n =>
    Session.freshFor_of_parse⟩
  have hkeeps : Infers .drawnOnly .any σ.supply.count (inferTo depth) t :=
    inferTo_drawing depth fun x hx => ⟨hσ x (List.mem_append_right _ hx), trivial⟩
  obtain ⟨hfresh, hle, -⟩ := hkeeps.session hσ.fresh le_rfl
  refine ⟨hle, fun u hu => hu.later hle hfresh, fun i hi => ?_⟩
  have hwithin := (hkeeps σ hσ.fresh le_rfl).of_eq_ok (Prod.ext hi rfl)
  exact hwithin.2.names_drawn

/-- The first session is fresh for a function that is annotated with a variable, and stays so. -/
theorem runs_keep_fresh_annotated : ∃ t : Node, t.names = ["'a"] ∧ Session.initial.FreshFor t ∧
    3 ≤ (outcome (Check.infer t) Session.initial).2.supply.count ∧
    (outcome (Check.infer t) Session.initial).2.FreshFor t := by
  let t : Node := .function default [] false (.chunk default [] none) none
    (.resultNote default (some (.tuple [.var "'a"])))
  have hfresh : Session.initial.FreshFor t := by
    intro x hx
    rcases List.mem_append.1 hx with hx | hx
    · exact Session.fresh_iff.1 Session.fresh_initial x hx
    · obtain rfl := List.mem_singleton.1 hx
      exact drawn_of_head (by decide)
  have hrun := runs_keep_fresh.1 _ t (Check.depthFor t) hfresh
  exact ⟨t, rfl, hfresh, hrun.1, hrun.2.1 t hfresh⟩

end LuaTyping
