import LuaTyping.Proofs.Confinement

set_option autoImplicit false

/-!
# Unbound names

Lexical scoping says where in a program a name is bound: a parameter in the body of its function, a
local name in the rest of its block, the name of a function in its own body if its result is
annotated. Inference has no such rule; it looks names up in the scopes that it has built so far. For
a program that it accepts, the two agree: each name that is used without being in lexical scope is
one of the library's, or one that the program assigns to. The conditions and bodies behind `elseif`
are left out, as inference never looks at them.

## Main definitions

* `Node.unbound` — the names that are used in a tree without being in lexical scope.

## Main results

* `Check.inferStep_vets` — a rule looks up all names, if the inference of the parts does.
* `Check.accepted_names_bound` — the names that an accepted program uses are bound.
* `Check.accepted_unbound_elseif` — an accepted program that uses an unbound name behind
  `elseif`.
-/

namespace LuaTyping

/-! ## Lexical scope -/

namespace Node

/-- The names that are in scope in the body of a function: its parameters, and its own name if it is
annotated. -/
def bodyNames (params : List String) (isVararg : Bool) (name : Option String) (note : Node) :
    List String :=
  params ++ (if isVararg then ["..."] else []) ++
    match name, note with
    | some x, resultNote _ (some _) => [x]
    | _, _ => []

mutual

/-- The names of the variables that are used in a tree as expressions without being in lexical scope,
where `scope` is what is in scope around the tree. With `all`, the trees behind `elseif` count as
well. A plain name that is assigned to is not used by that. -/
def unbound (all : Bool) (scope : List String) : Node → List String
  | var _ x => if x ∈ scope then [] else [x]
  | table _ fields => unboundPairs all scope fields
  | unary _ _ value => value.unbound all scope
  | binary _ left _ right => left.unbound all scope ++ right.unbound all scope
  | call _ callee args => callee.unbound all scope ++ unboundList all scope args
  | index _ object key => object.unbound all scope ++ key.unbound all scope
  | function _ params isVararg body name note =>
    body.unbound all (bodyNames params isVararg name note ++ scope)
  | declare _ _ exprs _ => unboundList all scope exprs
  | assign _ targets exprs => unboundList all scope exprs ++ unboundTargets all scope targets
  | returns _ exprs => unboundList all scope exprs
  | branch _ condition body elseifs otherwise =>
    condition.unbound all scope ++ (body.unbound all scope ++ unboundOption all scope otherwise) ++
      (if all then unboundList all scope elseifs else [])
  | elseif _ condition body => condition.unbound all scope ++ body.unbound all scope
  | chunk _ statements last => unboundBlock all scope statements ++
      unboundOption all (statements.flatMap declared ++ scope) last
  | reveal _ expr => expr.unbound all scope
  | nil _ | vararg _ | number _ _ | boolean _ _ | string _ _ | typeNote _ _ | resultNote _ _ => []

/-- The unbound names of some trees. -/
def unboundList (all : Bool) (scope : List String) : List Node → List String
  | [] => []
  | n :: ns => n.unbound all scope ++ unboundList all scope ns

/-- The unbound names of some pairs of trees. -/
def unboundPairs (all : Bool) (scope : List String) : List (Node × Node) → List String
  | [] => []
  | (k, v) :: rest => k.unbound all scope ++ v.unbound all scope ++ unboundPairs all scope rest

/-- The unbound names of a tree that may be absent. -/
def unboundOption (all : Bool) (scope : List String) : Option Node → List String
  | none => []
  | some n => n.unbound all scope

/-- The unbound names of the targets of an assignment. -/
def unboundTargets (all : Bool) (scope : List String) : List Node → List String
  | [] => []
  | var _ _ :: rest => unboundTargets all scope rest
  | target :: rest => target.unbound all scope ++ unboundTargets all scope rest

/-- The unbound names of statements in a row: what one of them declares is in scope in the next. -/
def unboundBlock (all : Bool) (scope : List String) : List Node → List String
  | [] => []
  | s :: rest => s.unbound all scope ++ unboundBlock all (s.declared ++ scope) rest

end

end Node

namespace Check

variable {α β : Type} {place : Node → Prop} {G : String → Prop} {Γ Γ' : List String}
  {infer : Inference} {l : Location}

/-! ## Sessions in lexical scope -/

/-- The local names of a session are in a lexical scope or of a certain kind, its global names are of
that kind, and its checks are on certain places. -/
structure Bounded (place : Node → Prop) (G : String → Prop) (Γ : List String) (σ : Session) :
    Prop where
  within : σ.Within (.about place)
  locals : ∀ x ∈ σ.scopes.boundNames 0, x ∈ Γ ∨ G x
  globals : ∀ x ∈ σ.scopes.globals.map Prod.fst, G x

lemma Bounded.mono {σ : Session} (h : Bounded place G Γ σ) (hΓ : ∀ x ∈ Γ, x ∈ Γ' ∨ G x) :
    Bounded place G Γ' σ :=
  ⟨h.within, fun x hx => (h.locals x hx).elim (hΓ x) .inr, h.globals⟩

lemma Bounded.of_local? {σ : Session} (h : Bounded place G Γ σ) {x : String} {t : Ty}
    (hx : σ.scopes.local? x = some t) : x ∈ Γ ∨ G x :=
  h.locals x (Scopes.mem_boundNames_of_local? hx)

/-- From a session of a kind, a computation that succeeds gives a value and a session with `Q`. -/
def Yields (I : Session → Prop) (x : Check α) (Q : α → Session → Prop) : Prop :=
  ∀ σ a σ', I σ → outcome x σ = (.ok a, σ') → Q a σ'

variable {I J : Session → Prop} {x : Check α} {f : α → Check β} {φ : Prop}
  {Q : β → Session → Prop}

lemma Yields.first (h : Yields I x fun _ _ => φ) : Yields I (x >>= f) fun _ _ => φ := by
  intro σ b σ' hσ hout
  obtain ⟨a, σ₁, hx, _⟩ := bind_eq_ok.1 hout
  exact h σ a σ₁ hσ hx

lemma Yields.next {W : α → Prop} (h : Yields I x fun a σ => W a ∧ J σ)
    (hf : ∀ a, W a → Yields J (f a) Q) : Yields I (x >>= f) Q := by
  intro σ b σ' hσ hout
  obtain ⟨a, σ₁, hx, hb⟩ := bind_eq_ok.1 hout
  obtain ⟨ha, hσ₁⟩ := h σ a σ₁ hσ hx
  exact hf a ha σ₁ b σ' hσ₁ hb

lemma Yields.append {as bs : List String} (h : Yields I x fun _ _ => ∀ y ∈ as, G y)
    (h' : Yields I x fun _ _ => ∀ y ∈ bs, G y) : Yields I x fun _ _ => ∀ y ∈ as ++ bs, G y :=
  fun σ a σ' hσ hx => List.forall_mem_append.2 ⟨h σ a σ' hσ hx, h' σ a σ' hσ hx⟩

lemma yields_of (h : φ) : Yields I x fun _ _ => φ := fun _ _ _ _ _ => h

lemma yields_nil : Yields I x fun _ _ => ∀ y ∈ ([] : List String), G y :=
  yields_of (List.forall_mem_nil _)

lemma yields_ite {c : Prop} [Decidable c] {x y : Check β} (hx : Yields I x Q) (hy : Yields I y Q) :
    Yields I (if c then x else y) Q := by
  split
  · exact hx
  · exact hy

lemma yields_pure_bind {a : α} (h : Yields I (f a) Q) : Yields I (pure a >>= f) Q := h

lemma yields_fault {e : Fault} : Yields I (fault e : Check β) Q := fun _ _ _ _ h => nomatch h

lemma yields_report {m : String} : Yields I (report l m : Check β) Q := fun _ _ _ _ h => nomatch h

/-- A computation that keeps checks to their places leads to a session in the lexical scope that has
the names which it may bind. -/
lemma Keeps.yields {W : Nat → α → Prop} {B : String → Prop}
    (hx : Keeps (.about place) ⟨B, G, True⟩ 0 x W) (hB : ∀ y, B y → y ∈ Γ' ∨ G y)
    (hΓ : ∀ y ∈ Γ, y ∈ Γ' ∨ G y) :
    Yields (Bounded place G Γ) x fun a σ => (∃ m, W m a) ∧ Bounded place G Γ' σ := by
  intro σ a σ' hσ hout
  obtain ⟨⟨hσ', -, hmoves⟩, ha⟩ := (hx σ hσ.within (Nat.zero_le _)).of_eq_ok hout
  refine ⟨⟨_, ha⟩, hσ', fun y hy => ?_, fun y hy => ?_⟩
  · rcases hmoves.mem_boundNames hy with hy | ⟨_, hy⟩
    · exact (hσ.locals y hy).elim (hΓ y) .inr
    · exact hB y hy
  · exact (hmoves.mem_globalNames hy).elim (hσ.globals y) id

lemma Keeps.next {W : Nat → α → Prop} (hx : Keeps (.about place) ⟨G, G, True⟩ 0 x W)
    (hf : ∀ m a, W m a → Yields (Bounded place G Γ) (f a) Q) :
    Yields (Bounded place G Γ) (x >>= f) Q :=
  .next (hx.yields (fun _ => .inr) fun _ => .inl) fun a ⟨m, ha⟩ => hf m a ha

lemma Still.next {x : Check α} (hx : Still x) (hf : ∀ a, Yields (Bounded place G Γ) (f a) Q) :
    Yields (Bounded place G Γ) (x >>= f) Q := by
  intro σ b σ' hσ hout
  obtain ⟨a, σ₁, ha, hb⟩ := bind_eq_ok.1 hout
  have hscopes := (hx σ).1
  have hwithin := hx.within hσ.within
  rw [ha] at hscopes hwithin
  exact hf a σ₁ b σ' ⟨hwithin, hscopes.symm ▸ hσ.locals, hscopes.symm ▸ hσ.globals⟩ hb

/-- A new frame has no names. -/
lemma yields_inScope (h : Yields (Bounded place G Γ) x fun _ _ => φ) :
    Yields (Bounded place G Γ) (inScope x) fun _ _ => φ := by
  intro σ a σ' hσ hout
  have hpush : Bounded place G Γ { σ with scopes := σ.scopes.push } :=
    ⟨⟨hσ.within.start, hσ.within.shared, hσ.within.scopes.push⟩, hσ.locals, hσ.globals⟩
  rw [outcome_inScope] at hout
  rcases hin : outcome x { σ with scopes := σ.scopes.push } with ⟨e | b, σ₁⟩
  · rw [hin] at hout
    exact nomatch (Prod.mk.inj hout).1
  · exact h _ b σ₁ hpush hin

/-! ## Trees whose names are looked up -/

/-- The inference of a tree is confined to the names that the tree binds, and succeeds only if the
names that are used in the tree are bound. -/
structure Vetted (place : Node → Prop) (G : String → Prop) (infer : Inference) (t : Node) :
    Prop where
  infers : Infers (.about place) ⟨(· ∈ t.binds), G, True⟩ 0 infer t
  targets : ∀ x ∈ t.targetNames, G x
  shows : ∀ Γ, Yields (Bounded place G Γ) (infer t) fun _ _ => ∀ x ∈ t.unbound false Γ, G x

/-- The same for a tree that declares nothing. -/
structure VettedPart (place : Node → Prop) (G : String → Prop) (infer : Inference) (t : Node) :
    Prop extends Vetted place G infer t where
  declares : t.declared = []

variable {t : Node}

/-- After a statement, what it declares is in scope. -/
lemma Vetted.yields (h : Vetted place G infer t) :
    Yields (Bounded place G Γ) (infer t) fun i σ =>
      (i.Within (.about place) ∧ ∀ x ∈ t.unbound false Γ, G x) ∧
        Bounded place G (t.declared ++ Γ) σ := by
  intro σ i σ' hσ hout
  have hscope : ∀ y ∈ t.binds, y ∈ t.declared ++ Γ ∨ G y := by
    intro y hy
    rcases List.mem_append.1 hy with hy | hy
    · exact .inl (List.mem_append_left _ hy)
    · exact .inr (h.targets y hy)
  obtain ⟨⟨_, hi⟩, hσ'⟩ := h.infers.yields hscope (fun y hy => .inl (List.mem_append_right _ hy))
    σ i σ' hσ hout
  exact ⟨⟨hi, h.shows Γ σ i σ' hσ hout⟩, hσ'⟩

lemma VettedPart.next {f : Inferred → Check β} (h : VettedPart place G infer t)
    (hf : ∀ i, i.Within (.about place) ∧ (∀ x ∈ t.unbound false Γ, G x) →
      Yields (Bounded place G Γ) (f i) Q) : Yields (Bounded place G Γ) (infer t >>= f) Q := by
  refine .next (fun σ i σ' hσ hout => ?_) hf
  obtain ⟨hi, hσ'⟩ := h.yields σ i σ' hσ hout
  rw [h.declares] at hσ'
  exact ⟨hi, hσ'⟩

lemma VettedPart.first {f : Inferred → Check β} (h : VettedPart place G infer t) :
    Yields (Bounded place G Γ) (infer t >>= f) fun _ _ => ∀ x ∈ t.unbound false Γ, G x :=
  (h.shows Γ).first

/-- The inference of a part of a tree is confined in any reach with the same global names. -/
lemma VettedPart.infers_in (h : VettedPart place G infer t) {B : String → Prop}
    (hB : ∀ x, G x → B x) : Infers (.about place) ⟨B, G, True⟩ 0 infer t := by
  refine h.infers.mono (fun x hx => ?_) (fun _ => id) fun _ => trivial
  rcases List.mem_append.1 hx with hx | hx
  · rw [h.declares] at hx
    exact absurd hx List.not_mem_nil
  · exact hB x (h.targets x hx)

/-! ## Expressions -/

lemma inferVar_vets {x : String} :
    Yields (Bounded place G Γ) (inferVar l x) fun _ _ => x ∈ Γ ∨ G x := by
  intro σ i σ' hσ hout
  obtain ⟨s, σ₁, hget, hrest⟩ := bind_eq_ok.1 hout
  obtain rfl : s = σ := (Except.ok.inj (Prod.mk.inj hget).1).symm
  split at hrest
  · rename_i t hlocal
    exact hσ.of_local? hlocal
  · split at hrest
    · rename_i t hglobal
      exact .inr (hσ.globals x (mem_names_of_lookup hglobal))
    · split at hrest <;> cases hrest

variable {s : Subst} {types : List Ty} {exprs : List Node}

lemma inferFields_vets {types : List (Ty × Ty)} {fields : List (Node × Node)}
    (h : ∀ f ∈ fields, VettedPart place G infer f.1 ∧ VettedPart place G infer f.2) :
    Yields (Bounded place G Γ) (inferFields infer s types fields) fun _ _ =>
      ∀ x ∈ Node.unboundPairs false Γ fields, G x := by
  induction fields generalizing s types with
  | nil => exact yields_nil
  | cons f rest ih =>
    obtain ⟨key, value⟩ := f
    obtain ⟨hkey, hvalue⟩ := h (key, value) (by simp)
    have hrest : ∀ s types, Yields (Bounded place G Γ) (inferFields infer s types rest) fun _ _ =>
        ∀ x ∈ Node.unboundPairs false Γ rest, G x :=
      fun _ _ => ih fun f hf => h f (by simp [hf])
    by_cases hvararg : ∃ lv, value = .vararg lv
    · -- the key of the variable arguments is a number
      obtain ⟨lv, rfl⟩ := hvararg
      rw [inferFields.eq_def]
      simp only
      split
      · refine .append yields_nil (hvalue.next fun more _ => ?_)
        split
        · exact (still_compose _ _).next fun _ => (still_member _ _).next fun _ => hrest _ _
        · exact yields_fault
      · exact yields_fault
    · rw [inferFields]
      · refine .append (.append hkey.first (hkey.next fun _ _ => hvalue.first)) ?_
        exact hkey.next fun _ _ => hvalue.next fun _ _ => (still_compose _ _).next fun _ =>
          (still_compose _ _).next fun _ => scopeless_enterField.still.next fun _ => hrest _ _
      · exact fun lv hlv => hvararg ⟨lv, hlv⟩

lemma inferBinary_vets {left right : Node} {op : BinaryOp} (hl : VettedPart place G infer left)
    (hr : VettedPart place G infer right) :
    Yields (Bounded place G Γ) (inferBinary infer left op right) fun _ _ =>
      ∀ x ∈ left.unbound false Γ ++ right.unbound false Γ, G x :=
  .append hl.first (hl.next fun _ _ => (still_ofExcept _).next fun _ => hr.first)

lemma inferFunction_vets {params : List String} {isVararg : Bool} {body : Node}
    {name : Option String} {note : Node} (hbody : VettedPart place G infer body)
    (hnote : ∀ l t, note = .resultNote l (some t) → t.Within (.about place)) :
    Yields (Bounded place G Γ) (inferFunction infer l params isVararg body name note) fun _ _ =>
      ∀ x ∈ body.unbound false (Node.bodyNames params isVararg name note ++ Γ), G x := by
  let Γ' := Node.bodyNames params isVararg name note ++ Γ
  -- what the function itself binds is in scope in its body
  have hscope : ∀ y, y ∈ Node.bodyNames params isVararg name note → y ∈ Γ' ∨ G y :=
    fun y hy => .inl (List.mem_append_left _ hy)
  refine yields_inScope (.next ((bindParams_keeps fun y hy => List.mem_append_left _
    (List.mem_append_left _ hy)).yields hscope fun y hy => .inl (List.mem_append_right _ hy))
      fun types ⟨m, htypes⟩ => ?_)
  refine .next ((bindVararg_keeps fun h => List.mem_append_left _
    (List.mem_append_right _ (by simp [h]))).yields hscope fun _ => .inl) fun rest _ => ?_
  cases note with
  | resultNote ln wanted =>
    refine yields_pure_bind ?_
    cases wanted with
    | none => exact hbody.first
    | some result =>
      cases name with
      | none => exact hbody.first
      | some x =>
        have hself : (Ty.function (.tuple types) result .nil none).Within (.about place) :=
          Ty.within_function_iff.2 ⟨fun _ h => (nomatch h), Ty.within_tuple_iff.2 htypes,
            hnote ln result rfl, Ty.within_plain _⟩
        exact .next ((keeps_bind (List.mem_append_right _ (List.mem_singleton.2 rfl))
          (.mono hself)).yields hscope fun _ => .inl) fun _ _ => hbody.first
  | _ => exact .first yields_fault

lemma inferEach_vets {spread : Node → Ty → Check (List Ty)} {exprs : List Node}
    (hspread : ∀ e t, Still (spread e t)) (h : ∀ e ∈ exprs, VettedPart place G infer e) :
    Yields (Bounded place G Γ) (inferEach infer spread s types exprs) fun _ _ =>
      ∀ x ∈ Node.unboundList false Γ exprs, G x := by
  induction exprs generalizing s types with
  | nil => exact yields_nil
  | cons expr rest ih =>
    have hexpr := h expr (by simp)
    exact .append hexpr.first (hexpr.next fun _ _ => (hspread _ _).next fun _ =>
      (still_compose _ _).next fun _ => ih fun e he => h e (by simp [he]))

lemma inferCall_vets {callee : Node} {args : List Node} (hcallee : VettedPart place G infer callee)
    (hargs : ∀ a ∈ args, VettedPart place G infer a) :
    Yields (Bounded place G Γ) (inferCall infer l callee args) fun _ _ =>
      ∀ x ∈ callee.unbound false Γ ++ Node.unboundList false Γ args, G x := by
  refine .append ?_ (inferEach_vets (fun _ _ => still_pure _) hargs).first
  refine (inferArgs_keeps (fun a ha => (hargs a ha).infers_in fun _ => id) Subst.within_empty
    (List.forall_mem_nil _)).next fun _ _ _ => ?_
  exact still_fresh.next fun _ => hcallee.first

/-! ## Paths and narrowing -/

lemma forall_unbound_var {x : String} :
    (∀ y ∈ (Node.var l x).unbound false Γ, G y) ↔ x ∈ Γ ∨ G x := by
  rw [Node.unbound]
  split <;> simp_all

lemma pathOf_vets {path : Node} (h : ∀ k ∈ path.pathKeys, VettedPart place G infer k) :
    Yields (Bounded place G Γ) (pathOf infer path) fun _ _ => ∀ x ∈ path.unbound false Γ, G x := by
  induction path using pathOf.induct with
  | case1 l x =>
    intro σ p σ' hσ hout
    rw [pathOf] at hout
    obtain ⟨s, σ₁, hget, hrest⟩ := bind_eq_ok.1 hout
    obtain rfl : σ.scopes = s := Except.ok.inj (Prod.mk.inj hget).1
    refine forall_unbound_var.2 ?_
    split at hrest
    · cases hrest
    · cases hrest
    · rename_i hlocal
      exact hσ.of_local? hlocal
  | case2 l object key ih =>
    simp only [Node.pathKeys, List.mem_append, List.mem_singleton] at h
    rw [pathOf]
    refine .append (ih fun k hk => h k (.inl hk)).first ?_
    exact (pathOf_keeps fun k hk => (h k (.inl hk)).infers_in fun _ => id).next
      fun _ _ _ => (h key (.inr rfl)).first
  | case3 path hvar hindex =>
    rw [pathOf]
    · exact yields_fault
    · exact hvar
    · exact hindex

/-- A place is vetted, and so are the keys of its path. -/
structure VettedPlace (place : Node → Prop) (G : String → Prop) (infer : Inference) (p : Node) :
    Prop where
  self : VettedPart place G infer p
  keys : ∀ k ∈ p.pathKeys, VettedPart place G infer k

/-- A place that has been looked up may be given a narrower type. -/
lemma restrict_yields {p : Node} {t : Ty} (h : VettedPlace place G infer p)
    (hseen : ∀ x ∈ p.unbound false Γ, G x) (ht : t.Within (.about place)) :
    Yields (Bounded place G Γ) (restrict infer p t) fun _ σ => True ∧ Bounded place G Γ σ := by
  have hkeeps : Keeps (.about place) ⟨fun x => x ∈ Γ ∨ G x, G, True⟩ 0 (restrict infer p t)
      fun _ _ => True := by
    unfold restrict
    split
    · exact keeps_bind (forall_unbound_var.1 hseen) (.mono ht)
    · exact assignPath_keeps (fun k hk => (h.keys k hk).infers_in fun _ => .inr)
        (fun _ _ _ _ => trivial) ht
  intro σ u σ' hσ hout
  exact ⟨trivial, (hkeeps.yields (fun _ => id) (fun _ => .inl) σ u σ' hσ hout).2⟩

lemma narrowTo_yields {checks : List Checked}
    (h : ∀ k ∈ checks, VettedPlace place G infer k.1 ∧ k.2.Within (.about place)) :
    Yields (Bounded place G Γ) (narrowTo infer l checks) fun _ σ =>
      True ∧ Bounded place G Γ σ := by
  induction checks with
  | nil =>
    intro σ _ σ' hσ hout
    exact ⟨trivial, (Prod.mk.inj hout).2 ▸ hσ⟩
  | cons k rest ih =>
    obtain ⟨p, t⟩ := k
    obtain ⟨hp, ht⟩ := h (p, t) (by simp)
    refine hp.self.next fun now ⟨hnow, hseen⟩ => ?_
    refine (keeps_meet hnow.type ht).next fun m u hu => ?_
    split
    · exact (still_naming _).next fun _ => (still_naming _).next fun _ => yields_report
    · exact .next (restrict_yields hp hseen (hu _ rfl)) fun _ _ => ih fun k hk => h k (by simp [hk])

lemma narrowFrom_yields {checks : List Checked}
    (h : ∀ k ∈ checks, VettedPlace place G infer k.1 ∧ k.2.Within (.about place)) :
    Yields (Bounded place G Γ) (narrowFrom infer checks) fun _ σ =>
      True ∧ Bounded place G Γ σ := by
  induction checks with
  | nil =>
    intro σ _ σ' hσ hout
    exact ⟨trivial, (Prod.mk.inj hout).2 ▸ hσ⟩
  | cons k rest ih =>
    obtain ⟨p, t⟩ := k
    obtain ⟨hp, ht⟩ := h (p, t) (by simp)
    refine hp.self.next fun now ⟨hnow, hseen⟩ => ?_
    refine (keeps_subtract hnow.type ht).next fun m u hu => ?_
    exact .next (restrict_yields hp hseen hu) fun _ _ => ih fun k hk => h k (by simp [hk])

/-! ## Statements -/

lemma assignTargets_vets {number : Nat} {targets : List Node} (hplaces : ∀ t ∈ targets, t.isPlace)
    (hnames : ∀ l x, .var l x ∈ targets → G x)
    (hkeys : ∀ t ∈ targets, ∀ k ∈ t.pathKeys, VettedPart place G infer k)
    (htypes : ∀ t ∈ types, t.Within (.about place)) :
    Yields (Bounded place G Γ) (assignTargets infer l types number targets) fun _ _ =>
      ∀ x ∈ Node.unboundTargets false Γ targets, G x := by
  induction targets generalizing number with
  | nil => exact yields_nil
  | cons target rest ih =>
    have hrest : Yields (Bounded place G Γ) (assignTargets infer l types (number + 1) rest)
        fun _ _ => ∀ x ∈ Node.unboundTargets false Γ rest, G x :=
      ih (fun t ht => hplaces t (by simp [ht])) (fun l x hx => hnames l x (by simp [hx]))
        fun t ht => hkeys t (by simp [ht])
    cases target with
    | var lx x =>
      have hx := hnames lx x (by simp)
      exact (assignName_keeps hx hx htypes).next fun _ _ _ => hrest
    | index lo object key =>
      refine .append ((still_member _ _).next fun t => ?_) ?_
      · exact .first (.first (pathOf_vets (hkeys _ (by simp))))
      · refine keeps_member.next fun m t ht => ?_
        exact (assignPath_keeps (fun k hk => (hkeys _ (by simp) k hk).infers_in fun _ => id)
          (fun _ _ _ _ => trivial) (htypes t ht)).next fun _ _ _ => hrest
    | _ => exact nomatch hplaces _ (List.mem_cons_self)

lemma inferAssign_vets {targets : List Node} (hexprs : ∀ e ∈ exprs, VettedPart place G infer e)
    (hplaces : ∀ t ∈ targets, t.isPlace) (hnames : ∀ l x, .var l x ∈ targets → G x)
    (hkeys : ∀ t ∈ targets, ∀ k ∈ t.pathKeys, VettedPart place G infer k) :
    Yields (Bounded place G Γ) (inferAssign infer l targets exprs) fun _ _ =>
      ∀ x ∈ Node.unboundList false Γ exprs ++ Node.unboundTargets false Γ targets, G x := by
  refine (still_forM (fun target => ?_) targets).next fun _ => ?_
  · split
    · exact still_await _
    · exact still_pure _
  · refine .append (inferEach_vets (fun _ _ => still_pure _) hexprs).first ?_
    exact (inferExprs_keeps (fun e he => (hexprs e he).infers_in fun _ => id) Subst.within_empty
      (List.forall_mem_nil _)).next fun m p hp => (assignTargets_vets hplaces hnames hkeys hp.2).first

lemma inferBranch_vets {condition body : Node} {otherwise : Option Node}
    (hcondition : VettedPart place G infer condition) (hbody : VettedPart place G infer body)
    (hotherwise : ∀ o, otherwise = some o → VettedPart place G infer o)
    (hplaces : ∀ p, place p → VettedPlace place G infer p) :
    Yields (Bounded place G Γ) (inferBranch infer l condition body otherwise) fun _ _ =>
      ∀ x ∈ condition.unbound false Γ ++
        (body.unbound false Γ ++ Node.unboundOption false Γ otherwise), G x := by
  refine .append (yields_inScope (hcondition.shows Γ)).first ?_
  have hinside : Infers (.about place) (Reach.inside ⟨G, G, True⟩) 0 infer condition :=
    hcondition.infers_in fun _ _ => trivial
  refine (keeps_inScope hinside).next fun _ c hc => ?_
  refine (still_unifyAt _ _ _).next fun _ => yields_inScope ?_
  have hchecks : ∀ k ∈ conditionChecks c.type,
      VettedPlace place G infer k.1 ∧ k.2.Within (.about place) := by
    intro k hk
    obtain ⟨hplace, htype⟩ := conditionChecks_within (R := .about place) (n := 0) hc.type k hk
    exact ⟨hplaces k.1 hplace, htype⟩
  refine .next (narrowTo_yields hchecks) fun _ _ => .append hbody.first ?_
  cases otherwise with
  | none => exact yields_nil
  | some other =>
    exact hbody.next fun _ _ => .next (narrowFrom_yields hchecks) fun _ _ =>
      (hotherwise other rfl).first

/-- The names in statements are looked up, and what they declare is in scope afterwards. -/
lemma inferStatements_yields {p : Progress} {statements : List Node}
    (h : ∀ s ∈ statements, Vetted place G infer s) :
    Yields (Bounded place G Γ) (inferStatements infer l p statements) fun _ σ =>
      (∀ x ∈ Node.unboundBlock false Γ statements, G x) ∧
        Bounded place G (statements.flatMap Node.declared ++ Γ) σ := by
  induction statements generalizing p Γ with
  | nil =>
    intro σ q σ' hσ hout
    exact ⟨List.forall_mem_nil _, (Prod.mk.inj hout).2 ▸ hσ⟩
  | cons s rest ih =>
    refine .next (h s (by simp)).yields fun i ⟨_, hseen⟩ => ?_
    have hrest : ∀ q, Yields (Bounded place G (s.declared ++ Γ)) (inferStatements infer l q rest)
        fun _ σ => (∀ x ∈ Node.unboundBlock false Γ (s :: rest), G x) ∧
          Bounded place G ((s :: rest).flatMap Node.declared ++ Γ) σ := by
      intro q σ a σ' hσ hout
      obtain ⟨hblock, hσ'⟩ := ih (fun s hs => h s (by simp [hs])) σ a σ' hσ hout
      refine ⟨List.forall_mem_append.2 ⟨hseen, hblock⟩, hσ'.mono fun x hx => .inl ?_⟩
      simp only [List.flatMap_cons, List.mem_append] at hx ⊢
      tauto
    refine yields_ite ?_ ?_
    · exact (scopeless_addReturn _ _).still.next fun _ => (still_compose _ _).next fun _ => hrest _
    · exact (still_compose _ _).next fun _ => hrest _

lemma inferChunk_vets {statements : List Node} {last : Option Node}
    (hstatements : ∀ s ∈ statements, Vetted place G infer s)
    (hlast : ∀ s, last = some s → VettedPart place G infer s) :
    Yields (Bounded place G Γ) (inferChunk infer l statements last) fun _ _ =>
      ∀ x ∈ Node.unboundBlock false Γ statements ++
        Node.unboundOption false (statements.flatMap Node.declared ++ Γ) last, G x := by
  refine yields_inScope (.next (inferStatements_yields hstatements) fun p hseen => ?_)
  refine .append (yields_of hseen) ?_
  cases last with
  | none => exact yields_nil
  | some last => exact (hlast last rfl).first

/-! ## The inference -/

lemma declared_eq_nil (h : t.isBinding = false) : t.declared = [] := by
  cases t with
  | declare => cases h
  | _ => rfl

/-- A rule looks up the names that are used in a tree, if the inference of the parts does, for a
conditional statement also that of the places that may be compared. -/
theorem inferStep_vets {T : Ty → Prop} (hT : ∀ u, T u → u.Within (.about place))
    (ht : t.Assigning T G) (hparts : ∀ m ∈ t.parts, Vetted place G infer m)
    (hplaces : ∀ p, place p → VettedPlace place G infer p) (Γ : List String) :
    Yields (Bounded place G Γ) (inferStep infer t) fun _ _ => ∀ x ∈ t.unbound false Γ, G x := by
  obtain ⟨ρ, hformed⟩ := ht.formed
  have hpart : (∀ l ss last, t ≠ .chunk l ss last) → ∀ m ∈ t.parts, VettedPart place G infer m := by
    intro hchunk m hm
    obtain ⟨_, _, _, ⟨l, ss, last, heq⟩ | hbinding⟩ := hformed.part m hm
    · exact absurd heq (hchunk l ss last)
    · exact ⟨hparts m hm, declared_eq_nil hbinding⟩
  cases hformed with
  | var l x => exact fun σ i σ' hσ h => forall_unbound_var.2 (inferVar_vets σ i σ' hσ h)
  | nil | vararg | number | boolean | string => exact yields_nil
  | table l hkeys hvalues =>
    refine inferFields_vets fun f hf => ⟨hpart (by simp) _ ?_, hpart (by simp) _ ?_⟩ <;>
      exact List.mem_flatMap.2 ⟨f, hf, by simp⟩
  | unary l op hvalue => exact (hpart (by simp) _ (by simp [Node.parts])).first
  | binary l op hleft hright =>
    exact inferBinary_vets (hpart (by simp) _ (by simp [Node.parts]))
      (hpart (by simp) _ (by simp [Node.parts]))
  | index l hobject hkey =>
    have ho := hpart (by simp) _ (List.mem_cons_self)
    exact .append ho.first (ho.next fun _ _ => (hpart (by simp) _ (by simp [Node.parts])).first)
  | call l hcallee hargs | callStatement l hcallee hargs =>
    exact inferCall_vets (hpart (by simp) _ (by simp [Node.parts]))
      fun a ha => hpart (by simp) a (by simp [Node.parts, ha])
  | function l params isVararg name ln hbody hresult =>
    exact inferFunction_vets (hpart (by simp) _ (by simp [Node.parts]))
      fun l t hnote => hT t (hresult t (Node.resultNote.inj hnote).2)
  | declare l hnames hexprs hnote =>
    refine (still_forM (fun name => ?_) _).next fun _ => (inferEach_vets
      (fun _ _ => still_pure _) (hpart (by simp))).first
    cases name with
    | bare x => exact still_pure _
    | «variable» l x => exact still_await x
  | assign l hisPlace htargets hexprs =>
    refine inferAssign_vets (fun e he => hpart (by simp) e (List.mem_append_left _ he)) hisPlace
      (fun lx x hx => ht.targets x (Node.mem_targetNames hx)) fun t ht k hk => hpart (by simp) k ?_
    exact List.mem_append_right _ (List.mem_flatMap.2 ⟨t, ht, hk⟩)
  | branch l hcondition hbody helseifs hotherwise =>
    refine .append (inferBranch_vets (hpart (by simp) _ (by simp [Node.parts]))
      (hpart (by simp) _ (by simp [Node.parts])) (fun o ho => hpart (by simp) o ?_) hplaces) yields_nil
    simp [Node.parts, ho]
  | reveal l hexpr => exact (hpart (by simp) _ (by simp [Node.parts])).first
  | elseif | typeNote | resultNote => exact yields_fault
  | returns l hexprs => exact (inferEach_vets
      (fun _ _ => (scopeless_returned _ _).still) (hpart (by simp))).first
  | chunk l hstatements hlast =>
    refine inferChunk_vets (fun s hs => hparts s (List.mem_append_left _ hs)) fun s hs => ?_
    exact ⟨hparts s (by simp [Node.parts, hs]),
      declared_eq_nil ((hlast s hs).isBinding_eq_false (by decide))⟩

/-- The variables and paths in formed trees that assign to names of a kind only. -/
def placesIn (T : Ty → Prop) (G : String → Prop) (p : Node) : Prop := p.isPlace ∧ p.Assigning T G

section Places

variable {T : Ty → Prop} (hT : ∀ u, T u → u.Within (.about (placesIn T G)))
include hT

lemma suits_placesIn (ht : t.Assigning T G) : t.Suits (.about (placesIn T G)) 0 := by
  obtain ⟨ρ, hformed⟩ := ht.formed
  refine hformed.suits hT ?_
  rintro l left op right rfl - p hp
  refine ⟨Node.isPlace_of_mem_comparedPlaces hp, ?_⟩
  rcases Node.mem_of_mem_comparedPlaces hp with rfl | rfl | hp
  · exact ht.part (by simp [Node.parts])
  · exact ht.part (by simp [Node.parts])
  · exact (ht.part (by simp [Node.parts])).part hp

lemma admits_placesIn (ht : t.Assigning T G) (B : String → Prop) :
    Admits (.about (placesIn T G)) ⟨B, G, True⟩ 0 t := by
  refine ⟨Node.everywhere_of (fun _ hm => suits_placesIn hT hm) (fun _ hm _ => hm.part) ht,
    Node.everywhere_of (fun m hm => ?_) (fun _ hm _ => hm.part) ht⟩
  cases m with
  | assign l targets exprs =>
    exact ⟨fun lx x hx => hm.targets x (Node.mem_targetNames hx), fun _ _ _ _ => trivial⟩
  | _ => trivial

lemma infers_placesIn (depth : Nat) (ht : t.Assigning T G) :
    Infers (.about (placesIn T G)) ⟨(· ∈ t.binds), G, True⟩ 0 (inferTo depth) t := by
  obtain ⟨_, hformed⟩ := ht.formed
  refine inferTo_confined (fun p hp => ?_) depth (admits_placesIn hT ht _)
    (hformed.bindsIn fun _ => id)
  exact ⟨admits_placesIn hT hp.2 _, fun _ _ _ _ => trivial⟩

/-- Inference to any depth looks up the names that are used in a tree.

**Proof sketch.** By induction on the depth. What a rule adds to the scopes is confined to what the
tree binds, so that in each part the local names are in lexical scope there; a variable that is
found in such scopes is in lexical scope or global. -/
theorem inferTo_vets (depth : Nat) (ht : t.Assigning T G) :
    Vetted (placesIn T G) G (inferTo depth) t := by
  induction depth generalizing t with
  | zero => exact ⟨infers_placesIn hT 0 ht, ht.targets, fun Γ => yields_fault⟩
  | succ depth ih =>
    refine ⟨infers_placesIn hT (depth + 1) ht, ht.targets, ?_⟩
    refine inferStep_vets hT ht (fun m hm => ih (ht.part hm)) fun p ⟨hplace, hp⟩ => ?_
    refine ⟨⟨ih hp, ?_⟩, fun k hk => ?_⟩
    · cases p with
      | var | index => rfl
      | _ => cases hplace
    · obtain ⟨hk, hbinding⟩ := hp.pathKeys k hk
      exact ⟨ih hk, declared_eq_nil hbinding⟩

end Places

/-! ## Accepted programs -/

/-- A type without checks, as in the annotations of a program that is read from a text. -/
abbrev Checkless (t : Ty) : Prop := t.Within (.about fun _ => False)

/-- The names of the global functions that every program starts with. -/
def libraryNames : List String := Session.library.map Prod.fst

/-- Accepted programs have no unbound names. Each variable that an accepted program uses as an
expression, other than behind `elseif`, is in lexical scope where it is used, or names a function of
the library, or a global that is assigned to somewhere in the program. -/
theorem accepted_names_bound {n : Node} {i : Inferred} {σ' : Session} (hn : n.Formed Checkless .chunk)
    (haccept : outcome (Check.infer n) Session.initial = (.ok i, σ')) :
    ∀ x ∈ n.unbound false [], x ∈ libraryNames ∨ x ∈ n.assigned := by
  let G : String → Prop := fun x => x ∈ libraryNames ∨ x ∈ n.assigned
  have hT : ∀ u, Checkless u → u.Within (.about (placesIn Checkless G)) := fun u hu =>
    hu.mono (Permit.about_le fun _ => False.elim)
  have hinitial : Bounded (placesIn Checkless G) G [] Session.initial := by
    refine ⟨Session.within_initial (Nat.zero_le _) fun _ _ => trivial, fun x hx => ?_, fun x => .inl⟩
    exact absurd hx List.not_mem_nil
  have hvetted := inferTo_vets hT (depthFor n) ⟨⟨_, hn⟩, fun x => .inr⟩
  exact hvetted.shows [] _ i σ' hinitial haccept

/-- The program `local x = 1 g = function (a) return a + x end if x == 1 then print(g) end`. -/
def addingProgram : Node :=
  .chunk default
    [.declare default [.bare "x"] [.number default (.ofNat 1)] none,
     .assign default [.var default "g"]
       [.function default ["a"] false
         (.chunk default [] (some (.returns default
           [.binary default (.var default "a") .add (.var default "x")])))
         none (.resultNote default none)],
     .branch default (.binary default (.var default "x") .equal (.number default (.ofNat 1)))
       (.chunk default [.call default (.var default "print") [.var default "g"]] none) [] none]
    none

lemma addingProgram_formed : addingProgram.Formed Checkless .chunk := by
  refine .chunk _ ?_ (by simp)
  simp only [List.forall_mem_cons, List.not_mem_nil, false_implies, implies_true, and_true]
  refine ⟨.declare _ (by simp) (List.forall_mem_singleton.2 (.number _ _)) (by simp),
    .assign _ (by simp [Node.isPlace]) (List.forall_mem_singleton.2 (.var _ _))
      (List.forall_mem_singleton.2 (.function _ _ _ _ _ (.chunk _ (by simp) ?_) (by simp))),
    .branch _ (.binary _ _ (.var _ _) (.number _ _)) (.chunk _ (List.forall_mem_singleton.2
      (.callStatement _ (.var _ _) (List.forall_mem_singleton.2 (.var _ _)))) (by simp)) (by simp)
      (by simp)⟩
  rintro _ ⟨⟩
  exact .returns _ (List.forall_mem_singleton.2 (.binary _ _ (.var _ _) (.var _ _)))

/-- This program is accepted. Of its variables, the parameter and the local name are in scope where
they are used; the others are a function of the library and a global. -/
theorem accepted_names_bound_adding : addingProgram.unbound false [] = ["print", "g"] ∧
    ∀ x ∈ ["print", "g"], x ∈ libraryNames ∨ x ∈ addingProgram.assigned := by
  have haccept : (outcome (Check.infer addingProgram) Session.initial).1.isOk = true := by
    decide +kernel
  obtain ⟨i, σ', hrun⟩ := exists_of_isOk haccept
  exact ⟨by decide, accepted_names_bound addingProgram_formed hrun⟩

/-- The program `if true then elseif y then end`. -/
def unseenCondition : Node :=
  .chunk default [.branch default (.boolean default true) (.chunk default [] none)
    [.elseif default (.var default "y") (.chunk default [] none)] none] none

/-- An accepted program that uses a name behind `elseif` which is nowhere bound. -/
theorem accepted_unbound_elseif : unseenCondition.Formed Checkless .chunk ∧
    (∃ i σ', outcome (Check.infer unseenCondition) Session.initial = (.ok i, σ')) ∧
    "y" ∈ unseenCondition.unbound true [] ∧ "y" ∉ libraryNames ∧ "y" ∉ unseenCondition.assigned := by
  refine ⟨.chunk _ (List.forall_mem_singleton.2 ?_) (by simp), exists_of_isOk (by decide +kernel),
    by decide, by decide, by decide⟩
  exact .branch _ (.boolean _ _) (.chunk _ (by simp) (by simp)) (List.forall_mem_singleton.2
    (.elseif _ (.var _ _) (.chunk _ (by simp) (by simp)))) (by simp)

end Check

end LuaTyping
