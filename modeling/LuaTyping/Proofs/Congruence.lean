import LuaTyping.Proofs.Confinement

set_option autoImplicit false

/-!
# Relations that the rules keep

The rules of inference are put together from a few steps: sequences, scopes of their own, steps that
do not look at the scopes, and a few that look names up or bind them. A relation between computations
that all of these keep is kept by the rules: if two inferences are related on the parts of a tree,
then the rule for the tree comes to related computations with them.

The relation may depend on how many frames have been opened, and may hold for the binding of names
only where this number is positive.

## Main definitions

* `Check.Congruence` — a relation that the steps keep.

## Main results

* `Check.inferStep_congr` — the rules keep it.
-/

namespace LuaTyping.Check

/-- A relation between computations, for each number of frames, that is kept by the steps which rules
are put together from. Scopes that are looked at may differ by `A`. -/
structure Congruence (A : Nat → Scopes → Scopes → Prop)
    (R : Nat → {α : Type} → Check α → Check α → Prop) : Prop where
  local?_eq {k : Nat} {s t : Scopes} : A k s t → ∀ x, t.local? x = s.local? x
  bind {k : Nat} {s t : Scopes} (x : String) (u : Ty) :
    0 < k → A k s t → A k (s.bind x u) (t.bind x u)
  bindGlobal {k : Nat} {s t : Scopes} (x : String) (u : Ty) :
    0 < k → A k s t → A k (s.bindGlobal x u) (t.bindGlobal x u)
  update {k : Nat} {s t : Scopes} (x : String) (u : Ty) :
    A k s t → A k (s.update x u) (t.update x u)
  seq {k : Nat} {α β : Type} {x y : Check α} {f g : α → Check β} :
    R k x y → (∀ a, R k (f a) (g a)) → R k (x >>= f) (y >>= g)
  inScope {k : Nat} {α : Type} {x y : Check α} : R (k + 1) x y → R k (inScope x) (inScope y)
  scopeless {k : Nat} {α : Type} {x : Check α} : Scopeless x → R k x x
  look {k : Nat} {β : Type} {f g : Scopes → Check β} :
    (∀ s t, A k s t → R k (f s) (g t)) → R k (scopes >>= f) (scopes >>= g)
  change {k : Nat} {f : Scopes → Scopes} : (∀ s t, A k s t → A k (f s) (f t)) →
    R k (modify fun σ => { σ with scopes := f σ.scopes } : Check Unit)
      (modify fun σ => { σ with scopes := f σ.scopes })
  print {k : Nat} (m : String) :
    R k (modify fun σ => { σ with printed := σ.printed ++ m } : Check Unit)
      (modify fun σ => { σ with printed := σ.printed ++ m })
  instantiate {k : Nat} (t : Ty) : R k (instantiate t) (instantiate t)
  generalize {k : Nat} (t : Ty) : R k (generalize t) (generalize t)
  inferVar {k : Nat} (l : Location) (x : String) : R k (inferVar l x) (inferVar l x)

namespace Congruence

variable {A : Nat → Scopes → Scopes → Prop} {R : Nat → {α : Type} → Check α → Check α → Prop}
  {α β : Type} {k : Nat}

lemma pure (hR : Congruence A R) (a : α) : R k (Pure.pure a : Check α) (Pure.pure a) :=
  hR.scopeless (.pure a)

lemma fault (hR : Congruence A R) (f : Fault) : R k (fault f : Check α) (Check.fault f) :=
  hR.scopeless (scopeless_fault f)

lemma after (hR : Congruence A R) {x : Check α} {f g : α → Check β} (hx : Scopeless x)
    (hf : ∀ a, R k (f a) (g a)) : R k (x >>= f) (x >>= g) :=
  hR.seq (hR.scopeless hx) hf

lemma before (hR : Congruence A R) {x y : Check α} {f : α → Check β} (h : R k x y)
    (hf : ∀ a, Scopeless (f a)) : R k (x >>= f) (y >>= f) :=
  hR.seq h fun a => hR.scopeless (hf a)

lemma ite {c : Prop} [Decidable c] {x x' y y' : Check α} (h : R k x y)
    (h' : R k x' y') : R k (if c then x else x') (if c then y else y') := by
  split
  · exact h
  · exact h'

lemma bindName (hR : Congruence A R) (hk : 0 < k) (x : String) (t : Ty) :
    R k (Check.bind x t) (Check.bind x t) :=
  hR.change fun _ _ h => hR.bind x t hk h

end Congruence

variable {A : Nat → Scopes → Scopes → Prop} {R : Nat → {α : Type} → Check α → Check α → Prop}
  (hR : Congruence A R) {k : Nat} {infer deeper : Inference} {l : Location}

include hR

/-! ## Expressions -/

lemma inferVararg_congr : R k (inferVararg l) (inferVararg l) := by
  refine hR.look fun s t hst => ?_
  rw [hR.local?_eq hst]
  cases s.local? "..." with
  | none => exact hR.scopeless (scopeless_report _ _)
  | some t => exact hR.before (hR.instantiate t) fun _ => .pure _

variable {s : Subst} {left right : Node} {types : List Ty} {exprs : List Node}

lemma inferFields_congr {types : List (Ty × Ty)} {fields : List (Node × Node)}
    (h : ∀ f ∈ fields, R k (infer f.1) (deeper f.1) ∧ R k (infer f.2) (deeper f.2)) :
    R k (inferFields infer s types fields) (inferFields deeper s types fields) := by
  induction fields generalizing s types with
  | nil => exact hR.pure _
  | cons f rest ih =>
    obtain ⟨key, value⟩ := f
    obtain ⟨hkey, hvalue⟩ := h (key, value) (by simp)
    have hrest : ∀ s types, R k (inferFields infer s types rest) (inferFields deeper s types rest) :=
      fun _ _ => ih fun f hf => h f (by simp [hf])
    by_cases hvararg : ∃ lv, value = .vararg lv
    · -- the variable arguments, which stand for fields with numbers as keys
      obtain ⟨lv, rfl⟩ := hvararg
      rw [inferFields.eq_def, inferFields.eq_def]
      simp only
      split
      · refine hR.seq hvalue fun more => ?_
        split
        · exact hR.after (scopeless_compose _ _) fun _ =>
            hR.after (scopeless_member _ _) fun _ => hrest _ _
        · exact hR.fault _
      · exact hR.fault _
    · have hne : ∀ lv, value = .vararg lv → False := fun lv hlv => hvararg ⟨lv, hlv⟩
      rw [inferFields, inferFields]
      · exact hR.seq hkey fun _ => hR.seq hvalue fun _ => hR.after (scopeless_compose _ _) fun _ =>
          hR.after (scopeless_compose _ _) fun _ => hR.after scopeless_enterField fun _ =>
            hrest _ _
      all_goals exact hne

lemma inferIndex_congr {object key : Node} (ho : R k (infer object) (deeper object))
    (hk : R k (infer key) (deeper key)) :
    R k (inferIndex infer l object key) (inferIndex deeper l object key) :=
  hR.seq ho fun _ => hR.before hk fun _ => Scopeless.fresh.bind fun _ =>
    (scopeless_unifyAt _ _ _).bind fun _ => (scopeless_compose _ _).bind fun _ =>
      (scopeless_compose _ _).bind fun _ => (scopeless_apply _ _).bind fun _ => .pure _

lemma inferUnary_congr {op : UnaryOp} {value : Node} (h : R k (infer value) (deeper value)) :
    R k (inferUnary infer l op value) (inferUnary deeper l op value) := by
  refine hR.before h fun v => (scopeless_ofExcept _).bind fun t => ?_
  cases op with
  | negate | length | not => exact scopeless_demand
  | other => exact scopeless_fault _

lemma comparisonChecks_congr {a b : Ty} :
    R k (comparisonChecks left right a b) (comparisonChecks left right a b) := by
  unfold comparisonChecks
  simp only
  split
  · refine hR.look fun s t hst => ?_
    rw [Scopes.isLocal, Scopes.isLocal, hR.local?_eq hst]
    refine Congruence.ite (hR.after (scopeless_typeNamed? _) fun o => ?_) (hR.pure _)
    split <;> exact hR.pure _
  · exact hR.pure _

lemma inferComparison_congr {a b : Inferred} :
    R k (inferComparison left right a b) (inferComparison left right a b) := by
  have htail : ∀ t u s, R k (comparisonOf left right a b t u s)
      (comparisonOf left right a b t u s) := fun _ _ _ =>
    hR.before (comparisonChecks_congr hR) fun _ =>
      (scopeless_compose _ _).bind fun _ => (scopeless_compose _ _).bind fun _ => .pure _
  refine hR.after (scopeless_unifyOrNot _ _) fun _ => hR.after (.naming _) fun again => ?_
  split
  · exact hR.after (scopeless_compose _ _) fun s => htail _ _ s
  · exact htail _ _ _

lemma inferBinary_congr {op : BinaryOp} (hl : R k (infer left) (deeper left))
    (hr : R k (infer right) (deeper right)) :
    R k (inferBinary infer left op right) (inferBinary deeper left op right) := by
  refine hR.seq hl fun _ => hR.after (scopeless_ofExcept _) fun _ => ?_
  refine hR.seq hr fun _ => hR.after (scopeless_ofExcept _) fun _ => ?_
  simp only
  split
  · exact hR.scopeless (scopeless_inferUniform _ _ _ _ _ _)
  · exact hR.scopeless (scopeless_inferUniform _ _ _ _ _ _)
  · exact hR.scopeless (scopeless_inferUniform _ _ _ _ _ _)
  · exact inferComparison_congr hR
  · exact hR.scopeless (scopeless_inferConnective _ _ _ _)
  · exact hR.fault _

lemma bindParams_congr (hk : 0 < k) {xs : List String} : R k (bindParams xs) (bindParams xs) := by
  induction xs with
  | nil => exact hR.pure _
  | cons x xs ih =>
    exact hR.after .fresh fun t => hR.seq (hR.bindName hk x t) fun _ => hR.before ih fun _ => .pure _

lemma bindVararg_congr (hk : 0 < k) {isVararg : Bool} :
    R k (bindVararg isVararg) (bindVararg isVararg) := by
  cases isVararg with
  | false => exact hR.pure _
  | true => exact hR.after .fresh fun t => hR.before (hR.bindName hk _ _) fun _ => .pure _

lemma inferFunction_congr {params : List String} {isVararg : Bool} {body : Node}
    {name : Option String} {note : Node} (hbody : R (k + 1) (infer body) (deeper body)) :
    R k (inferFunction infer l params isVararg body name note)
      (inferFunction deeper l params isVararg body name note) := by
  have hk : 0 < k + 1 := Nat.succ_pos k
  refine hR.inScope (hR.seq (bindParams_congr hR hk) fun types => ?_)
  refine hR.seq (bindVararg_congr hR hk) fun rest => ?_
  refine hR.after (scopeless_annotated _) fun wanted => ?_
  -- the body, whether or not the function may call itself in it
  have hrun : R (k + 1) (infer body >>= functionOf l isVararg types rest wanted)
      (deeper body >>= functionOf l isVararg types rest wanted) :=
    hR.before hbody scopeless_functionOf
  cases wanted with
  | none => exact hrun
  | some result =>
    cases name with
    | none => exact hrun
    | some x => exact hR.seq (hR.bindName hk x _) fun _ => hrun

lemma inferEach_congr {spread : Node → Ty → Check (List Ty)} {exprs : List Node}
    (hspread : ∀ e t, Scopeless (spread e t)) (h : ∀ e ∈ exprs, R k (infer e) (deeper e)) :
    R k (inferEach infer spread s types exprs) (inferEach deeper spread s types exprs) := by
  induction exprs generalizing s types with
  | nil => exact hR.pure _
  | cons expr rest ih =>
    exact hR.seq (h expr (by simp)) fun _ => hR.after (hspread _ _) fun _ =>
      hR.after (scopeless_compose _ _) fun _ => ih fun e he => h e (by simp [he])

lemma inferCall_congr {callee : Node} {args : List Node}
    (hcallee : R k (infer callee) (deeper callee)) (hargs : ∀ a ∈ args, R k (infer a) (deeper a)) :
    R k (inferCall infer l callee args) (inferCall deeper l callee args) := by
  refine hR.seq (inferEach_congr hR (fun _ _ => .pure _) hargs) fun _ => hR.after .fresh fun _ => ?_
  refine hR.before hcallee fun _ => (scopeless_ofExcept _).bind fun t => ?_
  split
  · exact scopeless_callUnknown _ _ _ _ _
  · exact scopeless_callKnown _ _ _ _ _ _
  · exact scopeless_fault _

/-! ## Paths and narrowing -/

lemma pathOf_congr {path : Node} (h : ∀ m ∈ path.pathKeys, R k (infer m) (deeper m)) :
    R k (pathOf infer path) (pathOf deeper path) := by
  induction path using pathOf.induct with
  | case1 l x =>
    rw [pathOf, pathOf]
    refine hR.look fun s t hst => ?_
    rw [hR.local?_eq hst]
    split
    · exact hR.fault _
    · exact hR.fault _
    · exact hR.pure _
  | case2 l object key ih =>
    simp only [Node.pathKeys, List.mem_append, List.mem_singleton] at h
    rw [pathOf, pathOf]
    exact hR.seq (ih fun m hm => h m (.inl hm)) fun _ =>
      hR.before (h key (.inr rfl)) fun _ => .pure _
  | case3 path hvar hindex =>
    rw [pathOf, pathOf]
    · exact hR.fault _
    all_goals assumption

lemma assignPath_congr {target : Node} {value : Ty}
    (h : ∀ m ∈ target.pathKeys, R k (infer m) (deeper m)) :
    R k (assignPath infer target value) (assignPath deeper target value) := by
  unfold assignPath
  split
  · refine hR.seq (pathOf_congr hR h) fun p => hR.look fun s t hst => ?_
    rw [hR.local?_eq hst]
    have hupdate : ∀ u : Ty, R k
        (modify fun σ => { σ with scopes := σ.scopes.update p.1 u } : Check Unit)
        (modify fun σ => { σ with scopes := σ.scopes.update p.1 u }) :=
      fun u => hR.change fun _ _ h => hR.update p.1 u h
    split
    · split
      · exact hR.after (scopeless_changeAt fun _ => scopeless_assignField) fun _ => hupdate _
      · exact hR.after (scopeless_changeAt fun _ => scopeless_assignField) fun _ => hupdate _
    · exact hR.fault _
  · exact hR.pure _

section Narrowing

variable (hk : 0 < k) (h : ∀ m, R k (infer m) (deeper m))

include hk h

lemma restrict_congr {p : Node} {t : Ty} : R k (restrict infer p t) (restrict deeper p t) := by
  unfold restrict
  split
  · exact hR.bindName hk _ t
  · exact assignPath_congr hR fun m _ => h m

lemma narrowTo_congr {checks : List Checked} :
    R k (narrowTo infer l checks) (narrowTo deeper l checks) := by
  induction checks with
  | nil => exact hR.pure _
  | cons c rest ih =>
    refine hR.seq (h c.1) fun now => hR.after (.naming _) fun u => ?_
    cases u with
    | none =>
      exact hR.scopeless ((Scopeless.naming _).bind fun _ => (Scopeless.naming _).bind
        fun _ => scopeless_report _ _)
    | some u => exact hR.seq (restrict_congr hR hk h) fun _ => ih

lemma narrowFrom_congr {checks : List Checked} :
    R k (narrowFrom infer checks) (narrowFrom deeper checks) := by
  induction checks with
  | nil => exact hR.pure _
  | cons c rest ih =>
    exact hR.seq (h c.1) fun now => hR.after (.naming _) fun u =>
      hR.seq (restrict_congr hR hk h) fun _ => ih

end Narrowing

/-! ## Statements -/

lemma bindNames_congr {note : Option Node} {number : Nat} {names : List DeclaredName}
    (h : ∀ x, .bare x ∈ names → 0 < k) :
    R k (bindNames l note types number names) (bindNames l note types number names) := by
  induction names generalizing number with
  | nil => exact hR.pure _
  | cons name rest ih =>
    have hdeclared : ∀ t : Ty, R k (bindDeclared name t) (bindDeclared name t) := by
      intro t
      cases name with
      | bare x => exact hR.bindName (h x (by simp)) x t
      | «variable» l x => exact hR.fault _
    have hlater : R k (bindNames l note types (number + 1) rest)
        (bindNames l note types (number + 1) rest) := ih fun x hx => h x (by simp [hx])
    unfold bindNames
    cases note with
    | some note =>
      refine hR.after (scopeless_annotatedTuple note) fun p => ?_
      refine hR.after (scopeless_member _ _) fun t => hR.after (scopeless_member _ _) fun a => ?_
      refine hR.after (.naming _) fun _ => Congruence.ite ?_ (hR.scopeless ?_)
      · exact hR.seq (hR.generalize _) fun w => hR.seq (hdeclared w) fun _ => hlater
      · exact (Scopeless.naming _).bind fun _ => (Scopeless.naming _).bind fun _ =>
          scopeless_report _ _
    | none =>
      exact hR.after (scopeless_member _ _) fun _ => hR.seq (hR.generalize _) fun w =>
        hR.seq (hdeclared w) fun _ => hlater

lemma inferDeclare_congr {names : List DeclaredName} {note : Option Node}
    (hexprs : ∀ e ∈ exprs, R k (infer e) (deeper e)) (hnames : ∀ x, .bare x ∈ names → 0 < k) :
    R k (inferDeclare infer l names exprs note) (inferDeclare deeper l names exprs note) := by
  refine hR.after (scopeless_forM (fun name => ?_) names) fun _ => ?_
  · cases name with
    | bare x => exact .pure _
    | «variable» l x => exact .await x
  · exact hR.seq (inferEach_congr hR (fun _ _ => .pure _) hexprs) fun p =>
      hR.before (bindNames_congr hR hnames) fun _ => .pure _

lemma assignName_congr {x : String} {number : Nat} (hk : 0 < k) :
    R k (assignName l x types number) (assignName l x types number) := by
  refine hR.look fun s t hst => ?_
  rw [hR.local?_eq hst]
  cases s.local? x with
  | some t =>
    exact hR.seq (hR.instantiate t) fun _ => hR.after (scopeless_member _ _) fun _ =>
      hR.after (scopeless_unifyAt _ _ _) fun _ => hR.after (scopeless_apply _ _) fun _ =>
        hR.seq (hR.generalize _) fun _ => hR.bindName hk x _
  | none =>
    exact hR.after (scopeless_member _ _) fun _ => hR.seq (hR.generalize _) fun u =>
      hR.change fun _ _ h => hR.bindGlobal x u hk h

lemma assignTargets_congr {number : Nat} {targets : List Node}
    (htargets : ∀ t ∈ targets, ∀ m ∈ t.pathKeys, R k (infer m) (deeper m))
    (hnames : ∀ l x, .var l x ∈ targets → 0 < k) :
    R k (assignTargets infer l types number targets)
      (assignTargets deeper l types number targets) := by
  induction targets generalizing number with
  | nil => exact hR.pure _
  | cons target rest ih =>
    have hlater : R k (assignTargets infer l types (number + 1) rest)
        (assignTargets deeper l types (number + 1) rest) :=
      ih (fun t ht => htargets t (by simp [ht])) fun l x hx => hnames l x (by simp [hx])
    unfold assignTargets
    split
    · rename_i lx x
      exact hR.seq (assignName_congr hR (hnames lx x (by simp))) fun _ => hlater
    · exact hR.after (scopeless_member _ _) fun t =>
        hR.seq (assignPath_congr hR (htargets target (by simp))) fun _ => hlater

lemma inferAssign_congr {targets : List Node} (hexprs : ∀ e ∈ exprs, R k (infer e) (deeper e))
    (htargets : ∀ t ∈ targets, ∀ m ∈ t.pathKeys, R k (infer m) (deeper m))
    (hnames : ∀ l x, .var l x ∈ targets → 0 < k) :
    R k (inferAssign infer l targets exprs) (inferAssign deeper l targets exprs) := by
  refine hR.after (scopeless_forM (fun target => ?_) targets) fun _ => ?_
  · split
    · exact .await _
    · exact .pure _
  · exact hR.seq (inferEach_congr hR (fun _ _ => .pure _) hexprs) fun p =>
      hR.before (assignTargets_congr hR htargets hnames) fun _ => .pure _

lemma inferReveal_congr {expr : Node} (h : R k (infer expr) (deeper expr)) :
    R k (inferReveal infer l expr) (inferReveal deeper l expr) :=
  hR.seq h fun _ => hR.after (.naming _) fun _ => hR.before (hR.print _) fun _ => .pure _

lemma inferBranch_congr {condition body : Node} {otherwise : Option Node}
    (h : ∀ m, R (k + 1) (infer m) (deeper m)) :
    R k (inferBranch infer l condition body otherwise)
      (inferBranch deeper l condition body otherwise) := by
  have hk : 0 < k + 1 := Nat.succ_pos k
  refine hR.seq (hR.inScope (h condition)) fun c => hR.after (scopeless_unifyAt _ _ _) fun _ =>
    hR.inScope ?_
  refine hR.seq (narrowTo_congr hR hk h) fun _ => hR.seq (h body) fun b => ?_
  cases otherwise with
  | none => exact hR.scopeless ((scopeless_apply _ _).bind fun _ => .pure _)
  | some other =>
    exact hR.seq (narrowFrom_congr hR hk h) fun _ => hR.before (h other)
      (scopeless_joinBranches c b)

lemma inferStatements_congr {p : Progress} {statements : List Node}
    (h : ∀ s ∈ statements, R k (infer s) (deeper s)) :
    R k (inferStatements infer l p statements) (inferStatements deeper l p statements) := by
  induction statements generalizing p with
  | nil => exact hR.pure _
  | cons statement rest ih =>
    have hlater : ∀ p, R k (inferStatements infer l p rest) (inferStatements deeper l p rest) :=
      fun _ => ih fun s hs => h s (by simp [hs])
    refine hR.seq (h statement (by simp)) fun i => Congruence.ite ?_ ?_
    · exact hR.after (scopeless_addReturn _ _) fun _ => hR.after (scopeless_compose _ _) fun _ =>
        hlater _
    · exact hR.after (.pure _) fun _ => hR.after (scopeless_compose _ _) fun _ => hlater _

lemma inferChunk_congr {statements : List Node} {last : Option Node}
    (h : ∀ m, R (k + 1) (infer m) (deeper m)) :
    R k (inferChunk infer l statements last) (inferChunk deeper l statements last) := by
  refine hR.inScope (hR.seq (inferStatements_congr hR fun s _ => h s) fun p => ?_)
  split
  · exact hR.before (h _) fun _ => (scopeless_addLast _ _).bind fun _ =>
      (scopeless_compose _ _).bind fun _ => .pure _
  · split <;> exact hR.pure _

/-! ## The rules -/

/-- A rule comes to related computations if it binds names only where a frame has been opened, if
the two inferences are related on its operands, and if they are related in a further frame. -/
theorem inferStep_congr {t : Node} (hown : ∀ x ∈ t.binds, 0 < k)
    (hoperands : ∀ m ∈ t.operands, R k (infer m) (deeper m))
    (hinside : ∀ m, R (k + 1) (infer m) (deeper m)) :
    R k (inferStep infer t) (inferStep deeper t) := by
  cases t with
  | var l x => exact hR.inferVar l x
  | nil | number | string | boolean => exact hR.pure _
  | vararg l => exact inferVararg_congr hR
  | table l fields =>
    refine inferFields_congr hR fun f hf => ⟨hoperands _ ?_, hoperands _ ?_⟩ <;>
      exact List.mem_flatMap.2 ⟨f, hf, by simp⟩
  | index l object key =>
    exact inferIndex_congr hR (hoperands object (by simp [Node.operands, Node.parts]))
      (hoperands key (by simp [Node.operands, Node.parts]))
  | unary l op value =>
    exact inferUnary_congr hR (hoperands value (by simp [Node.operands, Node.parts]))
  | binary l left op right =>
    exact inferBinary_congr hR (hoperands left (by simp [Node.operands, Node.parts]))
      (hoperands right (by simp [Node.operands, Node.parts]))
  | function l params isVararg body name note => exact inferFunction_congr hR (hinside body)
  | call l callee args =>
    exact inferCall_congr hR (hoperands callee (by simp [Node.operands, Node.parts]))
      fun a ha => hoperands a (by simp [Node.operands, Node.parts, ha])
  | declare l names exprs note =>
    refine inferDeclare_congr hR hoperands fun x hx => hown x ?_
    exact List.mem_append_left _ (List.mem_filterMap.2 ⟨.bare x, hx, rfl⟩)
  | assign l targets exprs =>
    refine inferAssign_congr hR (fun e he => hoperands e (List.mem_append_left _ he))
      (fun t ht m hm => hoperands m (List.mem_append_right _ (List.mem_flatMap.2 ⟨t, ht, hm⟩)))
      fun lx x hx => hown x ?_
    exact List.mem_append_right _ (Node.mem_targetNames hx)
  | returns l exprs =>
    exact hR.before (inferEach_congr hR scopeless_returned hoperands) fun _ => .pure _
  | branch l condition body elseifs otherwise => exact inferBranch_congr hR hinside
  | reveal l expr =>
    exact inferReveal_congr hR (hoperands expr (by simp [Node.operands, Node.parts]))
  | chunk l statements last => exact inferChunk_congr hR hinside
  | elseif | typeNote | resultNote => exact hR.fault _

end LuaTyping.Check
