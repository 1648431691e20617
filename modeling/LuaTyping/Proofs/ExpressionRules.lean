import LuaTyping.Proofs.Scopeless
import LuaTyping.Proofs.Regime

set_option autoImplicit false

/-!
# The rules for expressions keep regimes

The rule for a syntax tree infers certain parts of it. If these inferences keep a regime, and it
permits what stands in the tree itself, then so does the rule: this file has the rules for
expressions.

## Main definitions

* `Node.parts` — the trees that the rule for a tree infers.
* `Node.Suits` — what stands in a tree itself is permitted.
* `Node.Everywhere` — a property of a tree, its parts, their parts and so on.
* `Check.Infers` — the inference of a tree keeps a regime.

## Main results

* `Check.inferFields_keeps`, `Check.inferIndex_keeps`,
  `Check.inferUnary_keeps`, `Check.inferBinary_keeps`,
  `Check.inferFunction_keeps`, `Check.inferCall_keeps` — the rules for tables,
  index expressions, operators, functions and calls.
-/

namespace LuaTyping

namespace Node

/-- The keys of a path, the innermost first. -/
def pathKeys : Node → List Node
  | index _ object key => object.pathKeys ++ [key]
  | _ => []

/-- The trees that the rule for a tree infers. -/
def parts : Node → List Node
  | table _ fields => fields.flatMap fun f => [f.1, f.2]
  | index _ object key => [object, key]
  | unary _ _ value => [value]
  | binary _ left _ right => [left, right]
  | function _ _ _ body _ _ => [body]
  | call _ callee args => callee :: args
  | declare _ _ exprs _ => exprs
  | assign _ targets exprs => exprs ++ targets.flatMap pathKeys
  | returns _ exprs => exprs
  | branch _ condition body _ otherwise => condition :: body :: otherwise.toList
  | reveal _ expr => [expr]
  | chunk _ statements last => statements ++ last.toList
  | _ => []

/-- The places that a comparison of two trees may remember. -/
def comparedPlaces (left right : Node) : List Node :=
  (match left with
    | call _ (var _ "type") [arg] => [left, right, arg]
    | _ => [left, right]).filter isPlace

variable {left right : Node}

/-- A place that a comparison may remember is one of the trees compared, or a part of one. -/
lemma mem_of_mem_comparedPlaces {p : Node} (h : p ∈ comparedPlaces left right) :
    p = left ∨ p = right ∨ p ∈ left.parts := by
  unfold comparedPlaces at h
  split at h
  · simp only [List.mem_filter, List.mem_cons, List.not_mem_nil, or_false] at h
    rcases h.1 with rfl | rfl | rfl
    · exact .inl rfl
    · exact .inr (.inl rfl)
    · exact .inr (.inr (by simp [parts]))
  · simp only [List.mem_filter, List.mem_cons, List.not_mem_nil, or_false] at h
    exact h.1.imp_right .inl

lemma isPlace_of_mem_comparedPlaces {p : Node} (h : p ∈ comparedPlaces left right) :
    p.isPlace :=
  (List.mem_filter.1 h).2

/-- What stands in a tree itself is permitted. -/
def Suits (R : Regime) (n : Nat) : Node → Prop
  | number _ v => (R.permit n).literal "number" (.number v)
  | string _ v => (R.permit n).literal "string" (.text v)
  | boolean _ v => (R.permit n).literal "boolean" (.flag v)
  | binary _ left op right =>
    op.family? = some .comparison → ∀ p ∈ comparedPlaces left right, (R.permit n).place p
  | function _ _ _ _ _ note => ∀ l t, note = resultNote l (some t) → t.Within (R.permit n)
  | declare _ names _ note => (∀ l x, .variable l x ∈ names → R.fault .wrongKind) ∧
      ∀ l t, note = some (typeNote l t) → t.Within (R.permit n)
  | elseif .. => R.fault (.notImplemented "ElseifStmt")
  | typeNote .. => R.fault (.notImplemented "VarAnnotation")
  | resultNote .. => R.fault (.notImplemented "FuncAnnotation")
  | _ => True

/-- A property of a tree, of its parts, of their parts, and so on. -/
inductive Everywhere (p : Node → Prop) : Node → Prop
  | intro {n : Node} : p n → (∀ m ∈ n.parts, Everywhere p m) → Everywhere p n

lemma size_le_sizePairs {f : Node × Node} {fields : List (Node × Node)} (h : f ∈ fields) :
    f.1.size + f.2.size ≤ sizePairs fields := by
  induction fields with
  | nil => simp at h
  | cons g fields ih =>
    simp only [sizePairs]
    rcases List.mem_cons.1 h with rfl | h
    · omega
    · have := ih h
      omega

/-- The trees that a tree is put together from, but for its annotation. -/
def children : Node → List Node
  | table _ fields => fields.flatMap fun f => [f.1, f.2]
  | unary _ _ value => [value]
  | binary _ left _ right => [left, right]
  | call _ callee args => callee :: args
  | index _ object key => [object, key]
  | function _ _ _ body _ _ => [body]
  | declare _ _ exprs _ => exprs
  | assign _ targets exprs => targets ++ exprs
  | returns _ exprs => exprs
  | branch _ condition body elseifs otherwise => condition :: body :: elseifs ++ otherwise.toList
  | elseif _ condition body => [condition, body]
  | chunk _ statements last => statements ++ last.toList
  | reveal _ expr => [expr]
  | _ => []

variable {q : Node → Prop}

variable {n : Node}

/-- What a path hands down to the paths before its keys, and to its keys, the keys have. -/
lemma of_mem_pathKeys {p : Node → Prop}
    (hindex : ∀ l object key, p (index l object key) → p object ∧ q key) (h : p n) :
    ∀ k ∈ n.pathKeys, q k := by
  induction n using pathKeys.induct with
  | case1 l object key ih =>
    intro k hk
    rcases List.mem_append.1 hk with hk | hk
    · exact ih (hindex l object key h).1 k hk
    · exact List.mem_singleton.1 hk ▸ (hindex l object key h).2
  | case2 n hn =>
    intro k hk
    rw [pathKeys] at hk
    · exact absurd hk List.not_mem_nil
    · exact hn

section Parts

variable {r : Node → Node → Prop} (htrans : ∀ a b c, r a b → r b c → r a c)
  (hchild : ∀ n, ∀ m ∈ n.children, r m n) {n : Node}

include htrans hchild

/-- What holds between trees and their children, and goes over from one to the next, holds between
trees and the keys of their paths. -/
lemma rel_of_mem_pathKeys : ∀ k ∈ n.pathKeys, r k n := by
  refine of_mem_pathKeys (p := fun m => m = n ∨ r m n) (fun l object key h => ?_) (.inl rfl)
  have hobject := hchild (index l object key) object (by simp [children])
  have hkey := hchild (index l object key) key (by simp [children])
  rcases h with rfl | h
  · exact ⟨.inr hobject, hkey⟩
  · exact ⟨.inr (htrans _ _ _ hobject h), htrans _ _ _ hkey h⟩

/-- It holds between trees and their parts, too. -/
lemma rel_of_mem_parts : ∀ m ∈ n.parts, r m n := by
  intro m hm
  cases n with
  | assign l targets exprs =>
    rcases List.mem_append.1 hm with hm | hm
    · exact hchild _ _ (List.mem_append_right _ hm)
    · obtain ⟨t, ht, hm⟩ := List.mem_flatMap.1 hm
      exact htrans _ _ _ (rel_of_mem_pathKeys htrans hchild m hm)
        (hchild _ _ (List.mem_append_left _ ht))
  | branch l condition body elseifs otherwise =>
    simp only [parts, List.mem_cons, Option.mem_toList] at hm
    exact hchild _ _ (by simp [children]; tauto)
  | elseif => exact absurd hm List.not_mem_nil
  | _ => exact hchild _ _ hm

end Parts

lemma sizeList_eq (ns : List Node) : sizeList ns = (ns.map size).sum := by
  induction ns with
  | nil => rfl
  | cons n ns ih => simp [sizeList, ih]

lemma sizePairs_eq (fields : List (Node × Node)) :
    sizePairs fields = ((fields.flatMap fun f => [f.1, f.2]).map size).sum := by
  induction fields with
  | nil => rfl
  | cons f fields ih => simp [sizePairs, ih, Nat.add_assoc]

lemma size_eq (n : Node) : n.size = (n.children.map size).sum + 1 := by
  cases n with
  | branch l condition body elseifs otherwise =>
    cases otherwise <;> simp [size, children, sizeList_eq, sizeOption, Nat.add_assoc]
  | chunk l statements last => cases last <;> simp [size, children, sizeList_eq, sizeOption]
  | _ => simp [size, children, sizeList_eq, sizePairs_eq]

lemma size_lt_of_mem_children (n : Node) : ∀ m ∈ n.children, m.size < n.size := by
  intro m hm
  rw [size_eq n]
  exact Nat.lt_succ_of_le (List.single_le_sum (by simp) _ (List.mem_map_of_mem hm))

lemma size_lt_of_mem_pathKeys : ∀ k ∈ n.pathKeys, k.size < n.size :=
  rel_of_mem_pathKeys (r := (·.size < ·.size)) (fun _ _ _ => Nat.lt_trans) size_lt_of_mem_children

lemma size_lt_of_mem_parts : ∀ m ∈ n.parts, m.size < n.size :=
  rel_of_mem_parts (r := (·.size < ·.size)) (fun _ _ _ => Nat.lt_trans) size_lt_of_mem_children

variable {p : Node → Prop}

lemma everywhere_of (hp : ∀ n, q n → p n) (hparts : ∀ n, q n → ∀ m ∈ n.parts, q m)
    (h : q n) : n.Everywhere p := by
  induction hsize : n.size using Nat.strong_induction_on generalizing n with
  | _ size ih =>
    subst hsize
    exact .intro (hp n h) fun m hm => ih m.size (size_lt_of_mem_parts m hm) (hparts n h m hm) rfl

lemma Everywhere.here : n.Everywhere p → p n
  | .intro h _ => h

lemma Everywhere.part {m : Node} : n.Everywhere p → m ∈ n.parts →
    m.Everywhere p
  | .intro _ h, hm => h m hm

/-- The places that a comparison may remember are parts of it, or parts of its parts. -/
lemma Everywhere.comparedPlaces {l : Location} {op : BinaryOp}
    (h : (binary l left op right).Everywhere p) :
    ∀ m ∈ comparedPlaces left right, m.Everywhere p := by
  intro m hm
  have hleft : left.Everywhere p := h.part (by simp [parts])
  rcases mem_of_mem_comparedPlaces hm with rfl | rfl | hm
  · exact hleft
  · exact h.part (by simp [parts])
  · exact hleft.part hm

lemma Everywhere.imp (hpq : ∀ n, p n → q n) (h : n.Everywhere p) : n.Everywhere q := by
  induction h with
  | intro hn _ ih => exact .intro (hpq _ hn) ih

end Node

/-- Nothing occurs in what is inferred but what is permitted. -/
structure Inferred.Within (P : Permit) (i : Inferred) : Prop where
  subst : i.subst.Within P
  type : i.type.Within P

namespace Check

/-- The inference of a tree keeps a regime. -/
def Infers (R : Regime) (r : Reach) (n : Nat) (infer : Inference) (t : Node) : Prop :=
  Keeps R r n (infer t) fun m i => i.Within (R.permit m)

variable {R : Regime} {r : Reach} {n : Nat} {infer : Inference} {l : Location}
variable {m : Nat} {t : Ty} {s : Subst} {left right : Node} {a b : Inferred} {ts types : List Ty}

lemma Infers.from {t : Node} (h : Infers R r n infer t) (hm : n ≤ m) : Infers R r m infer t :=
  Keeps.from h hm

/-! ## Variables -/

lemma keeps_ofType (h : t.Within (R.permit n)) :
    Keeps R r n (pure (ofType t)) fun m i => i.Within (R.permit m) :=
  keeps_pure fun _ hm => ⟨Subst.within_empty, h.later hm⟩

lemma keeps_instance (h : t.Scheme (R.permit n)) :
    Keeps R r n (do return ofType (← instantiate t)) fun m i => i.Within (R.permit m) :=
  .bind (keeps_instantiate h) fun _ _ _ hu => keeps_ofType hu

lemma inferVar_keeps {x : String} : Keeps R r n (inferVar l x) fun m i => i.Within (R.permit m) := by
  have hget : Keeps R r n get fun m s => s.scopes.Within (R.permit m) :=
    fun _ hσ _ => ⟨.refl hσ, hσ.scopes⟩
  refine .bind hget fun m s _ hs => ?_
  split
  · exact keeps_instance (hs.local? ‹_›)
  · split
    · exact keeps_instance (hs.global? ‹_›)
    · exact keeps_ite (fun _ => keeps_report) fun _ => keeps_report

lemma inferVararg_keeps : Keeps R r n (inferVararg l) fun m i => i.Within (R.permit m) := by
  refine .bind keeps_scopes fun m s _ hs => ?_
  split
  · exact keeps_report
  · refine .bind (keeps_instantiate (hs.local? ‹_›)) fun k u _ hu => keeps_pure fun k' hk' => ?_
    have hu' := hu.later hk'
    exact ⟨Subst.within_single (R.rest k') hu', hu'⟩

/-! ## Tables -/

lemma fieldsWithin_cons {k v : Ty} {fields : List (Ty × Ty)} (hk : k.Within (R.permit n))
    (hv : v.Within (R.permit n)) (h : Ty.FieldsWithin (R.permit n) fields) :
    Ty.FieldsWithin (R.permit n) ((k, v) :: fields) := by
  intro f hf
  rcases List.mem_cons.1 hf with rfl | hf
  · exact ⟨R.key _ _, hk, hv⟩
  · exact h f hf

lemma enterField_keeps {k v : Ty} {fields : List (Ty × Ty)} (hk : k.Within (R.permit n))
    (hv : v.Within (R.permit n)) (h : Ty.FieldsWithin (R.permit n) fields) :
    Keeps R r n (enterField k v fields) fun m fs => Ty.FieldsWithin (R.permit m) fs := by
  induction fields generalizing n with
  | nil =>
    refine keeps_pure fun m hm => fieldsWithin_cons (hk.later hm) (hv.later hm) ?_
    exact List.forall_mem_nil _
  | cons f rest ih =>
    obtain ⟨l, w⟩ := f
    obtain ⟨_, hl, hw⟩ := h (l, w) (by simp)
    have hrest : Ty.FieldsWithin (R.permit n) rest := fun g hg => h g (by simp [hg])
    refine .bind (keeps_fits hk hl) fun m _ hm _ => keeps_ite (fun _ => ?_) fun _ => ?_
    · refine .bind (keeps_unify (hv.later hm) (hw.later hm)) fun m₁ u hm₁ hu => ?_
      split
      · refine .bind (keeps_join hu.left hu.right) fun m₂ t hm₂ ht => keeps_pure fun m₃ hm₃ => ?_
        exact fieldsWithin_cons (hl.later (by omega)) (ht.later hm₃)
          (hrest.later (by omega))
      · rename_i s hs
        refine .bind (keeps_apply (hu.subst s hs) hu.right.broaden)
          fun m₂ t hm₂ ht => keeps_pure fun m₃ hm₃ => ?_
        exact fieldsWithin_cons (hl.later (by omega)) (ht.later hm₃)
          (hrest.later (by omega))
    · refine .bind (ih (hk.later hm) (hv.later hm) (hrest.later hm))
        fun m₁ fs hm₁ hfs => keeps_pure fun m₂ hm₂ => ?_
      exact fieldsWithin_cons (hl.later (by omega)) (hw.later (by omega))
        (hfs.later hm₂)

lemma inferFields_keeps {types : List (Ty × Ty)} {fields : List (Node × Node)}
    (hinfer : ∀ f ∈ fields, Infers R r n infer f.1 ∧ Infers R r n infer f.2)
    (hs : s.Within (R.permit n)) (htypes : Ty.FieldsWithin (R.permit n) types) :
    Keeps R r n (inferFields infer s types fields) fun m i => i.Within (R.permit m) := by
  induction fields generalizing n s types with
  | nil =>
    exact keeps_pure fun m hm => ⟨hs.later hm, Ty.within_table_iff.2 (htypes.later hm)⟩
  | cons f rest ih =>
    obtain ⟨key, value⟩ := f
    obtain ⟨hkey, hvalue⟩ := hinfer (key, value) (by simp)
    have hrest : ∀ {m : Nat}, n ≤ m → ∀ f ∈ rest, Infers R r m infer f.1 ∧ Infers R r m infer f.2 :=
      fun hm f hf => ⟨(hinfer f (by simp [hf])).1.from hm, (hinfer f (by simp [hf])).2.from hm⟩
    by_cases hvararg : ∃ lv, value = .vararg lv
    · -- the variable arguments, which stand for fields with numbers as keys
      obtain ⟨lv, rfl⟩ := hvararg
      rw [inferFields.eq_def]
      simp only
      split
      · refine .bind hvalue fun m i hm hi => ?_
        split
        · rename_i fields hfields
          refine .bind (keeps_compose hi.subst (hs.later hm)) fun m₁ s' hm₁ hs' => ?_
          refine .bind keeps_member fun m₂ f hm₂ hf => ?_
          have hfin := hi.type
          rw [hfields, Ty.within_table_iff] at hfin
          refine ih (hrest (by omega)) (hs'.later hm₂) ?_
          refine (htypes.later (by omega)).append (fieldsWithin_cons (Ty.within_plain _) ?_
            (List.forall_mem_nil _))
          exact ((hfin f hf).2.2).later (by omega)
        · exact keeps_unmet
      · exact keeps_unmet
    · rw [inferFields.eq_4 _ _ _ _ _ _ fun lv h => hvararg ⟨lv, h⟩]
      refine .bind hkey fun m k hm hk => .bind (hvalue.from hm) fun m₁ v hm₁ hv => ?_
      refine .bind (keeps_compose (hk.subst.later hm₁) (hs.later (by omega)))
        fun m₂ s₂ hm₂ hs₂ => ?_
      refine .bind (keeps_compose (hv.subst.later hm₂) hs₂) fun m₃ s₃ hm₃ hs₃ => ?_
      refine .bind (enterField_keeps (hk.type.later (by omega))
        (hv.type.later (by omega)) (htypes.later (by omega))) fun m₄ fs hm₄ hfs => ?_
      exact ih (hrest (by omega)) (hs₃.later hm₄) hfs

lemma inferIndex_keeps {object key : Node} (ho : Infers R r n infer object)
    (hk : Infers R r n infer key) :
    Keeps R r n (inferIndex infer l object key) fun m i => i.Within (R.permit m) := by
  refine .bind ho fun m₁ o hm₁ ho => .bind (hk.from hm₁) fun m₂ k hm₂ hk => ?_
  refine .bind keeps_fresh fun m₃ t hm₃ ht => ?_
  have hwanted : (Ty.table [(k.type, t)]).Within (R.permit m₃) :=
    Ty.within_table_iff.2 (fieldsWithin_cons (hk.type.later hm₃) ht
      (List.forall_mem_nil _))
  refine .bind (keeps_unifyAt hwanted (ho.type.later (by omega))) fun m₄ p hm₄ hp => ?_
  refine .bind (keeps_compose (hk.subst.later (by omega)) (ho.subst.later (by omega)))
    fun m₅ s hm₅ hs => ?_
  refine .bind (keeps_compose (hp.1.later hm₅) hs) fun m₆ s' hm₆ hs' => ?_
  refine .bind (keeps_apply hs' (ht.later (by omega))) fun m₇ u hm₇ hu => ?_
  exact keeps_pure fun m₈ hm₈ => ⟨hs'.later (by omega), hu.later hm₈⟩

/-! ## Operators -/

lemma keeps_flatten (h : t.Within (R.permit n)) :
    Keeps R r n (ofExcept t.flatten) fun m u => u.Within (R.permit m) := by
  induction t with
  | con c args v checks ih =>
    have hsame : Keeps R r n (ofExcept (.ok (Ty.con c args v checks)))
        fun m u => u.Within (R.permit m) :=
      keeps_pure fun m hm => h.later hm
    cases args with
    | nil =>
      rw [Ty.flatten]
      split
      · exact keeps_fault (R.allows n _ trivial)
      · exact hsame
    | cons a args =>
      rw [Ty.flatten]
      split
      · exact ih a (by simp) ((Ty.within_con_iff.1 h).2.1 a (by simp))
      · exact hsame
  | var | table | union | all => exact keeps_pure fun m hm => h.later hm

lemma inferUnary_keeps {op : UnaryOp} {value : Node} (hvalue : Infers R r n infer value) :
    Keeps R r n (inferUnary infer l op value) fun m i => i.Within (R.permit m) := by
  refine .bind hvalue fun m v hm hv => .bind (keeps_flatten hv.type) fun m₁ t hm₁ ht => ?_
  -- every operator demands a type and has a result without parts
  have hdemand : ∀ wanted result : Ty, wanted.Within (R.permit m₁) →
      (∀ m, result.Within (R.permit m)) → Keeps R r m₁ (demand l v.subst t wanted result)
        fun m i => i.Within (R.permit m) := by
    intro wanted result hw hr
    refine .bind (keeps_unifyAt ht hw) fun m₂ p hm₂ hp => ?_
    refine .bind (keeps_compose hp.1 (hv.subst.later (by omega))) fun m₃ s hm₃ hs => ?_
    exact keeps_pure fun m₄ hm₄ => ⟨hs.later hm₄, hr m₄⟩
  have hplain : ∀ c m, (Ty.plain c).Within (R.permit m) := fun c m => Ty.within_plain c
  split
  · exact hdemand _ _ (hplain _ _) (hplain _)
  · exact hdemand _ _ (.union (Ty.within_table_iff.2 (List.forall_mem_nil _))
      (hplain _ _)) (hplain _)
  · exact hdemand _ _ (hplain _ _) (hplain _)
  · exact keeps_unmet

lemma inferUniform_keeps {c d : String} (ha : a.Within (R.permit n)) (hb : b.Within (R.permit n)) :
    Keeps R r n (inferUniform left right a b (.plain c) (.plain d))
      fun m i => i.Within (R.permit m) := by
  refine .bind (keeps_unifyAt ha.type (Ty.within_plain c)) fun m₁ p hm₁ hp => ?_
  refine .bind (keeps_unifyAt (hb.type.later hm₁) (Ty.within_plain c)) fun m₂ q hm₂ hq => ?_
  refine .bind (keeps_compose (ha.subst.later (by omega)) (hb.subst.later (by omega)))
    fun m₃ s hm₃ hs => ?_
  refine .bind (keeps_compose (hq.1.later hm₃) hs) fun m₄ s₁ hm₄ hs₁ => ?_
  refine .bind (keeps_compose (hp.1.later (by omega)) hs₁) fun m₅ s₂ hm₅ hs₂ => ?_
  exact keeps_pure fun m₆ hm₆ => ⟨hs₂.later hm₆, Ty.within_plain d⟩

lemma typeNamed?_keeps {name : String} :
    Keeps R r n (typeNamed? name) fun m o => ∀ t, o = some t → t.Within (R.permit m) := by
  have hsome : ∀ {t : Ty}, (∀ m, t.Within (R.permit m)) →
      Keeps R r n (pure (some t)) fun m o => ∀ t, o = some t → t.Within (R.permit m) :=
    fun h => keeps_pure fun m _ _ ht => Option.some.inj ht ▸ h m
  unfold typeNamed?
  split
  · exact hsome fun _ => Ty.within_plain _
  · exact hsome fun _ => Ty.within_plain _
  · exact hsome fun _ => Ty.within_plain _
  · exact hsome fun _ => Ty.within_plain _
  · exact hsome fun _ => Ty.within_table_iff.2 (List.forall_mem_nil _)
  · refine .bind keeps_fresh fun m₁ p hm₁ hp => .bind keeps_fresh fun m₂ r hm₂ hr => ?_
    refine .bind keeps_fresh fun m₃ v hm₃ hv => keeps_pure fun m₄ hm₄ t ht => ?_
    cases ht
    refine Ty.within_function_iff.2 ⟨by simp, hp.later (by omega), hr.later (by omega),
      hv.later hm₄⟩
  · exact keeps_pure fun _ _ _ h => nomatch h

lemma comparisonChecks_keeps {a b : Ty} (ha : a.Within (R.permit n)) (hb : b.Within (R.permit n))
    (h : ∀ p ∈ Node.comparedPlaces left right, (R.permit n).place p) :
    Keeps R r n (comparisonChecks left right a b) fun m checks =>
      Ty.ChecksWithin (R.permit m) checks := by
  -- a place that is compared with a permitted type
  have hcheck : ∀ {p : Node} {t : Ty} {m : Nat}, n ≤ m → (R.permit n).place p →
      t.Within (R.permit m) → Ty.ChecksWithin (R.permit m) [(p, t)] := by
    intro p t m hm hp ht _ k hk
    obtain rfl := List.mem_singleton.1 hk
    exact ⟨(R.le hm).place _ hp, ht⟩
  have hleft : ∀ m, n ≤ m → Ty.ChecksWithin (R.permit m)
      (if left.isPlace then [(left, b)] else []) := by
    intro m hm
    split
    · refine hcheck hm (h left ?_) (hb.later hm)
      unfold Node.comparedPlaces
      split <;> simp_all
    · exact Ty.checksWithin_nil
  have hright : ∀ m, n ≤ m → Ty.ChecksWithin (R.permit m)
      (if right.isPlace then [(right, a)] else []) := by
    intro m hm
    split
    · refine hcheck hm (h right ?_) (ha.later hm)
      unfold Node.comparedPlaces
      split <;> simp_all
    · exact Ty.checksWithin_nil
  have hall : ∀ {m m' : Nat} {test : List Checked}, n ≤ m → m ≤ m' →
      Ty.ChecksWithin (R.permit m) test → Ty.ChecksWithin (R.permit m')
        ((if left.isPlace then [(left, b)] else []) ++
          (if right.isPlace then [(right, a)] else []) ++ test) := by
    intro m m' test hm hm' htest
    refine ((hleft m' (by omega)).append (hright m' (by omega))).append fun hc k hk => ?_
    obtain ⟨hp, ht⟩ := htest ((R.le hm').checked hc) k hk
    exact ⟨(R.le hm').place _ hp, ht.later hm'⟩
  have hnone : Keeps R r n (pure ((if left.isPlace then [(left, b)] else []) ++
      (if right.isPlace then [(right, a)] else []) ++ [])) fun m checks =>
        Ty.ChecksWithin (R.permit m) checks :=
    keeps_pure fun m hm => hall hm (Nat.le_refl m) Ty.checksWithin_nil
  unfold comparisonChecks
  simp only
  split
  · rename_i arg _ name
    refine .bind keeps_scopes fun m s hm _ => keeps_ite (fun hplace => ?_) fun _ => ?_
    · refine .bind typeNamed?_keeps fun m₁ o hm₁ ho => ?_
      split
      · rename_i t
        refine keeps_pure fun m₂ hm₂ =>
          hall (by omega) hm₂ (hcheck (by omega) (h arg ?_) (ho t rfl))
        simp_all [Node.comparedPlaces]
      · exact hnone.from (by omega)
    · exact hnone.from hm
  · exact hnone

lemma inferComparison_keeps (ha : a.Within (R.permit n)) (hb : b.Within (R.permit n))
    (h : ∀ p ∈ Node.comparedPlaces left right, (R.permit n).place p) :
    Keeps R r n (inferComparison left right a b) fun m i => i.Within (R.permit m) := by
  refine .bind (keeps_unifyOrNot ha.type hb.type) fun m₁ p hm₁ hp => ?_
  refine .bind (keeps_unify hp.2.1 hp.2.2) fun m₂ again hm₂ hagain => ?_
  -- after the second unification, whatever it found
  have hrest : ∀ (m : Nat) (s : Subst), m₂ ≤ m → s.Within (R.permit m) →
      Keeps R r m (comparisonOf left right a b again.left again.right s)
        fun m i => i.Within (R.permit m) := by
    intro m s hm hs
    refine .bind (comparisonChecks_keeps (hagain.left.later hm) (hagain.right.later hm)
      fun p hp => (R.le (by omega)).place p (h p hp)) fun m₃ checks hm₃ hchecks => ?_
    refine .bind (keeps_compose (hb.subst.later (by omega)) (hs.later hm₃))
      fun m₄ s₁ hm₄ hs₁ => ?_
    refine .bind (keeps_compose (ha.subst.later (by omega)) hs₁) fun m₅ s₂ hm₅ hs₂ => ?_
    refine keeps_pure fun m₆ hm₆ =>
      ⟨hs₂.later hm₆, Ty.Within.mono (R.le (m := m₃) (by omega)) ?_⟩
    exact Ty.within_con_iff.2 ⟨by simp, by simp, hchecks⟩
  split
  · rename_i t ht
    exact .bind (keeps_compose (hagain.subst t ht) (hp.1.later hm₂))
      fun m₃ s hm₃ hs => hrest m₃ s hm₃ hs
  · exact hrest m₂ p.1 (Nat.le_refl m₂) (hp.1.later hm₂)

lemma checksOf_keeps (h : t.Within (R.permit n)) :
    Keeps R r n (checksOf t) fun m checks => Ty.ChecksWithin (R.permit m) checks := by
  unfold checksOf
  split
  · refine keeps_pure fun m hm => ?_
    exact (Ty.within_con_iff.1 (h.later hm)).2.2
  · exact keeps_unmet

lemma checksWithin_mono (hm : n ≤ m) {checks : List Checked}
    (h : Ty.ChecksWithin (R.permit n) checks) : Ty.ChecksWithin (R.permit m) checks := by
  intro hc k hk
  have hbefore := h ((R.le hm).checked hc) k hk
  exact ⟨(R.le hm).place _ hbefore.1, hbefore.2.later hm⟩

lemma inferConnective_keeps (ha : a.Within (R.permit n)) (hb : b.Within (R.permit n)) :
    Keeps R r n (inferConnective left right a b) fun m i => i.Within (R.permit m) := by
  refine .bind (keeps_unifyAt ha.type (Ty.within_plain _)) fun m₁ p hm₁ hp => ?_
  refine .bind (keeps_unifyAt (hb.type.later hm₁) (Ty.within_plain _)) fun m₂ q hm₂ hq => ?_
  refine .bind (keeps_apply (hp.1.later hm₂) (hp.2.1.later hm₂))
    fun m₃ first hm₃ hfirst => ?_
  refine .bind (keeps_apply (hq.1.later hm₃) (hq.2.1.later hm₃))
    fun m₄ second hm₄ hsecond => ?_
  refine .bind (checksOf_keeps (hfirst.later hm₄)) fun m₅ checks hm₅ hchecks => ?_
  refine .bind (checksOf_keeps (hsecond.later hm₅)) fun m₆ more hm₆ hmore => ?_
  refine .bind (keeps_compose (ha.subst.later (by omega)) (hb.subst.later (by omega)))
    fun m₇ s₁ hm₇ hs₁ => ?_
  refine .bind (keeps_compose (hq.1.later (by omega)) hs₁) fun m₈ s₂ hm₈ hs₂ => ?_
  refine .bind (keeps_compose (hp.1.later (by omega)) hs₂) fun m₉ s₃ hm₉ hs₃ => ?_
  refine keeps_pure fun m hm => ⟨hs₃.later hm, Ty.within_con_iff.2 ⟨by simp, by simp, ?_⟩⟩
  exact (checksWithin_mono (by omega) hchecks).append (checksWithin_mono (by omega) hmore)

lemma inferBinary_keeps {op : BinaryOp} (hl : Infers R r n infer left) (hr : Infers R r n infer right)
    (h : op.family? = some .comparison →
      ∀ p ∈ Node.comparedPlaces left right, (R.permit n).place p) :
    Keeps R r n (inferBinary infer left op right) fun m i => i.Within (R.permit m) := by
  refine .bind hl fun m₁ a hm₁ ha => .bind (keeps_flatten ha.type) fun m₂ t hm₂ ht => ?_
  refine .bind (hr.from (by omega)) fun m₃ b hm₃ hb => ?_
  refine .bind (keeps_flatten hb.type) fun m₄ u hm₄ hu => ?_
  have ha' : Inferred.Within (R.permit m₄) ⟨a.subst, t⟩ :=
    ⟨ha.subst.later (by omega), ht.later (by omega)⟩
  have hb' : Inferred.Within (R.permit m₄) ⟨b.subst, u⟩ := ⟨hb.subst.later hm₄, hu⟩
  simp only
  split
  · exact inferUniform_keeps ha' hb'
  · exact inferUniform_keeps ha' hb'
  · exact inferUniform_keeps ha' hb'
  · rename_i hop
    exact inferComparison_keeps ha' hb' fun p hp => (R.le (by omega)).place p (h hop p hp)
  · exact inferConnective_keeps ha' hb'
  · exact keeps_unmet

/-! ## Functions -/

lemma bindParams_keeps {xs : List String} (h : ∀ x ∈ xs, r.bound x) :
    Keeps R r n (bindParams xs) fun m ts => ∀ t ∈ ts, t.Within (R.permit m) := by
  induction xs generalizing n with
  | nil => exact keeps_pure fun _ _ _ ht => absurd ht List.not_mem_nil
  | cons x xs ih =>
    refine .bind keeps_fresh fun m₁ t hm₁ ht => ?_
    refine .bind (keeps_bind (h x (by simp)) (.mono ht)) fun m₂ _ hm₂ _ => ?_
    refine .bind (ih fun y hy => h y (by simp [hy])) fun m₃ ts hm₃ hts => ?_
    refine keeps_pure fun m₄ hm₄ u hu => ?_
    rcases List.mem_cons.1 hu with rfl | hu
    · exact ht.later (by omega)
    · exact (hts u hu).later hm₄

lemma bindVararg_keeps {isVararg : Bool} (h : isVararg → r.bound "...") :
    Keeps R r n (bindVararg isVararg) fun m t => t.Within (R.permit m) := by
  refine keeps_ite (fun hvararg => ?_) fun _ => keeps_pure fun _ _ => Ty.within_plain _
  refine .bind keeps_fresh fun m₁ t hm₁ ht => ?_
  refine .bind (keeps_bind (h hvararg) (.mono (Ty.within_table_iff.2 ?_))) fun m₂ _ hm₂ _ => ?_
  · exact fieldsWithin_cons (Ty.within_plain _) ht (List.forall_mem_nil _)
  · exact keeps_pure fun m₃ hm₃ => ht.later (by omega)

lemma annotated_keeps {note : Node}
    (h : ∀ l t, note = .resultNote l (some t) → t.Within (R.permit n)) :
    Keeps R r n (annotated note) fun m o => ∀ t, o = some t → t.Within (R.permit m) := by
  unfold annotated
  split
  · exact keeps_pure fun m hm t ht => (h _ t (by rw [ht])).later hm
  · exact keeps_fault (R.allows n _ trivial)

lemma inferFunction_keeps {params : List String} {isVararg : Bool} {body : Node}
    {name : Option String} {note : Node} (hbody : Infers R r.inside n infer body)
    (hnote : ∀ l t, note = .resultNote l (some t) → t.Within (R.permit n)) :
    Keeps R r n (inferFunction infer l params isVararg body name note)
      fun m i => i.Within (R.permit m) := by
  refine keeps_inScope (.bind (bindParams_keeps fun _ _ => trivial) fun m₁ ts hm₁ hts => ?_)
  refine .bind (bindVararg_keeps fun _ => trivial) fun m₂ rest hm₂ hrest => ?_
  refine .bind (annotated_keeps fun l t h => (hnote l t h).later (by omega))
    fun m₃ wanted hm₃ hwanted => ?_
  have hparams : ∀ {m : Nat}, m₁ ≤ m → (Ty.tuple ts).Within (R.permit m) := fun hm =>
    Ty.within_tuple_iff.2 fun t ht => (hts t ht).later hm
  -- the body, whether or not the function may call itself in it
  have hrun : ∀ m, m₃ ≤ m → Keeps R r.inside m
      (infer body >>= functionOf l isVararg ts rest wanted) fun m i => i.Within (R.permit m) := by
    intro m hm
    refine .bind (hbody.from (by omega)) fun m₄ b hm₄ hb => ?_
    refine .bind (keeps_apply hb.subst (hparams (by omega))) fun m₅ types hm₅ htypes => ?_
    have hdone : ∀ {m₆ m₇ : Nat} {result : Ty}, m₅ ≤ m₆ → m₆ ≤ m₇ → result.Within (R.permit m₆) →
        Inferred.Within (R.permit m₇)
          ⟨b.subst, .function types result rest (some (.flag isVararg))⟩ := by
      intro m₆ m₇ result hm₆ hm₇ hresult
      refine ⟨hb.subst.later (by omega), Ty.within_function_iff.2 ⟨?_, ?_, ?_, ?_⟩⟩
      · intro l hl
        exact Option.some.inj hl ▸ R.flag _ _
      · exact htypes.later (by omega)
      · exact hresult.later hm₇
      · exact hrest.later (by omega)
    split
    · exact keeps_pure fun m₆ hm₆ => hdone (Nat.le_refl m₅) hm₆ (hb.type.later hm₅)
    · rename_i t
      refine .bind
        (keeps_unifyAt (hb.type.later hm₅) ((hwanted t rfl).later (by omega)))
        fun m₆ p hm₆ hp => ?_
      refine .bind (keeps_apply hp.1 hp.2.2) fun m₇ result hm₇ hresult => ?_
      exact keeps_pure fun m₈ hm₈ => hdone (by omega) hm₈ hresult
  cases wanted with
  | none => exact hrun m₃ (Nat.le_refl m₃)
  | some result =>
    cases name with
    | none => exact hrun m₃ (Nat.le_refl m₃)
    | some x =>
      have hself : (Ty.function (.tuple ts) result .nil none).Within (R.permit m₃) :=
        Ty.within_function_iff.2 ⟨fun _ h => (nomatch h), hparams (by omega), hwanted result rfl,
          Ty.within_plain _⟩
      exact .bind (keeps_bind trivial (.mono hself)) fun m _ hm _ => hrun m hm

/-! ## Calls -/

variable {P : Permit}

lemma argsOf_within (h : t.Within P) : ∀ a ∈ argsOf t, a.Within P := by
  unfold argsOf
  split
  · exact (Ty.within_con_iff.1 h).2.1
  · exact List.forall_mem_nil _

lemma within_later (hm : n ≤ m) (h : ∀ t ∈ ts, t.Within (R.permit n)) :
    ∀ t ∈ ts, t.Within (R.permit m) :=
  fun t ht => (h t ht).later hm

lemma within_append {us : List Ty} (h : ∀ t ∈ ts, t.Within P) (h' : ∀ t ∈ us, t.Within P) :
    ∀ t ∈ ts ++ us, t.Within P := by
  intro t ht
  rcases List.mem_append.1 ht with ht | ht
  · exact h t ht
  · exact h' t ht

lemma tupleArgs_within (h : t.Within P) {args : List Ty} (hargs : t.tupleArgs? = some args) :
    ∀ a ∈ args, a.Within P := by
  obtain ⟨v, checks, rfl⟩ := Ty.eq_of_tupleArgs? hargs
  exact (Ty.within_con_iff.1 h).2.1

lemma components_within (h : t.Within P) : ∀ u ∈ t.components, u.Within P := by
  unfold Ty.components
  cases hargs : t.tupleArgs? with
  | none => exact List.forall_mem_singleton.2 h
  | some args => exact tupleArgs_within h hargs

lemma inferEach_keeps {spread : Node → Ty → Check (List Ty)} {exprs : List Node}
    (hspread : ∀ e t m, t.Within (R.permit m) →
      Keeps R r m (spread e t) fun k ts => ∀ u ∈ ts, u.Within (R.permit k))
    (hinfer : ∀ e ∈ exprs, Infers R r n infer e) (hs : s.Within (R.permit n))
    (htypes : ∀ t ∈ types, t.Within (R.permit n)) :
    Keeps R r n (inferEach infer spread s types exprs) fun m p =>
      p.1.Within (R.permit m) ∧ ∀ t ∈ p.2, t.Within (R.permit m) := by
  induction exprs generalizing n s types with
  | nil => exact keeps_pure fun m hm => ⟨hs.later hm, within_later hm htypes⟩
  | cons expr rest ih =>
    refine .bind (hinfer expr (by simp)) fun m₁ e hm₁ he => ?_
    refine .bind (hspread expr e.type m₁ he.type) fun m₂ more hm₂ hmore => ?_
    refine .bind (keeps_compose (he.subst.later hm₂) (hs.later (by omega)))
      fun m₃ s' hm₃ hs' => ?_
    exact ih (fun b hb => (hinfer b (by simp [hb])).from (by omega)) hs'
      (within_append (within_later (by omega) htypes) (within_later hm₃ hmore))

lemma inferArgs_keeps {args : List Node} (hinfer : ∀ a ∈ args, Infers R r n infer a)
    (hs : s.Within (R.permit n)) (htypes : ∀ t ∈ types, t.Within (R.permit n)) :
    Keeps R r n (inferArgs infer s types args) fun m p =>
      p.1.Within (R.permit m) ∧ ∀ t ∈ p.2, t.Within (R.permit m) := by
  refine inferEach_keeps (fun _ t m ht => keeps_pure fun k hk => ?_) hinfer hs htypes
  exact List.forall_mem_map.2 fun u hu => ((components_within ht u hu).later hk).broaden

lemma inferRest_keeps {found : Option Ty} (hfound : ∀ t, found = some t → t.Within (R.permit n))
    (h : ∀ t ∈ ts, t.Within (R.permit n)) :
    Keeps R r n (inferRest l found ts) fun m o => ∀ t, o = some t → t.Within (R.permit m) := by
  induction ts generalizing n found with
  | nil => exact keeps_pure fun m hm t ht => (hfound t ht).later hm
  | cons t ts ih =>
    have hother : (found.getD t.broaden).Within (R.permit n) := by
      cases found with
      | none => exact (h t (by simp)).broaden
      | some u => exact hfound u rfl
    refine .bind (keeps_unifyAt (h t (by simp)) hother) fun m₁ p hm₁ hp => ?_
    refine .bind (keeps_apply hp.1 hp.2.2) fun m₂ u hm₂ hu => ih ?_ ?_
    · exact fun w hw => Option.some.inj hw ▸ hu.broaden
    · exact fun w hw => (h w (by simp [hw])).later (by omega)

variable {result : Ty}

lemma wanted_within (h : ∀ t ∈ types, t.Within P) (hr : result.Within P) :
    (wanted types result).Within P :=
  Ty.within_function_iff.2 ⟨fun _ h => (nomatch h), Ty.within_tuple_iff.2 h, hr, Ty.within_plain _⟩

lemma callUnknown_keeps {x : String} {f args : Subst} (hx : (R.permit n).var x)
    (hf : f.Within (R.permit n)) (hargs : args.Within (R.permit n))
    (htypes : ∀ t ∈ types, t.Within (R.permit n)) (hresult : result.Within (R.permit n)) :
    Keeps R r n (callUnknown l x f args types result) fun m i => i.Within (R.permit m) := by
  have hbroad : ∀ t ∈ types.map Ty.broaden, t.Within (R.permit n) := by
    intro t ht
    obtain ⟨u, hu, rfl⟩ := List.mem_map.1 ht
    exact (htypes u hu).broaden
  refine .bind (keeps_unifyAt (wanted_within hbroad hresult) (.var hx)) fun m₁ p hm₁ hp => ?_
  refine .bind (keeps_compose (hf.later hm₁) (hargs.later hm₁)) fun m₂ s hm₂ hs => ?_
  refine .bind (keeps_compose (hp.1.later hm₂) hs) fun m₃ all hm₃ hall => ?_
  refine .bind (keeps_compose (hp.1.later (by omega)) (hf.later (by omega)))
    fun m₄ own hm₄ hown => ?_
  refine .bind (keeps_apply hown (hresult.later (by omega))) fun m₅ u hm₅ hu => ?_
  exact keeps_pure fun m₆ hm₆ => ⟨hall.later (by omega), hu.later hm₆⟩

lemma splitArgs_keeps {fargs : List Ty} {value : Option Literal}
    (htypes : ∀ t ∈ types, t.Within (R.permit n)) :
    Keeps R r n (splitArgs l fargs value types) fun m p =>
      (∀ t ∈ p.1, t.Within (R.permit m)) ∧ ∀ t, p.2 = some t → t.Within (R.permit m) := by
  refine keeps_ite (fun _ => .bind keeps_member fun m₁ params hm₁ _ => ?_) fun _ => ?_
  · split
    · refine .bind (inferRest_keeps (fun _ h => nomatch h)
        fun t ht => (htypes t (List.mem_of_mem_drop ht)).later hm₁)
        fun m₂ rest hm₂ hrest => ?_
      refine keeps_pure fun m₃ hm₃ => ⟨fun t ht => ?_, fun t ht => (hrest t ht).later hm₃⟩
      exact (htypes t (List.mem_of_mem_take ht)).later (by omega)
    · exact keeps_unmet
  · exact keeps_pure fun m hm => ⟨within_later hm htypes, fun _ h => nomatch h⟩

lemma bindRest_keeps {rest : Option Ty} {fargs : List Ty}
    (hrest : ∀ t, rest = some t → t.Within (R.permit n))
    (hfargs : ∀ a ∈ fargs, a.Within (R.permit n)) (hs : s.Within (R.permit n)) :
    Keeps R r n (bindRest rest fargs s) fun m u => u.Within (R.permit m) := by
  cases rest with
  | none => exact keeps_pure fun m hm => hs.later hm
  | some t =>
    refine .bind keeps_member fun m r hm hr => keeps_ite (fun _ => ?_) fun _ => ?_
    · exact keeps_pure fun m₁ hm₁ => hs.later (by omega)
    · split
      · have hy := (R.le hm).var _ (Ty.within_var_iff.1 (hfargs _ hr))
        exact keeps_compose (Subst.within_single hy ((hrest t rfl).later hm))
          (hs.later hm)
      · exact keeps_unmet

lemma callKnown_keeps {callee : Ty} {value : Option Literal} {f args : Subst}
    (hcallee : callee.Within (R.permit n)) (hf : f.Within (R.permit n))
    (hargs : args.Within (R.permit n)) (htypes : ∀ t ∈ types, t.Within (R.permit n))
    (hresult : result.Within (R.permit n)) :
    Keeps R r n (callKnown l callee value f args types result) fun m i => i.Within (R.permit m) := by
  refine .bind (splitArgs_keeps htypes) fun m₁ ⟨types', rest⟩ hm₁ ⟨htypes', hrest⟩ => ?_
  refine .bind (keeps_unifyAt (wanted_within htypes' (hresult.later hm₁))
    (hcallee.later hm₁)) fun m₂ ⟨s, u⟩ hm₂ ⟨hs, hleft, hright⟩ => ?_
  -- the parameters that the call wanted, as they are afterwards
  have hparams : ∀ t ∈ argsOf ((argsOf u.left).headD (.tuple types')), t.Within (R.permit m₂) := by
    refine argsOf_within ?_
    cases hleft' : argsOf u.left with
    | nil => exact Ty.within_tuple_iff.2 (within_later hm₂ htypes')
    | cons p ps => exact argsOf_within hleft p (by simp [hleft'])
  have hfargs := argsOf_within hright
  refine .bind keeps_member fun m₃ params hm₃ hmem => ?_
  refine .bind (keeps_unifyAt ((hfargs params hmem).later hm₃)
    (Ty.within_tuple_iff.2 (within_later hm₃ hparams))) fun m₄ ⟨t, w⟩ hm₄ ⟨ht, hw, _⟩ => ?_
  refine .bind (bindRest_keeps (fun t h => (hrest t h).later (by omega)) (fun a ha => ?_) ht)
    fun m₅ t' hm₅ ht' => ?_
  · rcases List.mem_cons.1 ha with rfl | ha
    · exact hw
    · exact (hfargs a (List.mem_of_mem_drop ha)).later (by omega)
  · refine .bind (keeps_compose (hf.later (by omega)) (hargs.later (by omega)))
      fun m₆ s₁ hm₆ hs₁ => ?_
    refine .bind (keeps_compose (hs.later (by omega)) hs₁) fun m₇ s₂ hm₇ hs₂ => ?_
    refine .bind (keeps_compose (ht'.later (by omega)) hs₂) fun m₈ all hm₈ hall => ?_
    refine .bind (keeps_apply hall (hresult.later (by omega))) fun m₉ v hm₉ hv => ?_
    exact keeps_pure fun m hm => ⟨hall.later (by omega), hv.later hm⟩

lemma inferCall_keeps {callee : Node} {args : List Node} (hcallee : Infers R r n infer callee)
    (hargs : ∀ a ∈ args, Infers R r n infer a) :
    Keeps R r n (inferCall infer l callee args) fun m i => i.Within (R.permit m) := by
  refine .bind (inferArgs_keeps hargs Subst.within_empty (List.forall_mem_nil _))
    fun m₁ ⟨s, types⟩ hm₁ ⟨hs, htypes⟩ => ?_
  refine .bind keeps_fresh fun m₂ result hm₂ hresult => ?_
  refine .bind (hcallee.from (by omega)) fun m₃ f hm₃ hf => ?_
  refine .bind (keeps_flatten hf.type) fun m₄ t hm₄ ht => ?_
  have hs' := hs.mono (R.le (m := m₁) (n := m₄) (by omega))
  have htypes' := within_later (m := m₄) (by omega) htypes
  have hresult' := hresult.mono (R.le (m := m₂) (n := m₄) (by omega))
  split
  · exact callUnknown_keeps (Ty.within_var_iff.1 ht) (hf.subst.later hm₄) hs' htypes' hresult'
  · exact callKnown_keeps ht (hf.subst.later hm₄) hs' htypes' hresult'
  · exact keeps_unmet

end Check

end LuaTyping
