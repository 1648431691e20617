import LuaTyping.Proofs.ExpressionRules

set_option autoImplicit false

/-!
# Inference keeps regimes

The rules for statements and chunks keep regimes, like those for expressions. A conditional
statement also infers the places that its condition has compared. By induction on the depth,
inference keeps every regime that permits what stands in the tree and in the places that may be
compared.

## Main results

* `Check.inferStep_keeps` — a rule keeps a regime if the inference of the parts does, and
  for a conditional statement that of the places.
* `Check.inferTo_keeps` — inference keeps a regime.
-/

namespace LuaTyping

namespace Node

/-- The plain names that a tree itself assigns to. -/
def targetNames : Node → List String
  | assign _ targets _ => targets.filterMap fun
    | var _ x => some x
    | _ => none
  | _ => []

/-- The names that a tree itself declares. -/
def declared : Node → List String
  | declare _ names _ _ => names.filterMap fun
    | .bare x => some x
    | .variable _ _ => none
  | _ => []

lemma mem_targetNames {l lx : Location} {targets exprs : List Node} {x : String}
    (h : var lx x ∈ targets) : x ∈ (assign l targets exprs).targetNames :=
  List.mem_filterMap.2 ⟨var lx x, h, rfl⟩

/-- The names that a tree itself binds where it stands: those that it declares or assigns to. -/
def binds (n : Node) : List String := n.declared ++ n.targetNames

/-- The parts of a tree that are inferred where the tree stands, not in a scope of their own. -/
def operands : Node → List Node
  | function .. | branch .. | chunk .. => []
  | n => n.parts

/-- What a tree itself assigns to is in reach. -/
def Obeys (r : Reach) : Node → Prop
  | assign _ targets _ =>
    (∀ l x, var l x ∈ targets → r.assigned x) ∧ ∀ l o k, index l o k ∈ targets → r.paths
  | _ => True

/-- A tree binds only certain names where it stands, and so do its operands. -/
inductive BindsIn (B : String → Prop) : Node → Prop
  | intro {n : Node} : (∀ x ∈ n.binds, B x) → (∀ m ∈ n.operands, BindsIn B m) → BindsIn B n

variable {B : String → Prop} {n : Node}

lemma BindsIn.mono {B' : String → Prop} (hB : ∀ x, B x → B' x) (h : n.BindsIn B) :
    n.BindsIn B' := by
  induction h with
  | intro hown _ ih => exact .intro (fun x hx => hB x (hown x hx)) ih

lemma operands_subset_parts (n : Node) : n.operands ⊆ n.parts := by
  cases n with
  | function | branch | chunk => exact List.nil_subset _
  | _ => exact List.Subset.refl _

/-- A tree that binds nothing itself, and whose operands are of the same kind, binds nothing. -/
lemma bindsIn_of {q : Node → Prop} (hq : ∀ n, q n → ∀ x ∈ n.binds, B x)
    (hoperands : ∀ n, q n → ∀ m ∈ n.operands, q m) (h : q n) : n.BindsIn B := by
  induction hsize : n.size using Nat.strong_induction_on generalizing n with
  | _ size ih =>
    subst hsize
    refine .intro (hq n h) fun m hm => ?_
    exact ih m.size (size_lt_of_mem_parts m (n.operands_subset_parts hm)) (hoperands n h m hm) rfl

lemma obeys_any (n : Node) : n.Obeys .any := by
  cases n <;> simp [Obeys]

lemma bindsIn_all (n : Node) : n.BindsIn fun _ => True :=
  bindsIn_of (q := fun _ => True) (fun _ _ _ _ => trivial) (fun _ _ _ _ => trivial) trivial

end Node

namespace Check

variable {R : Regime} {r : Reach} {n : Nat} {infer : Inference} {l : Location}

/-! ## Paths -/

lemma pathOf_keeps {path : Node} (h : ∀ k ∈ path.pathKeys, Infers R r n infer k) :
    Keeps R r n (pathOf infer path) fun m p => ∀ k ∈ p.2, k.Within (R.permit m) := by
  induction path using pathOf.induct generalizing n with
  | case1 l x =>
    rw [pathOf]
    refine .bind keeps_scopes fun m s _ _ => ?_
    split
    · exact keeps_fault (R.unbound x)
    · exact keeps_unmet
    · exact keeps_pure fun _ _ _ hk => absurd hk List.not_mem_nil
  | case2 l object key ih =>
    simp only [Node.pathKeys, List.mem_append, List.mem_singleton] at h
    rw [pathOf]
    refine .bind (ih fun k hk => h k (.inl hk)) ?_
    rintro m₁ ⟨x, keys⟩ hm₁ hkeys
    refine .bind ((h key (.inr rfl)).from hm₁) fun m₂ k hm₂ hk => keeps_pure fun m₃ hm₃ => ?_
    refine within_append (within_later (by omega) hkeys) fun t ht => ?_
    obtain rfl := List.mem_singleton.1 ht
    exact hk.type.later hm₃
  | case3 path hvar hindex =>
    rw [pathOf]
    · exact keeps_unmet
    · exact hvar
    · exact hindex

/-- What is known of fields of which some have been replaced: the fields, and the value. -/
abbrev ReplacedWithin (P : Permit) (p : List (Ty × Ty) × Bool × Ty) : Prop :=
  Ty.FieldsWithin P p.1 ∧ p.2.2.Within P

variable {value : Ty}

lemma replaceFields_keeps {key : Ty} {fields : List (Ty × Ty)}
    (hkey : key.Within (R.permit n)) (hvalue : value.Within (R.permit n))
    (h : Ty.FieldsWithin (R.permit n) fields) :
    Keeps R r n (replaceFields l key value fields) fun m p => ReplacedWithin (R.permit m) p := by
  induction fields generalizing n value with
  | nil =>
    exact keeps_pure fun m hm => ⟨List.forall_mem_nil _, hvalue.later hm⟩
  | cons f rest ih =>
    obtain ⟨k, v⟩ := f
    obtain ⟨_, hk, hv⟩ := h (k, v) (by simp)
    have hrest : Ty.FieldsWithin (R.permit n) rest := fun g hg => h g (by simp [hg])
    refine .bind (keeps_fits hkey hk) fun m₁ _ hm₁ _ => keeps_ite (fun _ => ?_) fun _ => ?_
    · refine .bind (keeps_unifyAt (hvalue.later hm₁) (hv.broaden.later hm₁))
        fun m₂ ⟨s, u⟩ hm₂ ⟨hs, hleft, _⟩ => ?_
      refine .bind (keeps_apply hs hleft.broaden) fun m₃ w hm₃ hw => ?_
      refine .bind (ih (hkey.later (by omega)) (hleft.later hm₃)
        (hrest.later (by omega))) fun m₄ ⟨fs, _, value'⟩ hm₄ ⟨hfs, hvalue'⟩ => ?_
      refine keeps_pure fun m₅ hm₅ => ⟨?_, hvalue'.later hm₅⟩
      exact fieldsWithin_cons (hk.later (by omega)) (hw.later (by omega))
        (hfs.later hm₅)
    · refine .bind (ih (hkey.later hm₁) (hvalue.later hm₁) (hrest.later hm₁))
        fun m₂ ⟨fs, _, value'⟩ hm₂ ⟨hfs, hvalue'⟩ => ?_
      refine keeps_pure fun m₃ hm₃ => ⟨?_, hvalue'.later hm₃⟩
      exact fieldsWithin_cons (hk.later (by omega)) (hv.later (by omega))
        (hfs.later hm₃)

lemma assignField_keeps {key : Ty} {fields : List (Ty × Ty)}
    (hkey : key.Within (R.permit n)) (hvalue : value.Within (R.permit n))
    (h : Ty.FieldsWithin (R.permit n) fields) :
    Keeps R r n (assignField l key value fields) fun m fs => Ty.FieldsWithin (R.permit m) fs := by
  refine .bind (replaceFields_keeps hkey hvalue h) fun m₁ ⟨fs, found, _⟩ hm₁ ⟨hfs, _⟩ => ?_
  refine keeps_ite (fun _ => keeps_pure fun m₂ hm₂ => hfs.later hm₂)
    fun _ => keeps_pure fun m₂ hm₂ => ?_
  refine (h.later (by omega)).append (fieldsWithin_cons (hkey.later (by omega))
    (hvalue.later (by omega)) (List.forall_mem_nil _))

variable {t : Ty} {types : List Ty} {exprs : List Node} {p : Progress}

/-- A change at the end of a path keeps what the change of the fields there keeps. -/
lemma changeAt_keeps {change : List (Ty × Ty) → Check (List (Ty × Ty))} {keys : List Ty}
    (hchange : ∀ m fs, n ≤ m → Ty.FieldsWithin (R.permit m) fs →
      Keeps R r m (change fs) fun k gs => Ty.FieldsWithin (R.permit k) gs)
    (hkeys : ∀ k ∈ keys, k.Within (R.permit n)) (ht : t.Within (R.permit n)) :
    Keeps R r n (changeAt change keys t) fun m u => u.Within (R.permit m) := by
  induction keys generalizing n t with
  | nil =>
    cases t with
    | table fields =>
      rw [changeAt]
      refine .bind (hchange n fields (Nat.le_refl n) (Ty.within_table_iff.1 ht))
        fun m fs hm hfs => ?_
      exact keeps_pure fun m' hm' => (Ty.within_table_iff.2 hfs).later hm'
    | var | con | union | all => exact keeps_pure fun m hm => ht.later hm
  | cons key keys ih =>
    have hkeys' : ∀ {m : Nat}, n ≤ m → ∀ k ∈ keys, k.Within (R.permit m) :=
      fun hm => within_later hm fun k hk => hkeys k (by simp [hk])
    cases t with
    | table fields =>
      have hfields := Ty.within_table_iff.1 ht
      rw [changeAt]
      refine .bind (keeps_naming (splitField_sat Ty.keysTested_fits (R.key n key)
        (hkeys key (by simp)) hfields) (R.allows n)) fun m₁ found hm₁ hfound => ?_
      split
      · rename_i before k v after
        have heq : fields = before ++ (k, v) :: after := hfound before (k, v) after rfl
        rw [heq] at hfields
        obtain ⟨_, hk, hv⟩ := hfields (k, v) (by simp)
        refine .bind (ih (fun m fs hm => hchange m fs (by omega)) (hkeys' hm₁)
          (hv.later hm₁)) fun m₂ w hm₂ hw => keeps_pure fun m₃ hm₃ => ?_
        refine Ty.within_table_iff.2 (Ty.FieldsWithin.append ?_ (fieldsWithin_cons
          (hk.later (by omega)) (hw.later hm₃) ?_))
        · exact fun f hf => (hfields.later (by omega)) f (by simp [hf])
        · exact fun f hf => (hfields.later (by omega)) f (by simp [hf])
      · exact ih (fun m fs hm => hchange m fs (by omega)) (hkeys' hm₁) (ht.later hm₁)
    | var | con | union | all => exact keeps_unmet

/-- What stands below a quantifier at the end of a path is left as it is. -/
lemma changeAt_keeps_scheme {change : List (Ty × Ty) → Check (List (Ty × Ty))} {keys : List Ty}
    (hchange : ∀ m fs, n ≤ m → Ty.FieldsWithin (R.permit m) fs →
      Keeps R r m (change fs) fun k gs => Ty.FieldsWithin (R.permit k) gs)
    (hkeys : ∀ k ∈ keys, k.Within (R.permit n)) (ht : t.Scheme (R.permit n)) :
    Keeps R r n (changeAt change keys t) fun m u => u.Scheme (R.permit m) := by
  cases ht with
  | mono ht => exact (changeAt_keeps hchange hkeys ht).imp fun _ _ _ hu => .mono hu
  | all hx hbody =>
    cases keys with
    | nil => exact keeps_pure fun m hm => .all ((R.le hm).var _ hx) (hbody.le (R.le hm))
    | cons key keys => exact keeps_unmet

lemma changeAt_eq (change : List (Ty × Ty) → Check (List (Ty × Ty))) (keys : List Ty)
    (h : ∀ fields, t ≠ .table fields) :
    changeAt change keys t = pure t ∨ changeAt change keys t = fault .unmet := by
  cases t with
  | table fields => exact absurd rfl (h fields)
  | _ => cases keys <;> simp [changeAt]

variable {x : String}

/-- The update of a local name by a changed type is in the reach of assignments to paths. -/
lemma keepsAt_update {σ : Session} {y : Check Ty} {g : Ty → Ty} (hp : r.paths)
    (hlocal : σ.scopes.local? x = some t) (hscopes : Scopeless y)
    (hy : KeepsAt R r σ y fun m u => (g u).Scheme (R.permit m))
    (hchanged : ∀ u σ', outcome y σ = (.ok u, σ') →
      (t.holdsFields = false → g u = t) ∧ t.Edited (g u)) :
    KeepsAt R r σ (do
      let u ← y
      modify fun τ => { τ with scopes := τ.scopes.update x (g u) }) fun _ _ => True := by
  refine hy.bind fun u σ' hout hleads hu => ?_
  have hsame := (hscopes.scopes_eq σ).1
  rw [hout] at hsame
  obtain ⟨hfields, hedited⟩ := hchanged u σ' hout
  obtain ⟨hstart, hshared, hbound⟩ := hleads.within
  exact ⟨⟨⟨hstart, hshared, hbound.update x hu⟩, le_rfl,
    .update hp (by rw [hsame, hlocal]) hfields hedited⟩, trivial⟩

lemma assignPath_keeps {target : Node}
    (h : ∀ k ∈ target.pathKeys, Infers R r n infer k)
    (hp : ∀ l o k, target = .index l o k → r.paths) (hvalue : value.Within (R.permit n)) :
    Keeps R r n (assignPath infer target value) fun _ _ => True := by
  unfold assignPath
  split
  · rename_i l object key
    have hpaths := hp l object key rfl
    refine .bind (pathOf_keeps h) ?_
    rintro m₁ ⟨x, keys⟩ hm₁ hkeys σ hσ hn
    refine .scopes ?_
    dsimp only
    split
    · rename_i t key ht hkey
      have hscopes : ∀ u, Scopeless (changeAt (assignField l key value) keys.dropLast u) :=
        fun _ => scopeless_changeAt fun _ => scopeless_assignField
      have hchange : ∀ u, u.Scheme (R.permit σ.supply.count) → Keeps R r σ.supply.count
          (changeAt (assignField l key value) keys.dropLast u) fun k w => w.Scheme (R.permit k) := by
        intro u hu
        refine changeAt_keeps_scheme (fun m fs hm hfs => assignField_keeps ?_ ?_ hfs) ?_ hu
        · exact (hkeys key (List.mem_of_getLast? hkey)).later (by omega)
        · exact hvalue.later (by omega)
        · exact fun k hk => (hkeys k (List.dropLast_subset _ hk)).later hn
      have hsame : ∀ u, (∀ fields, u ≠ .table fields) → ∀ w σ',
          outcome (changeAt (assignField l key value) keys.dropLast u) σ = (.ok w, σ') → w = u := by
        intro u hu w σ' hout
        rcases changeAt_eq (assignField l key value) keys.dropLast hu with heq | heq <;>
          rw [heq] at hout
        · exact (Except.ok.inj (Prod.mk.inj hout).1).symm
        · cases (Prod.mk.inj hout).1
      have hedited : ∀ u w σ', outcome (changeAt (assignField l key value) keys.dropLast u) σ =
          (.ok w, σ') → u.Edited w :=
        fun _ _ _ => changeAt_edited fun _ _ _ _ => assignField_edited
      have hscheme := hσ.scopes.local? ht
      split
      · rename_i y body
        -- the body of a quantified type is a scheme in either case
        obtain ⟨hy, hbody⟩ : (R.permit σ.supply.count).var y ∧
            body.Scheme (R.permit σ.supply.count) := by
          cases hscheme with
          | mono h => exact ⟨(Ty.within_all_iff.1 h).2.1, .mono (Ty.within_all_iff.1 h).2.2⟩
          | all hy hbody => exact ⟨hy, hbody⟩
        refine keepsAt_update (g := .all y) hpaths ht (hscopes body) (((hchange body hbody).imp
          fun m u hm hu => .all ((R.le hm).var _ hy) hu) σ hσ le_rfl) fun u σ' hout =>
            ⟨fun hfields => ?_, .body (hedited body u σ' hout)⟩
        rw [hsame body (fun fields hb => by simp [hb, Ty.holdsFields] at hfields) u σ' hout]
      · refine keepsAt_update (g := id) hpaths ht (hscopes t) (hchange t hscheme σ hσ le_rfl)
          fun u σ' hout => ⟨fun hfields => ?_, hedited t u σ' hout⟩
        exact hsame t (fun fields hb => by simp [hb, Ty.holdsFields] at hfields) u σ' hout
    · exact keeps_unmet σ hσ hn
  · exact keeps_pure fun _ _ => trivial

/-! ## Narrowing -/

/-- The inference of a place and of the keys of its path in a frame of its own keeps a regime, and a
place that is no variable may be assigned to. -/
structure InfersPlace (R : Regime) (r : Reach) (n : Nat) (infer : Inference) (place : Node) :
    Prop where
  self : Infers R r.inside n infer place
  keys : ∀ k ∈ place.pathKeys, Infers R r.inside n infer k
  paths : ∀ l o k, place = .index l o k → r.paths

lemma InfersPlace.from {m : Nat} {place : Node} (h : InfersPlace R r n infer place) (hm : n ≤ m) :
    InfersPlace R r m infer place :=
  ⟨h.self.from hm, fun k hk => (h.keys k hk).from hm, h.paths⟩

lemma restrict_keeps {place : Node} (h : InfersPlace R r n infer place)
    (ht : t.Within (R.permit n)) : Keeps R r.inside n (restrict infer place t) fun _ _ => True := by
  unfold restrict
  split
  · exact keeps_bind trivial (.mono ht)
  · exact assignPath_keeps h.keys h.paths ht

lemma narrowTo_keeps {checks : List Checked}
    (h : ∀ k ∈ checks, InfersPlace R r n infer k.1 ∧ k.2.Within (R.permit n)) :
    Keeps R r.inside n (narrowTo infer l checks) fun _ _ => True := by
  induction checks generalizing n with
  | nil => exact keeps_pure fun _ _ => trivial
  | cons k rest ih =>
    obtain ⟨place, t⟩ := k
    obtain ⟨hplace, ht⟩ := h (place, t) (by simp)
    refine .bind hplace.self fun m₁ now hm₁ hnow => ?_
    refine .bind (keeps_meet hnow.type (ht.later hm₁)) fun m₂ u hm₂ hu => ?_
    split
    · refine .bind (keeps_render (hnow.type.later hm₂)) fun m₃ _ hm₃ _ => ?_
      exact .bind (keeps_render (ht.later (by omega))) fun _ _ _ _ => keeps_report
    · refine .bind (restrict_keeps (hplace.from (by omega)) (hu _ rfl)) fun m₃ _ hm₃ _ => ?_
      refine ih fun k hk => ?_
      obtain ⟨hk₁, hk₂⟩ := h k (by simp [hk])
      exact ⟨hk₁.from (by omega), hk₂.later (by omega)⟩

lemma narrowFrom_keeps {checks : List Checked}
    (h : ∀ k ∈ checks, InfersPlace R r n infer k.1 ∧ k.2.Within (R.permit n)) :
    Keeps R r.inside n (narrowFrom infer checks) fun _ _ => True := by
  induction checks generalizing n with
  | nil => exact keeps_pure fun _ _ => trivial
  | cons k rest ih =>
    obtain ⟨place, t⟩ := k
    obtain ⟨hplace, ht⟩ := h (place, t) (by simp)
    refine .bind hplace.self fun m₁ now hm₁ hnow => ?_
    refine .bind (keeps_subtract hnow.type (ht.later hm₁)) fun m₂ u hm₂ hu => ?_
    refine .bind (restrict_keeps (hplace.from (by omega)) hu) fun m₃ _ hm₃ _ => ?_
    refine ih fun k hk => ?_
    obtain ⟨hk₁, hk₂⟩ := h k (by simp [hk])
    exact ⟨hk₁.from (by omega), hk₂.later (by omega)⟩

/-! ## Declarations and assignments -/

lemma inferExprs_keeps {s : Subst} (hinfer : ∀ e ∈ exprs, Infers R r n infer e)
    (hs : s.Within (R.permit n)) (htypes : ∀ t ∈ types, t.Within (R.permit n)) :
    Keeps R r n (inferExprs infer s types exprs) fun m p =>
      p.1.Within (R.permit m) ∧ ∀ t ∈ p.2, t.Within (R.permit m) :=
  inferEach_keeps (fun _ _ _ ht => keeps_pure fun _ hk => within_later hk (components_within ht))
    hinfer hs htypes

lemma keeps_await : Keeps R r n (await x) fun _ _ => True :=
  keeps_modify fun _ hσ _ => ⟨⟨hσ.start, hσ.shared, hσ.scopes⟩, le_rfl, .refl r _⟩

lemma keeps_forM {α : Type} {f : α → Check Unit} (h : ∀ a m, Keeps R r m (f a) fun _ _ => True) :
    ∀ (as : List α) (m : Nat), Keeps R r m (as.forM f) fun _ _ => True
  | [], _ => keeps_pure fun _ _ => trivial
  | a :: as, m => .bind (h a m) fun m' _ _ _ => keeps_forM h as m'

lemma bindDeclared_keeps {name : DeclaredName} (hbound : ∀ x, name = .bare x → r.bound x)
    (h : ∀ l x, name = .variable l x → R.fault .wrongKind) (ht : t.Scheme (R.permit n)) :
    Keeps R r n (bindDeclared name t) fun _ _ => True := by
  cases name with
  | bare x => exact keeps_bind (hbound x rfl) ht
  | «variable» l x => exact keeps_fault (h l x rfl)

lemma annotatedTuple_keeps {note : Node} (h : ∀ l t, note = .typeNote l t → t.Within (R.permit n)) :
    Keeps R r n (annotatedTuple note) fun m p =>
      p.1.Within (R.permit m) ∧ ∀ a ∈ p.2, a.Within (R.permit m) := by
  unfold annotatedTuple
  split
  · rename_i l t
    have ht := h l t rfl
    split
    · rename_i args hargs
      exact keeps_pure fun m hm => ⟨ht.later hm, within_later hm (tupleArgs_within ht hargs)⟩
    · exact keeps_unmet
  · exact keeps_fault (R.allows n _ trivial)

variable {number : Nat}

lemma bindNames_keeps {note : Option Node} {names : List DeclaredName}
    (hbound : ∀ x, .bare x ∈ names → r.bound x)
    (hnames : ∀ l x, .variable l x ∈ names → R.fault .wrongKind)
    (hnote : ∀ l t, note = some (.typeNote l t) → t.Within (R.permit n))
    (htypes : ∀ t ∈ types, t.Within (R.permit n)) :
    Keeps R r n (bindNames l note types number names) fun _ _ => True := by
  induction names generalizing n number with
  | nil => exact keeps_pure fun _ _ => trivial
  | cons name rest ih =>
    -- a declared name is bound to a permitted type, and then the others are
    have hbind : ∀ m u, n ≤ m → u.Within (R.permit m) → Keeps R r m (do
        bindDeclared name (← generalize u)
        bindNames l note types (number + 1) rest) fun _ _ => True := by
      intro m u hm hu
      refine .bind (keeps_generalize hu) fun m₁ w hm₁ hw => ?_
      refine .bind (bindDeclared_keeps (fun x h => hbound x (h ▸ List.mem_cons_self))
        (fun l x h => hnames l x (h ▸ List.mem_cons_self)) hw) fun m₂ _ hm₂ _ => ?_
      exact ih (fun x h => hbound x (by simp [h])) (fun l x h => hnames l x (by simp [h]))
        (fun l t h => (hnote l t h).later (by omega)) (within_later (by omega) htypes)
    unfold bindNames
    cases note with
    | some note =>
      refine .bind (annotatedTuple_keeps fun l t h => hnote l t (by rw [h]))
        fun m₁ ⟨tuple, annotated⟩ hm₁ ⟨htuple, hannotated⟩ => ?_
      refine .bind keeps_member fun m₂ t hm₂ ht => .bind keeps_member fun m₃ a hm₃ ha => ?_
      have ht' := (htypes t ht).mono (R.le (m := n) (n := m₃) (by omega))
      have ha' := (hannotated a ha).mono (R.le (m := m₁) (n := m₃) (by omega))
      refine .bind (keeps_fits ht' ha') fun m₄ _ hm₄ _ => keeps_ite (fun _ => ?_) fun _ => ?_
      · exact hbind m₄ tuple (by omega) (htuple.later (by omega))
      · refine .bind (keeps_render (ha'.later hm₄)) fun m₅ _ hm₅ _ => ?_
        exact .bind (keeps_render (ht'.later (by omega))) fun _ _ _ _ => keeps_report
    | none =>
      exact .bind keeps_member fun m₁ t hm₁ ht => hbind m₁ t hm₁ ((htypes t ht).later hm₁)

lemma inferDeclare_keeps {names : List DeclaredName} {note : Option Node}
    (hexprs : ∀ e ∈ exprs, Infers R r n infer e) (hbound : ∀ x, .bare x ∈ names → r.bound x)
    (hnames : ∀ l x, .variable l x ∈ names → R.fault .wrongKind)
    (hnote : ∀ l t, note = some (.typeNote l t) → t.Within (R.permit n)) :
    Keeps R r n (inferDeclare infer l names exprs note) fun m i => i.Within (R.permit m) := by
  refine .bind (keeps_forM (fun name m => ?_) names n) fun m₁ _ hm₁ _ => ?_
  · cases name with
    | bare x => exact keeps_pure fun _ _ => trivial
    | «variable» l x => exact keeps_await
  · refine .bind (inferExprs_keeps (fun e he => (hexprs e he).from hm₁) Subst.within_empty
      (List.forall_mem_nil _)) fun m₂ ⟨s, types⟩ hm₂ ⟨hs, htypes⟩ => ?_
    refine .bind (bindNames_keeps hbound hnames (fun l t h => (hnote l t h).later (by omega)) htypes)
      fun m₃ _ hm₃ _ => keeps_pure fun m₄ hm₄ => ?_
    exact ⟨hs.later (by omega), Ty.within_plain _⟩

lemma assignName_keeps (hx : r.bound x) (hassigned : r.assigned x)
    (htypes : ∀ t ∈ types, t.Within (R.permit n)) :
    Keeps R r n (assignName l x types number) fun _ _ => True := by
  intro σ hσ hn
  rw [assignName]
  refine .scopes ?_
  have htypes' := within_later hn htypes
  split
  · rename_i t ht
    refine Keeps.bind (keeps_instantiate (hσ.scopes.local? ht)) (fun m₂ existing hm₂ hexisting => ?_)
      σ hσ le_rfl
    refine .bind keeps_member fun m₃ given hm₃ hgiven => ?_
    refine .bind (keeps_unifyAt ((htypes' given hgiven).later (by omega))
      (hexisting.broaden.later hm₃)) ?_
    rintro m₄ ⟨s, u⟩ hm₄ ⟨hs, hleft, _⟩
    refine .bind (keeps_apply hs hleft) fun m₅ w hm₅ hw => ?_
    exact .bind (keeps_generalize hw) fun m₆ v hm₆ hv => keeps_bind hx hv
  · rename_i hlocal
    refine (keeps_member σ hσ le_rfl).bind fun t σ₁ hmember hleads ht => ?_
    have hsame := ((scopeless_member types number).scopes_eq σ).1
    rw [hmember] at hsame
    obtain ⟨hstart, hshared, hbound⟩ := hleads.within
    have hu := ((htypes' t ht).later hleads.le).generalize σ₁.scopes.freeVars
    exact ⟨⟨⟨hstart, hshared, hbound.bindGlobal x hu⟩, le_rfl,
      .bindGlobal _ hx hassigned (by rw [hsame, hlocal])⟩, trivial⟩

lemma assignTargets_keeps {targets : List Node}
    (htargets : ∀ t ∈ targets, ∀ k ∈ t.pathKeys, Infers R r n infer k)
    (hnames : ∀ l x, .var l x ∈ targets → r.bound x ∧ r.assigned x)
    (hpaths : ∀ l o k, .index l o k ∈ targets → r.paths)
    (htypes : ∀ t ∈ types, t.Within (R.permit n)) :
    Keeps R r n (assignTargets infer l types number targets) fun _ _ => True := by
  induction targets generalizing n number with
  | nil => exact keeps_pure fun _ _ => trivial
  | cons target rest ih =>
    have hlater : ∀ m, n ≤ m → Keeps R r m (assignTargets infer l types (number + 1) rest)
        fun _ _ => True := fun m hm =>
      ih (fun t ht k hk => (htargets t (by simp [ht]) k hk).from hm)
        (fun l x hx => hnames l x (by simp [hx])) (fun l o k hk => hpaths l o k (by simp [hk]))
        (within_later hm htypes)
    unfold assignTargets
    split
    · rename_i lx x
      obtain ⟨hbound, hassigned⟩ := hnames lx x (by simp)
      exact .bind (assignName_keeps hbound hassigned htypes) fun m _ hm _ => hlater m hm
    · refine .bind keeps_member fun m₁ t hm₁ ht => ?_
      refine .bind (assignPath_keeps (fun k hk => (htargets target (by simp) k hk).from hm₁)
        (fun lo o k hk => hpaths lo o k (by simp [hk])) ((htypes t ht).later hm₁))
        fun m₂ _ hm₂ _ => hlater m₂ (by omega)

lemma inferAssign_keeps {targets : List Node} (hexprs : ∀ e ∈ exprs, Infers R r n infer e)
    (htargets : ∀ t ∈ targets, ∀ k ∈ t.pathKeys, Infers R r n infer k)
    (hnames : ∀ l x, .var l x ∈ targets → r.bound x ∧ r.assigned x)
    (hpaths : ∀ l o k, .index l o k ∈ targets → r.paths) :
    Keeps R r n (inferAssign infer l targets exprs) fun m i => i.Within (R.permit m) := by
  refine .bind (keeps_forM (fun target m => ?_) targets n) fun m₁ _ hm₁ _ => ?_
  · split
    · exact keeps_await
    · exact keeps_pure fun _ _ => trivial
  · refine .bind (inferExprs_keeps (fun e he => (hexprs e he).from hm₁) Subst.within_empty
      (List.forall_mem_nil _)) fun m₂ ⟨s, types⟩ hm₂ ⟨hs, htypes⟩ => ?_
    refine .bind (assignTargets_keeps (fun t ht k hk => (htargets t ht k hk).from (by omega)) hnames
      hpaths htypes) fun m₃ _ hm₃ _ => keeps_pure fun m₄ hm₄ => ?_
    exact ⟨hs.later (by omega), Ty.within_plain _⟩

/-! ## Returning -/

variable {P : Permit}

lemma innermost_within (h : t.Within P) :
    (∀ ts, innermost t = .ok ts → ∀ u ∈ ts, u.Within P) ∧
      ∀ f, innermost t = .error f → f = .outOfRange := by
  induction t with
  | con c args v checks ih =>
    obtain ⟨_, hargs, _⟩ := Ty.within_con_iff.1 h
    cases args with
    | nil =>
      rw [innermost]
      split
      · exact ⟨fun _ h => (nomatch h), fun f hf => (Except.error.inj hf).symm⟩
      · refine ⟨fun ts hts => ?_, fun _ h => nomatch h⟩
        cases hts
        exact List.forall_mem_nil _
    | cons first rest =>
      obtain ⟨ihok, iherror⟩ := ih first (by simp) (hargs first (by simp))
      rw [innermost]
      split
      · split
        · rename_i f hf
          exact ⟨fun _ h => (nomatch h), fun g hg => Except.error.inj hg ▸ iherror f hf⟩
        · refine ⟨fun ts hts => ?_, fun _ h => nomatch h⟩
          exact Except.ok.inj hts ▸ hargs
        · rename_i inner _ hinner
          exact ⟨fun ts hts => ihok ts (hts ▸ hinner), fun _ h => nomatch h⟩
      · refine ⟨fun ts hts => ?_, fun _ h => nomatch h⟩
        cases hts
        exact List.forall_mem_nil _
  | var | table | union | all =>
    refine ⟨fun ts hts => ?_, fun _ h => nomatch h⟩
    cases hts
    exact List.forall_mem_nil _

lemma returned_keeps {expr : Node} (h : t.Within (R.permit n)) :
    Keeps R r n (returned expr t) fun m ts => ∀ u ∈ ts, u.Within (R.permit m) := by
  have hinner : Keeps R r n (ofExcept (innermost t)) fun m ts => ∀ u ∈ ts, u.Within (R.permit m) :=
    keeps_ofExcept (fun ts hts m hm => within_later hm ((innermost_within h).1 ts hts))
      fun f hf => (innermost_within h).2 f hf ▸ R.allows n _ trivial
  refine .bind hinner fun m₁ ts hm₁ hts => ?_
  split
  · split
    · split
      · rename_i fields
        refine keeps_pure fun m₂ hm₂ u hu => ?_
        obtain ⟨f, hf, rfl⟩ := List.mem_map.1 hu
        exact (Ty.within_table_iff.1 (h.later (by omega)) f hf).2.2
      · exact keeps_unmet
    · refine keeps_pure fun m₂ hm₂ u hu => ?_
      obtain rfl := List.mem_singleton.1 hu
      exact h.later (by omega)
  · exact keeps_pure fun m₂ hm₂ => within_later hm₂ hts

lemma inferReturn_keeps (hexprs : ∀ e ∈ exprs, Infers R r n infer e) :
    Keeps R r n (inferReturn infer exprs) fun m i => i.Within (R.permit m) := by
  refine .bind (inferEach_keeps (fun _ _ _ => returned_keeps) hexprs Subst.within_empty
    (List.forall_mem_nil _))
    fun m₁ ⟨s, types⟩ hm₁ ⟨hs, htypes⟩ => keeps_pure fun m₂ hm₂ => ?_
  exact ⟨hs.later hm₂, Ty.within_tuple_iff.2 (within_later hm₂ htypes)⟩

lemma inferReveal_keeps {expr : Node} (hexpr : Infers R r n infer expr) :
    Keeps R r n (inferReveal infer l expr) fun m i => i.Within (R.permit m) := by
  refine .bind hexpr fun m₁ e hm₁ he => .bind (keeps_render he.type) fun m₂ shown hm₂ _ => ?_
  refine .bind (keeps_modify fun σ hσ _ => ⟨⟨hσ.start, hσ.shared, hσ.scopes⟩, le_rfl,
    .refl r _⟩) fun m₃ _ _ _ => ?_
  exact keeps_ofType (Ty.within_plain _)

/-! ## Branches and chunks -/

lemma conditionChecks_within (h : t.Within (R.permit n)) :
    ∀ k ∈ conditionChecks t, (R.permit n).place k.1 ∧ k.2.Within (R.permit n) := by
  unfold conditionChecks
  split
  · exact (Ty.within_con_iff.1 h).2.2 (R.checked n)
  · exact List.forall_mem_nil _

lemma inferBranch_keeps {condition body : Node} {otherwise : Option Node}
    (hcondition : Infers R r.inside n infer condition) (hbody : Infers R r.inside n infer body)
    (hotherwise : ∀ o, otherwise = some o → Infers R r.inside n infer o)
    (hplaces : ∀ m p, n ≤ m → (R.permit m).place p → InfersPlace R r m infer p) :
    Keeps R r n (inferBranch infer l condition body otherwise) fun m i => i.Within (R.permit m) := by
  refine .bind (keeps_inScope hcondition) fun m₁ c hm₁ hc => ?_
  refine .bind (keeps_unifyAt hc.type (Ty.within_plain _)) fun m₂ _ hm₂ _ => keeps_inScope ?_
  have hchecks : ∀ m, m₂ ≤ m → ∀ k ∈ conditionChecks c.type,
      InfersPlace R r m infer k.1 ∧ k.2.Within (R.permit m) := by
    intro m hm k hk
    obtain ⟨hplace, htype⟩ := conditionChecks_within (hc.type.mono (R.le (n := m) (by omega))) k hk
    exact ⟨hplaces m k.1 (by omega) hplace, htype⟩
  refine .bind (narrowTo_keeps (hchecks m₂ (Nat.le_refl m₂))) fun m₃ _ hm₃ _ => ?_
  refine .bind (hbody.from (by omega)) fun m₄ b hm₄ hb => ?_
  split
  · refine .bind (keeps_apply (hc.subst.later (by omega)) hb.type) fun m₅ t hm₅ ht => ?_
    exact keeps_pure fun m₆ hm₆ => ⟨hb.subst.later (by omega), ht.later hm₆⟩
  · rename_i other
    refine .bind (narrowFrom_keeps (hchecks m₄ (by omega))) fun m₅ _ hm₅ _ => ?_
    refine .bind ((hotherwise other rfl).from (by omega)) fun m₆ e hm₆ he => ?_
    refine .bind (keeps_compose he.subst (hb.subst.later (by omega))) fun m₇ s hm₇ hs => ?_
    refine .bind (keeps_unifyOrNot (he.type.later hm₇)
      (hb.type.broaden.later (by omega))) fun m₈ ⟨t, u⟩ hm₈ ⟨ht, hleft, _⟩ => ?_
    refine .bind (keeps_join hleft (hb.type.later (by omega))) fun m₉ joined hm₉ hjoined => ?_
    refine .bind (keeps_apply (ht.later hm₉) hjoined) fun m₁₀ j hm₁₀ hj => ?_
    refine .bind (keeps_apply (hc.subst.later (by omega)) hj) fun m₁₁ type hm₁₁ htype => ?_
    exact keeps_pure fun m hm => ⟨hs.later (by omega), htype.later hm⟩

lemma joinReturns_sat {as bs : List Ty} (ha : ∀ a ∈ as, a.Within P)
    (hb : ∀ b ∈ bs, b.Within P) :
    (joinReturns as bs).Sat (fun ts => ∀ t ∈ ts, t.Within P) P.Allows := by
  induction as generalizing bs with
  | nil =>
    cases bs with
    | nil => exact .pure ha
    | cons b bs =>
      refine .pure fun t ht => ?_
      obtain ⟨u, hu, rfl⟩ := List.mem_map.1 ht
      exact .union (hb u hu) (Ty.within_plain _)
  | cons a as ih =>
    cases bs with
    | nil => exact .pure ha
    | cons b bs =>
      refine .bind (Ty.join_sat (ha a (by simp)) (hb b (by simp))) fun t ht => ?_
      refine .bind (ih (fun a h => ha a (by simp [h])) fun b h => hb b (by simp [h]))
        fun ts hts => ?_
      exact .pure (by simpa using ⟨ht, hts⟩)

lemma keeps_joinReturns {as bs : List Ty} (ha : ∀ a ∈ as, a.Within (R.permit n))
    (hb : ∀ b ∈ bs, b.Within (R.permit n)) :
    Keeps R r n (naming (joinReturns as bs)) fun m ts => ∀ t ∈ ts, t.Within (R.permit m) :=
  (keeps_naming (joinReturns_sat ha hb) (R.allows n)).imp fun _ _ hm hts => within_later hm hts

lemma withArgs_within (h : t.Within P) {args : List Ty}
    (hargs : ∀ a ∈ args, a.Within P) : (withArgs args t).Within P := by
  unfold withArgs
  split
  · obtain ⟨hv, _, hchecks⟩ := Ty.within_con_iff.1 h
    exact Ty.within_con_iff.2 ⟨hv, hargs, hchecks⟩
  · exact h

/-- Nothing occurs in what the statements of a chunk have come to but what is permitted. -/
structure ProgressWithin (P : Permit) (p : Progress) : Prop where
  subst : p.subst.Within P
  result : ∀ t, p.result = some t → t.Within P

lemma ProgressWithin.later {m : Nat} (h : ProgressWithin (R.permit n) p) (hm : n ≤ m) :
    ProgressWithin (R.permit m) p :=
  ⟨h.subst.later hm, fun t ht => (h.result t ht).later hm⟩

lemma addReturn_keeps {i : Inferred} (hp : ProgressWithin (R.permit n) p)
    (hi : i.Within (R.permit n)) :
    Keeps R r n (addReturn l p i) fun m q => ProgressWithin (R.permit m) q := by
  have hresult : (p.result.getD i.type).Within (R.permit n) := by
    cases hr : p.result with
    | none => exact hi.type
    | some t => exact hp.result t hr
  have hchosen : ∀ {m : Nat} {u : Unified}, n ≤ m → u.left.Within (R.permit m) →
      (if p.result.isNone then u.left else p.result.getD i.type).Within (R.permit m) := by
    intro m u hm hu
    split
    · exact hu
    · exact hresult.later hm
  refine keeps_ite (fun _ => ?_) fun _ => ?_
  · refine .bind (keeps_unifyOrNot hi.type hresult.broaden) fun m₁ ⟨s, u⟩ hm₁ ⟨hs, hleft, _⟩ => ?_
    have hc := hchosen hm₁ hleft
    refine .bind (keeps_joinReturns (argsOf_within hc) (argsOf_within hleft))
      fun m₂ args hm₂ hargs => ?_
    refine .bind (keeps_apply (hs.later hm₂) (withArgs_within (hc.later hm₂) hargs))
      fun m₃ t hm₃ ht => keeps_pure fun m₄ hm₄ => ⟨hp.subst.later (by omega), ?_⟩
    exact fun w hw => Option.some.inj hw ▸ ht.later hm₄
  · refine .bind (keeps_unifyAt hi.type hresult.broaden) fun m₁ ⟨_, u⟩ hm₁ ⟨_, hleft, _⟩ => ?_
    refine keeps_pure fun m₂ hm₂ => ⟨hp.subst.later (by omega), ?_⟩
    exact fun w hw => Option.some.inj hw ▸ (hchosen hm₁ hleft).later hm₂

lemma inferStatements_keeps {statements : List Node}
    (hinfer : ∀ s ∈ statements, Infers R r n infer s) (hp : ProgressWithin (R.permit n) p) :
    Keeps R r n (inferStatements infer l p statements) fun m q => ProgressWithin (R.permit m) q := by
  induction statements generalizing n p with
  | nil => exact keeps_pure fun m hm => hp.later hm
  | cons statement rest ih =>
    refine .bind (hinfer statement (by simp)) fun m₁ i hm₁ hi => ?_
    -- after the statement, whether or not it returns something
    have hnext : ∀ m q, m₁ ≤ m → ProgressWithin (R.permit m) q → Keeps R r m (do
        let s ← compose i.subst q.subst
        inferStatements infer l { q with subst := s } rest)
        fun m q => ProgressWithin (R.permit m) q := by
      intro m q hm hq
      refine .bind (keeps_compose (hi.subst.later hm) hq.subst) fun m₂ s hm₂ hs => ?_
      exact ih (fun t ht => (hinfer t (by simp [ht])).from (by omega))
        ⟨hs, fun t ht => (hq.result t ht).later hm₂⟩
    refine keeps_ite (fun _ => ?_) fun _ => ?_
    · exact .bind (addReturn_keeps (hp.later hm₁) hi) fun m q hm hq => hnext m q hm hq
    · exact hnext m₁ p (Nat.le_refl m₁) (hp.later hm₁)

lemma addLast_keeps {result : Option Ty} {last : Ty}
    (hresult : ∀ t, result = some t → t.Within (R.permit n)) (hlast : last.Within (R.permit n)) :
    Keeps R r n (addLast result last) fun m t => t.Within (R.permit m) := by
  cases result with
  | none => exact keeps_pure fun m hm => hlast.later hm
  | some result =>
    have hbroad := (hresult result rfl).broaden
    refine .bind (keeps_unifyOrNot hlast hbroad) fun m₁ ⟨s, u⟩ hm₁ ⟨hs, hleft, _⟩ => ?_
    refine .bind (keeps_apply hs (hbroad.later hm₁)) fun m₂ t hm₂ ht => ?_
    refine keeps_ite (fun _ => ?_) fun _ => keeps_unmet
    refine .bind (keeps_joinReturns (argsOf_within ht) (argsOf_within (hleft.later hm₂)))
      fun m₃ args hm₃ hargs => keeps_pure fun m₄ hm₄ => ?_
    exact (withArgs_within (ht.later hm₃) hargs).later hm₄

lemma inferChunk_keeps {statements : List Node} {last : Option Node}
    (hstatements : ∀ s ∈ statements, Infers R r.inside n infer s)
    (hlast : ∀ s, last = some s → Infers R r.inside n infer s) :
    Keeps R r n (inferChunk infer l statements last) fun m i => i.Within (R.permit m) := by
  refine keeps_inScope (.bind (inferStatements_keeps hstatements
    ⟨Subst.within_empty, fun _ h => nomatch h⟩) fun m₁ p hm₁ hp => ?_)
  split
  · rename_i last
    refine .bind ((hlast last rfl).from hm₁) fun m₂ i hm₂ hi => ?_
    refine .bind (addLast_keeps (fun t ht => (hp.result t ht).later hm₂) hi.type)
      fun m₃ result hm₃ hresult => ?_
    refine .bind (keeps_compose (hi.subst.later hm₃) (hp.subst.later (by omega)))
      fun m₄ s hm₄ hs => keeps_pure fun m₅ hm₅ => ?_
    exact ⟨hs.later hm₅, hresult.later (by omega)⟩
  · split
    · refine keeps_pure fun m₂ hm₂ => ⟨hp.subst.later hm₂, ?_⟩
      exact Ty.within_tuple_iff.2 (List.forall_mem_nil _)
    · rename_i result hresult
      have ht := hp.result result hresult
      refine keeps_pure fun m₂ hm₂ => ⟨hp.subst.later hm₂, ?_⟩
      simp only
      split
      · exact ht.later hm₂
      · refine Ty.within_tuple_iff.2 fun t ht' => ?_
        obtain ⟨u, hu, rfl⟩ := List.mem_map.1 ht'
        exact .union ((argsOf_within ht u hu).later hm₂) (Ty.within_plain _)

/-! ## The inference -/

/-- A rule keeps a regime, if it permits what stands in the tree itself, what the tree binds and
assigns to is in reach, and the inference of its operands keeps the regime, as well as that of its
other parts in the reach of a frame of their own, and for a conditional statement that of the places
that may be compared. -/
theorem inferStep_keeps {t : Node} (hown : ∀ x ∈ t.binds, r.bound x) (hobeys : t.Obeys r)
    (ht : t.Suits R n) (hoperands : ∀ m ∈ t.operands, Infers R r n infer m)
    (hparts : ∀ m ∈ t.parts, Infers R r.inside n infer m)
    (hplaces : ∀ l c b e o, t = .branch l c b e o → ∀ m p, n ≤ m → (R.permit m).place p →
      InfersPlace R r m infer p) : Infers R r n (inferStep infer) t := by
  cases t with
  | var l x => exact inferVar_keeps
  | nil l => exact keeps_ofType (Ty.within_plain _)
  | vararg l => exact inferVararg_keeps
  | number l v | string l v | boolean l v =>
    refine keeps_ofType (Ty.within_con_iff.2 ⟨fun _ h => ?_, by simp, Ty.checksWithin_nil⟩)
    exact Option.some.inj h ▸ ht
  | table l fields =>
    refine inferFields_keeps (fun f hf => ⟨hoperands _ ?_, hoperands _ ?_⟩) Subst.within_empty
      (List.forall_mem_nil _) <;> exact List.mem_flatMap.2 ⟨f, hf, by simp⟩
  | index l object key =>
    exact inferIndex_keeps (hoperands object (by simp [Node.operands, Node.parts]))
      (hoperands key (by simp [Node.operands, Node.parts]))
  | unary l op value =>
    exact inferUnary_keeps (hoperands value (by simp [Node.operands, Node.parts]))
  | binary l left op right =>
    exact inferBinary_keeps (hoperands left (by simp [Node.operands, Node.parts]))
      (hoperands right (by simp [Node.operands, Node.parts])) ht
  | function l params isVararg body name note =>
    exact inferFunction_keeps (hparts body (by simp [Node.parts])) ht
  | call l callee args =>
    exact inferCall_keeps (hoperands callee (by simp [Node.operands, Node.parts]))
      fun a ha => hoperands a (by simp [Node.operands, Node.parts, ha])
  | declare l names exprs note =>
    refine inferDeclare_keeps hoperands (fun x hx => hown x ?_) ht.1 ht.2
    exact List.mem_append_left _ (List.mem_filterMap.2 ⟨.bare x, hx, rfl⟩)
  | assign l targets exprs =>
    refine inferAssign_keeps (fun e he => hoperands e (List.mem_append_left _ he))
      (fun t ht k hk => hoperands k (List.mem_append_right _ (List.mem_flatMap.2 ⟨t, ht, hk⟩)))
      (fun lx x hx => ⟨hown x ?_, hobeys.1 lx x hx⟩) hobeys.2
    exact List.mem_append_right _ (Node.mem_targetNames hx)
  | returns l exprs => exact inferReturn_keeps hoperands
  | branch l condition body elseifs otherwise =>
    refine inferBranch_keeps (hparts condition (by simp [Node.parts]))
      (hparts body (by simp [Node.parts])) (fun o ho => hparts o ?_) (hplaces _ _ _ _ _ rfl)
    simp [Node.parts, ho]
  | reveal l expr =>
    exact inferReveal_keeps (hoperands expr (by simp [Node.operands, Node.parts]))
  | chunk l statements last =>
    refine inferChunk_keeps (fun s hs => hparts s (List.mem_append_left _ hs))
      fun s hs => hparts s ?_
    simp [Node.parts, hs]
  | elseif | typeNote | resultNote => exact keeps_fault ht

end Check

/-- The same whatever is done to the scopes. -/
lemma Check.inferStep_keeps_any {R : Regime} {n : Nat} {infer : Inference} {t : Node}
    (ht : t.Suits R n) (hparts : ∀ m ∈ t.parts, Infers R .any n infer m)
    (hplaces : ∀ l c b e o, t = .branch l c b e o → ∀ m p, n ≤ m → (R.permit m).place p →
      InfersPlace R .any m infer p) : Infers R .any n (inferStep infer) t :=
  inferStep_keeps (fun _ _ => trivial) t.obeys_any ht
    (fun m hm => hparts m (t.operands_subset_parts hm)) hparts hplaces

lemma Node.Everywhere.pathKeys {p : Node → Prop} {n : Node} (h : n.Everywhere p) :
    ∀ k ∈ n.pathKeys, k.Everywhere p := by
  induction h with
  | @intro n hn hparts ih =>
    cases n with
    | index l object key =>
      intro k hk
      rcases List.mem_append.1 hk with hk | hk
      · exact ih object (by simp [Node.parts]) k hk
      · obtain rfl := List.mem_singleton.1 hk
        exact hparts k (by simp [Node.parts])
    | _ => exact List.forall_mem_nil _

namespace Check

variable {R : Regime} {r : Reach} {n : Nat} {t : Node}

/-- Everywhere in a tree, what stands there is permitted, and assignments are in reach. -/
structure Admits (R : Regime) (r : Reach) (n : Nat) (t : Node) : Prop where
  suits : t.Everywhere (Node.Suits R n)
  obeys : t.Everywhere (Node.Obeys r)

lemma Admits.part {m : Node} (h : Admits R r n t) (hm : m ∈ t.parts) : Admits R r n m :=
  ⟨h.suits.part hm, h.obeys.part hm⟩

lemma Admits.pathKeys (h : Admits R r n t) : ∀ k ∈ t.pathKeys, Admits R r n k :=
  fun k hk => ⟨h.suits.pathKeys k hk, h.obeys.pathKeys k hk⟩

lemma Admits.inside (h : Admits R r n t) : Admits R r.inside n t :=
  ⟨h.suits, h.obeys.imp fun n hn => by cases n <;> exact hn⟩

/-- Inference to any depth keeps a regime that permits what stands in the tree and in the places that
may be compared, and that lets a check be cut off. It changes the scopes only within the reach of the
tree: the names that the tree binds where it stands, the names and paths that are assigned to
anywhere in it, and the same of the places that may be compared.

**Proof sketch.** By induction on the depth, for all trees and reaches. The operands of a tree are
inferred where the tree stands, in the same reach. The other parts, and the places that a
conditional statement narrows, are inferred in a frame that is dropped again, where any name may be
bound. -/
theorem inferTo_keeps_reach (hdepth : R.fault (.endless (c := .depth)))
    (hplaces : ∀ m p, (R.permit m).place p → Admits R r m p ∧ ∀ l o k, p = .index l o k → r.paths)
    (depth : Nat) (ht : Admits R r n t) (hbinds : t.BindsIn r.bound) :
    Infers R r n (inferTo depth) t := by
  induction depth generalizing r n t with
  | zero => exact keeps_fault hdepth
  | succ depth ih =>
    have hinside : ∀ (m : Nat) (u : Node), Admits R r m u → Infers R r.inside m (inferTo depth) u :=
      fun m u hu => ih (fun m p hp => ⟨(hplaces m p hp).1.inside, (hplaces m p hp).2⟩) hu.inside
        u.bindsIn_all
    cases hbinds with
    | intro hown hoperands =>
      refine inferStep_keeps hown ht.obeys.here ht.suits.here (fun m hm => ?_)
        (fun m hm => hinside n m (ht.part hm)) fun _ _ _ _ _ _ m p _ hp => ?_
      · exact ih hplaces (ht.part (t.operands_subset_parts hm)) (hoperands m hm)
      · obtain ⟨hp', hpaths⟩ := hplaces m p hp
        exact ⟨hinside m p hp', fun k hk => hinside m k (hp'.pathKeys k hk), hpaths⟩

/-- Inference to any depth keeps a regime, whatever it does to the scopes. -/
theorem inferTo_keeps (hdepth : R.fault (.endless (c := .depth)))
    (hplaces : ∀ m p, (R.permit m).place p → p.Everywhere (Node.Suits R m)) (depth : Nat)
    (ht : t.Everywhere (Node.Suits R n)) : Infers R .any n (inferTo depth) t := by
  have hadmits : ∀ {m : Nat} {u : Node}, u.Everywhere (Node.Suits R m) → Admits R .any m u :=
    fun hu => ⟨hu, hu.imp fun v _ => v.obeys_any⟩
  exact inferTo_keeps_reach hdepth (fun m p hp => ⟨hadmits (hplaces m p hp), fun _ _ _ _ => trivial⟩)
    depth (hadmits ht) t.bindsIn_all

end Check

end LuaTyping
