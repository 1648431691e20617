import LuaTyping.Check.Session
import LuaTyping.Proofs.Operations
import LuaTyping.Proofs.ScopeMoves

set_option autoImplicit false

/-!
# What occurs in sessions

A check draws variables one after the other, so what may occur in its types grows with their number.
A *regime* is a permit for each such number, growing with it, together with the faults that a check
may end in. A session is within a regime if nothing else occurs in its scopes and its register than
what is permitted at the number of variables that it has drawn. A computation *keeps* a regime in a
reach if it leads from such sessions to such sessions and changes the scopes within the reach only,
whether it gives a value or stops.

## Main definitions

* `Regime` — permits that grow with the number of variables drawn.
* `Ty.Scheme` — a type within a permit, below quantifiers.
* `Session.Within` — nothing occurs in a session but what is permitted.
* `Session.Leads` — a session stays within a regime, and its scopes change within a reach.
* `Check.Keeps` — a computation leads from sessions within a regime to such sessions.

## Main results

* `Check.Keeps.bind` — sequences keep a regime.
* `Ty.freshen_within` — instances of type schemes stay within a regime.
* `Check.keeps_unifyAt`, `Check.keeps_compose`, `Check.keeps_apply`,
  `Check.keeps_instantiate`, `Check.keeps_generalize` and others — what the
  operations of a check keep.
-/

namespace LuaTyping

/-! ## Growing permits -/

/-- All that one permit permits, another one does, too. -/
structure Permit.Le (P Q : Permit) : Prop where
  var : ∀ x, P.var x → Q.var x
  literal : ∀ c v, P.literal c v → Q.literal c v
  key : ∀ k, P.key k → Q.key k
  checked : Q.checked → P.checked
  place : ∀ p, P.place p → Q.place p
  quantified : P.quantified → Q.quantified

lemma Permit.Le.refl (P : Permit) : P.Le P :=
  ⟨fun _ h => h, fun _ _ h => h, fun _ h => h, id, fun _ h => h, id⟩

variable {P Q : Permit}

lemma Ty.Within.mono (h : P.Le Q) {t : Ty} (ht : t.Within P) : t.Within Q := by
  induction ht with
  | var hx => exact .var (h.var _ hx)
  | con hv _ hplaces _ ihargs ihtypes =>
    exact .con (fun l hl => h.literal _ l (hv l hl)) ihargs
      (fun hQ k hk => h.place _ (hplaces (h.checked hQ) k hk)) fun hQ => ihtypes (h.checked hQ)
  | table hkeys _ _ ihk ihv => exact .table (fun f hf => h.key _ (hkeys f hf)) ihk ihv
  | union _ _ ihl ihr => exact .union ihl ihr
  | all hq hx _ ih => exact .all (h.quantified hq) (h.var _ hx) ih

lemma Ty.FieldsWithin.mono (h : P.Le Q) {fields : List (Ty × Ty)}
    (hf : FieldsWithin P fields) : FieldsWithin Q fields :=
  fun f hmem => ⟨h.key _ (hf f hmem).1, (hf f hmem).2.1.mono h, (hf f hmem).2.2.mono h⟩

lemma Subst.Within.mono (h : P.Le Q) {s : Subst} (hs : s.Within P) : s.Within Q :=
  fun b hb => ⟨h.var _ (hs b hb).1, (hs b hb).2.mono h⟩

/-- What may occur in the types of a check, by the number of variables drawn so far, and the faults
that it may end in. -/
structure Regime where
  permit : Nat → Permit
  fault : Fault → Prop
  /-- The least number of variables that have been drawn. -/
  start : Nat
  le : ∀ {m n}, m ≤ n → (permit m).Le (permit n)
  fresh : ∀ n, start ≤ n → (permit (n + 1)).var s!"t{n + 1}"
  rest : ∀ n, (permit n).var "..."
  flag : ∀ n b, (permit n).literal "function" (.flag b)
  key : ∀ n t, (permit n).key t
  checked : ∀ n, (permit n).checked
  allows : ∀ n f, (permit n).Allows f → fault f
  unbound : ∀ x, fault (.unboundName x)

section Later

variable {R : Regime} {m n : Nat}

lemma Ty.Within.later {t : Ty} (h : t.Within (R.permit m)) (hn : m ≤ n) : t.Within (R.permit n) :=
  h.mono (R.le hn)

lemma Ty.FieldsWithin.later {fields : List (Ty × Ty)} (h : FieldsWithin (R.permit m) fields)
    (hn : m ≤ n) : FieldsWithin (R.permit n) fields :=
  h.mono (R.le hn)

lemma Subst.Within.later {s : Subst} (h : s.Within (R.permit m)) (hn : m ≤ n) :
    s.Within (R.permit n) :=
  h.mono (R.le hn)

end Later

/-! ## Type schemes -/

/-- A type within a permit, below quantifiers over permitted variables. -/
inductive Ty.Scheme (P : Permit) : Ty → Prop
  | mono {t : Ty} : t.Within P → Scheme P t
  | all {x : String} {body : Ty} : P.var x → Scheme P body → Scheme P (.all x body)

namespace Ty

lemma Scheme.le {P Q : Permit} (h : P.Le Q) {t : Ty} (ht : t.Scheme P) : t.Scheme Q := by
  induction ht with
  | mono ht => exact .mono (ht.mono h)
  | all hx _ ih => exact .all (h.var _ hx) ih

mutual

variable {P : Permit}

lemma Within.freeVars : ∀ {t : Ty}, t.Within P → ∀ x ∈ t.freeVars, P.var x
  | .var y, h, x, hx => by
    obtain rfl := List.mem_singleton.1 hx
    exact within_var_iff.1 h
  | .con c args v checks, h, x, hx => Within.freeVarsList (within_con_iff.1 h).2.1 x hx
  | .table fields, h, x, hx => Within.freeVarsFields (within_table_iff.1 h) x hx
  | .union left right, h, x, hx => by
    rw [within_union_iff] at h
    rcases List.mem_append.1 hx with hx | hx
    · exact Within.freeVars h.1 x hx
    · exact Within.freeVars h.2 x hx
  | .all y body, h, x, hx =>
    Within.freeVars (within_all_iff.1 h).2.2 x (List.mem_of_mem_filter hx)

lemma Within.freeVarsList :
    ∀ {ts : List Ty}, (∀ t ∈ ts, t.Within P) → ∀ x ∈ Ty.freeVarsList ts, P.var x
  | [], _, x, hx => absurd hx List.not_mem_nil
  | t :: ts, h, x, hx => by
    rcases List.mem_append.1 hx with hx | hx
    · exact Within.freeVars (h t (by simp)) x hx
    · exact Within.freeVarsList (fun u hu => h u (by simp [hu])) x hx

lemma Within.freeVarsFields :
    ∀ {fields : List (Ty × Ty)}, FieldsWithin P fields → ∀ x ∈ Ty.freeVarsFields fields, P.var x
  | [], _, x, hx => absurd hx List.not_mem_nil
  | (k, v) :: rest, h, x, hx => by
    obtain ⟨_, hk, hv⟩ := h (k, v) (by simp)
    simp only [Ty.freeVarsFields, List.mem_append] at hx
    rcases hx with (hx | hx) | hx
    · exact Within.freeVars hk x hx
    · exact Within.freeVars hv x hx
    · exact Within.freeVarsFields (fun f hf => h f (by simp [hf])) x hx

end

/-- Generalizing a type within a permit gives a scheme. -/
lemma Within.generalize {P : Permit} {t : Ty} (h : t.Within P) (fixed : List String) :
    (t.generalize fixed).Scheme P := by
  have hnames : ∀ x ∈ (t.freeVars.filter fun x => !fixed.contains x).eraseDups, P.var x := by
    intro x hx
    exact h.freeVars x (List.mem_of_mem_filter (List.mem_eraseDups.1 hx))
  have hfold : ∀ (names : List String) (body : Ty), (∀ x ∈ names, P.var x) → body.Scheme P →
      (names.foldl (fun body x => .all x body) body).Scheme P := by
    intro names
    induction names with
    | nil => exact fun body _ hbody => hbody
    | cons x names ih =>
      intro body hxs hbody
      exact ih _ (fun y hy => hxs y (by simp [hy])) (.all (hxs x (by simp)) hbody)
  exact hfold _ t hnames (.mono h)

end Ty

/-! ## Instances -/

/-- Nothing occurs in a register but what is permitted. -/
def Register.Within (P : Permit) (r : Register) : Prop := ∀ e ∈ r, P.var e.1 ∧ e.2.Within P

lemma Register.Within.mono (h : P.Le Q) {r : Register} (hr : r.Within P) :
    r.Within Q :=
  fun e he => ⟨h.var _ (hr e he).1, (hr e he).2.mono h⟩

lemma Register.Within.enter {r : Register} (h : r.Within P) {x : String} {t : Ty}
    (hx : P.var x) (ht : t.Within P) : (r.enter x t).Within P := by
  intro e he
  rcases List.mem_cons.1 he with rfl | he
  · exact ⟨hx, ht⟩
  · exact h e (List.mem_of_mem_filter he)

namespace Instances

/-- Nothing occurs in the registers but what is permitted. -/
structure Within (R : Regime) (i : Instances) : Prop where
  start : R.start ≤ i.supply.count
  shared : i.supply.shared.Within (R.permit i.supply.count)
  own : i.own.Within (R.permit i.supply.count)

variable {R : Regime} {i : Instances}

lemma Within.register (h : i.Within R) (own : Bool) :
    (i.register own).Within (R.permit i.supply.count) := by
  cases own
  · exact h.shared
  · exact h.own

/-- A quantified variable gets a fresh one. -/
lemma Within.quantify (h : i.Within R) (own : Bool) {x : String}
    (hx : (R.permit i.supply.count).var x) :
    (i.quantify own x).Within R ∧ (i.quantify own x).supply.count = i.supply.count + 1 := by
  have hle := R.le (Nat.le_succ i.supply.count)
  have hfresh := Ty.Within.var (R.fresh i.supply.count h.start)
  have hstart := Nat.le_succ_of_le h.start
  cases own with
  | false =>
    exact ⟨⟨hstart, (h.shared.mono hle).enter (hle.var _ hx) hfresh, h.own.mono hle⟩, rfl⟩
  | true =>
    exact ⟨⟨hstart, h.shared.mono hle, (h.own.mono hle).enter (hle.var _ hx) hfresh⟩, rfl⟩

/-- What is known of a computation on registers that gives `Q`. -/
def Keeps {α : Type} (R : Regime) (n : Nat) (x : StateM Instances α) (Q : Nat → α → Prop) : Prop :=
  ∀ i : Instances, i.Within R → n ≤ i.supply.count →
    (x i).2.Within R ∧ i.supply.count ≤ (x i).2.supply.count ∧ Q (x i).2.supply.count (x i).1

lemma Keeps.pure {α : Type} {n : Nat} {a : α} {Q : Nat → α → Prop} (h : ∀ m, n ≤ m → Q m a) :
    Keeps R n (Pure.pure a) Q :=
  fun _ hi hn => ⟨hi, le_rfl, h _ hn⟩

lemma Keeps.bind {α β : Type} {n : Nat} {x : StateM Instances α} {f : α → StateM Instances β}
    {Q : Nat → α → Prop} {S : Nat → β → Prop} (hx : Keeps R n x Q)
    (hf : ∀ m a, n ≤ m → Q m a → Keeps R m (f a) S) : Keeps R n (x >>= f) S := by
  intro i hi hn
  obtain ⟨h₁, hle₁, hQ⟩ := hx i hi hn
  obtain ⟨h₂, hle₂, hS⟩ := hf _ _ (Nat.le_trans hn hle₁) hQ _ h₁ le_rfl
  exact ⟨h₂, Nat.le_trans hle₁ hle₂, hS⟩

end Instances

namespace Ty

variable {R : Regime}
variable {own : Bool} {n : Nat}

lemma freshenList_within {ts : List Ty}
    (h : ∀ t ∈ ts, ∀ m, n ≤ m → Instances.Keeps R m (t.freshen own)
      fun k u => u.Within (R.permit k)) :
    Instances.Keeps R n (freshenList own ts) fun k us => ∀ u ∈ us, u.Within (R.permit k) := by
  induction ts generalizing n with
  | nil => exact .pure fun _ _ _ hu => absurd hu List.not_mem_nil
  | cons t ts ih =>
    refine .bind (h t (by simp) n (Nat.le_refl n)) fun m u hm hu => ?_
    refine .bind (ih fun t ht k hk => h t (by simp [ht]) k (by omega)) fun k us hk hus => ?_
    refine .pure fun k' hk' w hw => ?_
    rcases List.mem_cons.1 hw with rfl | hw
    · exact hu.later (by omega)
    · exact (hus w hw).later hk'

lemma freshenFields_within {fields : List (Ty × Ty)} (h : ∀ f ∈ fields, ∀ m, n ≤ m →
      Instances.Keeps R m (f.1.freshen own) (fun k u => u.Within (R.permit k)) ∧
        Instances.Keeps R m (f.2.freshen own) fun k u => u.Within (R.permit k)) :
    Instances.Keeps R n (freshenFields own fields) fun k fs => FieldsWithin (R.permit k) fs := by
  induction fields generalizing n with
  | nil => exact .pure fun _ _ _ hf => absurd hf List.not_mem_nil
  | cons f rest ih =>
    refine .bind (h f (by simp) n (Nat.le_refl n)).1 fun m k hm hk => ?_
    refine .bind (h f (by simp) m hm).2 fun m' v hm' hv => ?_
    refine .bind (ih fun g hg k hk => h g (by simp [hg]) k (by omega)) fun m'' fs hm'' hfs => ?_
    refine .pure fun n' hn' g hg => ?_
    rcases List.mem_cons.1 hg with rfl | hg
    · exact ⟨R.key _ _, hk.later (by omega), hv.later (by omega)⟩
    · obtain ⟨hgk, hgk', hgv⟩ := hfs g hg
      exact ⟨R.key _ _, hgk'.later hn', hgv.later hn'⟩

/-- Below a quantifier, the register has a fresh variable. -/
lemma freshen_all {x : String} {body : Ty} {Q : Nat → Ty → Prop} (hx : (R.permit n).var x)
    (hbody : Instances.Keeps R n (body.freshen own) Q) :
    Instances.Keeps R n ((Ty.all x body).freshen own) Q := by
  intro i hi hn
  obtain ⟨hq, hcount⟩ := hi.quantify own ((R.le hn).var _ hx)
  obtain ⟨h₁, hle, hu⟩ := hbody _ hq (by omega)
  exact ⟨h₁, Nat.le_trans (by omega) hle, hu⟩

/-- An instance of a type stays within a regime. -/
lemma freshen_within {t : Ty} (h : t.Within (R.permit n)) :
    Instances.Keeps R n (t.freshen own) fun m u => u.Within (R.permit m) := by
  induction t generalizing own n with
  | var x =>
    intro i hi hn
    refine ⟨hi, le_rfl, ?_⟩
    cases hl : (i.register own).lookup x with
    | none => simpa [Ty.freshen, hl] using (h.later hn)
    | some u => simpa [Ty.freshen, hl] using ((hi.register own) _ (mem_of_lookup hl)).2
  | con c args v checks ih =>
    obtain ⟨hv, hargs, hchecks⟩ := within_con_iff.1 h
    refine .bind (freshenList_within fun a ha m hm => ih a ha ((hargs a ha).later hm))
      fun m us hm hus => .pure fun k hk => ?_
    have hle := R.le (Nat.le_trans hm hk)
    refine within_con_iff.2 ⟨fun l hl => hle.literal c l (hv l hl), ?_, fun hc p hp => ?_⟩
    · exact fun u hu => (hus u hu).later hk
    · obtain ⟨hplace, htype⟩ := hchecks (hle.checked hc) p hp
      exact ⟨hle.place _ hplace, htype.mono hle⟩
  | table fields ih =>
    rw [within_table_iff] at h
    refine .bind (freshenFields_within fun f hf m hm => ?_) fun m fs _ hfs => .pure fun k hk => ?_
    · exact ⟨(ih f hf).1 ((h f hf).2.1.later hm), (ih f hf).2 ((h f hf).2.2.later hm)⟩
    · exact (within_table_iff.2 hfs).later hk
  | union left right ihl ihr =>
    rw [within_union_iff] at h
    refine .bind (ihl h.1) fun m l hm hl => .bind (ihr (h.2.later hm)) fun k r hk hr => ?_
    exact .pure fun n' hn' => .union (hl.later (by omega)) (hr.later hn')
  | all x body ih =>
    obtain ⟨_, hx, hbody⟩ := within_all_iff.1 h
    exact freshen_all hx (ih hbody)

lemma Scheme.freshen {t : Ty} (h : t.Scheme (R.permit n)) (own : Bool) :
    Instances.Keeps R n (t.freshen own) fun m u => u.Within (R.permit m) := by
  induction h with
  | mono h => exact freshen_within h
  | all hx _ ih => exact freshen_all hx ih

end Ty

/-! ## Scopes -/

lemma mem_enterName {α : Type} {x : String} {a : α} {l : List (String × α)} {e : String × α}
    (h : e ∈ enterName x a l) : e.2 = a ∨ e ∈ l := by
  induction l with
  | nil =>
    obtain rfl := List.mem_singleton.1 h
    exact .inl rfl
  | cons p rest ih =>
    simp only [enterName] at h
    split at h
    · rcases List.mem_cons.1 h with rfl | h
      · exact .inl rfl
      · exact .inr (List.mem_cons_of_mem _ h)
    · rcases List.mem_cons.1 h with rfl | h
      · exact .inr List.mem_cons_self
      · exact (ih h).imp_right (List.mem_cons_of_mem _)

namespace Scopes

/-- Only permitted type schemes are bound in a frame. -/
def FrameWithin (P : Permit) (frame : Frame) : Prop := ∀ b ∈ frame, ∀ t, b.2 = .own t → t.Scheme P

/-- Only permitted type schemes are bound to names. -/
structure Within (P : Permit) (s : Scopes) : Prop where
  frames : ∀ frame ∈ s.frames, FrameWithin P frame
  globals : ∀ g ∈ s.globals, g.2.Scheme P

variable {P : Permit} {s : Scopes}

lemma Within.mono {Q : Permit} (hle : P.Le Q) (h : s.Within P) : s.Within Q :=
  ⟨fun frame hf b hb t ht => (h.frames frame hf b hb t ht).le hle,
    fun g hg => (h.globals g hg).le hle⟩

variable {x : String} {t : Ty}

lemma Within.global? (h : s.Within P) (ht : s.global? x = some t) : t.Scheme P :=
  h.globals _ (mem_of_lookup ht)

lemma Within.local? (h : s.Within P) (ht : s.local? x = some t) : t.Scheme P := by
  obtain ⟨b, hb, hr⟩ := Option.bind_eq_some_iff.1 ht
  cases b with
  | own u =>
    obtain rfl := Option.some.inj hr
    obtain ⟨frame, hframe, hl⟩ := List.exists_of_findSome?_eq_some hb
    exact h.frames frame hframe _ (mem_of_lookup hl) u rfl
  | shared => exact h.global? hr

lemma FrameWithin.enterName {frame : Frame} (h : FrameWithin P frame) (x : String) {b : Binding}
    (hb : ∀ t, b = .own t → t.Scheme P) : FrameWithin P (enterName x b frame) := by
  intro e he t ht
  rcases mem_enterName he with rfl | he
  · exact hb t ht
  · exact h e he t ht

lemma Within.enter (h : s.Within P) (x : String) {b : Binding}
    (hb : ∀ t, b = .own t → t.Scheme P) : (s.enter x b).Within P := by
  unfold Scopes.enter
  split
  · refine ⟨fun frame hframe => ?_, h.globals⟩
    obtain rfl := List.mem_singleton.1 hframe
    intro e he t ht
    obtain rfl := List.mem_singleton.1 he
    exact hb t ht
  · rename_i frame rest heq
    refine ⟨fun f hf => ?_, h.globals⟩
    rcases List.mem_cons.1 hf with rfl | hf
    · exact (h.frames frame (by simp [heq])).enterName x hb
    · exact h.frames f (by simp [heq, hf])

lemma Within.bind (h : s.Within P) (x : String) (ht : t.Scheme P) :
    (s.bind x t).Within P :=
  h.enter x fun _ hu => Binding.own.inj hu ▸ ht

lemma Within.enterGlobal {fs : List Frame} (hfs : ∀ frame ∈ fs, FrameWithin P frame)
    (h : ∀ g ∈ s.globals, g.2.Scheme P) (x : String) (ht : t.Scheme P) :
    Scopes.Within P ⟨fs, LuaTyping.enterName x t s.globals⟩ := by
  refine ⟨hfs, fun g hg => ?_⟩
  rcases mem_enterName hg with heq | hg
  · exact heq ▸ ht
  · exact h g hg

lemma Within.bindGlobal (h : s.Within P) (x : String) (ht : t.Scheme P) :
    (s.bindGlobal x t).Within P :=
  .enterGlobal (h.enter x (b := .shared) fun _ hu => nomatch hu).frames h.globals x ht

lemma updateFrames_within (ht : t.Scheme P) {frames : List Frame}
    (h : ∀ frame ∈ frames, FrameWithin P frame) :
    ∀ frame ∈ updateFrames x t frames, FrameWithin P frame := by
  induction frames with
  | nil => exact h
  | cons f rest ih =>
    have hrest : ∀ frame ∈ rest, FrameWithin P frame := fun g hg => h g (by simp [hg])
    simp only [updateFrames]
    intro frame hframe
    split at hframe
    · rcases List.mem_cons.1 hframe with rfl | hframe
      · exact (h f (by simp)).enterName x fun _ hu => Binding.own.inj hu ▸ ht
      · exact hrest frame hframe
    · rcases List.mem_cons.1 hframe with rfl | hframe
      · exact h _ (by simp)
      · exact ih hrest frame hframe

lemma Within.update (h : s.Within P) (x : String) (ht : t.Scheme P) :
    (s.update x t).Within P := by
  unfold Scopes.update
  split
  · exact h
  · exact ⟨updateFrames_within ht h.frames, h.globals⟩
  · exact .enterGlobal h.frames h.globals x ht

lemma Within.push (h : s.Within P) : s.push.Within P := by
  refine ⟨fun frame hframe => ?_, h.globals⟩
  rcases List.mem_cons.1 hframe with rfl | hframe
  · exact fun b hb => absurd hb List.not_mem_nil
  · exact h.frames frame hframe

lemma Within.pop (h : s.Within P) : s.pop.Within P :=
  ⟨fun frame hframe => h.frames frame (List.mem_of_mem_drop hframe), h.globals⟩

end Scopes

/-! ## Sessions -/

/-- Nothing occurs in a session but what is permitted. -/
structure Session.Within (R : Regime) (σ : Session) : Prop where
  start : R.start ≤ σ.supply.count
  shared : σ.supply.shared.Within (R.permit σ.supply.count)
  scopes : σ.scopes.Within (R.permit σ.supply.count)

/-- What becomes of a session: it is within a regime, it has drawn no fewer variables, and its scopes
have changed within a reach. -/
structure Session.Leads (R : Regime) (r : Reach) (σ σ' : Session) : Prop where
  within : σ'.Within R
  le : σ.supply.count ≤ σ'.supply.count
  moves : σ.scopes.Moves r σ'.scopes

variable {R : Regime}

lemma Session.Leads.refl {r : Reach} {σ : Session} (h : σ.Within R) : σ.Leads R r σ :=
  ⟨h, le_rfl, .refl r _⟩

lemma Session.Leads.trans {r : Reach} {σ σ₁ σ₂ : Session} (h : σ.Leads R r σ₁)
    (h' : σ₁.Leads R r σ₂) : σ.Leads R r σ₂ :=
  ⟨h'.within, Nat.le_trans h.le h'.le, h.moves.trans h'.moves⟩

/-- The session that a program starts with is within a regime if the variables of the library are
permitted. -/
lemma Session.within_initial (hstart : R.start ≤ 3)
    (hvar : ∀ x ∈ ["t1", "t2", "t3"], (R.permit 3).var x) : Session.initial.Within R := by
  have hdescribing : ∀ x ∈ ["t1", "t2", "t3"], (Session.describing x).Scheme (R.permit 3) := by
    intro x hx
    refine .all (hvar x hx) (.mono ?_)
    simp [hvar x hx, Ty.string, Ty.nil]
  have hprint : (R.permit 3).literal "function" (.flag true) := R.flag 3 true
  have ht : (R.permit 3).var "t3" := hvar "t3" (by simp)
  refine ⟨hstart, List.forall_mem_nil _, fun frame hf b hb => ?_, ?_⟩
  · obtain rfl := List.mem_singleton.1 hf
    exact absurd hb List.not_mem_nil
  · intro g hg
    simp only [Session.initial, Session.library, List.mem_cons, List.not_mem_nil, or_false] at hg
    rcases hg with rfl | rfl | rfl
    · exact hdescribing _ (by simp)
    · exact hdescribing _ (by simp)
    · refine .all ht (.mono (Ty.within_function_iff.2 ⟨fun l hl => ?_, by simp, ?_, .var ht⟩))
      · exact Option.some.inj hl ▸ hprint
      · simp [Ty.string]

namespace Check

variable {R : Regime} {r : Reach} {α β : Type} {n : Nat}

/-- A computation leads a session to sessions within a regime, and changes its scopes within a reach.
A value that it gives has `Q`, at the number of variables drawn by then, and a fault is one of the
regime's. -/
def KeepsAt (R : Regime) (r : Reach) (σ : Session) (x : Check α) (Q : Nat → α → Prop) : Prop :=
  Ensures x σ (fun a σ' => σ.Leads R r σ' ∧ Q σ'.supply.count a)
    fun e σ' => σ.Leads R r σ' ∧ ∀ f, e = .fault f → R.fault f

/-- A computation does so from all sessions within the regime that have drawn at least `n`
variables. -/
def Keeps (R : Regime) (r : Reach) (n : Nat) (x : Check α) (Q : Nat → α → Prop) : Prop :=
  ∀ σ : Session, σ.Within R → n ≤ σ.supply.count → KeepsAt R r σ x Q

variable {x : Check α} {Q : Nat → α → Prop}

lemma Keeps.from {m : Nat} (h : Keeps R r n x Q) (hm : n ≤ m) : Keeps R r m x Q :=
  fun σ hσ hn => h σ hσ (Nat.le_trans hm hn)

/-- What is kept in a reach is kept in a wider one. -/
lemma Keeps.mono {r' : Reach} (h : Keeps R r n x Q) (hbound : ∀ x, r.bound x → r'.bound x)
    (hassigned : ∀ x, r.assigned x → r'.assigned x) (hpaths : r.paths → r'.paths) :
    Keeps R r' n x Q := by
  have hleads : ∀ {σ σ' : Session}, σ.Leads R r σ' → σ.Leads R r' σ' :=
    fun h => ⟨h.within, h.le, h.moves.mono hbound hassigned hpaths⟩
  exact fun σ hσ hn => (h σ hσ hn).imp (fun _ _ h => ⟨hleads h.1, h.2⟩) fun _ _ h => ⟨hleads h.1, h.2⟩

lemma Keeps.imp {S : Nat → α → Prop} (h : Keeps R r n x Q)
    (hS : ∀ m a, n ≤ m → Q m a → S m a) : Keeps R r n x S :=
  fun σ hσ hn => (h σ hσ hn).imp
    (fun a _ ha => ⟨ha.1, hS _ a (Nat.le_trans hn ha.1.le) ha.2⟩) fun _ _ => id

variable {σ σ' : Session} {s : Subst} {a b t : Ty}

/-- However a computation ends that keeps a regime, the session is within the regime, and its scopes
have changed within the reach. -/
lemma Keeps.session (h : Keeps R r n x Q) (hσ : σ.Within R) (hn : n ≤ σ.supply.count) :
    σ.Leads R r (outcome x σ).2 := by
  rcases hx : outcome x σ with ⟨e | a, σ'⟩
  · exact ((h σ hσ hn).of_eq_error hx).1
  · exact ((h σ hσ hn).of_eq_ok hx).1

lemma keeps_pure {a : α} (h : ∀ m, n ≤ m → Q m a) : Keeps R r n (pure a) Q :=
  fun _ hσ hn => ⟨.refl hσ, h _ hn⟩

lemma keeps_fault {f : Fault} (h : R.fault f) : Keeps R r n (fault f) Q :=
  fun _ hσ _ => ⟨.refl hσ, fun _ he => Stop.fault.inj he ▸ h⟩

lemma keeps_report {l : Location} {m : String} : Keeps R r n (report l m) Q :=
  fun _ hσ _ => ⟨.refl hσ, fun _ he => nomatch he⟩

variable {S : Nat → β → Prop}

lemma KeepsAt.bind {f : α → Check β} (hx : KeepsAt R r σ x Q)
    (hf : ∀ a σ', outcome x σ = (.ok a, σ') → σ.Leads R r σ' → Q σ'.supply.count a →
      KeepsAt R r σ' (f a) S) : KeepsAt R r σ (x >>= f) S := by
  unfold KeepsAt Ensures at hx ⊢
  rw [outcome_bind]
  rcases houtcome : outcome x σ with ⟨e | a, σ₁⟩ <;> rw [houtcome] at hx
  · exact hx
  · exact (hf a σ₁ houtcome hx.1 hx.2).imp (fun _ _ h => ⟨hx.1.trans h.1, h.2⟩)
      fun _ _ h => ⟨hx.1.trans h.1, h.2⟩

lemma Keeps.bind {f : α → Check β} (hx : Keeps R r n x Q)
    (hf : ∀ m a, n ≤ m → Q m a → Keeps R r m (f a) S) : Keeps R r n (x >>= f) S :=
  fun σ hσ hn => (hx σ hσ hn).bind fun a σ' _ hleads ha =>
    hf _ a (Nat.le_trans hn hleads.le) ha σ' hleads.within le_rfl

lemma keeps_ite {c : Prop} [Decidable c] {y : Check α} (hx : c → Keeps R r n x Q)
    (hy : ¬ c → Keeps R r n y Q) : Keeps R r n (if c then x else y) Q := by
  split
  · exact hx ‹_›
  · exact hy ‹_›

/-! ## The operations of a check -/

lemma keeps_ofExcept {e : Except Fault α} (hok : ∀ a, e = .ok a → ∀ m, n ≤ m → Q m a)
    (herror : ∀ f, e = .error f → R.fault f) : Keeps R r n (ofExcept e) Q := by
  cases e with
  | ok a => exact keeps_pure (hok a rfl)
  | error f => exact keeps_fault (herror f rfl)

lemma apply_eq_ok {u : Ty} :
    outcome (Check.apply s t) σ = (.ok u, σ') ↔ s.apply t = .ok u ∧ σ = σ' := by
  unfold Check.apply
  cases s.apply t with
  | ok v => simp [ofExcept]
  | error f => simp [ofExcept, fault]

/-- Showing types changes only letters. -/
lemma keeps_naming {x : Naming α} {Q : α → Prop} {F : Fault → Prop} (h : x.Sat Q F)
    (hF : ∀ f, F f → R.fault f) : Keeps R r n (naming x) fun _ a => Q a := by
  intro σ hσ _
  have hx := h σ.letters
  unfold KeepsAt
  unfold Ensures at hx ⊢
  rw [outcome_naming]
  rcases houtcome : outcome x σ.letters with ⟨f | a, letters⟩ <;> rw [houtcome] at hx
  · refine ⟨⟨⟨hσ.start, hσ.shared, hσ.scopes⟩, le_rfl, .refl r _⟩, fun f' hf' => ?_⟩
    exact Stop.fault.inj hf' ▸ hF f hx
  · exact ⟨⟨⟨hσ.start, hσ.shared, hσ.scopes⟩, le_rfl, .refl r _⟩, hx⟩

lemma keeps_modify {g : Session → Session} (h : ∀ σ : Session, σ.Within R → n ≤ σ.supply.count →
      σ.Leads R r (g σ)) : Keeps R r n (modify g) fun _ _ => True :=
  fun σ hσ hn => ⟨h σ hσ hn, trivial⟩

lemma KeepsAt.scopes {f : Scopes → Check β}
    (h : KeepsAt R r σ (f σ.scopes) S) : KeepsAt R r σ (scopes >>= f) S := h

lemma keeps_scopes : Keeps R r n scopes fun m s => s.Within (R.permit m) :=
  fun _ hσ _ => ⟨.refl hσ, hσ.scopes⟩

lemma keeps_fresh : Keeps R r n fresh fun m t => t.Within (R.permit m) := by
  intro σ hσ _
  have hle := R.le (Nat.le_succ σ.supply.count)
  refine ⟨⟨⟨Nat.le_succ_of_le hσ.start, hσ.shared.mono hle, hσ.scopes.mono hle⟩,
    Nat.le_succ _, .refl r _⟩, ?_⟩
  exact .var (R.fresh _ hσ.start)

lemma keeps_instantiate (h : t.Scheme (R.permit n)) :
    Keeps R r n (instantiate t) fun m u => u.Within (R.permit m) := by
  intro σ hσ hn
  have hi : Instances.Within R ⟨σ.supply, []⟩ :=
    ⟨hσ.start, hσ.shared, List.forall_mem_nil _⟩
  obtain ⟨hi', hle, hu⟩ := h.freshen false _ hi hn
  exact ⟨⟨⟨hi'.start, hi'.shared, hσ.scopes.mono (R.le hle)⟩, hle, .refl r _⟩, hu⟩

lemma keeps_generalize (h : t.Within (R.permit n)) :
    Keeps R r n (generalize t) fun m u => u.Scheme (R.permit m) :=
  fun _ hσ hn => ⟨.refl hσ, (h.later hn).generalize _⟩

lemma keeps_bind {x : String} (hx : r.bound x) (h : t.Scheme (R.permit n)) :
    Keeps R r n (Check.bind x t) fun _ _ => True :=
  keeps_modify fun _ hσ hn => ⟨⟨hσ.start, hσ.shared, hσ.scopes.bind x (h.le (R.le hn))⟩,
    le_rfl, .bind _ t hx⟩

lemma outcome_inScope (x : Check α) (σ : Session) :
    outcome (inScope x) σ =
      ((outcome x { σ with scopes := σ.scopes.push }).1,
        { (outcome x { σ with scopes := σ.scopes.push }).2 with
          scopes := (outcome x { σ with scopes := σ.scopes.push }).2.scopes.pop }) := rfl

lemma inScope_eq_ok {a : α} (h : outcome (inScope x) σ = (.ok a, σ')) :
    ∃ σ₁, outcome x { σ with scopes := σ.scopes.push } = (.ok a, σ₁) := by
  rw [outcome_inScope, Prod.mk.injEq] at h
  exact ⟨_, Prod.ext h.1 rfl⟩

/-- A scope of its own is closed however the computation in it ends, and any name may be bound in
it. -/
lemma keeps_inScope (h : Keeps R r.inside n x Q) : Keeps R r n (inScope x) Q := by
  intro σ hσ hn
  have hx := h { σ with scopes := σ.scopes.push } ⟨hσ.start, hσ.shared, hσ.scopes.push⟩ hn
  unfold KeepsAt Ensures at hx ⊢
  rw [outcome_inScope]
  rcases houtcome : outcome x { σ with scopes := σ.scopes.push } with ⟨e | a, σ'⟩ <;>
    rw [houtcome] at hx <;> obtain ⟨⟨hσ', hle, hmoves⟩, hx⟩ := hx <;>
    exact ⟨⟨⟨hσ'.start, hσ'.shared, hσ'.scopes.pop⟩, hle, .scope hmoves⟩, hx⟩

lemma keeps_compose {t : Subst} (hs : s.Within (R.permit n)) (ht : t.Within (R.permit n)) :
    Keeps R r n (compose s t) fun m u => u.Within (R.permit m) :=
  (keeps_naming (Subst.compose_sat hs ht) (R.allows n)).imp fun _ _ hm hu => hu.later hm

lemma keeps_apply (hs : s.Within (R.permit n)) (ht : t.Within (R.permit n)) :
    Keeps R r n (apply s t) fun m u => u.Within (R.permit m) :=
  keeps_ofExcept (fun u hu _ hm => ((hs.apply ht).1 u hu).later hm)
    fun f hf => R.allows n f ((hs.apply ht).2 f hf)

lemma keeps_fits (ha : a.Within (R.permit n)) (hb : b.Within (R.permit n)) :
    Keeps R r n (naming (a.fits b)) fun _ _ => True :=
  keeps_naming (Ty.fits_sat ha hb) (R.allows n)

lemma keeps_render (h : t.Within (R.permit n)) : Keeps R r n (naming t.render) fun _ _ => True :=
  keeps_naming (Ty.render_sat h) (R.allows n)

lemma keeps_meet (ha : a.Within (R.permit n)) (hb : b.Within (R.permit n)) :
    Keeps R r n (naming (a.meet b)) fun m u => ∀ t, u = some t → t.Within (R.permit m) :=
  (keeps_naming (Ty.meet_sat ha hb) (R.allows n)).imp
    fun _ _ hm hu t ht => (hu t ht).later hm

lemma keeps_join (ha : a.Within (R.permit n)) (hb : b.Within (R.permit n)) :
    Keeps R r n (naming (a.join b)) fun m u => u.Within (R.permit m) :=
  (keeps_naming (Ty.join_sat ha hb) (R.allows n)).imp fun _ _ hm hu => hu.later hm

lemma keeps_subtract (ha : a.Within (R.permit n)) (hb : b.Within (R.permit n)) :
    Keeps R r n (naming (a.subtract b)) fun m u => u.Within (R.permit m) :=
  (keeps_naming (Ty.subtract_sat ha hb) (R.allows n)).imp fun _ _ hm hu => hu.later hm

/-- What is known of a unification in a check. -/
structure UnifiedWithin (P : Permit) (u : Unified) : Prop where
  subst : ∀ s, u.outcome = .ok s → s.Within P
  left : u.left.Within P
  right : u.right.Within P

lemma keeps_unify (ha : a.Within (R.permit n)) (hb : b.Within (R.permit n)) :
    Keeps R r n (naming (unify a b)) fun m u => UnifiedWithin (R.permit m) u :=
  (keeps_naming (unify_sat ha hb) (R.allows n)).imp fun _ _ hm hu =>
    ⟨fun s hs => (hu.subst s hs).within.later hm, (ha.wraps hu.left).later hm,
      (hb.wraps hu.right).later hm⟩

/-- What is known of a unification that succeeded, or of one that is passed over. -/
abbrev FoundWithin (P : Permit) (p : Subst × Unified) : Prop :=
  p.1.Within P ∧ p.2.left.Within P ∧ p.2.right.Within P

lemma keeps_unifyAt {l : Location} (ha : a.Within (R.permit n)) (hb : b.Within (R.permit n)) :
    Keeps R r n (unifyAt l a b) fun m p => FoundWithin (R.permit m) p := by
  refine .bind (keeps_unify ha hb) fun m u _ hu => ?_
  split
  · rename_i s hs
    have hle := fun {k} (hk : m ≤ k) => R.le hk
    exact keeps_pure fun k hk =>
      ⟨(hu.subst s hs).mono (hle hk), hu.left.mono (hle hk), hu.right.mono (hle hk)⟩
  · exact keeps_report

lemma keeps_unifyOrNot (ha : a.Within (R.permit n)) (hb : b.Within (R.permit n)) :
    Keeps R r n (unifyOrNot a b) fun m p => FoundWithin (R.permit m) p := by
  refine .bind (keeps_unify ha hb) fun m u _ hu => ?_
  have hle := fun {k} (hk : m ≤ k) => R.le hk
  split
  · rename_i s hs
    exact keeps_pure fun k hk =>
      ⟨(hu.subst s hs).mono (hle hk), hu.left.mono (hle hk), hu.right.mono (hle hk)⟩
  · exact keeps_pure fun k hk =>
      ⟨Subst.within_empty, hu.left.mono (hle hk), hu.right.mono (hle hk)⟩

lemma keeps_member {l : List α} {k : Nat} : Keeps R r n (member l k) fun _ a => a ∈ l := by
  unfold member
  split
  · rename_i a ha
    exact keeps_pure fun _ _ => List.mem_of_getElem? ha
  · exact keeps_fault (R.allows n _ trivial)

lemma keeps_unmet : Keeps R r n (fault .unmet) Q :=
  keeps_fault (R.allows n _ trivial)

end Check

end LuaTyping
