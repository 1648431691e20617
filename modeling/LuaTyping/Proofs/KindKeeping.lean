import LuaTyping.Proofs.Confinement
import LuaTyping.Proofs.Kinds
import LuaTyping.Proofs.ReturnMerging

set_option autoImplicit false

/-!
# Local names keep their kinds

An assignment to a local name unifies the new type with the broadened old one, and binds the name to
the new type. So the type of the name may change with every statement, but what it is bound to in the
end still extends, up to literal values, the broadened type that it had at first. Every other
statement leaves the type alone, whatever it assigns to inside of functions and branches.

## Main definitions

* `Check.Gives` — a statement assigns a type to a name.
* `Check.Run` — statements are accepted one after the other, and what they assign to a name
  is simple.

## Main results

* `Check.infer_keeps_kind` — one accepted statement keeps the kind of a name,
* `Check.run_keeps_kind` — and so do any number of them.
* `Check.kind_test_breaks_off` — the test whether a type extends its broadened self can
  break off.
-/

namespace LuaTyping

/-! ## Checks on any trees -/

lemma sizeOf_pair_lt {α β : Type} [SizeOf α] [SizeOf β] {l : List (α × β)} {p : α × β}
    (h : p ∈ l) : sizeOf p.1 + sizeOf p.2 < sizeOf l := by
  obtain ⟨a, b⟩ := p
  have hlt := List.sizeOf_lt_of_mem h
  simp only [Prod.mk.sizeOf_spec] at hlt ⊢
  omega

/-- Anything may occur in a type, if checks may be on any trees. -/
lemma Ty.within_about (t : Ty) : t.Within (.about fun _ => True) := by
  cases t with
  | var => exact .var trivial
  | con c args v checks =>
    refine .con (fun _ _ => trivial) (fun a _ => a.within_about) (fun _ _ _ => trivial) ?_
    intro _ k hk
    have := sizeOf_pair_lt hk
    exact k.2.within_about
  | table fields =>
    refine .table (fun _ _ => trivial) (fun f hf => ?_) fun f hf => ?_
    · have := sizeOf_pair_lt hf
      exact f.1.within_about
    · have := sizeOf_pair_lt hf
      exact f.2.within_about
  | union left right => exact .union left.within_about right.within_about
  | all _ body => exact .all trivial trivial body.within_about
termination_by sizeOf t

lemma Subst.within_about (s : Subst) : s.Within (.about fun _ => True) :=
  fun b _ => ⟨trivial, b.2.within_about⟩

lemma Session.within_about (σ : Session) : σ.Within (.about fun _ => True) :=
  ⟨Nat.zero_le _, fun e _ => ⟨trivial, e.2.within_about⟩,
    ⟨fun _ _ _ _ t _ => .mono t.within_about, fun g _ => .mono g.2.within_about⟩⟩

lemma Node.suits_about (n : Node) : n.Suits (.about fun _ => True) 0 := by
  cases n with
  | binary => exact fun _ _ _ => trivial
  | function => exact fun _ t _ => t.within_about
  | declare => exact ⟨fun _ _ _ => trivial, fun _ t _ => t.within_about⟩
  | _ => trivial

lemma Node.everywhere_of_forall {p : Node → Prop} (h : ∀ n, p n) (n : Node) : n.Everywhere p :=
  everywhere_of (q := fun _ => True) (fun m _ => h m) (fun _ _ _ _ => trivial) trivial

/-- The reach in which certain names may be bound, and anything assigned to. -/
def Reach.binding (B : String → Prop) : Reach := ⟨B, fun _ => True, True⟩

lemma Node.obeys_binding (B : String → Prop) (n : Node) : n.Obeys (.binding B) := by
  cases n with
  | assign => exact ⟨fun _ _ _ => trivial, fun _ _ _ _ => trivial⟩
  | _ => trivial

namespace Check

variable {P : Ty → Prop} {ρ : Role}

lemma admits_binding (B : String → Prop) (n : Node) :
    Admits (.about fun _ => True) (.binding B) 0 n :=
  ⟨Node.everywhere_of_forall Node.suits_about n, Node.everywhere_of_forall (Node.obeys_binding B) n⟩

/-- From any session, the inference of a tree binds only certain names outside of scopes of its
own. -/
abbrev Tracked (B : String → Prop) (infer : Inference) (n : Node) : Prop :=
  Infers (.about fun _ => True) (.binding B) 0 infer n

lemma inferTo_tracked {n : Node} {B : String → Prop} (hn : n.Formed P ρ) (hB : ∀ x ∈ n.binds, B x)
    (depth : Nat) : Tracked B (inferTo depth) n :=
  inferTo_confined (fun p _ => ⟨admits_binding B p, fun _ _ _ _ => trivial⟩) depth
    (admits_binding B n) (hn.bindsIn hB)

lemma inferTo_tracked_expr {n : Node} (hn : n.Formed P .expr) (depth : Nat) :
    Tracked (fun _ => False) (inferTo depth) n := by
  refine inferTo_tracked hn (fun x hx => ?_) depth
  rw [Node.binds_eq_nil (hn.isBinding_eq_false (by decide))] at hx
  exact absurd hx List.not_mem_nil

/-! ## The kind of a local name -/

/-- A local name has a simple type below a given one. -/
def HasKind (x : String) (K : Ty) (s : Scopes) : Prop :=
  ∃ t, s.local? x = some t ∧ t.Simple ∧ t.Below K

variable {x : String} {K : Ty} {σ σ' : Session} {l : Location} {types : List Ty}

lemma Keeps.moves_of_eq {α : Type} {c : Check α} {r : Reach} {e : Except Stop α}
    {Q : Nat → α → Prop} (hc : Keeps (.about fun _ => True) r 0 c Q) (h : outcome c σ = (e, σ')) :
    σ.scopes.Moves r σ'.scopes := by
  have hmoves := (hc.session σ.within_about (Nat.zero_le _)).moves
  rwa [h] at hmoves

/-- Computations that do not bind a name keep its kind. -/
lemma Keeps.keeps_kind {α : Type} {c : Check α} {B : String → Prop} {a : α} {Q : Nat → α → Prop}
    (hc : Keeps (.about fun _ => True) (.binding B) 0 c Q) (hx : ¬ B x)
    (h : outcome c σ = (.ok a, σ')) (hkind : HasKind x K σ.scopes) : HasKind x K σ'.scopes := by
  obtain ⟨t, hlocal, ht, hK⟩ := hkind
  have hmoves := hc.moves_of_eq h
  have hfields : t.holdsFields = false := by cases ht <;> rfl
  exact ⟨t, hmoves.local?_eq hlocal hx fun _ => hfields, ht, hK⟩

lemma getElem?_of_member {α : Type} {as : List α} {k : Nat} {a : α}
    (h : outcome (member as k) σ = (.ok a, σ')) : as[k]? = some a := by
  rw [member] at h
  cases hk : as[k]? with
  | none =>
    rw [hk] at h
    cases h
  | some b =>
    rw [hk, pure_eq_ok] at h
    exact congrArg some h.1

variable {number : Nat}

/-- What an assignment of a simple type to a local name of simple type leaves behind: the name has
the type that it is given, which is below the broadened old one. -/
lemma local?_of_assignName {old : Ty} (hlocal : σ.scopes.local? x = some old)
    (hold : old.Simple) (hsimple : ∀ t, types[number]? = some t → t.Simple)
    (h : outcome (assignName l x types number) σ = (.ok (), σ')) :
    ∃ t, σ'.scopes.local? x = some t ∧ t.Simple ∧ t.Below old.broaden := by
  rw [assignName, outcome_bind, outcome_scopes] at h
  dsimp only at h
  rw [hlocal] at h
  obtain ⟨existing, σ₁, hexisting, h⟩ := bind_eq_ok.1 h
  obtain ⟨t, σ₂, hgiven, h⟩ := bind_eq_ok.1 h
  obtain ⟨⟨s, u⟩, σ₃, hunify, h⟩ := bind_eq_ok.1 h
  obtain ⟨v, σ₄, happly, h⟩ := bind_eq_ok.1 h
  obtain ⟨w, σ₅, hgeneralize, h⟩ := bind_eq_ok.1 h
  have ht : t.Simple := hsimple t (getElem?_of_member hgiven)
  -- instantiation, unification, substitution and generalization leave simple types alone
  obtain rfl : old = existing := by
    have heq : (old.instantiate σ.supply).1 = existing := Except.ok.inj (congrArg Prod.fst hexisting)
    rwa [hold.instantiate] at heq
  obtain ⟨k, k', hunify, hsucceeds⟩ := exists_unify_of_unifyAt hunify
  rw [(ht.unified hold.broaden hunify).1, apply_eq_ok, ht.apply, Except.ok.injEq] at happly
  obtain ⟨rfl, _⟩ := happly
  obtain rfl : t = w := by
    have heq : t.generalize _ = w := Except.ok.inj (congrArg Prod.fst hgeneralize)
    rwa [ht.generalize] at heq
  obtain rfl : { σ₅ with scopes := σ₅.scopes.bind x t } = σ' := congrArg Prod.snd h
  exact ⟨t, Scopes.local?_bind_self, ht, Ty.below_of_unify ht hold hunify hsucceeds⟩

lemma assignName_keeps_kind {T : Ty}
    (hsimple : ∀ t, types[number]? = some t → t.Simple)
    (h : outcome (assignName l x types number) σ = (.ok (), σ'))
    (hkind : HasKind x T σ.scopes) : HasKind x T σ'.scopes := by
  obtain ⟨old, hlocal, hold, hbelow⟩ := hkind
  obtain ⟨t, hlocal', ht, hbelow'⟩ := local?_of_assignName hlocal hold hsimple h
  exact ⟨t, hlocal', ht, (hbelow'.trans hold.broaden_below).trans hbelow⟩

variable {infer : Inference} {targets : List Node}

/-- Assignments to targets keep the kind of a name, if what is assigned to the name is simple. -/
lemma assignTargets_keeps_kind
    (htracked : ∀ t ∈ targets, ∀ k ∈ t.pathKeys,
      Tracked (fun _ => False) infer k)
    (hsimple : ∀ (k : Nat) lx t, targets[k]? = some (.var lx x) → types[number + k]? = some t →
      t.Simple) (h : outcome (assignTargets infer l types number targets) σ = (.ok (), σ'))
    (hkind : HasKind x K σ.scopes) : HasKind x K σ'.scopes := by
  induction targets generalizing number σ with
  | nil =>
    obtain rfl : σ = σ' := congrArg Prod.snd h
    exact hkind
  | cons target rest ih =>
    have hrest : ∀ {σ : Session},
        outcome (assignTargets infer l types (number + 1) rest) σ = (.ok (), σ') →
        HasKind x K σ.scopes → HasKind x K σ'.scopes := by
      refine ih (fun t ht => htracked t (by simp [ht])) fun k lx t hk ht => ?_
      exact hsimple (k + 1) lx t hk (by rwa [← Nat.add_assoc, Nat.add_right_comm])
    unfold assignTargets at h
    dsimp only at h
    split at h
    · rename_i lx y
      obtain ⟨_, σ₁, hname, h⟩ := bind_eq_ok.1 h
      refine hrest h ?_
      by_cases hxy : x = y
      · subst hxy
        exact assignName_keeps_kind (fun t ht => hsimple 0 lx t rfl ht) hname hkind
      · have hkeeps : Keeps (.about fun _ => True) (.binding (· = y)) 0 (assignName l y types number)
            fun _ _ => True := assignName_keeps rfl trivial fun t _ => t.within_about
        exact hkeeps.keeps_kind hxy hname hkind
    · obtain ⟨value, σ₁, hmember, h⟩ := bind_eq_ok.1 h
      obtain ⟨_, σ₂, hpath, h⟩ := bind_eq_ok.1 h
      have hkeeps := assignPath_keeps (htracked target (by simp)) (fun _ _ _ _ => trivial)
        value.within_about
      have hsame := (still_member types number σ).1
      rw [hmember] at hsame
      exact hrest h (hkeeps.keeps_kind id hpath (hsame ▸ hkind))

/-! ## Statements -/

/-- The types of the expressions of an assignment, a tuple counting as several. -/
def givenTypes (infer : Inference) (targets exprs : List Node) : Check (Subst × List Ty) := do
  targets.forM fun
    | .var _ x => await x
    | _ => pure ()
  inferExprs infer .empty [] exprs

lemma inferAssign_eq (infer : Inference) (l : Location) (targets exprs : List Node) :
    inferAssign infer l targets exprs = (do
      let (s, types) ← givenTypes infer targets exprs
      assignTargets infer l types 0 targets
      return ⟨s, .nil⟩) := by
  unfold givenTypes
  exact (bind_assoc _ _ _).symm

lemma givenTypes_keeps {R : Regime} {r : Reach} {n : Nat}
    {exprs : List Node} (h : ∀ e ∈ exprs, Infers R r n infer e) :
    Keeps R r n (givenTypes infer targets exprs) fun m p =>
      p.1.Within (R.permit m) ∧ ∀ t ∈ p.2, t.Within (R.permit m) := by
  refine .bind (keeps_forM (fun target m => ?_) targets n) fun m _ hm _ =>
    inferExprs_keeps (fun e he => (h e he).from hm) Subst.within_empty (List.forall_mem_nil _)
  split
  · exact keeps_await
  · exact keeps_pure fun _ _ => trivial

/-- An assignment keeps the kind of a name, if what it assigns to the name is simple. -/
lemma inferAssign_keeps_kind {exprs : List Node} {i : Inferred}
    (hexprs : ∀ e ∈ exprs, Tracked (fun _ => False) infer e)
    (htargets : ∀ t ∈ targets, ∀ k ∈ t.pathKeys,
      Tracked (fun _ => False) infer k)
    (hsimple : ∀ s types σ₁ (k : Nat) lx t,
      outcome (givenTypes infer targets exprs) σ = (.ok (s, types), σ₁) →
      targets[k]? = some (.var lx x) → types[k]? = some t → t.Simple)
    (h : outcome (inferAssign infer l targets exprs) σ = (.ok i, σ'))
    (hkind : HasKind x K σ.scopes) : HasKind x K σ'.scopes := by
  rw [inferAssign_eq] at h
  obtain ⟨⟨s, types⟩, σ₁, hgiven, h⟩ := bind_eq_ok.1 h
  obtain ⟨_, σ₂, hassigned, h⟩ := bind_eq_ok.1 h
  obtain rfl : σ₂ = σ' := congrArg Prod.snd h
  refine assignTargets_keeps_kind htargets (fun k lx t hk ht => ?_) hassigned ?_
  · rw [Nat.zero_add] at ht
    exact hsimple s types σ₁ k lx t hgiven hk ht
  · exact (givenTypes_keeps hexprs).keeps_kind id hgiven hkind

/-- A statement that is inferred in a session assigns a type to a name. -/
def Gives (x : String) (σ : Session) (s : Node) (t : Ty) : Prop :=
  ∃ l targets exprs, s = .assign l targets exprs ∧
    ∃ sub types σ', outcome (givenTypes (inferTo (depthFor s - 1)) targets exprs) σ =
        (.ok (sub, types), σ') ∧
      ∃ (k : Nat) (lx : Location), targets[k]? = some (.var lx x) ∧ types[k]? = some t

/-- An accepted statement that does not declare a name keeps the kind of the name, if what it assigns
to the name is simple. -/
theorem infer_keeps_kind {s : Node} {i : Inferred} (hformed : s.Formed P ρ) (hx : x ∉ s.declared)
    (hsimple : ∀ t, Gives x σ s t → t.Simple) (h : outcome (Check.infer s) σ = (.ok i, σ'))
    (hkind : HasKind x K σ.scopes) : HasKind x K σ'.scopes := by
  by_cases hassign : ∃ l targets exprs, s = .assign l targets exprs
  · obtain ⟨l, targets, exprs, rfl⟩ := hassign
    cases hformed with
    | assign _ _ htargets hexprs =>
      refine inferAssign_keeps_kind (fun e he => inferTo_tracked_expr (hexprs e he) _)
        (fun t ht k hk => inferTo_tracked_expr ((htargets t ht).pathKeys k hk) _) ?_ h hkind
      intro sub types σ₁ k lx t hgiven hk ht
      exact hsimple t ⟨l, targets, exprs, rfl, sub, types, σ₁, hgiven, k, lx, hk, ht⟩
  · -- no other statement binds the name where it stands
    have hbinds : s.binds = s.declared := by
      cases s with
      | assign l targets exprs => exact absurd ⟨l, targets, exprs, rfl⟩ hassign
      | _ => exact List.append_nil _
    exact (inferTo_tracked hformed (fun _ hy => hy) _).keeps_kind (hbinds ▸ hx) h hkind

/-- Statements that are accepted one after the other, where all that is assigned to a name is
simple. -/
inductive Run (x : String) : Session → List Node → Session → Prop
  | nil (σ : Session) : Run x σ [] σ
  | cons {σ σ₁ σ₂ : Session} {s : Node} {ss : List Node} {i : Inferred} :
      outcome (Check.infer s) σ = (.ok i, σ₁) → (∀ t, Gives x σ s t → t.Simple) → Run x σ₁ ss σ₂ →
      Run x σ (s :: ss) σ₂

lemma Run.keeps_kind {ss : List Node} (h : Run x σ ss σ') (hformed : ∀ s ∈ ss, ∃ ρ, s.Formed P ρ)
    (hx : ∀ s ∈ ss, x ∉ s.declared) (hkind : HasKind x K σ.scopes) : HasKind x K σ'.scopes := by
  induction h with
  | nil => exact hkind
  | @cons σ σ₁ σ₂ s ss i hinfer hsimple _ ih =>
    obtain ⟨ρ, hs⟩ := hformed s (by simp)
    refine ih (fun s hs => hformed s (by simp [hs])) (fun s hs => hx s (by simp [hs])) ?_
    exact infer_keeps_kind hs (hx s (by simp)) hsimple hinfer hkind

/-- A local name keeps its kind. Let its type be simple, and let any number of statements be accepted,
none of which declares the name and all of which assign only simple types to it. Then in the end the
name has a simple type that is below the broadened first one. So the test whether it extends that one
does not say no, and says yes if no constructor in it has the value `true` in its arguments. -/
theorem run_keeps_kind {T₀ : Ty} {ss : List Node} (hT₀ : T₀.Simple)
    (hlocal : σ.scopes.local? x = some T₀) (hformed : ∀ s ∈ ss, ∃ ρ, s.Formed (fun _ => True) ρ)
    (hx : ∀ s ∈ ss, x ∉ s.declared) (hrun : Run x σ ss σ') :
    ∃ T, σ'.scopes.local? x = some T ∧ T.Simple ∧ T.Below T₀.broaden ∧
      (∀ k k', outcome (T.fits T₀.broaden) k ≠ (.ok false, k')) ∧
      (T.TruelessArgs → ∀ k, ∃ k', outcome (T.fits T₀.broaden) k = (.ok true, k')) := by
  have hkind : HasKind x T₀.broaden σ.scopes := ⟨T₀, hlocal, hT₀, hT₀.below_broaden⟩
  obtain ⟨T, hlocal', hT, hbelow⟩ := hrun.keeps_kind hformed hx hkind
  exact ⟨T, hlocal', hT, hbelow, Ty.fits_ne_false_of_below hT hT₀ hbelow,
    fun htrueless => Ty.fits_of_below hT htrueless hT₀ hbelow⟩

/-! ## Examples -/

lemma Run.cons_of_isOk {s : Node} {ss : List Node}
    (hok : (outcome (Check.infer s) σ).1.isOk = true) (hsimple : ∀ t, Gives x σ s t → t.Simple)
    (hrun : Run x (outcome (Check.infer s) σ).2 ss σ') : Run x σ (s :: ss) σ' := by
  obtain ⟨i, σ₁, h⟩ := exists_of_isOk hok
  rw [h] at hrun
  exact .cons h hsimple hrun

/-- The statement `x = n`. -/
def setNumber (n : Nat) : Node :=
  .assign default [.var default "x"] [.number default (.ofNat n)]

/-- The statement `if true then x = n end`. -/
def setInside (n : Nat) : Node :=
  .branch default (.boolean default true) (.chunk default [setNumber n] none) [] none

lemma setNumber_formed (n : Nat) : (setNumber n).Formed P .statement :=
  .assign _ (by simp [Node.isPlace]) (List.forall_mem_singleton.2 (.var _ _))
    (List.forall_mem_singleton.2 (.number _ _))

lemma simple_of_gives_setNumber {n : Nat} {t : Ty} (h : Gives "x" σ (setNumber n) t) : t.Simple := by
  obtain ⟨l, targets, exprs, hs, sub, types, σ', hgiven, k, lx, hk, ht⟩ := h
  cases hs
  obtain rfl : [.literal "number" (.number (.ofNat n))] = types :=
    congrArg Prod.snd (Except.ok.inj (congrArg Prod.fst hgiven))
  cases k with
  | zero => exact Option.some.inj ht ▸ .con (by decide) (by simp)
  | succ => cases ht

/-- The session in which the local name `x` has a type. -/
def sessionWith (t : Ty) : Session :=
  { Session.initial with scopes := Session.initial.scopes.bind "x" t }

lemma local?_sessionWith (t : Ty) : (sessionWith t).scopes.local? "x" = some t :=
  Scopes.local?_bind_self

lemma simple_numberOrNil : (Ty.union .number .nil).Simple :=
  .union (.con (by decide) (by simp)) (.con (by decide) (by simp))

/-- A name whose type is `number | nil` at first keeps this kind through two assignments, with
another one in a branch between them. -/
theorem run_keeps_kind_setNumber :
    ∃ σ' T, Run "x" (sessionWith (.union .number .nil)) [setNumber 5, setInside 6, setNumber 7] σ' ∧
      σ'.scopes.local? "x" = some T ∧ T.Below (.union .number .nil) ∧
      ∀ k k', outcome (T.fits (.union .number .nil)) k ≠ (.ok false, k') := by
  have hrun : Run "x" (sessionWith (.union .number .nil)) [setNumber 5, setInside 6, setNumber 7] _ :=
    .cons_of_isOk (by decide +kernel) (fun _ => simple_of_gives_setNumber)
      (.cons_of_isOk (by decide +kernel) (fun t ⟨_, _, _, h, _⟩ => nomatch h)
        (.cons_of_isOk (by decide +kernel) (fun _ => simple_of_gives_setNumber) (.nil _)))
  have hformed : ∀ s ∈ [setNumber 5, setInside 6, setNumber 7],
      ∃ ρ, s.Formed (fun _ => True) ρ := by
    have hinside : (setInside 6).Formed (fun _ => True) .statement :=
      .branch _ (.boolean _ _) (.chunk _ (List.forall_mem_singleton.2 (setNumber_formed 6)) (by simp))
        (by simp) (by simp)
    simpa using ⟨⟨_, setNumber_formed 5⟩, ⟨_, hinside⟩, ⟨_, setNumber_formed 7⟩⟩
  obtain ⟨T, hlocal, _, hbelow, hfits, _⟩ := run_keeps_kind simple_numberOrNil
    (local?_sessionWith _) hformed (by simp [setNumber, setInside, Node.declared]) hrun
  exact ⟨_, T, hrun, hlocal, hbelow, hfits⟩

/-- The type `() | (true | boolean)`, where the right one is a tuple. -/
def nestedFlag : Ty :=
  .union (.tuple []) (.tuple [.union (.literal "boolean" (.flag true)) .boolean])

/-- A name may be bound to a simple type for which the test whether it extends its broadened self
breaks off, before anything is assigned to it. -/
theorem kind_test_breaks_off :
    ∃ σ : Session, nestedFlag.Simple ∧ σ.scopes.local? "x" = some nestedFlag ∧ Run "x" σ [] σ ∧
      ∀ k, (outcome (nestedFlag.fits nestedFlag.broaden) k).1.isOk = false := by
  refine ⟨sessionWith nestedFlag, ?_, local?_sessionWith _, .nil _, fun k => rfl⟩
  have hflags : (Ty.union (.literal "boolean" (.flag true)) .boolean).Simple :=
    .union (.con (by decide) (by simp)) (.con (by decide) (by simp))
  exact .union (.con (by decide) (by simp)) (.con (by decide) (List.forall_mem_singleton.2 hflags))

end Check

end LuaTyping
