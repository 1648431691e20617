import LuaTyping.Proofs.Acceptance
import LuaTyping.Proofs.BranchNarrowing
import LuaTyping.Proofs.Deepening
import LuaTyping.Proofs.OwnScopes

set_option autoImplicit false

/-!
# Booleans as conditions

A conditional statement infers its condition in a scope of its own, wants it to be a boolean, and
narrows by the checks that the boolean carries. These checks may have been made long before: a
boolean keeps them when it is stored, returned and drawn again. So a boolean that could be inferred
where the statement stands need not be accepted as a condition. It is refused if it is wrapped in a
tuple, as what a call gives is, although operators look into tuples; and if some check that it
carries can no longer be met.

The checks come only from comparisons of the statements before, so without those nothing but tuples
is refused.

## Main definitions

* `Node.compared` — the places that are compared in a tree.
* `Check.Accepts` — statements are accepted one after the other.
* `Check.Replays` — checks can be met, one after the other.

## Main results

* `Check.boolean_condition_accepted_iff` — which booleans are accepted as conditions.
-/

namespace LuaTyping

/-! ## Compared places -/

namespace Node

/-- The places that a tree itself compares. -/
def compares : Node → List Node
  | binary _ left op right =>
    if op.family? = some .comparison then comparedPlaces left right else []
  | _ => []

/-- The places that are compared somewhere in a tree. -/
def compared (t : Node) : List Node := t.subtrees.flatMap compares

lemma compared_subset_of_mem_parts {t m : Node} (hm : m ∈ t.parts) : m.compared ⊆ t.compared := by
  intro p hp
  obtain ⟨k, hk, hp⟩ := List.mem_flatMap.1 hp
  exact List.mem_flatMap.2 ⟨k, subtrees_subset_of_mem_parts m hm hk, hp⟩

/-- A tree is as it can be written, and compares certain places only. -/
structure Comparing (place : Node → Prop) (t : Node) : Prop where
  written : t.Everywhere Written
  places : t.Everywhere fun n => ∀ p ∈ n.compares, place p

variable {place : Node → Prop} {t : Node}

lemma comparing_of_compared (hw : t.Everywhere Written) (h : ∀ p ∈ t.compared, place p) :
    t.Comparing place := by
  refine ⟨hw, everywhere_of (q := fun n => ∀ p ∈ n.compared, place p) (fun n hn p hp => ?_)
    (fun n hn m hm p hp => hn p (compared_subset_of_mem_parts hm hp)) h⟩
  exact hn p (List.mem_flatMap.2 ⟨n, n.mem_subtrees, hp⟩)

lemma Comparing.part {m : Node} (h : t.Comparing place) (hm : m ∈ t.parts) : m.Comparing place :=
  ⟨h.written.part hm, h.places.part hm⟩

/-- A place that may be remembered: it is of the kind, and so are the places compared in it. -/
def Remembered (place : Node → Prop) (p : Node) : Prop := place p ∧ p.Comparing place

lemma Comparing.suits (h : t.Comparing place) (n : Nat) :
    t.Suits (.about (Remembered place)) n := by
  cases t with
  | binary l left op right =>
    intro hop p hp
    refine ⟨h.places.here p ?_, h.written.comparedPlaces p hp, h.places.comparedPlaces p hp⟩
    rw [compares, if_pos hop]
    exact hp
  | function => exact fun l t hnote => (h.written.here l t hnote).within fun _ => trivial
  | declare =>
    exact ⟨fun _ _ _ => trivial,
      fun l t hnote => (h.written.here.2 l t hnote).within fun _ => trivial⟩
  | _ => trivial

lemma Comparing.everywhere_suits (h : t.Comparing place) (n : Nat) :
    t.Everywhere (Suits (.about (Remembered place)) n) :=
  everywhere_of (fun _ ht => Comparing.suits ht n) (fun _ ht _ hm => ht.part hm) h

end Node

namespace Check

open Node

variable {place : Node → Prop} {σ σ₁ σ₂ : Session} {e : Node} {l : Location} {ss : List Node}

lemma infers_of_comparing {t : Node} (h : t.Comparing place) (depth : Nat) :
    Infers (.about (Remembered place)) .any 0 (inferTo depth) t :=
  inferTo_keeps (R := .about (Remembered place)) trivial
    (fun m _ hp => Comparing.everywhere_suits hp.2 m) depth (h.everywhere_suits 0)

/-! ## Runs -/

/-- Statements are accepted one after the other. -/
inductive Accepts : Session → List Node → Session → Prop
  | nil (σ : Session) : Accepts σ [] σ
  | cons {σ σ₁ σ₂ : Session} {s : Node} {ss : List Node} {i : Inferred} :
      outcome (Check.infer s) σ = (.ok i, σ₁) → Accepts σ₁ ss σ₂ → Accepts σ (s :: ss) σ₂

/-- A run remembers only places that its statements compare, or that were remembered before. -/
lemma Accepts.within (h : Accepts σ ss σ₁) (hss : ∀ s ∈ ss, s.Comparing place)
    (hσ : σ.Within (.about (Remembered place))) : σ₁.Within (.about (Remembered place)) := by
  induction h with
  | nil => exact hσ
  | @cons σ σ₁ σ₂ s ss i hinfer _ ih =>
    have hs := (infers_of_comparing (hss s (by simp)) (depthFor s)).session hσ (Nat.zero_le _)
    rw [show inferTo (depthFor s) s = Check.infer s from rfl, hinfer] at hs
    exact ih (fun s hs => hss s (by simp [hs])) hs.1

/-! ## Meeting checks -/

/-- Checks can be met, one after the other: the place has a type, this has a common part with the
type that the place was compared with, and the place can be given this part. -/
inductive Replays (infer : Inference) : Session → List Checked → Prop
  | nil (σ : Session) : Replays infer σ []
  | cons {σ σ₁ σ₂ : Session} {p : Node} {t u : Ty} {now : Inferred} {letters : Letters}
      {rest : List Checked} :
      outcome (infer p) σ = (.ok now, σ₁) →
      outcome (now.type.meet t) σ₁.letters = (.ok (some u), letters) →
      outcome (restrict infer p u) { σ₁ with letters } = (.ok (), σ₂) →
      Replays infer σ₂ rest → Replays infer σ ((p, t) :: rest)

variable {checks : List Checked} {v : Option Literal} {i : Inferred}

/-- Narrowing goes through if the checks can be met. -/
lemma isOk_narrowTo_iff {infer : Inference} :
    (outcome (narrowTo infer l checks) σ).1.isOk = true ↔ Replays infer σ checks := by
  induction checks generalizing σ with
  | nil => exact ⟨fun _ => .nil σ, fun _ => rfl⟩
  | cons c rest ih =>
    obtain ⟨p, t⟩ := c
    constructor
    · intro h
      obtain ⟨_, _, h⟩ := exists_of_isOk h
      obtain ⟨now, σ₁, hnow, h⟩ := bind_eq_ok.1 h
      obtain ⟨u, σ₂, hnaming, h⟩ := bind_eq_ok.1 h
      obtain ⟨letters, hmeet⟩ := naming_eq_ok hnaming
      rw [outcome_naming, hmeet] at hnaming
      obtain rfl := (Prod.mk.inj hnaming).2
      cases u with
      | none =>
        obtain ⟨_, _, _, h⟩ := bind_eq_ok.1 h
        obtain ⟨_, _, _, h⟩ := bind_eq_ok.1 h
        exact nomatch (Prod.mk.inj h).1
      | some u =>
        obtain ⟨_, σ₃, hrestrict, h⟩ := bind_eq_ok.1 h
        exact .cons hnow hmeet hrestrict (ih.1 (by rw [h]; rfl))
    · intro h
      cases h with
      | cons hnow hmeet hrestrict hrest =>
        rw [narrowTo, outcome_bind, hnow]
        simp only
        rw [outcome_bind, outcome_naming, hmeet]
        simp only
        rw [outcome_bind, hrestrict]
        exact ih.2 hrest

/-- A check by a simple value, on a name that has a union of simple values as its type. -/
def OnName (s : Scopes) (k : Checked) : Prop :=
  ∃ l x U c v more, k = (.var l x, .con c [] v more) ∧ (Ty.con c [] v more).Scalar ∧
    s.local? x = some U ∧ U.Scalar

/-- The types that a name is checked for are all named alike, and so is an alternative of its own
type. -/
def Compatible (s : Scopes) (checks : List Checked) : Prop :=
  ∀ l x t U, (.var l x, t) ∈ checks → s.local? x = some U →
    ∃ c, (∃ m ∈ U.members, m.isNamed c = true) ∧
      ∀ l' t', (.var l' x, t') ∈ checks → t'.isNamed c = true

variable {s : Scopes} {x c : String} {U : Ty} {lx : Location} {rest more ks : List Checked}
  {w : Option Literal}

lemma OnName.bind {k : Checked} (h : OnName s k) (hU : U.Scalar) : OnName (s.bind x U) k := by
  obtain ⟨l, y, T, c, v, more, rfl, hsimple, hy, hT⟩ := h
  by_cases hyx : y = x
  · exact ⟨l, y, U, c, v, more, rfl, hsimple, hyx ▸ Scopes.local?_bind_self, hU⟩
  · exact ⟨l, y, T, c, v, more, rfl, hsimple, (Scopes.local?_enter_of_ne hyx).trans hy, hT⟩

/-- After a check, those that follow have to be compatible with what it leaves. -/
lemma compatible_cons_iff (hx : s.local? x = some U)
    (hnamed : ∃ m ∈ U.members, m.isNamed c = true) :
    Compatible s ((.var lx x, .con c [] v more) :: rest) ↔
      Compatible (s.bind x (.con c [] w ks)) rest := by
  have hself : (s.bind x (.con c [] w ks)).local? x = some (.con c [] w ks) :=
    Scopes.local?_bind_self
  have hother : ∀ {y}, y ≠ x → (s.bind x (.con c [] w ks)).local? y = s.local? y :=
    fun hy => Scopes.local?_enter_of_ne hy
  constructor
  · intro h l y t T hmem hT
    by_cases hy : y = x
    · subst hy
      cases hself.symm.trans hT
      obtain ⟨d, _, hall⟩ := h lx y _ U List.mem_cons_self hx
      obtain rfl : c = d := beq_iff_eq.1 (hall lx _ List.mem_cons_self)
      exact ⟨c, ⟨_, List.mem_singleton_self _, beq_self_eq_true c⟩,
        fun l' t' hmem' => hall l' t' (by simp [hmem'])⟩
    · obtain ⟨d, hd, hall⟩ := h l y t T (by simp [hmem]) ((hother hy).symm.trans hT)
      exact ⟨d, hd, fun l' t' hmem' => hall l' t' (by simp [hmem'])⟩
  · intro h l y t T hmem hT
    by_cases hy : y = x
    · subst hy
      cases hx.symm.trans hT
      refine ⟨c, hnamed, fun l' t' hmem' => ?_⟩
      rcases List.mem_cons.1 hmem' with heq | hmem'
      · rw [(Prod.mk.inj heq).2]
        simp [Ty.isNamed]
      · obtain ⟨d, ⟨m, hm, hd⟩, hall⟩ := h l' y t' _ hmem' hself
        obtain rfl := List.mem_singleton.1 hm
        exact (beq_iff_eq.1 hd : c = d) ▸ hall l' t' hmem'
    · have hrest : ∀ {l' t'}, (Node.var l' y, t') ∈ (.var lx x, .con c [] v more) :: rest →
          (Node.var l' y, t') ∈ rest := by
        intro l' t' hmem'
        refine (List.mem_cons.1 hmem').resolve_left fun heq => hy ?_
        exact (Node.var.inj (Prod.mk.inj heq).1).2
      obtain ⟨d, hd, hall⟩ := h l y t T (hrest hmem) ((hother hy).trans hT)
      exact ⟨d, hd, fun l' t' hmem' => hall l' t' (hrest hmem')⟩

/-- Checks on names can be met, one after the other, if for each name they agree on one of the
alternatives of its type.

**Proof sketch.** Induction on the checks. The first one leaves a simple value that is named like
the type it is for, or nothing if no alternative is. -/
lemma replays_iff_compatible (depth : Nat) (h : ∀ k ∈ checks, OnName σ.scopes k) :
    Replays (inferTo (depth + 1)) σ checks ↔ Compatible σ.scopes checks := by
  induction checks generalizing σ with
  | nil => exact iff_of_true (.nil σ) (by simp [Compatible])
  | cons k rest ih =>
    obtain ⟨lx, x, U, c, v, more, rfl, hsimple, hx, hU⟩ := h k (by simp)
    have hvar : outcome (inferTo (depth + 1) (.var lx x)) σ = (.ok (ofType U), σ) :=
      outcome_inferVar hx hU.ground
    have hmeet : U.meet (.con c [] v more) = pure (U.meetCon c v more) :=
      hU.meetTo_meetCon (Nat.le_add_right _ _) v
    have hvalue : ∀ y, v = some y → y.equal y = true := by
      cases hsimple with
      | con _ _ hv => exact hv
    have hiff : (U.meetCon c v more).isSome = true ↔ _ := hU.isSome_meetCon_iff
    cases hu : U.meetCon c v more with
    | none =>
      rw [hu] at hiff
      refine iff_of_false (fun hreplays => ?_) fun hcompatible => ?_
      · cases hreplays with
        | cons hnow hmeet' =>
          obtain ⟨rfl, rfl⟩ := eq_of_outcome_eq hvar hnow
          rw [ofType, hmeet, hu] at hmeet'
          cases hmeet'
      · obtain ⟨d, hd, hall⟩ := hcompatible lx x _ U List.mem_cons_self hx
        obtain rfl : c = d := beq_iff_eq.1 (hall lx _ List.mem_cons_self)
        cases hiff.2 hd
    | some u =>
      obtain ⟨⟨w, ks, rfl⟩, huScalar, hnamed⟩ := hU.meetCon_eq_some hvalue hu
      rw [compatible_cons_iff hx hnamed]
      have hrest : ∀ k ∈ rest, OnName (σ.scopes.bind x (.con c [] w ks)) k :=
        fun k hk => (h k (by simp [hk])).bind huScalar
      rw [← ih (σ := { σ with scopes := σ.scopes.bind x (.con c [] w ks) }) hrest]
      have hmeet' : outcome (U.meet (.con c [] v more)) σ.letters =
          (.ok (some (.con c [] w ks)), σ.letters) := by rw [hmeet, hu]; rfl
      constructor
      · intro hreplays
        cases hreplays with
        | cons hnow hmeet'' hrestrict hreplays =>
          obtain ⟨rfl, rfl⟩ := eq_of_outcome_eq hvar hnow
          obtain ⟨heq, rfl⟩ := eq_of_outcome_eq hmeet' hmeet''
          cases heq
          obtain rfl := (Prod.mk.inj hrestrict).2
          exact hreplays
      · exact fun hreplays => .cons hvar hmeet' rfl hreplays

/-! ## Conditional statements with an empty block -/

/-- The statement `if e then end`. -/
def bareConditional (l lb : Location) (e : Node) : Node := .branch l e (.chunk lb [] none) [] none

/-- A type whose first innermost component is a boolean is a boolean itself, or a tuple. -/
lemma boolean_or_tuple_of_flatten {t : Ty} (h : t.flatten = .ok (.con "boolean" [] v checks)) :
    (t.isNamed "tuple" = false ∧ t = .con "boolean" [] v checks) ∨
      (t.isNamed "tuple" = true ∧ ∃ args w more, t = .con "tuple" args w more) := by
  cases t with
  | con c args w more =>
    by_cases hc : c = "tuple"
    · subst hc
      exact .inr ⟨by simp [Ty.isNamed], args, w, more, rfl⟩
    · rw [Ty.flatten_of_ne hc] at h
      exact .inl ⟨by simp [Ty.isNamed, hc], Except.ok.inj h⟩
  | _ => cases h

/-- The checks of a boolean that was inferred are about places that are remembered. -/
lemma place_of_flatten {t : Ty} (ht : t.Within (.about place))
    (h : t.flatten = .ok (.con "boolean" [] v checks)) : ∀ c ∈ checks, place c.1 := by
  have hinitial : Session.initial.Within (.about place) :=
    Session.within_initial (Nat.zero_le _) fun _ _ => trivial
  have hflatten : outcome (ofExcept t.flatten) .initial =
      (.ok (.con "boolean" [] v checks), .initial) := by
    rw [h]
    rfl
  obtain ⟨_, hboolean⟩ := (keeps_flatten (R := .about place) (r := .any) (n := 0) ht .initial
    hinitial (Nat.zero_le _)).of_eq_ok hflatten
  exact fun c hc => (conditionChecks_within (R := .about place) (n := 0) hboolean c hc).1

/-- A condition that is wrapped in a tuple is refused. -/
lemma outcome_inferBranch_tuple {infer : Inference} {args : List Ty} {w : Option Literal}
    {more : List Checked} (hc : outcome (inScope (infer e)) σ = (.ok i, σ₁))
    (htype : i.type = .con "tuple" args w more) (l : Location) (body : Node)
    (otherwise : Option Node) :
    outcome (inferBranch infer l e body otherwise) σ =
      (.error (.report l "Types dont unify: Expected `boolean`, got `tuple`"), σ₁) := by
  obtain ⟨d, hd⟩ := exists_depthFor (Nat.add_pos_left (Ty.size_pos (.con "tuple" args w more))
    Ty.boolean.size)
  have hunify : unify i.type .boolean = pure ⟨.error
      "Types dont unify: Expected `boolean`, got `tuple`", .con "tuple" args w more, .boolean⟩ := by
    rw [htype, unify, hd]
    exact Ty.unifyTo_con_of_ne (by decide) (d + 2)
  rw [inferBranch_eq, outcome_bind, hc]
  simp only [unifyAt, hunify]
  rfl

/-- A condition that is a boolean is accepted by a statement with an empty block if its checks can
be met. -/
lemma isOk_inferBranch_iff {depth : Nat}
    (hc : outcome (inScope (inferTo (depth + 1) e)) σ = (.ok i, σ₁))
    (htype : i.type = .con "boolean" [] v checks) (l lb : Location) :
    (outcome (inferBranch (inferTo (depth + 1)) l e (.chunk lb [] none) none) σ).1.isOk = true ↔
      Replays (inferTo (depth + 1)) { σ₁ with scopes := σ₁.scopes.push } checks := by
  obtain ⟨d, hd⟩ := exists_depthFor (Nat.add_pos_left (Ty.size_pos (.con "boolean" [] v checks))
    Ty.boolean.size)
  have hunify : unify i.type .boolean =
      pure ⟨.ok .empty, .con "boolean" [] v checks, .boolean⟩ := by
    obtain ⟨r, hr, h⟩ := Ty.unifyTo_con (c := "boolean") (by decide) "boolean" v checks [] (d + 2)
    rcases h with ⟨_, rfl⟩ | ⟨hne, _⟩
    · rw [htype, unify, hd]
      exact hr
    · exact absurd rfl hne
  rw [← isOk_narrowTo_iff (l := l), inferBranch_eq, outcome_bind, hc]
  simp only [unifyAt, hunify]
  show (outcome (inferBranches _ l (conditionChecks i.type) i _ none)
    { σ₁ with scopes := σ₁.scopes.push }).1.isOk = true ↔ _
  rw [htype, conditionChecks, inferBranches, outcome_bind]
  rcases outcome (narrowTo (inferTo (depth + 1)) l checks) _ with ⟨stop | ⟨⟩, σ₂⟩
  · exact Iff.rfl
  · have happly : i.subst.apply (.tuple []) = .ok (.tuple []) :=
      (Ty.ground_con_iff.2 (by simp)).apply _
    simp only [outcome_bind, outcome_infer_empty, Check.apply, happly]
    exact iff_of_true rfl rfl

/-- What is inferred of an expression where it stands is what a statement infers of it as a
condition, in a scope of its own and to a greater depth. -/
lemma outcome_condition {depth : Nat} (he : e.Formed Ty.Annotated .expr)
    (hinfer : outcome (Check.infer e) σ = (.ok i, σ₁)) (hdepth : depthFor e ≤ depth) :
    outcome (inScope (inferTo depth e)) σ = (.ok i, σ₁) := by
  have hbinds : e.BindsIn fun _ => False := he.bindsIn fun x hx => by
    rw [binds_eq_nil (he.isBinding_eq_false (by decide))] at hx
    exact absurd hx List.not_mem_nil
  rw [outcome_inScope_inferTo depth hbinds]
  exact inferTo_eq_ok_of_le hdepth hinfer

/-- The statement infers its condition as it would be inferred alone, but goes deeper into it. -/
lemma infer_bareConditional (he : e.Formed Ty.Annotated .expr)
    (hinfer : outcome (Check.infer e) σ = (.ok i, σ₁)) (l lb : Location) :
    ∃ depth, depthFor (bareConditional l lb e) = depth + 2 ∧
      outcome (inScope (inferTo (depth + 1) e)) σ = (.ok i, σ₁) ∧
      Check.infer (bareConditional l lb e) =
        inferBranch (inferTo (depth + 1)) l e (.chunk lb [] none) none := by
  obtain ⟨depth, hdepth, hle⟩ : ∃ depth, depthFor (bareConditional l lb e) = depth + 2 ∧
      depthFor e ≤ depth + 1 := by
    refine ⟨depthFor (bareConditional l lb e) - 2, ?_, ?_⟩ <;>
      simp only [bareConditional, depthFor, size] <;> omega
  refine ⟨depth, hdepth, outcome_condition he hinfer hle, ?_⟩
  rw [Check.infer, hdepth]
  rfl

/-- What a boolean carries after a run are checks on places that the run has compared. -/
lemma compared_of_mem_checks {file source : String} {program : Node}
    (hparse : parse file source = .ok program) (hss : ss ⊆ program.parts)
    (hrun : Accepts .initial ss σ) (he : e.Formed Ty.Annotated .expr)
    (hcompared : e.compared = []) (hinfer : outcome (Check.infer e) σ = (.ok i, σ₁))
    (hboolean : i.type.flatten = .ok (.con "boolean" [] v checks)) :
    ∀ c ∈ checks, ∃ s ∈ ss, c.1 ∈ s.compared := by
  have hstatements : ∀ s ∈ ss, s.Comparing fun p => ∃ s ∈ ss, p ∈ s.compared := fun s hs =>
    comparing_of_compared ((parse_written hparse).part (hss hs)) fun p hp => ⟨s, hs, hp⟩
  have hexpr : e.Comparing fun p => ∃ s ∈ ss, p ∈ s.compared :=
    comparing_of_compared (he.everywhere (fun _ _ hr hn => hn.written hr) (by decide))
      (by simp [hcompared])
  have hwithin := hrun.within hstatements
    (Session.within_initial (Nat.zero_le _) fun _ _ => trivial)
  obtain ⟨_, hi⟩ := (infers_of_comparing hexpr (depthFor e) σ hwithin
    (Nat.zero_le _)).of_eq_ok hinfer
  exact fun c hc => (place_of_flatten hi.type hboolean c hc).1

/-- **Which booleans are accepted as conditions**. Let any statements of a text be accepted one
after the other, and after them an expression that compares nothing, with a type that is a boolean
or a tuple around one. Then all checks that the boolean carries are about places that the statements
compare. As the condition of `if e then end`, a tuple is refused with a report; a boolean is
accepted just if its checks can be met once more, in the scope that the statement opens. If they are
on names, for simple values, this says that the types that a name is checked for are named alike, as
an alternative of its own type. And if the statements compare nothing, exactly the tuples are
refused.

**Proof sketch.** The expression binds nothing where it stands, so the statement infers the same of
it in a scope of its own. A tuple does not unify with a boolean, whatever is in it. A boolean does,
and then the narrowing by its checks decides, since nothing can fail in an empty block. That the
session remembers only compared places is kept by every statement of the run. -/
theorem boolean_condition_accepted_iff {file source : String} {program : Node} {i : Inferred}
    {v : Option Literal} {checks : List Checked} (hparse : parse file source = .ok program)
    (hss : ss ⊆ program.parts) (hrun : Accepts .initial ss σ) (he : e.Formed Ty.Annotated .expr)
    (hcompared : e.compared = []) (hinfer : outcome (Check.infer e) σ = (.ok i, σ₁))
    (hboolean : i.type.flatten = .ok (.con "boolean" [] v checks)) (l lb : Location) :
    (∀ c ∈ checks, ∃ s ∈ ss, c.1 ∈ s.compared) ∧
    (i.type.isNamed "tuple" = true → outcome (Check.infer (bareConditional l lb e)) σ =
      (.error (.report l "Types dont unify: Expected `boolean`, got `tuple`"), σ₁)) ∧
    (i.type.isNamed "tuple" = false →
      ((outcome (Check.infer (bareConditional l lb e)) σ).1.isOk = true ↔
        Replays (inferTo (depthFor (bareConditional l lb e) - 1))
          { σ₁ with scopes := σ₁.scopes.push } checks) ∧
      ((∀ k ∈ checks, OnName σ₁.scopes k) →
        ((outcome (Check.infer (bareConditional l lb e)) σ).1.isOk = true ↔
          Compatible σ₁.scopes checks))) ∧
    ((∀ s ∈ ss, s.compared = []) →
      ((outcome (Check.infer (bareConditional l lb e)) σ).1.isOk = true ↔
        i.type.isNamed "tuple" = false)) := by
  have hchecks := compared_of_mem_checks hparse hss hrun he hcompared hinfer hboolean
  obtain ⟨depth, hdepth, hcondition, hconditional⟩ := infer_bareConditional he hinfer l lb
  rw [hconditional, hdepth]
  rcases boolean_or_tuple_of_flatten hboolean with ⟨hnamed, htype⟩ | ⟨hnamed, args, w, more, htype⟩
  · have hiff := isOk_inferBranch_iff hcondition htype l lb
    refine ⟨hchecks, fun h => absurd (h.symm.trans hnamed) Bool.false_ne_true.symm,
      fun _ => ⟨hiff, fun hnames => ?_⟩, fun hnothing => ?_⟩
    · -- a new frame changes the type of no name
      have hpush : ∀ x, σ₁.scopes.push.local? x = σ₁.scopes.local? x :=
        fun x => Scopes.local?_cons_of_none rfl
      simp only [OnName, Compatible, ← hpush] at hnames ⊢
      exact hiff.trans (replays_iff_compatible depth hnames)
    · -- without comparisons there are no checks to meet
      have hnone : checks = [] := List.eq_nil_iff_forall_not_mem.2 fun c hc => by
        obtain ⟨s, hs, hc⟩ := hchecks c hc
        exact absurd (hnothing s hs ▸ hc) List.not_mem_nil
      exact iff_of_true (hiff.2 (hnone ▸ .nil _)) hnamed
  · have hrefused := outcome_inferBranch_tuple hcondition htype l (.chunk lb [] none) none
    refine ⟨hchecks, fun _ => hrefused, fun h => absurd (h.symm.trans hnamed) Bool.false_ne_true,
      fun _ => ?_⟩
    rw [hrefused, hnamed]
    exact iff_of_false Bool.false_ne_true Bool.false_ne_true.symm

/-! ### Stored checks and calls -/

/-- Runs statements one after the other. -/
def inferAll (ss : List Node) : Check Unit := ss.forM fun s => do let _ ← Check.infer s

lemma accepts_of_inferAll {u : Unit} (h : outcome (inferAll ss) σ = (.ok u, σ₁)) :
    Accepts σ ss σ₁ := by
  induction ss generalizing σ with
  | nil =>
    obtain rfl := (Prod.mk.inj h).2
    exact .nil σ
  | cons s ss ih =>
    obtain ⟨_, σ', hs, h⟩ := bind_eq_ok.1 h
    obtain ⟨i, σ'', hinfer, hpure⟩ := bind_eq_ok.1 hs
    obtain rfl := (Prod.mk.inj hpure).2
    exact .cons hinfer (ih h)

/-- If the statements of a text are accepted, and after them an expression with a type that passes a
test and has a boolean in it: whether the expression is then accepted as a condition. -/
def asCondition? (text : String) (e : Node) (test : Ty → Bool) : Option Bool :=
  match parse "t.lua" text with
  | .error _ => none
  | .ok program =>
    match outcome (inferAll program.parts) .initial with
    | (.error _, _) => none
    | (.ok _, σ) =>
      match (outcome (Check.infer e) σ).1 with
      | .error _ => none
      | .ok i =>
        match i.type.flatten with
        | .ok (.con c [] _ _) =>
          if c = "boolean" ∧ test i.type then
            some (outcome (Check.infer (bareConditional default default e)) σ).1.isOk
          else none
        | _ => none

lemma asCondition?_eq_some {text : String} {e : Node} {test : Ty → Bool} {b : Bool}
    (h : asCondition? text e test = some b) :
    ∃ program σ i σ₁ v checks, parse "t.lua" text = .ok program ∧
      Accepts .initial program.parts σ ∧ outcome (Check.infer e) σ = (.ok i, σ₁) ∧
      i.type.flatten = .ok (.con "boolean" [] v checks) ∧ test i.type = true ∧
      (outcome (Check.infer (bareConditional default default e)) σ).1.isOk = b := by
  unfold asCondition? at h
  split at h
  · cases h
  rename_i program hparse
  split at h
  · cases h
  rename_i u σ hrun
  split at h
  · cases h
  rename_i i hi
  split at h
  · rename_i c v checks hflatten
    split at h
    · rename_i htest
      obtain ⟨rfl, htest⟩ := htest
      exact ⟨program, σ, i, _, v, checks, hparse, accepts_of_inferAll hrun, Prod.ext hi rfl,
        hflatten, htest, Option.some.inj h⟩
    · cases h
  · cases h

section Texts

set_option maxRecDepth 100000

lemma asCondition?_storedCheck : asCondition? "local x=1local b=x==1" (.var default "b")
    (fun t => !t.isNamed "tuple" && !(conditionChecks t).isEmpty) = some true := by
  decide +kernel

lemma asCondition?_call : asCondition? "function f()return true end"
    (.call default (.var default "f") []) (fun _ => true) = some false := by
  decide +kernel

end Texts

/-- A stored boolean is accepted, and so its checks can be met once more. -/
theorem boolean_condition_accepted_iff_storedCheck : ∃ program σ i σ₁ v checks,
    parse "t.lua" "local x=1local b=x==1" = .ok program ∧ Accepts .initial program.parts σ ∧
    outcome (Check.infer (.var default "b")) σ = (.ok i, σ₁) ∧
    i.type.flatten = .ok (.con "boolean" [] v checks) ∧ checks ≠ [] ∧
    (∀ c ∈ checks, ∃ s ∈ program.parts, c.1 ∈ s.compared) ∧
    Replays (inferTo (depthFor (bareConditional default default (.var default "b")) - 1))
      { σ₁ with scopes := σ₁.scopes.push } checks := by
  obtain ⟨program, σ, i, σ₁, v, checks, hparse, hrun, hinfer, hboolean, htest, hok⟩ :=
    asCondition?_eq_some asCondition?_storedCheck
  obtain ⟨hchecks, _, hiff, _⟩ := boolean_condition_accepted_iff hparse (List.Subset.refl _) hrun
    (.var _ _) rfl hinfer hboolean default default
  rw [Bool.and_eq_true, Bool.not_eq_true', Bool.not_eq_true'] at htest
  refine ⟨program, σ, i, σ₁, v, checks, hparse, hrun, hinfer, hboolean, ?_, hchecks,
    (hiff htest.1).1.1 hok⟩
  rcases boolean_or_tuple_of_flatten hboolean with ⟨_, htype⟩ | ⟨hnamed, _⟩
  · rintro rfl
    rw [htype] at htest
    exact nomatch htest.2
  · exact absurd (hnamed.symm.trans htest.1) Bool.false_ne_true.symm

/-- What a call returns is no condition, even if it is a boolean and nothing was ever compared. -/
theorem call_refused_as_condition : ∃ program σ i σ₁ v checks,
    parse "t.lua" "function f()return true end" = .ok program ∧
    Accepts .initial program.parts σ ∧
    outcome (Check.infer (.call default (.var default "f") [])) σ = (.ok i, σ₁) ∧
    i.type.flatten = .ok (.con "boolean" [] v checks) ∧
    (outcome (Check.infer (bareConditional default default
      (.call default (.var default "f") []))) σ).1.isOk = false := by
  obtain ⟨program, σ, i, σ₁, v, checks, hparse, hrun, hinfer, hboolean, _, hok⟩ :=
    asCondition?_eq_some asCondition?_call
  exact ⟨program, σ, i, σ₁, v, checks, hparse, hrun, hinfer, hboolean, hok⟩

end Check

end LuaTyping
