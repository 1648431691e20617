import LuaTyping.Check.Infer
import LuaTyping.Proofs.Extension
import LuaTyping.Proofs.Regime

set_option autoImplicit false

/-!
# How returns are merged

A chunk merges what its statements return, one after the other, and in the end what its return
statement returns. This file says when the literals that one of them returns are covered by the
result. Once they are, they stay covered. Literal values are forgotten if a return statement closes
the chunk, so that until then it is enough to cover the literals up to their values.

## Main definitions

* `Node.AreLiterals` — some expressions are literals.
* `Check.Progress.Retains` — what a statement returns is not lost when it is added.
* `Check.Progress.Drops` — it is lost.
* `Check.Progress.type` — the type of a chunk without a return statement.

## Main results

* `Check.addReturn_retains`, `Check.addReturn_misses` — what is added to a result.
* `Check.inferStatements_covers` — what is covered stays covered over statements.
* `Check.addLast_covers`, `Check.addLast_literals` — a chunk that is closed by a
  return statement covers what its statements and the return statement return.
-/

namespace LuaTyping

/-! ## Literals -/

/-- The literal that an expression is, with the name of its type. Not-a-number, which is not written
as a number, equals no literal. -/
def Node.literal? : Node → Option (String × Literal)
  | .number _ v => if v.equal v then some ("number", .number v) else none
  | .string _ v => some ("string", .text v)
  | _ => none

/-- The expressions are these literals. -/
abbrev Node.AreLiterals (es : List Node) (ls : List (String × Literal)) : Prop :=
  List.Forall₂ (fun e l => e.literal? = some l) es ls

lemma Node.literal?_eq_some {e : Node} {l : String × Literal} (h : e.literal? = some l) :
    (∃ loc v, e = .number loc v ∧ v.equal v = true ∧ l = ("number", .number v)) ∨
      ∃ loc v, e = .string loc v ∧ l = ("string", .text v) := by
  cases e with
  | number loc v =>
    by_cases hv : v.equal v = true
    · rw [literal?, if_pos hv] at h
      exact .inl ⟨loc, v, rfl, hv, (Option.some.inj h).symm⟩
    · rw [literal?, if_neg hv] at h
      cases h
  | string loc v => exact .inr ⟨loc, v, rfl, (Option.some.inj h).symm⟩
  | _ => cases h

/-- A literal equals itself, and is neither a function nor absent. -/
def IsLiteral (l : String × Literal) : Prop :=
  l.2.equal l.2 = true ∧ l.1 ≠ "function" ∧ l.1 ≠ "nil"

lemma Node.AreLiterals.isLiteral {es : List Node} {ls : List (String × Literal)}
    (h : Node.AreLiterals es ls) : ∀ l ∈ ls, IsLiteral l := by
  intro l hl
  obtain ⟨e, _, he⟩ := exists_left_of_forall₂ h hl
  rcases Node.literal?_eq_some he with ⟨_, v, _, hv, rfl⟩ | ⟨_, v, _, rfl⟩
  · exact ⟨hv, by simp, by simp⟩
  · exact ⟨beq_self_eq_true v, by simp, by simp⟩

namespace Ty

variable {broad : Bool} {ls : List (String × Literal)}

lemma exists_con_of_isNamed {c : String} {t : Ty} (h : t.isNamed c = true) :
    ∃ args v checks, t = .con c args v checks := by
  cases t with
  | con d args v checks =>
    obtain rfl := beq_iff_eq.1 h
    exact ⟨args, v, checks, rfl⟩
  | var | table | union | all => cases h

/-- The types of literals. -/
def literals (ls : List (String × Literal)) : List Ty := ls.map fun l => .literal l.1 l.2

lemma covers_literals (hls : ∀ l ∈ ls, IsLiteral l) :
    (Ty.tuple (literals ls)).covers broad ls = true := by
  refine covers_con.2 ⟨rfl, rfl, ?_⟩
  induction ls with
  | nil => rfl
  | cons l ls ih =>
    rw [literals, List.map_cons, admitAll, Bool.and_eq_true]
    exact ⟨admits_literal (hls l (by simp)).1, ih fun l' hl' => hls l' (by simp [hl'])⟩

/-- Literal types are not hidden. -/
lemma anyHidden_literals {ms : List (String × Literal)} {as : List Ty} :
    anyHidden ms as (literals ls) = false := by
  induction ls generalizing ms as with
  | nil => cases ms <;> cases as <;> rfl
  | cons l ls ih =>
    cases ms with
    | nil => rfl
    | cons m ms =>
      cases as with
      | nil => rfl
      | cons a as =>
        rw [literals, List.map_cons, anyHidden_cons]
        refine ⟨?_, ih⟩
        rw [hides, literal, head?]
        rcases a.head? with _ | ⟨c, _ | x⟩ <;> rfl

end Ty

namespace Check

variable {infer : Inference} {l : Location} {p p' : Progress} {i : Inferred} {σ σ' : Session}
  {broad : Bool} {ls : List (String × Literal)}

/-! ## Return statements -/

variable {depth : Nat} {ts : List Ty} {s : Subst} {r t : Ty} {statements : List Node}

lemma inferTo_literal {e : Node} {x : String × Literal} (he : e.literal? = some x)
    (h : outcome (inferTo depth e) σ = (.ok i, σ')) : i = ofType (.literal x.1 x.2) := by
  cases depth with
  | zero => cases h
  | succ depth =>
    rcases Node.literal?_eq_some he with ⟨_, v, rfl, _, rfl⟩ | ⟨_, v, rfl, rfl⟩
    · rw [inferTo, inferStep, pure_eq_ok] at h
      exact h.1.symm
    · rw [inferTo, inferStep, pure_eq_ok] at h
      exact h.1.symm

lemma returned_literal {e : Node} {x : String × Literal} (he : e.literal? = some x)
    (h : outcome (returned e (.literal x.1 x.2)) σ = (.ok ts, σ')) : ts = [.literal x.1 x.2] := by
  rcases Node.literal?_eq_some he with ⟨_, v, rfl, _, rfl⟩ | ⟨_, v, rfl, rfl⟩
  · exact (Except.ok.inj (congrArg Prod.fst h)).symm
  · exact (Except.ok.inj (congrArg Prod.fst h)).symm

lemma inferReturned_literals {es : List Node} {s' : Subst} {types : List Ty}
    (hes : Node.AreLiterals es ls)
    (h : outcome (inferReturned (inferTo depth) s types es) σ = (.ok (s', ts), σ')) :
    ts = types ++ Ty.literals ls := by
  unfold inferReturned at h
  induction hes generalizing s types σ with
  | nil =>
    rw [inferEach, pure_eq_ok, Prod.mk.injEq] at h
    rw [Ty.literals, List.map_nil, List.append_nil]
    exact h.1.2.symm
  | @cons e x es ls he _ ih =>
    obtain ⟨i, σ₁, hi, hafter⟩ := bind_eq_ok.1 h
    obtain rfl := inferTo_literal he hi
    obtain ⟨more, σ₂, hmore, hcompose⟩ := bind_eq_ok.1 hafter
    obtain rfl := returned_literal he hmore
    obtain ⟨s₁, σ₃, _, hrest⟩ := bind_eq_ok.1 hcompose
    rw [ih hrest, List.append_assoc, Ty.literals, Ty.literals, List.map_cons, List.singleton_append]

lemma inferReturn_literals {es : List Node} (hes : Node.AreLiterals es ls)
    (h : outcome (inferReturn (inferTo depth) es) σ = (.ok i, σ')) :
    i.type = .tuple (Ty.literals ls) := by
  obtain ⟨⟨s, ts⟩, σ₁, hts, h⟩ := bind_eq_ok.1 h
  rw [← (pure_eq_ok.1 h).1, inferReturned_literals hes hts, List.nil_append]

/-! ## What is returned so far -/

lemma joined_of_joinReturns {as bs : List Ty} {k k' : Letters}
    (h : outcome (joinReturns as bs) k = (.ok ts, k')) : Ty.Joined true as bs ts := by
  induction as generalizing bs ts k k' with
  | nil =>
    cases bs with
    | nil =>
      rw [joinReturns, pure_eq_ok] at h
      exact h.1 ▸ .left []
    | cons b bs =>
      rw [joinReturns, pure_eq_ok] at h
      · exact h.1 ▸ .right (b :: bs)
      · exact List.cons_ne_nil b bs
  | cons a as ih =>
    cases bs with
    | nil =>
      rw [joinReturns, pure_eq_ok] at h
      exact h.1 ▸ .left (a :: as)
    | cons b bs =>
      obtain ⟨t, k₁, ht, h⟩ := bind_eq_ok.1 h
      obtain ⟨rest, k₂, hrest, h⟩ := bind_eq_ok.1 h
      rw [pure_eq_ok] at h
      exact h.1 ▸ .both ht (ih hrest)

lemma exists_unify_of_unifyOrNot {a b : Ty} {u : Unified}
    (h : outcome (unifyOrNot a b) σ = (.ok (s, u), σ')) :
    ∃ k k', outcome (unify a b) k = (.ok u, k') := by
  obtain ⟨u', σ₁, hu, h⟩ := bind_eq_ok.1 h
  obtain ⟨k', hu⟩ := naming_eq_ok hu
  have hsame : u' = u := by
    rcases houtcome : u'.outcome with m | s'
    · rw [houtcome, pure_eq_ok, Prod.mk.injEq] at h
      exact h.1.2
    · rw [houtcome, pure_eq_ok, Prod.mk.injEq] at h
      exact h.1.2
  exact ⟨_, k', hsame ▸ hu⟩

lemma exists_unify_of_unifyAt {a b : Ty} {u : Unified}
    (h : outcome (unifyAt l a b) σ = (.ok (s, u), σ')) :
    ∃ k k', outcome (unify a b) k = (.ok u, k') ∧ u.succeeds = true := by
  obtain ⟨u', σ₁, hu, h⟩ := bind_eq_ok.1 h
  obtain ⟨k', hu⟩ := naming_eq_ok hu
  rcases houtcome : u'.outcome with m | s'
  · rw [houtcome] at h
    cases h
  · rw [houtcome, pure_eq_ok, Prod.mk.injEq] at h
    obtain ⟨⟨_, rfl⟩, _⟩ := h
    exact ⟨_, k', hu, Unified.succeeds_iff.2 ⟨s', houtcome⟩⟩

/-- What a statement that returns in every case makes of what has been returned. -/
lemma addReturn_returning (hi : i.subst.returning = true)
    (h : outcome (addReturn l p i) σ = (.ok p', σ')) :
    ∃ (s : Subst) (t : Ty) (args : List Ty) (r : Ty), i.type.Wraps t ∧
      Ty.Joined true (argsOf (p.result.getD t)) (argsOf t) args ∧
      s.apply (withArgs args (p.result.getD t)) = .ok r ∧
      p' = { p with result := some r, returned := true } := by
  rw [addReturn, if_pos hi] at h
  obtain ⟨⟨s, u⟩, σ₁, hu, h⟩ := bind_eq_ok.1 h
  obtain ⟨args, σ₂, hargs, h⟩ := bind_eq_ok.1 h
  obtain ⟨r, σ₃, hr, h⟩ := bind_eq_ok.1 h
  obtain ⟨k, k', hu⟩ := exists_unify_of_unifyOrNot hu
  obtain ⟨k', hargs⟩ := naming_eq_ok hargs
  have hchosen : (if p.result.isNone then u.left else p.result.getD i.type) =
      p.result.getD u.left := by
    cases p.result <;> rfl
  rw [hchosen] at hargs hr
  rw [pure_eq_ok] at h
  exact ⟨s, u.left, args, r, (wraps_of_unifyTo hu).1, joined_of_joinReturns hargs,
    (apply_eq_ok.1 hr).1, h.1.symm⟩

/-- What a statement that may go on makes of what has been returned: it adds nothing to it, but has
to be of its type up to literal values. -/
lemma addReturn_not_returning (hi : i.subst.returning = false)
    (h : outcome (addReturn l p i) σ = (.ok p', σ')) :
    ∃ u k k', outcome (unify i.type (p.result.getD i.type).broaden) k = (.ok u, k') ∧
      u.succeeds = true ∧ p' = { p with result := some (p.result.getD u.left) } := by
  rw [addReturn, if_neg (by simp [hi])] at h
  obtain ⟨⟨s, u⟩, σ₁, hu, h⟩ := bind_eq_ok.1 h
  obtain ⟨k, k', hu, hsucceeds⟩ := exists_unify_of_unifyAt hu
  have hchosen : (if p.result.isNone then u.left else p.result.getD i.type) =
      p.result.getD u.left := by
    cases p.result <;> rfl
  simp only [hchosen, pure_eq_ok] at h
  exact ⟨u, k, k', hu, hsucceeds, h.1.symm⟩

lemma covers_withArgs {bs args : List Ty} (hr : r.covers broad ls = true)
    (hargs : Ty.Joined true (argsOf r) bs args) : (withArgs args r).covers broad ls = true := by
  obtain ⟨rs, checks, rfl, hrs⟩ := Ty.exists_tuple_of_covers hr
  exact Ty.covers_con.2 ⟨rfl, rfl, hargs.admitAll_left hrs (.inl rfl)⟩

/-- What has been returned stays covered. -/
lemma addReturn_covers (hr : p.result = some r) (hcovers : r.covers broad ls = true)
    (h : outcome (addReturn l p i) σ = (.ok p', σ')) :
    ∃ r', p'.result = some r' ∧ r'.covers broad ls = true := by
  by_cases hi : i.subst.returning = true
  · obtain ⟨s, t, args, r', _, hargs, hr', rfl⟩ := addReturn_returning hi h
    rw [hr, Option.getD_some] at hargs hr'
    exact ⟨r', rfl, Ty.covers_apply hr' (covers_withArgs hcovers hargs)⟩
  · rw [Bool.not_eq_true] at hi
    obtain ⟨u, _, _, _, _, rfl⟩ := addReturn_not_returning hi h
    exact ⟨r, by rw [hr, Option.getD_some], hcovers⟩

/-- What a statement returns is not lost when it is added to what has been returned before. If a
return statement closes the chunk, literal values will be forgotten there. -/
inductive Progress.Retains (closing : Bool) (ls : List (String × Literal)) (p : Progress)
    (i : Inferred) : Prop
  /-- Nothing has been returned before. -/
  | first : p.result = none → Retains closing ls p i
  /-- The statement returns in every case, and nothing that it returns is hidden. -/
  | joined {rs : List Ty} {checks : List Checked} :
      p.result = some (.con "tuple" rs none checks) → i.subst.returning = true →
      closing = true ∨ Ty.anyHidden ls rs (argsOf i.type) = false → Retains closing ls p i
  /-- The statement may go on, and what has been returned before covers what it returns. -/
  | covered {rs : List Ty} {checks : List Checked} :
      p.result = some (.con "tuple" rs none checks) → i.subst.returning = false →
      Ty.admitAll closing ls rs = true → Retains closing ls p i
  /-- The statement may go on, and what has been returned before it is known. -/
  | known {rs : List Ty} {checks : List Checked} :
      p.result = some (.con "tuple" rs none checks) → i.subst.returning = false →
      closing = true → (rs.take ls.length).any Ty.isOpen = false → Retains closing ls p i

/-- What is not lost when it is added is covered. -/
lemma addReturn_retains {closing : Bool} (hcovers : i.type.covers false ls = true)
    (hretains : p.Retains closing ls i) (h : outcome (addReturn l p i) σ = (.ok p', σ')) :
    ∃ r, p'.result = some r ∧ r.covers closing ls = true := by
  cases hretains with
  | first hp =>
    by_cases hi : i.subst.returning = true
    · obtain ⟨s, t, args, r, hwraps, hargs, hr, rfl⟩ := addReturn_returning hi h
      rw [hp, Option.getD_none] at hargs hr
      have ht : t.covers closing ls = true := Ty.covers_wraps hwraps (Ty.covers_weaken hcovers)
      exact ⟨r, rfl, Ty.covers_apply hr (covers_withArgs ht hargs)⟩
    · rw [Bool.not_eq_true] at hi
      obtain ⟨u, k, k', hu, _, rfl⟩ := addReturn_not_returning hi h
      rw [hp, Option.getD_none]
      exact ⟨u.left, rfl, Ty.covers_wraps (wraps_of_unifyTo hu).1 (Ty.covers_weaken hcovers)⟩
  | @joined rs checks hp hi hhide =>
    obtain ⟨s, t, args, r, hwraps, hargs, hr, rfl⟩ := addReturn_returning hi h
    rw [hp, Option.getD_some] at hargs hr
    obtain ⟨ts, more, htype, _⟩ := Ty.exists_tuple_of_covers hcovers
    rw [htype] at hwraps hcovers hhide
    have ht : t.covers closing ls = true := Ty.covers_wraps hwraps (Ty.covers_weaken hcovers)
    obtain ⟨ts', rfl, hts⟩ := hwraps.exists_args
    have hhide' : closing = true ∨ Ty.anyHidden ls rs ts' = false := by
      rw [Ty.anyHidden_wraps (forall₂_wraps_refl rs) hts]
      exact hhide
    have hjoined : (withArgs args (.con "tuple" rs none checks)).covers closing ls = true :=
      Ty.covers_con.2 ⟨rfl, rfl,
        hargs.admitAll_right (Ty.covers_con.1 ht).2.2 (.inl rfl) hhide'⟩
    exact ⟨r, rfl, Ty.covers_apply hr hjoined⟩
  | covered hp hi hrs =>
    exact addReturn_covers hp (Ty.covers_con.2 ⟨rfl, rfl, hrs⟩) h
  | @known rs checks hp hi hclosing hknown =>
    obtain ⟨u, k, k', hu, hsucceeds, _⟩ := addReturn_not_returning hi h
    rw [hp, Option.getD_some, Ty.broaden] at hu
    rw [← Ty.any_isOpen_broadenList] at hknown
    have hrs := (Ty.covers_con.1 (Ty.covers_of_unify hu hsucceeds hcovers hknown)).2.2
    rw [Ty.admitAll_broadenList] at hrs
    rw [hclosing]
    exact addReturn_covers hp (Ty.covers_con.2 ⟨rfl, rfl, hrs⟩) h

/-! ## Runs of statements -/

/-- Adds what a statement returns, if it is one that returns something. -/
def addStatement (l : Location) (p : Progress) (statement : Node) (i : Inferred) :
    Check Progress :=
  if i.type.isNamed "tuple" && !isCall statement then addReturn l p i else pure p

lemma inferStatements_cons (infer : Inference) (l : Location) (p : Progress) (statement : Node)
    (rest : List Node) : inferStatements infer l p (statement :: rest) = (do
      let i ← infer statement
      let q ← addStatement l p statement i
      let s ← compose i.subst q.subst
      inferStatements infer l { q with subst := s } rest) := by
  rw [inferStatements]
  congr 1
  funext i
  by_cases h : (i.type.isNamed "tuple" && !isCall statement) = true
  · simp only [addStatement, if_pos h]
  · simp only [addStatement, if_neg h, pure_bind]

lemma inferStatements_append (infer : Inference) (l : Location) (p : Progress)
    (before after : List Node) : inferStatements infer l p (before ++ after) =
      inferStatements infer l p before >>= fun q => inferStatements infer l q after := by
  induction before generalizing p with
  | nil => rfl
  | cons statement before ih =>
    simp only [List.cons_append, inferStatements_cons, bind_assoc, ih]

/-- What holds of the result and stays true when something is added, stays true over statements. -/
lemma inferStatements_result {P : Option Ty → Prop}
    (hadd : ∀ {q q' : Progress} {j : Inferred} {τ τ' : Session}, j.type.isNamed "tuple" = true →
      P q.result → outcome (addReturn l q j) τ = (.ok q', τ') → P q'.result) (hp : P p.result)
    (h : outcome (inferStatements infer l p statements) σ = (.ok p', σ')) : P p'.result := by
  induction statements generalizing p σ with
  | nil =>
    rw [inferStatements, pure_eq_ok] at h
    exact h.1 ▸ hp
  | cons statement rest ih =>
    rw [inferStatements_cons] at h
    obtain ⟨j, σ₁, _, hrun⟩ := bind_eq_ok.1 h
    obtain ⟨q, σ₂, hq, hrun⟩ := bind_eq_ok.1 hrun
    obtain ⟨s, σ₃, _, hrest⟩ := bind_eq_ok.1 hrun
    refine ih (p := { q with subst := s }) (show P q.result from ?_) hrest
    rw [addStatement] at hq
    by_cases htuple : (j.type.isNamed "tuple" && !isCall statement) = true
    · rw [if_pos htuple] at hq
      rw [Bool.and_eq_true] at htuple
      exact hadd htuple.1 hp hq
    · rw [if_neg htuple, pure_eq_ok] at hq
      exact hq.1 ▸ hp

lemma isNamed_of_covers (h : t.covers broad ls = true) : t.isNamed "tuple" = true := by
  obtain ⟨args, checks, rfl, _⟩ := Ty.exists_tuple_of_covers h
  rfl

lemma isNamed_apply {c : String} {u : Ty} (hu : s.apply t = .ok u) (ht : t.isNamed c = true) :
    u.isNamed c = true := by
  obtain ⟨args, v, checks, rfl⟩ := Ty.exists_con_of_isNamed ht
  obtain ⟨f, hf⟩ := s.exists_apply_eq (.con c args v checks)
  obtain ⟨args', rfl, _⟩ := Ty.replaceVars_con (hf.symm.trans hu)
  exact ht

/-- What has been returned stays a tuple. -/
lemma addReturn_isNamed (hp : ∀ r, p.result = some r → r.isNamed "tuple" = true)
    (hi : i.type.isNamed "tuple" = true) (h : outcome (addReturn l p i) σ = (.ok p', σ')) :
    ∀ r, p'.result = some r → r.isNamed "tuple" = true := by
  have hchosen : ∀ {t : Ty}, i.type.Wraps t → (p.result.getD t).isNamed "tuple" = true := by
    intro t ht
    cases hr : p.result with
    | none => exact (ht.isNamed_eq "tuple").trans hi
    | some r => exact hp r hr
  have hargs : ∀ {t : Ty} (args : List Ty), t.isNamed "tuple" = true →
      (withArgs args t).isNamed "tuple" = true := by
    intro t args ht
    obtain ⟨ts, v, checks, rfl⟩ := Ty.exists_con_of_isNamed ht
    exact ht
  by_cases hreturning : i.subst.returning = true
  · obtain ⟨s, t, args, r', hwraps, _, hr', rfl⟩ := addReturn_returning hreturning h
    rintro r ⟨⟩
    exact isNamed_apply hr' (hargs args (hchosen hwraps))
  · rw [Bool.not_eq_true] at hreturning
    obtain ⟨u, k, k', hu, _, rfl⟩ := addReturn_not_returning hreturning h
    rintro r ⟨⟩
    exact hchosen (wraps_of_unifyTo hu).1

lemma inferStatements_isNamed
    (h : outcome (inferStatements infer l ⟨.empty, none, false⟩ statements) σ = (.ok p', σ')) :
    ∀ r, p'.result = some r → r.isNamed "tuple" = true :=
  inferStatements_result (P := fun result => ∀ r, result = some r → r.isNamed "tuple" = true)
    (fun hj hq hadd => addReturn_isNamed hq hj hadd) (by rintro r ⟨⟩) h

lemma inferStatements_covers (hr : p.result = some r) (hcovers : r.covers broad ls = true)
    (h : outcome (inferStatements infer l p statements) σ = (.ok p', σ')) :
    ∃ r', p'.result = some r' ∧ r'.covers broad ls = true := by
  refine inferStatements_result
    (P := fun result => ∃ r', result = some r' ∧ r'.covers broad ls = true) ?_ ⟨r, hr, hcovers⟩ h
  rintro q q' j τ τ' _ ⟨r', hr', hcovers'⟩ hadd
  exact addReturn_covers hr' hcovers' hadd

/-! ## The end of a chunk -/

/-- What a return statement comes to after other returns: the types of both, joined in pairs, in the
place of the components of what was returned before. -/
lemma addLast_eq_ok {last : Ty} (h : outcome (addLast (some r) last) σ = (.ok t, σ')) :
    ∃ (s : Subst) (u r' : Ty) (args : List Ty), last.Wraps u ∧ u.isNamed "tuple" = true ∧
      s.apply r.broaden = .ok r' ∧ Ty.Joined true (argsOf r') (argsOf u) args ∧
      t = withArgs args r' := by
  obtain ⟨⟨s, u⟩, σ₁, hu, h⟩ := bind_eq_ok.1 h
  obtain ⟨r', σ₂, hr', h⟩ := bind_eq_ok.1 h
  obtain ⟨k, k', hu⟩ := exists_unify_of_unifyOrNot hu
  by_cases htuple : u.left.isNamed "tuple" = true
  · simp only [if_pos htuple] at h
    obtain ⟨args, σ₃, hargs, h⟩ := bind_eq_ok.1 h
    obtain ⟨k'', hargs⟩ := naming_eq_ok hargs
    rw [pure_eq_ok] at h
    exact ⟨s, u.left, r', args, (wraps_of_unifyTo hu).1, htuple, (apply_eq_ok.1 hr').1,
      joined_of_joinReturns hargs, h.1.symm⟩
  · simp only [if_neg htuple] at h
    cases h

lemma addLast_covers {last : Ty} (hcovers : r.covers true ls = true)
    (h : outcome (addLast (some r) last) σ = (.ok t, σ')) : t.covers broad ls = true := by
  obtain ⟨s, u, r', args, -, -, hr', hargs, rfl⟩ := addLast_eq_ok h
  exact covers_withArgs (Ty.covers_apply hr' (Ty.covers_broaden hcovers)) hargs

/-- A return statement of literals that closes a chunk is covered. -/
lemma addLast_literals {result : Option Ty}
    (hresult : ∀ r, result = some r → r.isNamed "tuple" = true) (hls : ∀ x ∈ ls, IsLiteral x)
    (h : outcome (addLast result (.tuple (Ty.literals ls))) σ = (.ok t, σ')) :
    t.covers false ls = true := by
  cases result with
  | none =>
    rw [addLast, pure_eq_ok] at h
    exact h.1 ▸ Ty.covers_literals hls
  | some r =>
    obtain ⟨s, u, r', args, hwraps, -, hr', hargs, rfl⟩ := addLast_eq_ok h
    have hcovers : u.covers false ls = true := Ty.covers_wraps hwraps (Ty.covers_literals hls)
    obtain ⟨us, rfl, hus⟩ := hwraps.exists_args
    obtain ⟨rs, v, checks, rfl⟩ := Ty.exists_con_of_isNamed (hresult r rfl)
    obtain ⟨f, hf⟩ := s.exists_apply_eq (Ty.con "tuple" rs v checks).broaden
    obtain ⟨rs', rfl, _⟩ := Ty.replaceVars_con (hf.symm.trans hr')
    -- Nothing is hidden, since all the types on the right have a value.
    have hhide : Ty.anyHidden ls rs' us = false := by
      rw [Ty.anyHidden_wraps (forall₂_wraps_refl rs') hus, Ty.anyHidden_literals]
    exact Ty.covers_con.2 ⟨rfl, rfl, hargs.admitAll_right (Ty.covers_con.1 hcovers).2.2 (.inl rfl)
      (.inr hhide)⟩

/-- The type of a chunk without a return statement, from what its statements have come to. -/
def Progress.type (p : Progress) : Ty :=
  match p.result with
  | none => .tuple []
  | some r => if p.returned then r else .tuple ((argsOf r).map fun t => .union t .nil)

lemma Progress.covers_type (hr : p.result = some r) (hcovers : r.covers false ls = true) :
    p.type.covers false ls = true := by
  obtain ⟨rs, checks, rfl, hrs⟩ := Ty.exists_tuple_of_covers hcovers
  rw [Progress.type, hr]
  by_cases hreturned : p.returned = true
  · simp only [if_pos hreturned]
    exact hcovers
  · simp only [if_neg hreturned]
    exact Ty.covers_con.2 ⟨rfl, rfl, Ty.admitAll_optional hrs⟩

lemma Progress.misses_type (hls : ∀ x ∈ ls, IsLiteral x) (hr : p.result = some r)
    (hmisses : r.Misses ls) : p.type.Misses ls := by
  rw [Progress.type, hr]
  by_cases hreturned : p.returned = true
  · simp only [if_pos hreturned]
    exact hmisses
  · simp only [if_neg hreturned]
    obtain ⟨rs, v, checks, rfl, hrs⟩ := hmisses
    exact ⟨_, none, [], rfl, Ty.anyMissed_optional (fun x hx => (hls x hx).2.2) hrs⟩

/-- What a statement returns is lost on what has been returned before: if it returns in every case,
something is lost in the join, and if it may go on, something is missed already. -/
def Progress.Drops (ls : List (String × Literal)) (p : Progress) (i : Inferred) : Prop :=
  ∃ rs v checks, p.result = some (.con "tuple" rs v checks) ∧
    if i.subst.returning then Ty.anyLost true ls rs (argsOf i.type) = true
    else Ty.anyMissed ls rs = true

/-- What is lost when it is added is missed, and so is what a first statement misses. -/
lemma addReturn_misses (hls : ∀ x ∈ ls, IsLiteral x) (hi : i.type.isNamed "tuple" = true)
    (hlost : p.result = none ∧ i.type.Misses ls ∨ p.Drops ls i)
    (h : outcome (addReturn l p i) σ = (.ok p', σ')) :
    ∃ r, p'.result = some r ∧ r.Misses ls := by
  obtain ⟨ts, w, more, htype⟩ := Ty.exists_con_of_isNamed hi
  have hnil : ∀ x ∈ ls, x.1 ≠ "nil" := fun x hx => (hls x hx).2.2
  by_cases hreturning : i.subst.returning = true
  · obtain ⟨s, t, args, r, hwraps, hargs, happly, rfl⟩ := addReturn_returning hreturning h
    rw [htype] at hwraps
    obtain ⟨ts', rfl, hts⟩ := hwraps.exists_args
    refine ⟨r, rfl, Ty.Misses.apply ?_ happly⟩
    rcases hlost with ⟨hr, hmisses⟩ | ⟨rs, v, checks, hr, hlost⟩
    · rw [hr, Option.getD_none] at hargs ⊢
      obtain ⟨_, _, _, heq, hmissed⟩ := (htype ▸ hmisses).wraps hwraps
      obtain ⟨_, rfl, _, _⟩ := Ty.con.inj heq
      exact ⟨args, w, more, rfl, hargs.anyMissed hnil (Ty.anyLost_self hmissed)⟩
    · rw [hr, Option.getD_some] at hargs ⊢
      rw [if_pos hreturning, htype] at hlost
      exact ⟨args, v, checks, rfl,
        hargs.anyMissed hnil (Ty.anyLost_wraps (forall₂_wraps_refl rs) hts hlost)⟩
  · rw [Bool.not_eq_true] at hreturning
    obtain ⟨u, k, k', hu, _, rfl⟩ := addReturn_not_returning hreturning h
    refine ⟨_, rfl, ?_⟩
    rcases hlost with ⟨hr, hmisses⟩ | ⟨rs, v, checks, hr, hlost⟩
    · rw [hr, Option.getD_none]
      exact hmisses.wraps (wraps_of_unifyTo hu).1
    · rw [hreturning, if_neg Bool.false_ne_true] at hlost
      rw [hr, Option.getD_some]
      exact ⟨rs, v, checks, rfl, hlost⟩

/-- A statement that may go on adds nothing that has not been covered before. -/
lemma addReturn_not_covers {rs : List Ty} {checks : List Checked} (hls : ∀ x ∈ ls, IsLiteral x)
    (hr : p.result = some (.con "tuple" rs none checks)) (hi : i.subst.returning = false)
    (hrs : Ty.admitAll false ls rs = false) (h : outcome (addReturn l p i) σ = (.ok p', σ')) :
    p'.type.covers false ls = false := by
  obtain ⟨u, k, k', _, _, rfl⟩ := addReturn_not_returning hi h
  rw [Progress.type, hr, Option.getD_some]
  by_contra hcovered
  rw [Bool.not_eq_false] at hcovered
  by_cases hreturned : p.returned = true
  · simp only [if_pos hreturned] at hcovered
    rw [(Ty.covers_con.1 hcovered).2.2] at hrs
    cases hrs
  · simp only [if_neg hreturned] at hcovered
    have hoptional : Ty.admitAll false ls (rs.map fun t => .union t .nil) = true :=
      (Ty.covers_con.1 hcovered).2.2
    rw [Ty.admitAll_of_optional (fun x hx => (hls x hx).2.2) hoptional] at hrs
    cases hrs

end Check

end LuaTyping
