import LuaTyping.Proofs.ReturnMerging
import LuaTyping.Proofs.Scopeless

set_option autoImplicit false

/-!
# What the type of a chunk covers

The type of a chunk is put together from what its return statements return. This file follows a
return statement of literals on its way up through conditional statements and chunks. It is *kept*
if no step on the way loses it; then the inferred tuple type has a component for each of the
literals, in order, and each literal extends its component.

There are three ways to lose it. A conditional statement that may go on adds nothing to what has
been returned before it in the same chunk. Where both branches of a conditional statement return,
only the components that both have are kept. And a literal type on the left of a join hides the
plain type of the same name on the right, so that only the one literal is left. What is lost in a
step is carried up by the steps after it, as long as nothing else that is returned there makes up
for it. Where something does, or more statements follow in the chunk, nothing is said here.

## Main definitions

* `Ty.Receives` — a literal extends each of the first components of a tuple type.
* `Check.Kept` — a return statement of literals that is not lost on the way up.
* `Check.Lost` — one that is missed, or that a chunk with open components has not covered.

## Main results

* `Check.Kept.covers` — what is kept is covered by the inferred type.
* `Check.Missed.misses`, `Check.Lost.not_covers` — what is lost is not.
* `Check.infer_receives` — both, for the inference of a tree.
* `Check.not_receives_secondReturn` — a chunk whose type leaves out a return statement.
-/

namespace LuaTyping

/-- A return statement of some literals stands in a tree, outside the functions in it. -/
inductive Node.Returns : Node → List (String × Literal) → Prop
  | returns {l : Location} {es : List Node} {ls : List (String × Literal)} :
      Node.AreLiterals es ls → Returns (.returns l es) ls
  | last {l : Location} {statements : List Node} {last : Node} {ls : List (String × Literal)} :
      Returns last ls → Returns (.chunk l statements (some last)) ls
  | statement {l : Location} {statements : List Node} {statement : Node} {last : Option Node}
      {ls : List (String × Literal)} : statement ∈ statements → Returns statement ls →
      Returns (.chunk l statements last) ls
  | body {l : Location} {condition body : Node} {elseifs : List Node} {otherwise : Option Node}
      {ls : List (String × Literal)} : Returns body ls →
      Returns (.branch l condition body elseifs otherwise) ls
  | elseif {l l' : Location} {condition body test taken : Node} {elseifs : List Node}
      {otherwise : Option Node} {ls : List (String × Literal)} :
      Node.elseif l' test taken ∈ elseifs → Returns taken ls →
      Returns (.branch l condition body elseifs otherwise) ls
  | other {l : Location} {condition body other : Node} {elseifs : List Node}
      {ls : List (String × Literal)} : Returns other ls →
      Returns (.branch l condition body elseifs (some other)) ls

lemma Node.Returns.isLiteral {n : Node} {ls : List (String × Literal)} (h : n.Returns ls) :
    ∀ x ∈ ls, IsLiteral x := by
  induction h with
  | returns hes => exact hes.isLiteral
  | last _ ih | body _ ih | other _ ih => exact ih
  | statement _ _ ih | elseif _ _ ih => exact ih

lemma Node.Returns.isCall_eq_false {n : Node} {ls : List (String × Literal)} (h : n.Returns ls) :
    Check.isCall n = false := by
  cases h <;> rfl

namespace Ty

variable {ls : List (String × Literal)}

/-- A tuple type has a component for each of some literals, in order, which the literal extends. -/
def Receives (t : Ty) (ls : List (String × Literal)) : Prop :=
  ∃ args checks, t = .con "tuple" args none checks ∧ ls.length ≤ args.length ∧
    ∀ (k : Nat) l u, ls[k]? = some l → args[k]? = some u → u.Accepts l

/-- A tuple type receives exactly the literals that it covers. -/
lemma receives_iff {t : Ty} (hls : ∀ l ∈ ls, IsLiteral l) :
    t.Receives ls ↔ t.covers false ls = true := by
  constructor
  · rintro ⟨args, checks, rfl, hlen, hall⟩
    refine covers_con.2 ⟨rfl, rfl, admitAll_iff.2 ⟨hlen, fun k l u hl hu => ?_⟩⟩
    exact (accepts_iff (hls l (List.mem_of_getElem? hl)).2.1).1 (hall k l u hl hu)
  · intro h
    obtain ⟨args, checks, rfl, hargs⟩ := exists_tuple_of_covers h
    obtain ⟨hlen, hall⟩ := admitAll_iff.1 hargs
    refine ⟨args, checks, rfl, hlen, fun k l u hl hu => ?_⟩
    exact (accepts_iff (hls l (List.mem_of_getElem? hl)).2.1).2 (hall k l u hl hu)

end Ty

namespace Check

variable {infer : Inference} {l : Location} {p : Progress} {i : Inferred} {σ σ' : Session}
  {ls : List (String × Literal)}

/-! ## Runs of chunks and conditional statements -/

/-- The session in a scope of its own. -/
def inner (σ : Session) : Session := { σ with scopes := σ.scopes.push }

lemma inferChunk_some_eq_ok {statements : List Node} {last : Node}
    (h : outcome (inferChunk infer l statements (some last)) σ = (.ok i, σ')) :
    ∃ p σ₁ j σ₂ σ₃,
      outcome (inferStatements infer l ⟨.empty, none, false⟩ statements) (inner σ) = (.ok p, σ₁) ∧
      outcome (infer last) σ₁ = (.ok j, σ₂) ∧
      outcome (addLast p.result j.type) σ₂ = (.ok i.type, σ₃) := by
  obtain ⟨σ₀, h⟩ := inScope_eq_ok h
  obtain ⟨p, σ₁, hp, h⟩ := bind_eq_ok.1 h
  obtain ⟨j, σ₂, hj, h⟩ := bind_eq_ok.1 h
  obtain ⟨t, σ₃, ht, h⟩ := bind_eq_ok.1 h
  obtain ⟨s, σ₄, _, h⟩ := bind_eq_ok.1 h
  rw [← (pure_eq_ok.1 h).1]
  exact ⟨p, σ₁, j, σ₂, σ₃, hp, hj, ht⟩

lemma inferChunk_none_eq_ok {statements : List Node}
    (h : outcome (inferChunk infer l statements none) σ = (.ok i, σ')) :
    ∃ p σ₁,
      outcome (inferStatements infer l ⟨.empty, none, false⟩ statements) (inner σ) = (.ok p, σ₁) ∧
      i.type = p.type := by
  obtain ⟨σ₀, h⟩ := inScope_eq_ok h
  obtain ⟨p, σ₁, hp, h⟩ := bind_eq_ok.1 h
  refine ⟨p, σ₁, hp, ?_⟩
  rw [Progress.type]
  cases hr : p.result with
  | none =>
    simp only [hr, pure_eq_ok] at h
    rw [← h.1]
  | some r =>
    simp only [hr, pure_eq_ok] at h
    rw [← h.1]

/-- The inference of a conditional statement up to its body. -/
def enterBody (infer : Inference) (l : Location) (condition : Node) : Check Inferred := do
  let c ← inScope (infer condition)
  let _ ← unifyAt l c.type .boolean
  modify inner
  narrowTo infer l (conditionChecks c.type)
  return c

/-- The inference of a conditional statement up to the branch where the condition does not hold. -/
def enterOther (infer : Inference) (l : Location) (condition body : Node) : Check Inferred := do
  let c ← enterBody infer l condition
  let b ← infer body
  narrowFrom infer (conditionChecks c.type)
  return b

variable {body condition n : Node} {depth : Nat}

lemma inferBranch_eq_ok {otherwise : Option Node}
    (h : outcome (inferBranch infer l condition body otherwise) σ = (.ok i, σ')) :
    ∃ c σ₁ b σ₂ σ₃, outcome (enterBody infer l condition) σ = (.ok c, σ₁) ∧
      outcome (infer body) σ₁ = (.ok b, σ₂) ∧
      outcome (match otherwise with
        | none => do return ⟨{ b.subst with returning := false }, ← apply c.subst b.type⟩
        | some other => do
          narrowFrom infer (conditionChecks c.type)
          infer other >>= joinBranches c b : Check Inferred) σ₂ = (.ok i, σ₃) := by
  obtain ⟨c, τ₁, hc, h⟩ := bind_eq_ok.1 h
  obtain ⟨u, τ₂, hu, h⟩ := bind_eq_ok.1 h
  obtain ⟨τ₀, h⟩ := inScope_eq_ok h
  obtain ⟨_, σ₁, hnarrow, h⟩ := bind_eq_ok.1 h
  obtain ⟨b, σ₂, hb, h⟩ := bind_eq_ok.1 h
  have henter : outcome (enterBody infer l condition) σ = (.ok c, σ₁) :=
    bind_eq_ok.2 ⟨c, τ₁, hc, bind_eq_ok.2 ⟨u, τ₂, hu,
      bind_eq_ok.2 ⟨(), inner τ₂, rfl, bind_eq_ok.2 ⟨(), σ₁, hnarrow, rfl⟩⟩⟩⟩
  exact ⟨c, σ₁, b, σ₂, τ₀, henter, hb, h⟩

/-- Without another branch, a conditional statement has the type of its body. -/
lemma inferBranch_none_eq_ok
    (h : outcome (inferBranch infer l condition body none) σ = (.ok i, σ')) :
    ∃ c σ₁ b σ₂, outcome (enterBody infer l condition) σ = (.ok c, σ₁) ∧
      outcome (infer body) σ₁ = (.ok b, σ₂) ∧ c.subst.apply b.type = .ok i.type := by
  obtain ⟨c, σ₁, b, σ₂, σ₃, henter, hb, h⟩ := inferBranch_eq_ok h
  obtain ⟨t, σ₄, ht, h⟩ := bind_eq_ok.1 h
  rw [← (pure_eq_ok.1 h).1]
  exact ⟨c, σ₁, b, σ₂, henter, hb, (apply_eq_ok.1 ht).1⟩

/-- With another branch, a conditional statement has the join of the types of both. -/
lemma inferBranch_some_eq_ok {other : Node}
    (h : outcome (inferBranch infer l condition body (some other)) σ = (.ok i, σ')) :
    ∃ c σ₁ b σ₂ σ₃ e σ₄, outcome (enterBody infer l condition) σ = (.ok c, σ₁) ∧
      outcome (infer body) σ₁ = (.ok b, σ₂) ∧
      outcome (enterOther infer l condition body) σ = (.ok b, σ₃) ∧
      outcome (infer other) σ₃ = (.ok e, σ₄) ∧
      ∃ (s : Subst) (t joined u : Ty) (k k' : Letters), e.type.Wraps t ∧
        outcome (t.join b.type) k = (.ok joined, k') ∧ s.apply joined = .ok u ∧
        c.subst.apply u = .ok i.type := by
  obtain ⟨c, σ₁, b, σ₂, τ₀, henter, hb, h⟩ := inferBranch_eq_ok h
  obtain ⟨_, σ₃, hnarrow, h⟩ := bind_eq_ok.1 h
  obtain ⟨e, σ₄, he, h⟩ := bind_eq_ok.1 h
  obtain ⟨_, τ₁, _, h⟩ := bind_eq_ok.1 h
  obtain ⟨⟨s, w⟩, τ₂, hw, h⟩ := bind_eq_ok.1 h
  obtain ⟨joined, τ₃, hjoined, h⟩ := bind_eq_ok.1 h
  obtain ⟨u, τ₄, hu, h⟩ := bind_eq_ok.1 h
  obtain ⟨type, τ₅, htype, h⟩ := bind_eq_ok.1 h
  rw [pure_eq_ok] at h
  have hother : outcome (enterOther infer l condition body) σ = (.ok b, σ₃) :=
    bind_eq_ok.2 ⟨c, σ₁, henter, bind_eq_ok.2 ⟨b, σ₂, hb, bind_eq_ok.2 ⟨(), σ₃, hnarrow, rfl⟩⟩⟩
  obtain ⟨k₁, k₂, hw⟩ := exists_unify_of_unifyOrNot hw
  obtain ⟨k', hjoined⟩ := naming_eq_ok hjoined
  refine ⟨c, σ₁, b, σ₂, σ₃, e, σ₄, henter, hb, hother, he, s, w.left, joined, u, _, k',
    (wraps_of_unifyTo hw).1, hjoined, (apply_eq_ok.1 hu).1, ?_⟩
  rw [← h.1]
  exact (apply_eq_ok.1 htype).1

/-! ## What is kept and what is lost -/

/-- In a tree, inferred to a depth from a session, stands a return statement of some literals,
outside the functions in it, and no step on its way up loses it. Nothing that stands in an `elseif`
is kept, since it is not inferred. -/
inductive Kept : Nat → Session → Node → List (String × Literal) → Prop
  | returns {depth : Nat} {σ : Session} {l : Location} {es : List Node}
      {ls : List (String × Literal)} : Node.AreLiterals es ls →
      Kept (depth + 1) σ (.returns l es) ls
  /-- The return statement that closes a chunk is always kept. -/
  | last {depth : Nat} {σ : Session} {l l' : Location} {statements es : List Node}
      {ls : List (String × Literal)} : Node.AreLiterals es ls →
      Kept (depth + 1) σ (.chunk l statements (some (.returns l' es))) ls
  /-- A statement of a chunk. -/
  | statement {depth : Nat} {σ σ₁ σ₂ : Session} {l : Location} {before after : List Node}
      {statement : Node} {last : Option Node} {p : Progress} {i : Inferred}
      {ls : List (String × Literal)} :
      outcome (inferStatements (inferTo depth) l ⟨.empty, none, false⟩ before) (inner σ) =
        (.ok p, σ₁) →
      outcome (inferTo depth statement) σ₁ = (.ok i, σ₂) →
      Kept depth σ₁ statement ls → p.Retains last.isSome ls i →
      Kept (depth + 1) σ (.chunk l (before ++ statement :: after) last) ls
  /-- The body of a conditional statement without another branch is always kept. -/
  | alone {depth : Nat} {σ σ₁ : Session} {l : Location} {condition body : Node}
      {elseifs : List Node} {c : Inferred} {ls : List (String × Literal)} :
      outcome (enterBody (inferTo depth) l condition) σ = (.ok c, σ₁) →
      Kept depth σ₁ body ls → Kept (depth + 1) σ (.branch l condition body elseifs none) ls
  /-- The body of a conditional statement, if the other branch has as many components and hides none
  of its own. -/
  | body {depth : Nat} {σ σ₁ σ₂ σ₃ : Session} {l : Location} {condition body other : Node}
      {elseifs : List Node} {c b e : Inferred} {es : List Ty} {checks : List Checked}
      {ls : List (String × Literal)} :
      outcome (enterBody (inferTo depth) l condition) σ = (.ok c, σ₁) →
      Kept depth σ₁ body ls →
      outcome (enterOther (inferTo depth) l condition body) σ = (.ok b, σ₂) →
      outcome (inferTo depth other) σ₂ = (.ok e, σ₃) →
      e.type = .con "tuple" es none checks → ls.length ≤ es.length →
      Ty.anyHidden ls es (argsOf b.type) = false →
      Kept (depth + 1) σ (.branch l condition body elseifs (some other)) ls
  /-- The other branch of a conditional statement, if the body has as many components. -/
  | other {depth : Nat} {σ σ₁ : Session} {l : Location} {condition body other : Node}
      {elseifs : List Node} {b : Inferred} {bs : List Ty} {v : Option Literal}
      {checks : List Checked} {ls : List (String × Literal)} :
      outcome (enterOther (inferTo depth) l condition body) σ = (.ok b, σ₁) →
      Kept depth σ₁ other ls → b.type = .con "tuple" bs v checks → ls.length ≤ bs.length →
      Kept (depth + 1) σ (.branch l condition body elseifs (some other)) ls

lemma Kept.returned (h : Kept depth σ n ls) : n.Returns ls := by
  induction h with
  | returns hes => exact .returns hes
  | last hes => exact .last (.returns hes)
  | statement _ _ _ _ ih => exact .statement (by simp) ih
  | alone _ _ ih => exact .body ih
  | body _ _ _ _ _ _ _ ih => exact .body ih
  | other _ _ _ _ ih => exact .other ih

variable {before : List Node} {statement : Node} {σ₁ : Session}

/-- A run of statements infers one of them where those before it end, adds what it returns to what
those have come to, and goes on with those after it. -/
lemma exists_addStatement {after : List Node} {τ : Session}
    {q : Progress}
    (hbefore : outcome (inferStatements infer l ⟨.empty, none, false⟩ before) (inner σ) =
      (.ok p, σ₁))
    (h : outcome (inferStatements infer l ⟨.empty, none, false⟩ (before ++ statement :: after))
      (inner σ) = (.ok q, τ)) :
    ∃ j σ₂ p₁ s σ₃ σ₄, outcome (infer statement) σ₁ = (.ok j, σ₂) ∧
      outcome (addStatement l p statement j) σ₂ = (.ok p₁, σ₃) ∧
      outcome (inferStatements infer l { p₁ with subst := s } after) σ₄ = (.ok q, τ) := by
  rw [inferStatements_append] at h
  obtain ⟨p', τ₁, hp', h⟩ := bind_eq_ok.1 h
  obtain ⟨rfl, rfl⟩ := eq_of_outcome_eq hbefore hp'
  rw [inferStatements_cons] at h
  obtain ⟨j, σ₂, hj, h⟩ := bind_eq_ok.1 h
  obtain ⟨p₁, σ₃, hadd, h⟩ := bind_eq_ok.1 h
  obtain ⟨s, σ₄, _, hrest⟩ := bind_eq_ok.1 h
  exact ⟨j, σ₂, p₁, s, σ₃, σ₄, hj, hadd, hrest⟩

lemma addStatement_eq (hreturns : statement.Returns ls)
    (htuple : i.type.isNamed "tuple" = true) : addStatement l p statement i = addReturn l p i := by
  rw [addStatement, htuple, hreturns.isCall_eq_false]
  rfl

/-- What is kept of a statement is covered at the end of its chunk. -/
lemma covers_of_retains {after : List Node} {last : Option Node}
    {σ₂ : Session} {j : Inferred}
    (hbefore : outcome (inferStatements infer l ⟨.empty, none, false⟩ before) (inner σ) =
      (.ok p, σ₁))
    (hstatement : outcome (infer statement) σ₁ = (.ok j, σ₂)) (hreturns : statement.Returns ls)
    (hcovers : j.type.covers false ls = true) (hretains : p.Retains last.isSome ls j)
    (h : outcome (inferChunk infer l (before ++ statement :: after) last) σ = (.ok i, σ')) :
    i.type.covers false ls = true := by
  -- Wherever the statements end, their result covers the literals.
  have hrun : ∀ {q : Progress} {τ : Session},
      outcome (inferStatements infer l ⟨.empty, none, false⟩ (before ++ statement :: after))
        (inner σ) = (.ok q, τ) → ∃ r, q.result = some r ∧ r.covers last.isSome ls = true := by
    intro q τ hq
    obtain ⟨j', σ₂', p₁, s, σ₃, σ₄, hj', hadd, hrest⟩ := exists_addStatement hbefore hq
    obtain ⟨rfl, rfl⟩ := eq_of_outcome_eq hstatement hj'
    rw [addStatement_eq hreturns (isNamed_of_covers hcovers)] at hadd
    obtain ⟨r, hr, hrcovers⟩ := addReturn_retains hcovers hretains hadd
    exact inferStatements_covers (p := { p₁ with subst := s }) hr hrcovers hrest
  cases last with
  | none =>
    obtain ⟨q, τ, hq, htype⟩ := inferChunk_none_eq_ok h
    obtain ⟨r, hr, hrcovers⟩ := hrun hq
    rw [htype]
    exact Progress.covers_type hr hrcovers
  | some last =>
    obtain ⟨q, τ, j', τ₂, τ₃, hq, _, hlast⟩ := inferChunk_some_eq_ok h
    obtain ⟨r, hr, hrcovers⟩ := hrun hq
    rw [hr] at hlast
    exact addLast_covers hrcovers hlast

/-- What is kept is covered by the inferred type.

**Proof sketch.** Induction on the way up. Substitutions and function results that are put into
tuples change nothing about what a type covers, and a join covers what its left type does. What is
on the right of a join is covered if it is not hidden and, in a conditional statement, not cut
off. -/
theorem Kept.covers (h : Kept depth σ n ls) (hi : outcome (inferTo depth n) σ = (.ok i, σ')) :
    i.type.covers false ls = true := by
  induction h generalizing i σ' with
  | returns hes =>
    rw [inferReturn_literals hes hi]
    exact Ty.covers_literals hes.isLiteral
  | @last depth σ l l' statements es ls hes =>
    obtain ⟨p, σ₁, j, σ₂, σ₃, hp, hj, hlast⟩ := inferChunk_some_eq_ok hi
    cases depth with
    | zero => cases hj
    | succ depth =>
      rw [inferReturn_literals hes hj] at hlast
      exact addLast_literals (inferStatements_isNamed hp) hes.isLiteral hlast
  | statement hbefore hstatement hkept hretains ih =>
    exact covers_of_retains hbefore hstatement hkept.returned (ih hstatement) hretains hi
  | alone henter _ ih =>
    obtain ⟨c', τ₁, b, σ₂, henter', hb, htype⟩ := inferBranch_none_eq_ok hi
    obtain ⟨rfl, rfl⟩ := eq_of_outcome_eq henter henter'
    exact Ty.covers_apply htype (ih hb)
  | body henter _ hother he htuple hlen hhide ih =>
    obtain ⟨c', τ₁, b', τ₂, τ₃, e', τ₄, henter', hb, hother', he', s, t, joined, u, k, k', hwraps,
      hjoin, hu, htype⟩ := inferBranch_some_eq_ok hi
    obtain ⟨rfl, rfl⟩ := eq_of_outcome_eq henter henter'
    obtain ⟨rfl, rfl⟩ := eq_of_outcome_eq hother hother'
    obtain ⟨rfl, rfl⟩ := eq_of_outcome_eq he he'
    obtain ⟨bs, more, hbtype, hbs⟩ := Ty.exists_tuple_of_covers (ih hb)
    rw [htuple] at hwraps
    rw [hbtype] at hjoin hhide
    have hjoined := Ty.covers_join_right hwraps hbs hlen hhide hjoin
    exact Ty.covers_apply htype (Ty.covers_apply hu hjoined)
  | other hother _ htuple hlen ih =>
    obtain ⟨c', τ₁, b', τ₂, τ₃, e', τ₄, _, _, hother', he', s, t, joined, u, k, k', hwraps, hjoin,
      hu, htype⟩ := inferBranch_some_eq_ok hi
    obtain ⟨rfl, rfl⟩ := eq_of_outcome_eq hother hother'
    rw [htuple] at hjoin
    have hjoined := Ty.covers_join_left (Ty.covers_wraps hwraps (ih he')) hlen hjoin
    exact Ty.covers_apply htype (Ty.covers_apply hu hjoined)

/-- In a tree, inferred to a depth from a session, stands a return statement of some literals,
outside the functions in it, that is lost in some step on the way up, and is not made up for by the
steps after it. -/
inductive Missed : Nat → Session → Node → List (String × Literal) → Prop
  /-- The last statement of a chunk that has no return statement, if it is lost on what has been
  returned before. -/
  | statement {depth : Nat} {σ σ₁ σ₂ : Session} {l : Location} {before : List Node}
      {statement : Node} {p : Progress} {i : Inferred} {ls : List (String × Literal)} :
      outcome (inferStatements (inferTo depth) l ⟨.empty, none, false⟩ before) (inner σ) =
        (.ok p, σ₁) →
      outcome (inferTo depth statement) σ₁ = (.ok i, σ₂) →
      statement.Returns ls → i.type.isNamed "tuple" = true → p.Drops ls i →
      Missed (depth + 1) σ (.chunk l (before ++ [statement]) none) ls
  /-- The last statement of such a chunk, if nothing has been returned before. -/
  | first {depth : Nat} {σ σ₁ : Session} {l : Location} {before : List Node} {statement : Node}
      {p : Progress} {ls : List (String × Literal)} :
      outcome (inferStatements (inferTo depth) l ⟨.empty, none, false⟩ before) (inner σ) =
        (.ok p, σ₁) →
      p.result = none → Missed depth σ₁ statement ls →
      Missed (depth + 1) σ (.chunk l (before ++ [statement]) none) ls
  /-- The body of a conditional statement without another branch. -/
  | alone {depth : Nat} {σ σ₁ : Session} {l : Location} {condition body : Node}
      {elseifs : List Node} {c : Inferred} {ls : List (String × Literal)} :
      outcome (enterBody (inferTo depth) l condition) σ = (.ok c, σ₁) →
      Missed depth σ₁ body ls → Missed (depth + 1) σ (.branch l condition body elseifs none) ls
  /-- A conditional statement with another branch, if the join of the two types loses it: one of
  them has too few components, or hides it, or neither of them has it. -/
  | both {depth : Nat} {σ σ₁ σ₂ : Session} {l : Location} {condition body other : Node}
      {elseifs : List Node} {b e : Inferred} {bs es : List Ty} {v : Option Literal}
      {checks more : List Checked} {ls : List (String × Literal)} :
      (Node.branch l condition body elseifs (some other)).Returns ls →
      outcome (enterOther (inferTo depth) l condition body) σ = (.ok b, σ₁) →
      outcome (inferTo depth other) σ₁ = (.ok e, σ₂) →
      b.type = .con "tuple" bs v checks → e.type = .con "tuple" es none more →
      Ty.anyLost false ls es bs = true →
      Missed (depth + 1) σ (.branch l condition body elseifs (some other)) ls

lemma Missed.returned (h : Missed depth σ n ls) : n.Returns ls := by
  induction h with
  | statement _ _ hreturns => exact .statement (by simp) hreturns
  | first _ _ _ ih => exact .statement (by simp) ih
  | alone _ _ ih => exact .body ih
  | both hreturns => exact hreturns

/-- The type of a chunk misses what its last statement leaves to be missed. -/
lemma misses_of_last
    (hreturns : statement.Returns ls)
    (hbefore : outcome (inferStatements infer l ⟨.empty, none, false⟩ before) (inner σ) =
      (.ok p, σ₁))
    (hlast : ∀ j σ₂, outcome (infer statement) σ₁ = (.ok j, σ₂) →
      j.type.isNamed "tuple" = true ∧ (p.result = none ∧ j.type.Misses ls ∨ p.Drops ls j))
    (h : outcome (inferChunk infer l (before ++ [statement]) none) σ = (.ok i, σ')) :
    i.type.Misses ls := by
  obtain ⟨q, τ, hq, htype⟩ := inferChunk_none_eq_ok h
  obtain ⟨j, σ₂, p₁, s, σ₃, σ₄, hj, hadd, hrest⟩ := exists_addStatement hbefore hq
  obtain ⟨htuple, hlost⟩ := hlast j σ₂ hj
  rw [addStatement_eq hreturns htuple] at hadd
  obtain ⟨r, hr, hmisses⟩ := addReturn_misses hreturns.isLiteral htuple hlost hadd
  rw [inferStatements, pure_eq_ok] at hrest
  rw [htype, ← hrest.1]
  exact Progress.misses_type (p := { p₁ with subst := s }) hreturns.isLiteral hr hmisses

/-- What is missed on the way up is missed by the inferred type.

**Proof sketch.** Induction on the way up. A component that a branch does not have is cut off. A
literal type that hides a plain type is all that is left of both, and it has another value. What a
type misses stays missed when substitutions are applied, function results are put into tuples or
the type is joined with itself. -/
theorem Missed.misses (h : Missed depth σ n ls)
    (hi : outcome (inferTo depth n) σ = (.ok i, σ')) : i.type.Misses ls := by
  induction h generalizing i σ' with
  | statement hbefore hstatement hreturns htuple hdrops =>
    refine misses_of_last hreturns hbefore (fun j σ₂ hj => ?_) hi
    obtain ⟨rfl, rfl⟩ := eq_of_outcome_eq hstatement hj
    exact ⟨htuple, .inr hdrops⟩
  | first hbefore hresult hmissed ih =>
    refine misses_of_last hmissed.returned hbefore (fun j σ₂ hj => ?_) hi
    obtain ⟨args, v, checks, htype, _⟩ := ih hj
    exact ⟨by rw [htype]; rfl, .inl ⟨hresult, ih hj⟩⟩
  | alone henter _ ih =>
    obtain ⟨c', τ₁, b, σ₂, henter', hb, htype⟩ := inferBranch_none_eq_ok hi
    obtain ⟨rfl, rfl⟩ := eq_of_outcome_eq henter henter'
    exact (ih hb).apply htype
  | both hreturns hother he hbtype hetype hlost =>
    obtain ⟨c', τ₁, b', τ₂, τ₃, e', τ₄, _, _, hother', he', s, t, joined, u, k, k', hwraps, hjoin,
      hu, htype⟩ := inferBranch_some_eq_ok hi
    obtain ⟨rfl, rfl⟩ := eq_of_outcome_eq hother hother'
    obtain ⟨rfl, rfl⟩ := eq_of_outcome_eq he he'
    rw [hetype] at hwraps
    rw [hbtype] at hjoin
    have hmisses := Ty.misses_join hwraps (fun x hx => (hreturns.isLiteral x hx).2.2) hlost hjoin
    exact (hmisses.apply hu).apply htype

/-- In a tree, inferred to a depth from a session, stands a return statement of some literals,
outside the functions in it, that is missed, or that the last statement of a chunk, which may go on,
does not add to a result that does not cover it, be it that it has an open component. -/
inductive Lost : Nat → Session → Node → List (String × Literal) → Prop
  | missed {depth : Nat} {σ : Session} {n : Node} {ls : List (String × Literal)} :
      Missed depth σ n ls → Lost depth σ n ls
  | statement {depth : Nat} {σ σ₁ σ₂ : Session} {l : Location} {before : List Node}
      {statement : Node} {p : Progress} {i : Inferred} {rs : List Ty} {checks : List Checked}
      {ls : List (String × Literal)} :
      outcome (inferStatements (inferTo depth) l ⟨.empty, none, false⟩ before) (inner σ) =
        (.ok p, σ₁) →
      outcome (inferTo depth statement) σ₁ = (.ok i, σ₂) →
      statement.Returns ls → i.type.isNamed "tuple" = true →
      p.result = some (.con "tuple" rs none checks) → i.subst.returning = false →
      Ty.admitAll false ls rs = false →
      Lost (depth + 1) σ (.chunk l (before ++ [statement]) none) ls

lemma Lost.returned (h : Lost depth σ n ls) : n.Returns ls := by
  cases h with
  | missed hmissed => exact hmissed.returned
  | statement _ _ hreturns => exact .statement (by simp) hreturns

/-- What is lost is not covered by the inferred type. -/
theorem Lost.not_covers (h : Lost depth σ n ls) (hi : outcome (inferTo depth n) σ = (.ok i, σ')) :
    i.type.covers false ls = false := by
  cases h with
  | missed hmissed => exact (hmissed.misses hi).not_covers
  | statement hbefore hstatement hreturns htuple hr hreturning hrs =>
    obtain ⟨q, τ, hq, htype⟩ := inferChunk_none_eq_ok hi
    obtain ⟨j, σ₂', p₁, s, σ₃, σ₄, hj, hadd, hrest⟩ := exists_addStatement hbefore hq
    obtain ⟨rfl, rfl⟩ := eq_of_outcome_eq hstatement hj
    rw [addStatement_eq hreturns htuple] at hadd
    rw [inferStatements, pure_eq_ok] at hrest
    rw [htype, ← hrest.1]
    show p₁.type.covers false _ = false
    exact addReturn_not_covers hreturns.isLiteral hr hreturning hrs hadd

/-- The inferred type of a tree has, for each return statement of literals in it that is not lost on
the way up, a component for each of the literals, in order, which the literal extends; and it has
not if the return statement is lost and nothing on the way up makes up for it. -/
theorem infer_receives {n : Node} (hi : outcome (Check.infer n) σ = (.ok i, σ')) :
    (Kept (depthFor n) σ n ls → n.Returns ls ∧ i.type.Receives ls) ∧
      (Lost (depthFor n) σ n ls → n.Returns ls ∧ ¬ i.type.Receives ls) := by
  constructor
  · intro h
    exact ⟨h.returned, (Ty.receives_iff h.returned.isLiteral).2 (h.covers hi)⟩
  · intro h
    refine ⟨h.returned, fun hreceives => ?_⟩
    have hcovers := (Ty.receives_iff h.returned.isLiteral).1 hreceives
    rw [h.not_covers hi] at hcovers
    cases hcovers

/-- A chunk that returns some expressions. -/
def returning (es : List Node) : Node := .chunk default [] (some (.returns default es))

/-- A chunk that returns literals has the tuple of their types. -/
lemma inferTo_returning {es : List Node} (hes : Node.AreLiterals es ls)
    (h : outcome (inferTo (depth + 1) (returning es)) σ = (.ok i, σ')) :
    i.type = .tuple (Ty.literals ls) := by
  rw [inferTo, returning, inferStep] at h
  obtain ⟨p, σ₁, j, σ₂, σ₃, hp, hj, hlast⟩ := inferChunk_some_eq_ok h
  rw [inferStatements, pure_eq_ok] at hp
  rw [← hp.1, addLast, pure_eq_ok] at hlast
  cases depth with
  | zero => cases hj
  | succ depth => rw [← hlast.1, inferReturn_literals hes hj]

/-- Whether an inference succeeds, and then whether its type covers some literals. -/
def covers? (ls : List (String × Literal)) (r : Except Stop Inferred × Session) : Option Bool :=
  match r.1 with
  | .ok i => some (i.type.covers false ls)
  | .error _ => none

lemma exists_of_covers? {r : Except Stop Inferred × Session} {b : Bool}
    (h : covers? ls r = some b) : ∃ i σ', r = (.ok i, σ') ∧ i.type.covers false ls = b := by
  rcases r with ⟨e | i, σ'⟩
  · cases h
  · exact ⟨i, σ', rfl, Option.some.inj h⟩

/-- The literal of a number, with the name of its type. -/
def numeral (k : Nat) : String × Literal := ("number", .number (.ofNat k))

/-- The statement `if true then return 1 else return 2, "a" end`. -/
def shorterBody : Node :=
  .branch default (.boolean default true) (returning [.number default (.ofNat 1)]) []
    (some (returning [.number default (.ofNat 2), .string default "a"]))

/-- The chunk of this statement. -/
def shorterChunk : Node := .chunk default [shorterBody] none

theorem infer_receives_shorterChunk : ∃ i σ',
    outcome (Check.infer shorterChunk) .initial = (.ok i, σ') ∧
      Kept (depthFor shorterChunk) .initial shorterChunk [numeral 1] ∧
      i.type.Receives [numeral 1] ∧
      Lost (depthFor shorterChunk) .initial shorterChunk [numeral 2, ("string", .text "a")] ∧
      ¬ i.type.Receives [numeral 2, ("string", .text "a")] := by
  have hrun : covers? [numeral 1] (outcome (Check.infer shorterChunk) .initial) = some true := by
    decide +kernel
  obtain ⟨i, σ', hi, _⟩ := exists_of_covers? hrun
  have hone : Node.AreLiterals [.number default (.ofNat 1)] [numeral 1] := .cons rfl .nil
  have htwo : Node.AreLiterals [.number default (.ofNat 2), .string default "a"]
      [numeral 2, ("string", .text "a")] := .cons rfl (.cons rfl .nil)
  obtain ⟨depth, hdepth⟩ : ∃ depth, depthFor shorterChunk = depth + 3 := ⟨_, rfl⟩
  rw [hdepth]
  have hchunk : outcome (inferChunk (inferTo (depth + 2)) default [shorterBody] none) .initial =
      (.ok i, σ') := by
    rw [← hi, Check.infer, hdepth]
    rfl
  obtain ⟨q, τ, hq, _⟩ := inferChunk_none_eq_ok hchunk
  have hbefore : outcome (inferStatements (inferTo (depth + 2)) default ⟨.empty, none, false⟩ [])
      (inner .initial) = (.ok ⟨.empty, none, false⟩, inner .initial) := rfl
  obtain ⟨j, τ₁, _, _, _, _, hj, _⟩ := exists_addStatement hbefore hq
  rw [inferTo] at hj
  obtain ⟨c, σ₁, b, σ₂, σ₃, e, σ₄, henter, hb, hother, he, _⟩ := inferBranch_some_eq_ok hj
  have hkept : Kept (depth + 2) (inner .initial) shorterBody [numeral 1] := by
    refine .body henter (.last hone) hother he (inferTo_returning htwo he) (by decide) ?_
    rw [inferTo_returning hone hb]
    exact Ty.anyHidden_literals
  have hmissed : Missed (depth + 2) (inner .initial) shorterBody
      [numeral 2, ("string", .text "a")] :=
    .both (.other (.last (.returns htwo))) hother he (inferTo_returning hone hb)
      (inferTo_returning htwo he) (by decide +kernel)
  have hkept' : Kept (depth + 3) .initial shorterChunk [numeral 1] :=
    .statement hbefore hj hkept (.first rfl)
  have hlost := Lost.missed (.first hbefore rfl hmissed)
  refine ⟨i, σ', hi, hkept', ?_, hlost, ?_⟩
  · exact ((infer_receives hi).1 (hdepth ▸ hkept')).2
  · exact ((infer_receives hi).2 (hdepth ▸ hlost)).2

/-- The statement `if true then return … end`. -/
def mayReturn (k : Nat) : Node :=
  .branch default (.boolean default true) (returning [.number default (.ofNat k)]) [] none

/-- The chunk `if true then return 1 end if true then return 2 end`. -/
def secondReturn : Node := .chunk default [mayReturn 1, mayReturn 2] none

/-- The type of this chunk leaves out the second return statement. -/
theorem not_receives_secondReturn : secondReturn.Returns [numeral 2] ∧ ∃ i σ',
    outcome (Check.infer secondReturn) .initial = (.ok i, σ') ∧ ¬ i.type.Receives [numeral 2] := by
  have hes : Node.AreLiterals [.number default (.ofNat 2)] [numeral 2] := .cons rfl .nil
  have hrun : covers? [numeral 2] (outcome (Check.infer secondReturn) .initial) = some false := by
    decide +kernel
  obtain ⟨i, σ', hi, hcovers⟩ := exists_of_covers? hrun
  have hreturns : (mayReturn 2).Returns [numeral 2] := .body (.last (.returns hes))
  refine ⟨.statement (List.mem_cons_of_mem _ (List.mem_singleton.2 rfl)) hreturns, i, σ', hi, ?_⟩
  rw [Ty.receives_iff hes.isLiteral, hcovers]
  exact Bool.false_ne_true

end Check

end LuaTyping
