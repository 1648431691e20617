import LuaTyping.Proofs.EmptyReturns
import LuaTyping.Proofs.ReturnCoverage
import LuaTyping.Proofs.Termination

set_option autoImplicit false

/-!
# Conditional statements without return statements

A chunk takes a statement for a return if the type of the statement is a tuple. The type of a
conditional statement without return statements is the empty tuple, so the chunk takes it for one
that returns nothing. This file says what becomes of a chunk with such a statement: where components
have been returned before it, the chunk is refused, and whatever components are returned after it
may be nil. Only where nothing with components is returned, or another such statement stands before
it, the statement makes no difference.

## Main definitions

* `Node.Silent` — a statement without return statements.
* `Node.closes` — a conditional statement that passes for one that returns in every case.
* `Check.inferChunkPast` — a chunk in which nothing is made of one statement.

## Main results

* `Check.passesFor_of_silent` — what silent statements pass for.
* `Check.chunk_with_silent_branch` — what becomes of a chunk with a silent conditional
  statement in it.
-/

namespace LuaTyping

/-! ## Statements without return statements -/

namespace Node

/-- A statement in which no return statement stands, outside of functions. -/
inductive Silent : Node → Prop
  | declare (l : Location) (names : List DeclaredName) (exprs : List Node) (note : Option Node) :
      Silent (.declare l names exprs note)
  | assign (l : Location) (targets exprs : List Node) : Silent (.assign l targets exprs)
  | call (l : Location) (callee : Node) (args : List Node) : Silent (.call l callee args)
  | reveal (l : Location) (expr : Node) : Silent (.reveal l expr)
  | branch (l lb : Location) (condition : Node) (elseifs : List Node) {body : List Node} :
      (∀ s ∈ body, Silent s) → Silent (.branch l condition (.chunk lb body none) elseifs none)
  | branchElse (l lb lo : Location) (condition : Node) (elseifs : List Node)
      {body other : List Node} : (∀ s ∈ body, Silent s) → (∀ s ∈ other, Silent s) →
      Silent (.branch l condition (.chunk lb body none) elseifs (some (.chunk lo other none)))

/-- Whether a silent conditional statement passes for one that returns in every case: both its
branches hold further conditional statements. -/
def closes : Node → Bool
  | .branch _ _ (.chunk _ body _) _ (some (.chunk _ other _)) =>
    body.any isBranch && other.any isBranch
  | _ => false

end Node

namespace Check

open Ty

variable {infer : Inference} {l : Location} {p p' : Progress} {i : Inferred} {σ σ' : Session}

/-- What a statement passes for: a conditional statement for a return of nothing, any other one for
no return. -/
structure PassesFor (n : Node) (i : Inferred) : Prop where
  branch : n.isBranch = true → i.type = .tuple [] ∧ i.subst.returning = n.closes
  other : n.isBranch = false → (i.type.isNamed "tuple" && !isCall n) = false

lemma addStatement_branch {statement : Node} (hbranch : statement.isBranch = true)
    (htype : i.type = .tuple []) : addStatement l p statement i = addReturn l p i := by
  have hcall : isCall statement = false := by
    cases statement with
    | call => cases hbranch
    | _ => rfl
  rw [addStatement, if_pos (by simp [htype, hcall, Ty.tuple, isNamed])]

lemma inferStatements_silent {statements : List Node}
    (hstatements : ∀ n ∈ statements, ∀ {i : Inferred} {σ σ' : Session},
      outcome (infer n) σ = (.ok i, σ') → PassesFor n i)
    {returned : Bool} (hp : p.result = if returned then some (.tuple []) else none)
    (h : outcome (inferStatements infer l p statements) σ = (.ok p', σ')) :
    p'.result = if returned || statements.any Node.isBranch then some (.tuple []) else none := by
  induction statements generalizing p σ returned with
  | nil =>
    cases h
    simpa using hp
  | cons n rest ih =>
    rw [inferStatements_cons] at h
    obtain ⟨i, σ₁, hi, h⟩ := bind_eq_ok.1 h
    obtain ⟨q, σ₂, hadd, h⟩ := bind_eq_ok.1 h
    obtain ⟨s, σ₃, -, h⟩ := bind_eq_ok.1 h
    have hpasses := hstatements n (by simp) hi
    have hq : q.result = if returned || n.isBranch then some (.tuple []) else none := by
      cases hbranch : n.isBranch with
      | false =>
        rw [addStatement, if_neg (by simp [hpasses.other hbranch])] at hadd
        cases hadd
        simpa using hp
      | true =>
        have htype := (hpasses.branch hbranch).1
        have hhushed : p.Hushed := by
          intro r hr
          rw [hp] at hr
          cases returned with
          | false => cases hr
          | true => exact Option.some.inj hr ▸ emptyTuple_tuple
        rw [addStatement_branch hbranch htype] at hadd
        obtain ⟨rfl, -⟩ := eq_of_outcome_eq
          (outcome_addReturn_nothing (htype ▸ emptyTuple_tuple) hhushed) hadd
        cases returned <;> simp [hp, htype]
    have hrest := ih (fun m hm => hstatements m (by simp [hm])) (p := { q with subst := s }) hq h
    rwa [Bool.or_assoc, ← List.any_cons] at hrest

/-- A silent chunk returns nothing, and passes for one that returns if it holds a conditional
statement. -/
lemma inferTo_chunk_silent {statements : List Node} {depth : Nat}
    (hstatements : ∀ n ∈ statements, ∀ {depth : Nat} {i : Inferred} {σ σ' : Session},
      outcome (inferTo depth n) σ = (.ok i, σ') → PassesFor n i)
    (h : outcome (inferTo depth (.chunk l statements none)) σ = (.ok i, σ')) :
    i.type = .tuple [] ∧ i.subst.returning = statements.any Node.isBranch := by
  obtain _ | depth := depth
  · cases h
  change outcome (inferChunk (inferTo depth) l statements none) σ = _ at h
  rw [inferChunk_eq] at h
  obtain ⟨σ₁, h⟩ := inScope_eq_ok h
  obtain ⟨p, σ₂, hp, h⟩ := bind_eq_ok.1 h
  obtain ⟨rfl, -⟩ := eq_of_outcome_eq (outcome_finish_none (inferTo depth) p σ₂) h
  have hresult : p.result =
      if false || statements.any Node.isBranch then some (.tuple []) else none :=
    inferStatements_silent (fun n hn => hstatements n hn) rfl hp
  rw [Bool.false_or] at hresult
  obtain ⟨s, result, returned⟩ := p
  obtain rfl := hresult
  cases statements.any Node.isBranch with
  | false => exact ⟨rfl, rfl⟩
  | true => cases returned <;> exact ⟨rfl, rfl⟩

/-- Without a last branch, a conditional statement whose body gives the empty tuple gives it too, and
passes for one that may go on. -/
lemma inferBranch_silent {condition body : Node}
    (hbody : ∀ {j : Inferred} {τ τ' : Session}, outcome (infer body) τ = (.ok j, τ') →
      j.type = .tuple [])
    (h : outcome (inferBranch infer l condition body none) σ = (.ok i, σ')) :
    i.type = .tuple [] ∧ i.subst.returning = false := by
  obtain ⟨c, σ₁, b, σ₂, σ₃, -, hb, h⟩ := inferBranch_eq_ok h
  obtain ⟨t, σ₄, ht, h⟩ := bind_eq_ok.1 h
  cases h
  have happly := (apply_eq_ok.1 ht).1
  rw [hbody hb, emptyTuple_tuple.apply] at happly
  exact ⟨(Except.ok.inj happly).symm, rfl⟩

/-- A conditional statement both branches of which give the empty tuple gives it too, and passes for
one that returns if both branches do. -/
lemma inferBranch_silent_else {condition body other : Node} {returns returns' : Bool}
    (hbody : ∀ {j : Inferred} {τ τ' : Session}, outcome (infer body) τ = (.ok j, τ') →
      j.type = .tuple [] ∧ j.subst.returning = returns)
    (hother : ∀ {j : Inferred} {τ τ' : Session}, outcome (infer other) τ = (.ok j, τ') →
      j.type = .tuple [] ∧ j.subst.returning = returns')
    (h : outcome (inferBranch infer l condition body (some other)) σ = (.ok i, σ')) :
    i.type = .tuple [] ∧ i.subst.returning = (returns && returns') := by
  obtain ⟨c, σ₁, b, σ₂, σ₃, -, hb, h⟩ := inferBranch_eq_ok h
  obtain ⟨_, σ₄, -, h⟩ := bind_eq_ok.1 h
  obtain ⟨e, σ₅, he, h⟩ := bind_eq_ok.1 h
  obtain ⟨hbtype, hbreturning⟩ := hbody hb
  obtain ⟨hetype, hereturning⟩ := hother he
  obtain ⟨s, σ₆, -, h⟩ := bind_eq_ok.1 h
  obtain ⟨⟨t, u⟩, σ₇, hu, h⟩ := bind_eq_ok.1 h
  obtain ⟨joined, σ₈, hjoined, h⟩ := bind_eq_ok.1 h
  obtain ⟨type₁, σ₉, htype₁, h⟩ := bind_eq_ok.1 h
  obtain ⟨type₂, σ₁₀, htype₂, h⟩ := bind_eq_ok.1 h
  cases h
  -- both branches are empty tuples, and so is all that is made of them
  obtain ⟨k, k', hu⟩ := exists_unify_of_unifyOrNot hu
  have hleft : u.left = .tuple [] := by
    rw [hetype] at hu
    exact (wraps_of_unifyTo hu).1.eq_of_nil
  obtain ⟨k'', hjoined⟩ := naming_eq_ok hjoined
  rw [hleft, hbtype] at hjoined
  obtain ⟨rfl, -⟩ := pure_eq_ok (a := Ty.tuple []).1 hjoined
  have happly₁ := (apply_eq_ok.1 htype₁).1
  rw [emptyTuple_tuple.apply] at happly₁
  cases happly₁
  have happly₂ := (apply_eq_ok.1 htype₂).1
  rw [emptyTuple_tuple.apply] at happly₂
  exact ⟨(Except.ok.inj happly₂).symm, by rw [hbreturning, hereturning]⟩

/-- Silent statements return nothing: conditional statements pass for returns of nothing, others for
no returns. -/
theorem passesFor_of_silent {n : Node} (h : n.Silent) {depth : Nat}
    (hi : outcome (inferTo depth n) σ = (.ok i, σ')) : PassesFor n i := by
  induction h generalizing depth i σ σ' with
  | declare | assign =>
    cases depth with
    | zero => cases hi
    | succ depth =>
      obtain ⟨_, _, -, hi⟩ := bind_eq_ok.1 hi
      obtain ⟨⟨s, types⟩, _, -, hi⟩ := bind_eq_ok.1 hi
      obtain ⟨_, _, -, hi⟩ := bind_eq_ok.1 hi
      cases hi
      exact ⟨nofun, fun _ => rfl⟩
  | call l callee args => exact ⟨nofun, fun _ => by simp [isCall]⟩
  | reveal l expr =>
    cases depth with
    | zero => cases hi
    | succ depth =>
      obtain ⟨e, _, -, hi⟩ := bind_eq_ok.1 hi
      obtain ⟨text, _, -, hi⟩ := bind_eq_ok.1 hi
      obtain ⟨_, _, -, hi⟩ := bind_eq_ok.1 hi
      cases hi
      exact ⟨nofun, fun _ => rfl⟩
  | branch l lb condition elseifs hbody ih =>
    cases depth with
    | zero => cases hi
    | succ depth =>
      change outcome (inferBranch (inferTo depth) l condition _ none) σ = _ at hi
      refine ⟨fun _ => ?_, nofun⟩
      exact inferBranch_silent (fun hb => (inferTo_chunk_silent (fun n hn => ih n hn) hb).1) hi
  | branchElse l lb lo condition elseifs hbody hother ihbody ihother =>
    cases depth with
    | zero => cases hi
    | succ depth =>
      change outcome (inferBranch (inferTo depth) l condition _ (some _)) σ = _ at hi
      refine ⟨fun _ => ?_, nofun⟩
      exact inferBranch_silent_else (fun hb => inferTo_chunk_silent (fun n hn => ihbody n hn) hb)
        (fun he => inferTo_chunk_silent (fun n hn => ihother n hn) he) hi

/-! ## A silent conditional statement in a chunk -/

/-- A chunk in which one statement is inferred like the others, but nothing is made of its type,
whatever that is. It may close the chunk. -/
def inferChunkPast (infer : Inference) (l : Location) (before : List Node) (statement : Node)
    (closes : Bool) (after : List Node) (last : Option Node) : Check Inferred := inScope do
  let p ← inferStatements infer l ⟨.empty, none, false⟩ before
  let i ← infer statement
  let s ← compose i.subst p.subst
  inferStatements infer l { p with subst := s, returned := p.returned || closes } after >>=
    finish infer last

lemma closing_eq_ok {α : Type} {y : Check α} {a : α} :
    outcome (closing y) σ = (.ok a, σ') ↔
      ∃ τ, outcome y σ = (.ok a, τ) ∧ { τ with scopes := τ.scopes.pop } = σ' := by
  constructor
  · intro h
    obtain ⟨τ, hτ⟩ := exists_of_closing h
    refine ⟨τ, hτ, ?_⟩
    have hclosing : outcome (closing y) σ = (.ok a, { τ with scopes := τ.scopes.pop }) :=
      congrArg (fun r : Except Stop α × Session => (r.1, { r.2 with scopes := r.2.scopes.pop })) hτ
    exact (eq_of_outcome_eq hclosing h).2
  · rintro ⟨τ, hτ, rfl⟩
    exact congrArg (fun r : Except Stop α × Session => (r.1, { r.2 with scopes := r.2.scopes.pop }))
      hτ

section Insert

variable {depth : Nat} {before after : List Node} {last : Option Node} {statement : Node}
  {σ₁ σ₂ : Session} {j : Inferred}
  (hbefore : outcome (inferStatements (inferTo depth) l ⟨.empty, none, false⟩ before) (inner σ) =
    (.ok p, σ₁))
  (hj : outcome (inferTo depth statement) σ₁ = (.ok j, σ₂))

include hbefore

lemma outcome_chunk_append :
    outcome (inferTo (depth + 1) (.chunk l (before ++ after) last)) σ =
      outcome (closing (inferStatements (inferTo depth) l p after >>= finish (inferTo depth) last))
        σ₁ := by
  change outcome (inferChunk (inferTo depth) l (before ++ after) last) σ = _
  rw [inferChunk_eq, inferStatements_append, bind_assoc]
  exact outcome_closing_bind hbefore

include hj

lemma outcome_chunk_insert :
    outcome (inferTo (depth + 1) (.chunk l (before ++ statement :: after) last)) σ =
      outcome (closing (addStatement l p statement j >>= fun q =>
        compose j.subst q.subst >>= fun s =>
          inferStatements (inferTo depth) l { q with subst := s } after >>=
            finish (inferTo depth) last)) σ₂ := by
  rw [outcome_chunk_append hbefore, inferStatements_cons]
  simp only [bind_assoc]
  exact outcome_closing_bind hj

lemma outcome_chunkPast (closes : Bool) :
    outcome (inferChunkPast (inferTo depth) l before statement closes after last) σ =
      outcome (closing (compose j.subst p.subst >>= fun s =>
        inferStatements (inferTo depth) l { p with subst := s, returned := p.returned || closes }
          after >>= finish (inferTo depth) last)) σ₂ := by
  exact (outcome_closing_bind hbefore).trans (outcome_closing_bind hj)

end Insert

/-- From progress without components, a chunk is accepted with no components regardless of what has
been returned. -/
lemma closing_hushed {depth : Nat} {after : List Node} {last : Option Node} {s t : Subst}
    {q : Progress} (hp : p.Hushed) (hq : q.Hushed)
    (h : ∃ i, outcome (closing (compose s t >>= fun s =>
      inferStatements (inferTo depth) l { p with subst := s } after >>=
        finish (inferTo depth) last)) σ = (.ok i, σ') ∧ i.type.EmptyTuple) :
    ∃ i, outcome (closing (compose s t >>= fun s =>
      inferStatements (inferTo depth) l { q with subst := s } after >>=
        finish (inferTo depth) last)) σ = (.ok i, σ') ∧ i.type.EmptyTuple := by
  obtain ⟨i, h, hi⟩ := h
  obtain ⟨τ, h, hτ⟩ := closing_eq_ok.1 h
  obtain ⟨s', τ₁, hs', h⟩ := bind_eq_ok.1 h
  obtain ⟨j, hj, hempty⟩ := rest_hushed (p := { p with subst := s' }) (q := { q with subst := s' })
    hp.tupled hq rfl ⟨i, h, hi⟩
  exact ⟨j, closing_eq_ok.2 ⟨τ, bind_eq_ok.2 ⟨s', τ₁, hs', hj⟩, hτ⟩, hempty⟩

/-- A conditional statement without return statements is not neutral in a chunk: it passes for a
return of nothing. If components have been returned before it, the chunk is refused, unless both
branches of the statement hold further conditional statements; in that case the components are no
longer optional at the end of the chunk. If something without components has been returned before
it, nothing is made of it, except that it may close the chunk. If it is the first statement that
passes for a return, then the chunk is accepted with no components exactly if it is when nothing is
made of the statement; and whatever components a later statement returns may be nil. Where the
statement leaves the session and the conclusions as they are, the chunk in which nothing is made of
it is the chunk without it. -/
theorem chunk_with_silent_branch {depth : Nat} {before after : List Node} {last : Option Node}
    {statement : Node} (hsilent : statement.Silent) (hbranch : statement.isBranch = true)
    {σ₁ σ₂ : Session} {j : Inferred}
    (hbefore : outcome (inferStatements (inferTo depth) l ⟨.empty, none, false⟩ before) (inner σ) =
      (.ok p, σ₁))
    (hj : outcome (inferTo depth statement) σ₁ = (.ok j, σ₂)) :
    (∀ i σ', outcome (inferTo (depth + 1) (.chunk l (before ++ statement :: after) last)) σ =
        (.ok i, σ') →
      (statement.closes = false → p.Hushed) ∧ (p.Hushed → i.type.OptionalTuple)) ∧
    (statement.closes = true → ∀ r i σ', p.result = some r →
      outcome (inferTo (depth + 1) (.chunk l (before ++ [statement]) none)) σ = (.ok i, σ') →
      i.type = r) ∧
    (p.result.isSome = true → p.Hushed →
      outcome (inferTo (depth + 1) (.chunk l (before ++ statement :: after) last)) σ =
        outcome (inferChunkPast (inferTo depth) l before statement statement.closes after last) σ) ∧
    (p.result = none → ∀ σ',
      (∃ i, outcome (inferTo (depth + 1) (.chunk l (before ++ statement :: after) last)) σ =
        (.ok i, σ') ∧ i.type.EmptyTuple) ↔
      ∃ i, outcome (inferChunkPast (inferTo depth) l before statement false after last) σ =
        (.ok i, σ') ∧ i.type.EmptyTuple) ∧
    (outcome (compose j.subst p.subst) σ₂ = (.ok p.subst, σ₁) →
      outcome (inferChunkPast (inferTo depth) l before statement false after last) σ =
        outcome (inferTo (depth + 1) (.chunk l (before ++ after) last)) σ) := by
  obtain ⟨htype, hreturning⟩ := (passesFor_of_silent hsilent hj).branch hbranch
  have hempty : j.type.EmptyTuple := htype ▸ emptyTuple_tuple
  have hnamed := inferStatements_isNamed hbefore
  have hwith : ∀ after last,
      outcome (inferTo (depth + 1) (.chunk l (before ++ statement :: after) last)) σ = _ :=
    fun after last => outcome_chunk_insert hbefore hj
  have hpast : ∀ closes,
      outcome (inferChunkPast (inferTo depth) l before statement closes after last) σ = _ :=
    outcome_chunkPast hbefore hj
  rw [addStatement_branch hbranch htype] at hwith
  refine ⟨fun i σ' h => ?_, fun hcloses r i σ' hr h => ?_, fun hsome hp => ?_, fun hnone σ' => ?_,
    fun hinert => ?_⟩
  · rw [hwith] at h
    obtain ⟨τ, h⟩ := exists_of_closing h
    obtain ⟨q, τ₁, hq, h⟩ := bind_eq_ok.1 h
    obtain ⟨s, τ₂, -, h⟩ := bind_eq_ok.1 h
    refine ⟨fun hgoes r hr => ?_, fun hp => ?_⟩
    · by_contra hloud
      refine addReturn_refused hempty (hreturning.trans hgoes) hr (hnamed r hr) ?_ hq
      exact fun hargs => hloud (emptyTuple_iff.2 ⟨hnamed r hr, hargs⟩)
    · obtain ⟨rfl, -⟩ := eq_of_outcome_eq (outcome_addReturn_nothing hempty hp) hq
      exact rest_optional rfl (hp.getD hempty).optional h
  · rw [hwith] at h
    obtain ⟨τ, h⟩ := exists_of_closing h
    obtain ⟨q, τ₁, hq, h⟩ := bind_eq_ok.1 h
    obtain ⟨s, τ₂, -, h⟩ := bind_eq_ok.1 h
    obtain rfl := addReturn_closing hempty (hreturning.trans hcloses) hr (hnamed r hr) hq
    obtain ⟨rfl, -⟩ := eq_of_outcome_eq (outcome_finish_none (inferTo depth) _ τ₂) h
    rw [Progress.type, hr]
    rfl
  · have hresult : some (p.result.getD j.type) = p.result := by
      obtain ⟨r, hr⟩ := Option.isSome_iff_exists.1 hsome
      rw [hr, Option.getD_some]
    rw [hwith, outcome_closing_bind (outcome_addReturn_nothing hempty hp), hpast, hresult,
      hreturning]
  · have hp : p.Hushed := fun r hr => absurd (hnone.symm.trans hr) (by simp)
    have hp' : Progress.Hushed ⟨p.subst, p.result, p.returned || false⟩ := hp
    have hq : Progress.Hushed ⟨p.subst, some (p.result.getD j.type),
        p.returned || j.subst.returning⟩ := by
      rintro r ⟨⟩
      exact hp.getD hempty
    rw [hwith, outcome_closing_bind (outcome_addReturn_nothing hempty hp), hpast]
    exact ⟨closing_hushed hq hp', closing_hushed hp' hq⟩
  · rw [hpast, outcome_closing_bind hinert, Bool.or_false, outcome_chunk_append hbefore]

/-! ### Empty conditional statements before a return statement -/

/-- The statement `if true then end`. -/
def emptyBranch : Node :=
  .branch default (.boolean default true) (.chunk default [] none) [] none

/-- The statement `return "a"`. -/
def returnText : Node := .returns default [.string default "a"]

/-- Of two empty conditional statements before `return "a"`, the second one makes no difference, and
after one of them what is returned may be nil. -/
theorem chunk_with_silent_branch_twice :
    outcome (inferTo 4 (.chunk default [emptyBranch, emptyBranch] (some returnText))) .initial =
        outcome (inferTo 4 (.chunk default [emptyBranch] (some returnText))) .initial ∧
      ∃ i σ, outcome (inferTo 4 (.chunk default [emptyBranch] (some returnText))) .initial =
        (.ok i, σ) ∧ i.type.OptionalTuple := by
  have hsilent : emptyBranch.Silent := .branch default default _ [] nofun
  have hbefore : outcome (inferStatements (inferTo 3) default ⟨.empty, none, false⟩ [emptyBranch])
      (inner .initial) = (.ok ⟨.empty, some (.tuple []), false⟩, inner .initial) := rfl
  have hj : outcome (inferTo 3 emptyBranch) (inner .initial) =
      (.ok ⟨.empty, .tuple []⟩, inner .initial) := rfl
  have hhushed : Progress.Hushed ⟨.empty, some (.tuple []), false⟩ := by
    rintro r ⟨⟩
    exact emptyTuple_tuple
  constructor
  · obtain ⟨-, -, hsecond, -, hinert⟩ := chunk_with_silent_branch hsilent rfl hbefore hj
    exact (hsecond rfl hhushed).trans (hinert rfl)
  · have hstart : outcome (inferStatements (inferTo 3) default ⟨.empty, none, false⟩ [])
        (inner .initial) = (.ok ⟨.empty, none, false⟩, inner .initial) := rfl
    obtain ⟨i, σ, h⟩ : ∃ i σ, outcome (inferTo 4 (.chunk default [emptyBranch] (some returnText)))
        .initial = (.ok i, σ) := ⟨_, _, rfl⟩
    obtain ⟨hfirst, -⟩ := chunk_with_silent_branch hsilent rfl hstart hj
    exact ⟨i, σ, h, (hfirst i σ h).2 nofun⟩

/-- `return "a"` returns `"a"`, but after an empty conditional statement it returns `"a"` or nil. -/
theorem silent_branch_makes_optional :
    (∃ i σ, outcome (Check.infer (.chunk default [] (some returnText))) .initial = (.ok i, σ) ∧
        i.type = .tuple [.literal "string" (.text "a")]) ∧
      ∃ i σ, outcome (Check.infer (.chunk default [emptyBranch] (some returnText))) .initial =
        (.ok i, σ) ∧ i.type = .tuple [.union (.literal "string" (.text "a")) .nil] :=
  ⟨⟨_, _, rfl, rfl⟩, ⟨_, _, rfl, rfl⟩⟩

end Check

end LuaTyping
