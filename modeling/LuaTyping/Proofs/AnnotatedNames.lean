import LuaTyping.Proofs.Admission
import LuaTyping.Proofs.GlobalTypes
import LuaTyping.Proofs.TableConstructors

set_option autoImplicit false

/-!
# The types of annotated names

An annotation lists one type for each name of a declaration. The type of each expression is compared
with the member of the list that stands at its place. But then each name is bound to the whole list,
as a tuple. Where a value is used the tuple is often flattened to its first member, which hides this
for a single name. It shows when the name is assigned to: the new type has to unify with the tuple,
and a type that can be used where the name's own annotation is wanted does not.

## Main definitions

* `Ty.Tupleless` — no alternative of a type is a tuple.

## Main results

* `Check.annotated_names_have_whole_annotation` — what an annotated declaration does to
  its names and to later assignments.
-/

namespace LuaTyping

namespace Ty

variable {t T : Ty} {as bs : List Ty} {v w : Option Literal} {checks more : List Checked}
  {u : Unified} {k k' : Letters}

/-! ## Tuples and other types -/

/-- No alternative of a type is a tuple. -/
def Tupleless (t : Ty) : Prop := ∀ m ∈ t.members, m.isNamed "tuple" = false

lemma Ground.isOpen_eq_false (h : t.Ground) : t.isOpen = false := by
  unfold Ground at h
  induction h with
  | var hx => exact hx.elim
  | union _ _ ihl ihr => exact isOpen_union.2 ⟨ihl, ihr⟩
  | con | table | all => rfl

lemma Ground.fits_eq (ht : t.Ground) (hT : T.Ground) :
    t.fits T = (do return (← unify t T).succeeds) := by
  unfold Ground at ht hT
  cases ht with
  | var hx => exact hx.elim
  | con | table | union | all =>
    cases hT with
    | var hx => exact hx.elim
    | con | table | union | all => rfl

lemma Ground.usableAs_iff (ht : t.Ground) (hT : T.Ground) :
    t.UsableAs T ↔ ∃ u k k', outcome (unify t T) k = (.ok u, k') ∧ u.succeeds = true := by
  constructor
  · intro h
    obtain ⟨yes, k', hyes, rfl⟩ := h.exists_ok default
    rw [ht.fits_eq hT] at hyes
    obtain ⟨u, k₁, hu, hyes⟩ := bind_eq_ok.1 hyes
    exact ⟨u, _, k₁, hu, Except.ok.inj (congrArg Prod.fst hyes)⟩
  · rintro ⟨u, k, k', hu, hs⟩
    refine Tests.usableAs ⟨k, k', ?_⟩
    rw [ht.fits_eq hT, outcome_bind, hu]
    exact congrArg (fun yes => (Except.ok yes, k')) hs

/-- A closed type unifies with a tuple only if all its alternatives are tuples. -/
lemma isNamed_tuple_of_unify (ht : t.Ground)
    (h : outcome (unify t (.con "tuple" bs w more)) k = (.ok u, k')) (hu : u.succeeds = true) :
    ∀ m ∈ t.members, m.isNamed "tuple" = true := by
  unfold Ground at ht
  induction ht generalizing bs u k k' with
  | var hx => exact hx.elim
  | con =>
    rw [unify_eq] at h
    obtain ⟨rfl, -⟩ := eq_of_unifyConstructors h hu
    simp [members, isNamed]
  | table =>
    rw [unify_eq] at h
    exact absurd (hu.symm.trans (not_succeeds_of_shown h)) (by decide)
  | union _ _ ihl ihr =>
    rw [unify_eq] at h
    obtain ⟨u₁, u₂, k₁, k₂, hleft, hu₁, hright, hu₂⟩ := unify_union_left h rfl hu
    -- the tuple may have changed inside, but is a tuple still
    obtain ⟨cs, hcs, -⟩ := (wraps_of_unifyTo hleft).2.exists_args
    rw [hcs] at hright
    intro m hm
    exact (List.mem_append.1 hm).elim (ihl hleft hu₁ m) (ihr hright hu₂ m)
  | all hq => exact hq.elim

/-- A tuple unifies with a closed type only if an alternative of that is a tuple. -/
lemma exists_tuple_of_unify_tuple (hT : T.Ground)
    (h : outcome (unify (.con "tuple" as v checks) T) k = (.ok u, k')) (hu : u.succeeds = true) :
    ∃ m ∈ T.members, m.isNamed "tuple" = true := by
  unfold Ground at hT
  induction hT generalizing as u k k' with
  | var hx => exact hx.elim
  | con =>
    rw [unify_eq] at h
    obtain ⟨rfl, -⟩ := eq_of_unifyConstructors h hu
    exact ⟨_, List.mem_singleton_self _, by simp [isNamed]⟩
  | table =>
    rw [unify_eq] at h
    exact absurd (hu.symm.trans (not_succeeds_of_shown h)) (by decide)
  | union _ _ ihl ihr =>
    rw [unify_eq] at h
    obtain ⟨u₁, u₂, k₁, k₂, hleft, hright, hsucceeds⟩ := unify_union_right h
    rw [hu, eq_comm, Bool.or_eq_true] at hsucceeds
    rcases hsucceeds with hu₁ | hu₂
    · obtain ⟨m, hm, htuple⟩ := ihl hleft hu₁
      exact ⟨m, List.mem_append_left _ hm, htuple⟩
    · obtain ⟨cs, hcs, -⟩ := (wraps_of_unifyTo hleft).1.exists_args
      rw [hcs] at hright
      obtain ⟨m, hm, htuple⟩ := ihr hright hu₂
      exact ⟨m, List.mem_append_right _ hm, htuple⟩
  | all hq => exact hq.elim

/-- A closed type all of whose alternatives are tuples unifies with a closed type only if an
alternative of that is a tuple. -/
lemma exists_tuple_of_unify (ht : ∀ m ∈ t.members, m.isNamed "tuple" = true) (hT : T.Ground)
    (h : outcome (unify t T) k = (.ok u, k')) (hu : u.succeeds = true) :
    ∃ m ∈ T.members, m.isNamed "tuple" = true := by
  induction t generalizing u k k' with
  | union left right ihl _ =>
    rw [unify_eq] at h
    obtain ⟨u₁, -, k₁, -, hleft, hu₁, -⟩ := unify_union_left h hT.isOpen_eq_false hu
    exact ihl (fun m hm => ht m (List.mem_append_left _ hm)) hleft hu₁
  | con c as v checks =>
    obtain rfl : c = "tuple" := by simpa [isNamed] using ht _ (List.mem_singleton_self _)
    exact exists_tuple_of_unify_tuple hT h hu
  | var | table | all => exact absurd (ht _ (List.mem_singleton_self _)) (by simp [isNamed])

/-- What can be used as a type without tuples cannot be used as a tuple. -/
lemma Tupleless.not_usableAs_tuple (hT : T.Tupleless) (hclosed : T.Ground) (ht : t.Ground)
    (hbs : (Ty.con "tuple" bs w more).Ground) (h : t.UsableAs T) :
    ¬ t.UsableAs (.con "tuple" bs w more) := by
  intro htuple
  obtain ⟨u, k, k', hu, hsucceeds⟩ := (ht.usableAs_iff hclosed).1 h
  obtain ⟨u', l, l', hu', hsucceeds'⟩ := (ht.usableAs_iff hbs).1 htuple
  obtain ⟨m, hm, hnamed⟩ :=
    exists_tuple_of_unify (isNamed_tuple_of_unify ht hu' hsucceeds') hclosed hu hsucceeds
  exact Bool.false_ne_true ((hT m hm).symm.trans hnamed)

lemma Ground.generalize_eq (h : t.Ground) (fixed : List String) : t.generalize fixed = t :=
  Check.generalize_of_closed (List.eq_nil_iff_forall_not_mem.2 fun x hx => h.freeVars x hx) fixed

end Ty

namespace Check

variable {x : String} {σ σ' : Session} {l ln : Location} {T t : Ty} {Ts types : List Ty}

/-! ## Annotated declarations -/

lemma local?_bind_same {y : String} (hx : σ.scopes.local? x = some T) :
    (σ.scopes.bind y T).local? x = some T := by
  by_cases hxy : x = y
  · subst hxy
    exact Scopes.local?_bind_self
  · exact (Scopes.local?_enter_of_ne hxy).trans hx

/-- One name of an annotated declaration: it has an annotation of its own, but is bound to all of
the annotation. -/
lemma bindNames_annotated_cons {name : DeclaredName} {rest : List DeclaredName} {number : Nat}
    (hTs : (Ty.tuple Ts).Ground)
    (h : outcome (bindNames l (some (.typeNote ln (.tuple Ts))) types number (name :: rest)) σ =
      (.ok (), σ')) :
    ∃ x T σ₁, name = .bare x ∧ Ts[number]? = some T ∧ σ₁.scopes.local? x = some (.tuple Ts) ∧
      (∀ y, σ.scopes.local? y = some (.tuple Ts) → σ₁.scopes.local? y = some (.tuple Ts)) ∧
      outcome (bindNames l (some (.typeNote ln (.tuple Ts))) types (number + 1) rest) σ₁ =
        (.ok (), σ') := by
  unfold bindNames at h
  obtain ⟨⟨tuple, annotated⟩, σ₁, hnote, h⟩ := bind_eq_ok.1 h
  obtain ⟨hpair, rfl⟩ := pure_eq_ok.1 hnote
  cases hpair
  obtain ⟨t, σ₁, ht, h⟩ := bind_eq_ok.1 h
  obtain ⟨T, σ₂, hT, h⟩ := bind_eq_ok.1 h
  obtain ⟨fit, σ₃, hfit, h⟩ := bind_eq_ok.1 h
  have hscopes : σ₃.scopes = σ.scopes := by
    have h₁ := ((scopeless_member types number).scopes_eq σ).1
    have h₂ := ((scopeless_member Ts number).scopes_eq σ₁).1
    have h₃ := ((Scopeless.naming (t.fits T)).scopes_eq σ₂).1
    rw [ht] at h₁
    rw [hT] at h₂
    rw [hfit] at h₃
    exact h₃.trans (h₂.trans h₁)
  cases fit with
  | false =>
    obtain ⟨wanted, σ₄, -, h⟩ := bind_eq_ok.1 h
    obtain ⟨given, σ₅, -, h⟩ := bind_eq_ok.1 h
    obtain ⟨_, σ₆, hreport, -⟩ := bind_eq_ok.1 h
    simp [report] at hreport
  | true =>
    obtain ⟨w, σ₄, hw, h⟩ := bind_eq_ok.1 h
    obtain ⟨_, σ₅, hbind, h⟩ := bind_eq_ok.1 h
    obtain ⟨rfl, rfl⟩ : Ty.tuple Ts = w ∧ σ₃ = σ₄ := by
      obtain ⟨heq, rfl⟩ := eq_of_outcome_eq (x := generalize (.tuple Ts)) rfl hw
      exact ⟨hTs.generalize_eq _ ▸ heq, rfl⟩
    cases name with
    | «variable» lx x => simp [bindDeclared, fault] at hbind
    | bare x =>
      obtain rfl : { σ₃ with scopes := σ₃.scopes.bind x (.tuple Ts) } = σ₅ :=
        congrArg Prod.snd hbind
      exact ⟨x, T, _, rfl, getElem?_of_member hT, Scopes.local?_bind_self,
        fun y hy => local?_bind_same (hscopes ▸ hy), h⟩

/-- All names of an annotated declaration. -/
lemma bindNames_annotated {names : List DeclaredName} {number : Nat} (hTs : (Ty.tuple Ts).Ground)
    (h : outcome (bindNames l (some (.typeNote ln (.tuple Ts))) types number names) σ =
      (.ok (), σ')) :
    (∀ y, σ.scopes.local? y = some (.tuple Ts) → σ'.scopes.local? y = some (.tuple Ts)) ∧
      ∀ (k : Nat) name, names[k]? = some name → ∃ x T, name = .bare x ∧
        Ts[number + k]? = some T ∧ σ'.scopes.local? x = some (.tuple Ts) := by
  induction names generalizing number σ with
  | nil =>
    obtain rfl : σ = σ' := congrArg Prod.snd h
    exact ⟨fun _ hy => hy, by simp⟩
  | cons name rest ih =>
    obtain ⟨x, T, σ₁, rfl, hT, hx, hkeep, h⟩ := bindNames_annotated_cons hTs h
    obtain ⟨hkeep', hlater⟩ := ih h
    refine ⟨fun y hy => hkeep' y (hkeep y hy), fun k name hname => ?_⟩
    cases k with
    | zero =>
      cases hname
      exact ⟨x, T, rfl, hT, hkeep' x hx⟩
    | succ k =>
      rw [← Nat.add_assoc, Nat.add_right_comm]
      exact hlater k name hname

/-! ## Assignments -/

/-- Gives a local name of type `T` the type `t`, which has to unify with the broadened old one. -/
def reassign (l : Location) (x : String) (T t : Ty) : Check Unit := do
  let (s, u) ← unifyAt l t T.broaden
  bind x (← generalize (← apply s u.left))

lemma outcome_assignName {number : Nat} (hx : σ.scopes.local? x = some T) (hT : T.Ground)
    (ht : types[number]? = some t) :
    outcome (assignName l x types number) σ = outcome (reassign l x T t) σ := by
  have hinstantiate : outcome (instantiate T) σ = (.ok T, σ) := by
    simp only [outcome, instantiate, hT.instantiate]
  rw [assignName, outcome_bind, outcome_scopes]
  dsimp only
  rw [hx, outcome_bind, hinstantiate]
  dsimp only
  rw [outcome_bind, member, ht]
  rfl

/-- A new type is accepted if it can be used where the broadened old one is wanted. -/
lemma reassign_eq_ok_iff (hT : T.Ground) (ht : t.Ground) :
    (∃ σ', outcome (reassign l x T t) σ = (.ok (), σ')) ↔ t.UsableAs T.broaden := by
  have hbroad : T.broaden.Ground := Ty.Within.broaden hT
  constructor
  · rintro ⟨σ', h⟩
    obtain ⟨⟨s, u⟩, σ₁, hunify, -⟩ := bind_eq_ok.1 h
    obtain ⟨k, k', hu, hsucceeds⟩ := exists_unify_of_unifyAt hunify
    exact (ht.usableAs_iff hbroad).2 ⟨u, k, k', hu, hsucceeds⟩
  · intro h
    obtain ⟨yes, k', hyes, rfl⟩ := h.exists_ok σ.letters
    rw [ht.fits_eq hbroad] at hyes
    obtain ⟨u, k₁, hu, hyes⟩ := bind_eq_ok.1 hyes
    obtain ⟨s, hs⟩ := Unified.succeeds_iff.1 (Except.ok.inj (congrArg Prod.fst hyes))
    have hleft : u.left.Ground := Ty.Within.wraps ht (wraps_of_unifyTo hu).1
    refine ⟨_, bind_eq_ok.2 ⟨(s, u), { σ with letters := k₁ }, ?_, bind_eq_ok.2
      ⟨u.left, _, apply_eq_ok.2 ⟨hleft.apply s, rfl⟩, rfl⟩⟩⟩
    simp only [unifyAt, outcome_bind, outcome_naming, hu, hs]
    rfl

/-- An assignment to a local name comes down to giving it the type of the value. -/
lemma outcome_assign_local {la lx : Location} {values : List Node} {P : Ty → Prop}
    (hvalues : ∀ e ∈ values, e.Formed P .expr) (hx : σ.scopes.local? x = some T) (hT : T.Ground)
    (hfields : T.holdsFields = false) (hgives : Gives x σ (.assign la [.var lx x] values) t) :
    ∃ s σ₁, outcome (Check.infer (.assign la [.var lx x] values)) σ =
      outcome (do reassign la x T t; return ⟨s, .nil⟩ : Check Inferred) σ₁ := by
  obtain ⟨_, _, _, hassign, s, types, σ₁, hgiven, k, lx', hk, ht⟩ := hgives
  cases hassign
  cases k with
  | succ k => simp at hk
  | zero =>
    refine ⟨s, σ₁, ?_⟩
    have hx₁ : σ₁.scopes.local? x = some T :=
      ((givenTypes_keeps fun e he => inferTo_tracked_expr (hvalues e he) _).moves_of_eq
        hgiven).local?_eq hx id fun _ => hfields
    change outcome (inferAssign (inferTo (depthFor (.assign la [.var lx x] values) - 1)) la
      [.var lx x] values) σ = _
    rw [inferAssign_eq, outcome_bind, hgiven]
    simp only [assignTargets, outcome_bind, outcome_assignName hx₁ hT ht, outcome_pure]
    rcases outcome (reassign la x T t) σ₁ with ⟨_ | _, _⟩ <;> rfl

/-- A constructor of another name cannot be given to a name that has a tuple. -/
lemma outcome_reassign_of_ne {c : String} {args : List Ty} {v : Option Literal}
    {checks : List Checked} (hc : c ≠ "tuple") :
    outcome (reassign l x (.tuple Ts) (.con c args v checks)) σ =
      (.error (.report l s!"Types dont unify: Expected `tuple`, got `{c}`"), σ) := by
  have hunify : unify (.con c args v checks) (Ty.tuple Ts).broaden =
      pure ⟨.error s!"Types dont unify: Expected `tuple`, got `{c}`", .con c args v checks,
        (Ty.tuple Ts).broaden⟩ := by
    rw [unify_eq]
    exact if_pos hc
  rw [reassign, unifyAt, hunify]
  rfl

/-- **Annotated names have the whole annotation**. Let a declaration with an annotation by closed
types be accepted. Then each of its names has a type at its place in the annotation, but is bound to
the tuple of all of them. A closed type can be assigned to the name afterwards exactly if it can be
used where the broadened tuple is wanted. So what can be used where the type at the place of the
name is wanted is refused, unless that type has a tuple among its alternatives; and a constructor
other than a tuple is reported as such. -/
theorem annotated_names_have_whole_annotation {names : List DeclaredName} {exprs : List Node}
    {i : Inferred} (hTs : ∀ T ∈ Ts, T.Ground)
    (h : outcome (Check.infer (.declare l names exprs (some (.typeNote ln (.tuple Ts))))) σ =
      (.ok i, σ')) :
    ∀ (k : Nat) name, names[k]? = some name → ∃ x T, name = .bare x ∧ Ts[k]? = some T ∧
      σ'.scopes.local? x = some (.tuple Ts) ∧
      ∀ la lx values t, (∀ e ∈ values, e.Formed (fun _ => True) .expr) →
        Gives x σ' (.assign la [.var lx x] values) t → t.Ground →
        ((∃ j σ'', outcome (Check.infer (.assign la [.var lx x] values)) σ' = (.ok j, σ'')) ↔
          t.UsableAs (Ty.tuple Ts).broaden) ∧
        (t.UsableAs T → T.Tupleless →
          ∃ e σ'', outcome (Check.infer (.assign la [.var lx x] values)) σ' = (.error e, σ'')) ∧
        ∀ c args v checks, t = .con c args v checks → c ≠ "tuple" →
          ∃ σ'', outcome (Check.infer (.assign la [.var lx x] values)) σ' =
            (.error (.report la s!"Types dont unify: Expected `tuple`, got `{c}`"), σ'') := by
  have hclosed : (Ty.tuple Ts).Ground := Ty.ground_con_iff.2 hTs
  obtain ⟨_, σ₁, -, h⟩ := bind_eq_ok.1 h
  obtain ⟨⟨s, types⟩, σ₂, -, h⟩ := bind_eq_ok.1 h
  obtain ⟨_, σ₃, hbound, h⟩ := bind_eq_ok.1 h
  obtain rfl : σ₃ = σ' := congrArg Prod.snd h
  intro k name hname
  obtain ⟨x, T, rfl, hT, hx⟩ := (bindNames_annotated hclosed hbound).2 k name hname
  rw [Nat.zero_add] at hT
  refine ⟨x, T, rfl, hT, hx, fun la lx values t hvalues hgives ht => ?_⟩
  obtain ⟨s', σ₁, houtcome⟩ := outcome_assign_local hvalues hx hclosed rfl hgives
  have haccepted : (∃ j σ'', outcome (Check.infer (.assign la [.var lx x] values)) σ₃ =
      (.ok j, σ'')) ↔ t.UsableAs (Ty.tuple Ts).broaden := by
    rw [houtcome, ← reassign_eq_ok_iff hclosed ht (l := la) (x := x) (σ := σ₁), outcome_bind]
    rcases outcome (reassign la x (.tuple Ts) t) σ₁ with ⟨_ | _, _⟩ <;> simp
  refine ⟨haccepted, fun husable hTupleless => ?_, ?_⟩
  · have hrefused := mt haccepted.1 (hTupleless.not_usableAs_tuple
      (hTs T (List.mem_of_getElem? hT)) ht (Ty.Within.broaden hclosed) husable)
    rcases hrun : outcome (Check.infer (.assign la [.var lx x] values)) σ₃ with ⟨e | j, σ''⟩
    · exact ⟨e, σ'', rfl⟩
    · exact absurd ⟨j, σ'', hrun⟩ hrefused
  · rintro c args v checks rfl hc
    exact ⟨σ₁, by rw [houtcome, outcome_bind, outcome_reassign_of_ne hc]⟩

/-- The declaration `local x, y = "a", "b"` with the annotation `string, string`. -/
def declareTexts : Node :=
  .declare default [.bare "x", .bare "y"] [.string default "a", .string default "b"]
    (some (.typeNote default (.tuple [.string, .string])))

/-- The assignment of a text to a name. -/
def setText (x text : String) : Node := .assign default [.var default x] [.string default text]

/-- Both names of the declaration have the pair of types, and the second one cannot be given a
text. -/
theorem annotated_names_have_whole_annotation_texts :
    ∃ i σ', outcome (Check.infer declareTexts) .initial = (.ok i, σ') ∧
      σ'.scopes.local? "y" = some (.tuple [.string, .string]) ∧
      (Ty.literal "string" (.text "c")).UsableAs .string ∧
      ∃ σ'', outcome (Check.infer (setText "y" "c")) σ' =
        (.error (.report default "Types dont unify: Expected `tuple`, got `string`"), σ'') := by
  have hok : (outcome (Check.infer declareTexts) .initial).1.isOk = true := by decide +kernel
  obtain ⟨i, σ', h⟩ := exists_of_isOk hok
  have hTs : ∀ T ∈ [Ty.string, .string], T.Ground := by
    simp [Ty.Ground, Ty.string, Ty.within_plain]
  obtain ⟨x, T, hx, hT, hlocal, hassign⟩ :=
    annotated_names_have_whole_annotation hTs h 1 (.bare "y") rfl
  cases hx
  refine ⟨i, σ', h, hlocal, Ty.Tests.usableAs ⟨default, _, rfl⟩, ?_⟩
  refine (hassign default default [.string default "c"] (.literal "string" (.text "c"))
    ?_ ?_ ?_).2.2 "string" [] _ [] rfl (by decide)
  · exact List.forall_mem_singleton.2 (.string _ _)
  · exact ⟨_, _, _, rfl, _, _, _, rfl, 0, default, rfl, rfl⟩
  · exact Ty.ground_con_iff.2 (by simp)

/-- The declaration `local x = "a"` with the annotation `string`. -/
def declareText : Node :=
  .declare default [.bare "x"] [.string default "a"]
    (some (.typeNote default (.tuple [.string])))

/-- After the declaration of a name as a text, a text is refused. -/
theorem annotated_name_refuses_own_type :
    ∃ i σ', outcome (Check.infer declareText) .initial = (.ok i, σ') ∧
      (Ty.literal "string" (.text "b")).UsableAs .string ∧
      (outcome (Check.infer (setText "x" "b")) σ').1.isOk = false := by
  have hok : (outcome (Check.infer declareText) .initial).1.isOk = true := by decide +kernel
  obtain ⟨i, σ', h⟩ := exists_of_isOk hok
  refine ⟨i, σ', h, Ty.Tests.usableAs ⟨default, _, rfl⟩, ?_⟩
  obtain rfl : (outcome (Check.infer declareText) .initial).2 = σ' := congrArg Prod.snd h
  decide +kernel

end Check

end LuaTyping
