import LuaTyping.Proofs.Freshness

set_option autoImplicit false

/-!
# Instances of type schemes

A type scheme is a type without quantifiers, below some. Its instance is the type itself with other
variables in it: the quantified ones are replaced by fresh ones, and all others by what the register
has for them. As the register is never emptied, a variable that is free in a scheme stays what it is
just if none of the schemes before was quantified over it. An instance of what generalization makes
of a type is the type with fresh variables, where the register has nothing for the others.

## Main definitions

* `Ty.Mono` — types without quantifiers.
* `Ty.renameVars` — a type with other variables.
* `Polytype` — type schemes.
* `Supply.Calls` — instances of schemes are taken, and variables drawn, one after
  the other.
* `Ty.Generalizes` — a scheme quantifies a type over all its variables but certain ones.

## Main results

* `instance_leaves_iff` — which free variables an instance leaves as they are.
* `Check.instantiate_generalized` — the instance of a generalized type.
-/

namespace LuaTyping

namespace Ty

/-! ## Types without quantifiers -/

/-- A type without quantifiers. -/
inductive Mono : Ty → Prop
  | var (x : String) : Mono (.var x)
  | con (c : String) {args : List Ty} (v : Option Literal) (checks : List Checked) :
      (∀ a ∈ args, Mono a) → Mono (.con c args v checks)
  | table {fields : List (Ty × Ty)} : (∀ f ∈ fields, Mono f.1) → (∀ f ∈ fields, Mono f.2) →
      Mono (.table fields)
  | union {left right : Ty} : Mono left → Mono right → Mono (.union left right)

mutual

/-- A type with other variables, in the keys of tables, too. Checks are left alone, and so are
quantified types. -/
def renameVars (f : String → String) : Ty → Ty
  | .var x => .var (f x)
  | .con c args v checks => .con c (renameVarsList f args) v checks
  | .table fields => .table (renameVarsFields f fields)
  | .union left right => .union (left.renameVars f) (right.renameVars f)
  | .all x body => .all x body

/-- Some types with other variables. -/
def renameVarsList (f : String → String) : List Ty → List Ty
  | [] => []
  | t :: ts => t.renameVars f :: renameVarsList f ts

/-- Some fields with other variables. -/
def renameVarsFields (f : String → String) : List (Ty × Ty) → List (Ty × Ty)
  | [] => []
  | (k, v) :: rest => (k.renameVars f, v.renameVars f) :: renameVarsFields f rest

end

variable {t : Ty} {x : String}

lemma mem_freeVarsList {ts : List Ty} : x ∈ freeVarsList ts ↔ ∃ t ∈ ts, x ∈ t.freeVars := by
  induction ts with
  | nil => simp [freeVarsList]
  | cons t ts ih => simp [freeVarsList, ih]

lemma mem_freeVarsFields {fields : List (Ty × Ty)} :
    x ∈ freeVarsFields fields ↔ ∃ f ∈ fields, x ∈ f.1.freeVars ∨ x ∈ f.2.freeVars := by
  induction fields with
  | nil => simp [freeVarsFields]
  | cons f rest ih =>
    obtain ⟨k, v⟩ := f
    simp [freeVarsFields, ih, or_assoc]

lemma renameVarsList_eq_map (f : String → String) (ts : List Ty) :
    renameVarsList f ts = ts.map (renameVars f) := by
  induction ts with
  | nil => rfl
  | cons t ts ih => rw [renameVarsList, ih, List.map_cons]

lemma renameVarsFields_eq_map (f : String → String) (fields : List (Ty × Ty)) :
    renameVarsFields f fields = fields.map fun e => (e.1.renameVars f, e.2.renameVars f) := by
  induction fields with
  | nil => rfl
  | cons e rest ih => rw [renameVarsFields, ih, List.map_cons]

/-- Two renamings that give the same type agree on its variables. -/
lemma Mono.eq_of_renameVars_eq (ht : t.Mono) {f g : String → String}
    (h : t.renameVars f = t.renameVars g) (hx : x ∈ t.freeVars) : f x = g x := by
  induction ht with
  | var y =>
    obtain rfl := List.mem_singleton.1 hx
    exact Ty.var.inj h
  | con c v checks _ ih =>
    obtain ⟨a, ha, hxa⟩ := mem_freeVarsList.1 hx
    simp only [renameVars, renameVarsList_eq_map, Ty.con.injEq, true_and, and_true] at h
    exact ih a ha (List.map_inj_left.1 h a ha) hxa
  | table _ _ ihk ihv =>
    obtain ⟨e, he, hxe⟩ := mem_freeVarsFields.1 hx
    simp only [renameVars, renameVarsFields_eq_map, Ty.table.injEq] at h
    obtain ⟨hk, hv⟩ := Prod.mk.inj (List.map_inj_left.1 h e he)
    rcases hxe with hxe | hxe
    · exact ihk e he hk hxe
    · exact ihv e he hv hxe
  | union _ _ ihl ihr =>
    obtain ⟨hl, hr⟩ := Ty.union.inj h
    rcases List.mem_append.1 hx with hx | hx
    · exact ihl hl hx
    · exact ihr hr hx

/-! ## Instances -/

lemma freshenList_eq_map {own : Bool} {i : Instances} {g : Ty → Ty} {ts : List Ty}
    (h : ∀ t ∈ ts, t.freshen own i = (g t, i)) : freshenList own ts i = (ts.map g, i) := by
  induction ts with
  | nil => rfl
  | cons t ts ih =>
    have ht := h t (by simp)
    have hts := ih fun u hu => h u (by simp [hu])
    simp only [freshenList, bind, StateT.bind, ht, hts, pure, StateT.pure, List.map_cons]

lemma freshenFields_eq_map {own : Bool} {i : Instances} {g : Ty → Ty} {fields : List (Ty × Ty)}
    (hk : ∀ f ∈ fields, f.1.freshen own i = (g f.1, i))
    (hv : ∀ f ∈ fields, f.2.freshen own i = (g f.2, i)) :
    freshenFields own fields i = (fields.map fun f => (g f.1, g f.2), i) := by
  induction fields with
  | nil => rfl
  | cons f rest ih =>
    obtain ⟨k, v⟩ := f
    have hkey : k.freshen own i = (g k, i) := hk (k, v) (by simp)
    have hvalue : v.freshen own i = (g v, i) := hv (k, v) (by simp)
    have hrest := ih (fun f hf => hk f (by simp [hf])) fun f hf => hv f (by simp [hf])
    simp only [freshenFields, bind, StateT.bind, hkey, hvalue, hrest, pure, StateT.pure,
      List.map_cons]

/-- The instance of a type without quantifiers: its variables are replaced as the shared register
says, and the register stays what it is. -/
lemma Mono.freshen (ht : t.Mono) {i : Instances} {f : String → String}
    (hf : ∀ x ∈ t.freeVars, (i.supply.shared.lookup x).getD (.var x) = .var (f x)) :
    t.freshen false i = (t.renameVars f, i) := by
  induction ht with
  | var x => exact Prod.ext (hf x (by simp [freeVars])) rfl
  | con c v checks _ ih =>
    have hargs := freshenList_eq_map fun a ha =>
      ih a ha fun x hx => hf x (mem_freeVarsList.2 ⟨a, ha, hx⟩)
    simp only [Ty.freshen, bind, StateT.bind, hargs, pure, StateT.pure, renameVars,
      renameVarsList_eq_map]
  | table _ _ ihk ihv =>
    have hfields := freshenFields_eq_map
      (fun e he => ihk e he fun x hx => hf x (mem_freeVarsFields.2 ⟨e, he, .inl hx⟩))
      fun e he => ihv e he fun x hx => hf x (mem_freeVarsFields.2 ⟨e, he, .inr hx⟩)
    simp only [Ty.freshen, bind, StateT.bind, hfields, pure, StateT.pure, renameVars,
      renameVarsFields_eq_map]
  | union _ _ ihl ihr =>
    simp only [freeVars, List.mem_append] at hf
    have hl := ihl fun x hx => hf x (.inl hx)
    have hr := ihr fun x hx => hf x (.inr hx)
    simp only [Ty.freshen, bind, StateT.bind, hl, hr, pure, StateT.pure, renameVars]

/-- A type below quantifiers, the last of the names outermost. -/
def quantify (names : List String) (t : Ty) : Ty := names.foldl (fun body x => .all x body) t

lemma mem_freeVars_quantify {names : List String} :
    x ∈ (t.quantify names).freeVars ↔ x ∈ t.freeVars ∧ x ∉ names := by
  induction names generalizing t with
  | nil => simp [quantify]
  | cons y names ih =>
    change x ∈ ((Ty.all y t).quantify names).freeVars ↔ _
    rw [ih]
    simp [freeVars, and_assoc]

end Ty

/-! ## The register -/

namespace Register

lemma lookup_enter {r : Register} {x y : String} {t : Ty} :
    (r.enter x t).lookup y = if y = x then some t else r.lookup y := by
  unfold Register.enter
  by_cases hxy : y = x
  · simp [hxy]
  · have hne : (y == x) = false := by simpa using hxy
    simp only [List.lookup, hne, hxy, if_false]
    induction r with
    | nil => rfl
    | cons e r ih =>
      obtain ⟨z, u⟩ := e
      by_cases hz : z = x
      · have hyz : (y == z) = false := by simpa [hz] using hxy
        simp [hz, List.lookup, hne, ih]
      · simp [hz, List.lookup, ih]

end Register

namespace Supply

/-- Enters a fresh variable for `x` into the shared register. -/
def quantify (s : Supply) (x : String) : Supply :=
  ⟨s.count + 1, Register.enter x (.var s!"t{s.count + 1}") s.shared⟩

/-- Enters a fresh variable for each of some names, for the last one first. -/
def quantifyAll (s : Supply) (names : List String) : Supply :=
  names.foldr (fun x s => s.quantify x) s

variable {s : Supply} {names : List String} {x : String}

lemma count_quantifyAll : (s.quantifyAll names).count = s.count + names.length := by
  induction names with
  | nil => rfl
  | cons x names ih =>
    change (s.quantifyAll names).count + 1 = s.count + (names.length + 1)
    rw [ih, Nat.add_assoc]

/-- The variable that stands for a quantified one is told by its place among the names. -/
lemma lookup_quantifyAll : (s.quantifyAll names).shared.lookup x =
    if x ∈ names then some (.var s!"t{s.count + (names.length - names.idxOf x)}")
    else s.shared.lookup x := by
  induction names with
  | nil => simp [quantifyAll]
  | cons y names ih =>
    change (Register.enter y (.var s!"t{(s.quantifyAll names).count + 1}")
      (s.quantifyAll names).shared).lookup x = _
    rw [Register.lookup_enter, count_quantifyAll, ih]
    by_cases hxy : x = y
    · subst hxy
      simp [Nat.add_assoc]
    · have hyx : (y == x) = false := by simpa using fun h => hxy h.symm
      simp only [hxy, if_false, List.mem_cons, false_or, List.length_cons, List.idxOf_cons, hyx,
        cond_false, Nat.add_sub_add_right]

end Supply

lemma Ty.freshen_quantify {names : List String} {t : Ty} {i : Instances} :
    (t.quantify names).freshen false i = t.freshen false ⟨i.supply.quantifyAll names, i.own⟩ := by
  induction names generalizing t with
  | nil => rfl
  | cons x names ih =>
    change ((Ty.all x t).quantify names).freshen false i = _
    rw [ih]
    rfl

/-! ## Type schemes -/

/-- A type scheme: a type without quantifiers, below some. -/
structure Polytype where
  names : List String
  body : Ty
  mono : body.Mono

namespace Polytype

variable {p : Polytype} {s : Supply} {x : String}

/-- The scheme as a quantified type. -/
def type (p : Polytype) : Ty := p.body.quantify p.names

/-- The instance of a scheme is its body, renamed as the register says after fresh variables have
been entered for the quantified ones. -/
lemma instantiate_eq {f : String → String} (hf : ∀ x ∈ p.body.freeVars,
      ((s.quantifyAll p.names).shared.lookup x).getD (.var x) = .var (f x)) :
    p.type.instantiate s = (p.body.renameVars f, s.quantifyAll p.names) := by
  have hbody := p.mono.freshen (i := ⟨s.quantifyAll p.names, []⟩) hf
  simp only [Ty.instantiate, StateT.run, type, Ty.freshen_quantify, hbody]

end Polytype

/-! ## Instances one after the other -/

namespace Supply

/-- From one supply to another, instances of some schemes are taken, whose quantified variables have
been drawn before if they are of that kind, and any variables are drawn in between. -/
inductive Calls : Supply → List Polytype → Supply → Prop
  | nil (s : Supply) : Calls s [] s
  | draw {s s' : Supply} {ps : List Polytype} : Calls s ps s' → Calls s ps s'.fresh.2
  | call {s s' : Supply} {ps : List Polytype} (p : Polytype) : Calls s ps s' →
      (∀ x ∈ p.names, Drawn s'.count x) → Calls s (ps ++ [p]) (p.type.instantiate s').2

/-- What a register has for a variable: nothing, or another variable. -/
def Stands (s : Supply) (x : String) : Prop :=
  s.shared.lookup x = none ∨ ∃ y, y ≠ x ∧ s.shared.lookup x = some (.var y)

/-- The variable that a register has for another one. -/
def standIn (s : Supply) (x : String) : String :=
  match s.shared.lookup x with
  | some (.var y) => y
  | _ => x

variable {s : Supply} {names : List String} {x : String}

lemma Stands.getD_lookup (h : s.Stands x) :
    (s.shared.lookup x).getD (.var x) = .var (s.standIn x) := by
  unfold standIn
  rcases h with h | ⟨y, _, h⟩ <;> rw [h] <;> rfl

/-- A register that has nothing for a variable leaves it as it is, any other does not. -/
lemma Stands.standIn_eq_iff (h : s.Stands x) : s.standIn x = x ↔ s.shared.lookup x = none := by
  unfold standIn
  rcases h with h | ⟨y, hy, h⟩
  · simp [h]
  · simp [h, hy]

lemma stands_quantifyAll (hs : s.Stands x) (hdrawn : ∀ y ∈ names, Drawn s.count y) :
    (s.quantifyAll names).Stands x := by
  unfold Stands
  rw [lookup_quantifyAll]
  split
  · rename_i hx
    refine .inr ⟨_, fun heq => ?_, rfl⟩
    have hlt := List.idxOf_lt_length_iff.2 hx
    have hle := hdrawn x hx _ heq.symm
    omega
  · exact hs

/-- After instances of schemes, beginning with an empty register, the register has other variables
for just those that one of the schemes was quantified over. -/
lemma Calls.lookup_eq_none_iff {n : Nat} {ps : List Polytype} (h : Calls ⟨n, []⟩ ps s) :
    ∀ x, s.Stands x ∧ (s.shared.lookup x = none ↔ ∀ q ∈ ps, x ∉ q.names) := by
  induction h with
  | nil => exact fun x => ⟨.inl rfl, by simp⟩
  | draw _ ih => exact ih
  | @call s' ps p _ hdrawn ih =>
    intro x
    have hcall : (p.type.instantiate s').2 = s'.quantifyAll p.names :=
      congrArg Prod.snd (Polytype.instantiate_eq (f := (s'.quantifyAll p.names).standIn)
        fun y _ => (stands_quantifyAll (ih y).1 hdrawn).getD_lookup)
    rw [hcall]
    refine ⟨stands_quantifyAll (ih x).1 hdrawn, ?_⟩
    rw [lookup_quantifyAll]
    split
    · rename_i hx
      simp only [reduceCtorEq, false_iff, not_forall]
      exact ⟨p, by simp, fun h => h hx⟩
    · rename_i hx
      rw [(ih x).2]
      simp only [List.mem_append, List.mem_singleton, or_imp, forall_and, forall_eq, hx,
        not_false_eq_true, and_true]

end Supply

/-- A variable stands in a renamed type wherever it stood in the type. -/
def Ty.Leaves (x : String) (t u : Ty) : Prop := ∃ f : String → String, u = t.renameVars f ∧ f x = x

/-- An instance leaves a free variable of a scheme as it is exactly if none of the schemes that
instances were taken of before, in the same register, was quantified over it. -/
theorem instance_leaves_iff {n : Nat} {ps : List Polytype} {s : Supply}
    (h : Supply.Calls ⟨n, []⟩ ps s) (p : Polytype) {x : String} (hx : x ∈ p.type.freeVars) :
    p.body.Leaves x (p.type.instantiate s).1 ↔ ∀ q ∈ ps, x ∉ q.names := by
  obtain ⟨hbody, hquantified⟩ := Ty.mem_freeVars_quantify.1 hx
  -- fresh variables for the quantified ones, and for the others what the register has
  let f : String → String := fun y =>
    if y ∈ p.names then s!"t{s.count + (p.names.length - p.names.idxOf y)}" else s.standIn y
  have hresult : (p.type.instantiate s).1 = p.body.renameVars f := by
    refine congrArg Prod.fst (Polytype.instantiate_eq fun y _ => ?_)
    rw [Supply.lookup_quantifyAll]
    by_cases hy : y ∈ p.names
    · simp [f, hy]
    · simp only [f, hy, if_false]
      exact (h.lookup_eq_none_iff y).1.getD_lookup
  have hfx : f x = s.standIn x := by simp [f, hquantified]
  obtain ⟨hstands, hnone⟩ := h.lookup_eq_none_iff x
  rw [← hnone, ← hstands.standIn_eq_iff, ← hfx, hresult]
  constructor
  · rintro ⟨g, hg, hgx⟩
    rw [p.mono.eq_of_renameVars_eq hg hbody, hgx]
  · intro hleft
    exact ⟨f, rfl, hleft⟩

/-- The scheme `∀ a. (a, b)`. -/
def pairWithFree : Polytype :=
  ⟨["a"], .tuple [.var "a", .var "b"], .con _ _ _ (by simpa using ⟨.var _, .var _⟩)⟩

/-- The type `(a, b)`. -/
def freePair : Polytype := { pairWithFree with names := [] }

/-- After an instance of `∀ a. (a, b)`, an instance of `(a, b)` leaves `b` as it is, but not `a`. -/
theorem instance_leaves_iff_freePair :
    ∃ s, Supply.Calls ⟨3, []⟩ [pairWithFree] s ∧ "a" ∈ freePair.type.freeVars ∧
      "b" ∈ freePair.type.freeVars ∧ ¬ freePair.body.Leaves "a" (freePair.type.instantiate s).1 ∧
      freePair.body.Leaves "b" (freePair.type.instantiate s).1 := by
  have hcalls : Supply.Calls ⟨3, []⟩ [pairWithFree] _ :=
    .call pairWithFree (.nil _) (List.forall_mem_singleton.2 (drawn_of_head (by decide)))
  have ha : "a" ∈ freePair.type.freeVars := by decide
  have hb : "b" ∈ freePair.type.freeVars := by decide
  refine ⟨_, hcalls, ha, hb, fun h => ?_, (instance_leaves_iff hcalls freePair hb).2 (by decide)⟩
  exact absurd ((instance_leaves_iff hcalls freePair ha).1 h) (by decide)

/-- The program `function f(x) g = x return 1 end return g, f(1), g`. -/
def keptParameter : Node :=
  .chunk default
    [.assign default [.var default "f"]
      [.function default ["x"] false
        (.chunk default [.assign default [.var default "g"] [.var default "x"]]
          (some (.returns default [.number default (.ofNat 1)])))
        (some "f") (.resultNote default none)]]
    (some (.returns default
      [.var default "g", .call default (.var default "f") [.number default (.ofNat 1)],
        .var default "g"]))

/-- In this program the type of the global name `g` is the variable `t4`, which is not quantified.
An instance of it before the call of `f`, whose type is quantified over `t4`, is `t4`; one after the
call is `t6`. -/
theorem instance_changes_free_variable :
    ((outcome (Check.infer keptParameter) Session.initial).2.scopes.global? "g").map
        (fun t => (t.names, t.freeVars)) = some (["t4"], ["t4"]) ∧
      (outcome (Check.infer keptParameter) Session.initial).1.toOption.map
        (fun i => i.type.freeVars) = some ["t4", "t6"] := by
  decide +kernel

/-! ## Generalized types -/

lemma nodup_eraseDups {α : Type} [BEq α] [LawfulBEq α] (l : List α) : l.eraseDups.Nodup := by
  induction hlen : l.length using Nat.strong_induction_on generalizing l with
  | _ n ih =>
    cases l with
    | nil => simp
    | cons a l =>
      rw [List.eraseDups_cons, List.nodup_cons]
      refine ⟨fun h => by simp at h, ih _ ?_ _ rfl⟩
      have hle := List.length_filter_le (fun b => !b == a) l
      rw [List.length_cons] at hlen
      omega

/-- A scheme quantifies a type over all its variables that are not fixed, in any order. -/
def Ty.Generalizes (t : Ty) (fixed : List String) (p : Ty) : Prop :=
  ∃ names : List String, names.Nodup ∧ (∀ x, x ∈ names ↔ x ∈ t.freeVars ∧ x ∉ fixed) ∧
    p = t.quantify names

lemma Ty.generalizes_generalize (t : Ty) (fixed : List String) :
    t.Generalizes fixed (t.generalize fixed) :=
  ⟨_, nodup_eraseDups _, fun x => by simp [List.mem_eraseDups, List.mem_filter], rfl⟩

namespace Supply

variable {s : Supply} {names : List String} {x : String}

/-- The variable that stands for a quantified one, and any other variable itself. -/
def freshName (s : Supply) (names : List String) (x : String) : String :=
  if x ∈ names then s!"t{s.count + (names.length - names.idxOf x)}" else x

/-- The fresh variables for some names are the next ones, each for one of the names. -/
lemma bijOn_freshName (h : names.Nodup) : Set.BijOn (s.freshName names) {x | x ∈ names}
    {y | ∃ j, s.count < j ∧ j ≤ s.count + names.length ∧ y = s!"t{j}"} := by
  refine ⟨fun x hx => ?_, fun x hx y hy heq => ?_, fun y hy => ?_⟩
  · have hlt := List.idxOf_lt_length_iff.2 hx
    exact ⟨_, by omega, by omega, if_pos hx⟩
  · change x ∈ names at hx
    change y ∈ names at hy
    simp only [freshName, hx, hy, if_true] at heq
    have hnumber := drawn_name_inj heq
    have hltx := List.idxOf_lt_length_iff.2 hx
    have hlty := List.idxOf_lt_length_iff.2 hy
    exact (List.idxOf_inj hx).1 (by omega)
  · obtain ⟨j, hlt, hle, rfl⟩ := hy
    have hi : names.length - (j - s.count) < names.length := by omega
    have hmem := List.getElem_mem hi
    refine ⟨_, hmem, ?_⟩
    rw [freshName, if_pos hmem, h.idxOf_getElem]
    congr 2
    omega

/-- If the variables of a type have been drawn, fresh ones for some of them are none of the
others. -/
lemma injOn_freshName (h : names.Nodup) {t : Ty} (hdrawn : ∀ x ∈ t.freeVars, Drawn s.count x) :
    Set.InjOn (s.freshName names) {x | x ∈ t.freeVars} := by
  have hfresh : ∀ x y, x ∈ names → y ∉ names → y ∈ t.freeVars →
      s.freshName names x ≠ s.freshName names y := by
    intro x y hx hy hty heq
    obtain ⟨j, hlt, _, hj⟩ := (bijOn_freshName (s := s) h).mapsTo hx
    rw [hj, freshName, if_neg hy] at heq
    have hle := hdrawn y hty j heq.symm
    omega
  intro x hx y hy heq
  by_cases hxn : x ∈ names <;> by_cases hyn : y ∈ names
  · exact (bijOn_freshName h).injOn hxn hyn heq
  · exact absurd heq (hfresh x y hxn hyn hy)
  · exact absurd heq.symm (hfresh y x hyn hxn hx)
  · simpa [freshName, hxn, hyn] using heq

end Supply

namespace Check

/-- An instance of a generalized type is the type with fresh variables. Let the variables of a type
without quantifiers have been drawn, and let the register have nothing for those of them that are
free in the types of local names. However its quantifiers are ordered, the generalized type has just
the latter variables free; and its instance is the type with renamed variables, where those of local
names stay what they are and the others are, one by one, the next variables that are drawn. -/
theorem instantiate_generalized {t : Ty} {σ : Session} (ht : t.Mono)
    (hdrawn : ∀ x ∈ t.freeVars, Drawn σ.supply.count x)
    (hshared : ∀ x ∈ t.freeVars, x ∈ σ.scopes.freeVars → σ.supply.shared.lookup x = none) :
    (∃ p, outcome (generalize t) σ = (.ok p, σ) ∧ t.Generalizes σ.scopes.freeVars p) ∧
    ∀ p, t.Generalizes σ.scopes.freeVars p →
      (∀ x, x ∈ p.freeVars ↔ x ∈ t.freeVars ∧ x ∈ σ.scopes.freeVars) ∧
      ∃ (k : Nat) (f : String → String) (shared : Register),
        outcome (instantiate p) σ =
          (.ok (t.renameVars f), { σ with supply := ⟨σ.supply.count + k, shared⟩ }) ∧
        (∀ x ∈ σ.scopes.freeVars, f x = x) ∧
        Set.BijOn f {x | x ∈ t.freeVars ∧ x ∉ σ.scopes.freeVars}
          {y | ∃ j, σ.supply.count < j ∧ j ≤ σ.supply.count + k ∧ y = s!"t{j}"} ∧
        Set.InjOn f {x | x ∈ t.freeVars} := by
  refine ⟨⟨_, rfl, t.generalizes_generalize _⟩, ?_⟩
  rintro _ ⟨names, hnodup, hnames, rfl⟩
  refine ⟨fun x => ?_, names.length, σ.supply.freshName names,
    (σ.supply.quantifyAll names).shared, ?_, fun x hx => ?_, ?_,
    Supply.injOn_freshName hnodup hdrawn⟩
  · rw [Ty.mem_freeVars_quantify, hnames]
    tauto
  · have hinstance : (t.quantify names).instantiate σ.supply =
        (t.renameVars (σ.supply.freshName names), σ.supply.quantifyAll names) :=
      Polytype.instantiate_eq (p := ⟨names, t, ht⟩) (f := σ.supply.freshName names) fun x hx => by
        rw [Supply.lookup_quantifyAll, Supply.freshName]
        by_cases hxn : x ∈ names
        · simp [hxn]
        · have hfixed : x ∈ σ.scopes.freeVars := by
            by_contra hfree
            exact hxn ((hnames x).2 ⟨hx, hfree⟩)
          simp [hxn, hshared x hx hfixed]
    have hrun : outcome (instantiate (t.quantify names)) σ =
        (.ok ((t.quantify names).instantiate σ.supply).1,
          { σ with supply := ((t.quantify names).instantiate σ.supply).2 }) := rfl
    rw [hrun, hinstance, ← Supply.count_quantifyAll]
  · exact if_neg fun hxn => ((hnames x).1 hxn).2 hx
  · simpa only [hnames] using Supply.bijOn_freshName (s := σ.supply) hnodup

/-- A pair of a table with `a` as key and the values `b | c`, and a boolean with a check. -/
def keyedPair : Ty :=
  .tuple [.table [(.var "a", .union (.var "b") (.var "c"))],
    .con "boolean" [] none [(.nil default, .var "b")]]

/-- The session in which `a` is the type of a local name, and the register has `t2` for `b`. -/
def keyedSession : Session :=
  { Session.initial with
    supply := ⟨3, [("b", .var "t2")]⟩
    scopes := ⟨[[("x", .own (.var "a"))]], Session.library⟩ }

/-- The key of the table is left as it is, and the values get two fresh variables. -/
theorem instantiate_generalized_keyedPair :
    ∃ p f k shared, outcome (generalize keyedPair) keyedSession = (.ok p, keyedSession) ∧
      "a" ∈ p.freeVars ∧ "b" ∉ p.freeVars ∧
      outcome (instantiate p) keyedSession =
        (.ok (keyedPair.renameVars f), { keyedSession with supply := ⟨3 + k, shared⟩ }) ∧
      f "a" = "a" ∧ f "b" ≠ f "c" ∧ ∃ j, 3 < j ∧ j ≤ 3 + k ∧ f "b" = s!"t{j}" := by
  have hmono : keyedPair.Mono := by
    have htable : (Ty.table [(.var "a", .union (.var "b") (.var "c"))]).Mono :=
      .table (by simpa using .var _) (by simpa using .union (.var _) (.var _))
    exact .con _ _ _ (by simpa using ⟨htable, .con _ _ _ (by simp)⟩)
  have hfree : keyedPair.freeVars = ["a", "b", "c"] := rfl
  have hdrawn : ∀ x ∈ keyedPair.freeVars, Drawn keyedSession.supply.count x := by
    rw [hfree]
    intro x hx
    refine drawn_of_head ?_
    revert x
    decide
  obtain ⟨⟨p, hp, hgeneralizes⟩, hinstances⟩ :=
    instantiate_generalized (t := keyedPair) (σ := keyedSession) hmono hdrawn (by decide)
  obtain ⟨hfixed, k, f, shared, hrun, hkept, hbij, hinj⟩ := hinstances p hgeneralizes
  have hb : "b" ∈ keyedPair.freeVars ∧ "b" ∉ keyedSession.scopes.freeVars := by decide
  refine ⟨p, f, k, shared, hp, (hfixed "a").2 (by decide), fun h => hb.2 ((hfixed "b").1 h).2, hrun,
    hkept "a" (by decide), fun h => ?_, hbij.mapsTo hb⟩
  exact absurd (hinj hb.1 (by decide) h) (by decide)

end Check

end LuaTyping
