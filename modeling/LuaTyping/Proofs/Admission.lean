import LuaTyping.Proofs.Unification
import LuaTyping.Types.Join

set_option autoImplicit false

/-!
# The literals that a type admits

A literal is used where a type is wanted if one alternative of the type is the plain type of the
literal's name, or the literal type of the same value. This file says how the literals that a type
admits are kept by what is done to types: substitutions, broadening, putting function results into
tuples, and joins. A join keeps all that its left type admits. What its right type admits can be
*hidden*: if the left type is a literal type and the right one the plain type of the same name, the
join is the literal type.

## Main definitions

* `Ty.admits` — a type admits a literal.
* `Ty.covers` — the first components of a tuple type admit some literals.
* `Ty.hides` — the join with a literal type hides a literal of another value.
* `Ty.Misses` — a tuple type that keeps missing some literals.

## Main results

* `Ty.admits_join_left`, `Ty.admits_join_right` — what joins admit.
* `Ty.covers_join_left`, `Ty.covers_join_right` — what joins of tuple types cover.
* `Ty.misses_join` — what they miss.
-/

namespace LuaTyping

namespace Ty

/-- One alternative of a type has the name of a literal, and no value or that of the literal. If
`broad`, values do not count. -/
def admits (broad : Bool) (l : String × Literal) : Ty → Bool
  | .con c args v _ => l.1 == c && args.isEmpty && (broad || v.all l.2.equal)
  | .union left right => left.admits broad l || right.admits broad l
  | _ => false

/-- The first of some types admit some literals, one by one. -/
def admitAll (broad : Bool) : List (String × Literal) → List Ty → Bool
  | [], _ => true
  | _ :: _, [] => false
  | l :: ls, t :: ts => t.admits broad l && admitAll broad ls ts

/-- A tuple type whose first components admit some literals, one by one. -/
def covers (broad : Bool) (ls : List (String × Literal)) : Ty → Bool
  | .con c args none _ => c == "tuple" && admitAll broad ls args
  | _ => false

variable {broad : Bool} {l : String × Literal} {ls : List (String × Literal)}
variable {c : String} {v : Option Literal} {checks : List Checked} {t : Ty}

variable {args : List Ty}

@[simp]
lemma admits_con :
    (Ty.con c args v checks).admits broad l = true ↔
      l.1 = c ∧ args = [] ∧ (broad = true ∨ v.all l.2.equal = true) := by
  simp [admits, and_assoc]

@[simp]
lemma admits_union {left right : Ty} : (Ty.union left right).admits broad l = true ↔
    left.admits broad l = true ∨ right.admits broad l = true := by
  simp [admits]

@[simp]
lemma covers_con :
    (Ty.con c args v checks).covers broad ls = true ↔
      c = "tuple" ∧ v = none ∧ admitAll broad ls args = true := by
  cases v <;> simp [covers]

lemma exists_tuple_of_covers (h : t.covers broad ls = true) :
    ∃ args checks, t = .con "tuple" args none checks ∧ admitAll broad ls args = true := by
  cases t with
  | con c args v checks =>
    obtain ⟨rfl, rfl, hargs⟩ := covers_con.1 h
    exact ⟨args, checks, rfl, hargs⟩
  | var | table | union | all => cases h

lemma admits_literal (h : l.2.equal l.2 = true) : (literal l.1 l.2).admits broad l = true := by
  rw [literal, admits_con]
  exact ⟨rfl, rfl, .inr h⟩

/-- Types that each admit what their counterparts do, together admit what those do. -/
lemma admitAll_of_forall₂ {broad' : Bool} {R : Ty → Ty → Prop}
    (hR : ∀ l a b, R a b → a.admits broad l = true → b.admits broad' l = true) {as bs : List Ty}
    (h : List.Forall₂ R as bs) (has : admitAll broad ls as = true) :
    admitAll broad' ls bs = true := by
  induction h generalizing ls with
  | nil =>
    cases ls with
    | nil => rfl
    | cons => cases has
  | cons hab _ ih =>
    cases ls with
    | nil => rfl
    | cons l ls =>
      rw [admitAll, Bool.and_eq_true] at has ⊢
      exact ⟨hR l _ _ hab has.1, ih has.2⟩

/-! ## Broadening -/

lemma admits_broaden (t : Ty) : t.broaden.admits broad l = t.admits true l := by
  induction t with
  | con c args v checks =>
    cases args <;> simp [broaden, broadenList, admits]
  | union left right ihl ihr => rw [broaden, admits, admits, ihl, ihr]
  | var | table | all => rfl

lemma admitAll_broadenList (ts : List Ty) :
    admitAll broad ls (broadenList ts) = admitAll true ls ts := by
  induction ts generalizing ls with
  | nil => cases ls <;> rfl
  | cons t ts ih =>
    cases ls with
    | nil => rfl
    | cons l ls => rw [broadenList, admitAll, admitAll, admits_broaden, ih]

lemma covers_broaden (h : t.covers true ls = true) : t.broaden.covers broad ls = true := by
  obtain ⟨args, checks, rfl, hargs⟩ := exists_tuple_of_covers h
  rw [broaden, covers_con, admitAll_broadenList]
  exact ⟨rfl, rfl, hargs⟩

lemma admits_weaken (h : t.admits false l = true) : t.admits broad l = true := by
  induction t with
  | con c args v checks =>
    obtain ⟨hc, hargs, hv⟩ := admits_con.1 h
    exact admits_con.2 ⟨hc, hargs, .inr (hv.resolve_left (by simp))⟩
  | union left right ihl ihr => exact admits_union.2 ((admits_union.1 h).imp ihl ihr)
  | var | table | all => cases h

lemma covers_weaken (h : t.covers false ls = true) : t.covers broad ls = true := by
  obtain ⟨args, checks, rfl, hargs⟩ := exists_tuple_of_covers h
  have hsame : List.Forall₂ Eq args args := List.forall₂_same.2 fun _ _ => rfl
  refine covers_con.2 ⟨rfl, rfl, admitAll_of_forall₂ (R := Eq) ?_ hsame hargs⟩
  rintro l a _ rfl ha
  exact admits_weaken ha

/-! ## Substitution -/

/-- Replacing variables keeps what a type admits. -/
lemma admits_replaceVars {f : String → Except Fault Ty} {u : Ty} (hu : t.replaceVars f = .ok u)
    (h : t.admits broad l = true) : u.admits broad l = true := by
  induction t generalizing u with
  | con c args v checks =>
    obtain ⟨hc, rfl, hv⟩ := admits_con.1 h
    obtain rfl : Ty.con c [] v checks = u := Except.ok.inj hu
    exact admits_con.2 ⟨hc, rfl, hv⟩
  | union left right ihl ihr =>
    simp only [replaceVars, except_bind_eq_ok, pure, Except.pure, Except.ok.injEq] at hu
    obtain ⟨left', hl, right', hr, rfl⟩ := hu
    exact admits_union.2 ((admits_union.1 h).imp (ihl hl) (ihr hr))
  | var | table | all => cases h

lemma replaceVars_con {f : String → Except Fault Ty} {u : Ty}
    (hu : (Ty.con c args v checks).replaceVars f = .ok u) :
    ∃ args', u = .con c args' v checks ∧
      List.Forall₂ (fun t u => t.replaceVars f = .ok u) args args' := by
  simp only [replaceVars, except_bind_eq_ok, pure, Except.pure, Except.ok.injEq] at hu
  obtain ⟨args', hargs', rfl⟩ := hu
  exact ⟨args', rfl, replaceVarsList_eq_ok.1 hargs'⟩

end Ty

lemma Subst.exists_apply_eq (s : Subst) (t : Ty) : ∃ f, s.apply t = t.replaceVars f := by
  unfold Subst.apply
  cases s.bindings.length <;> exact ⟨_, rfl⟩

namespace Ty

variable {broad : Bool} {l : String × Literal} {ls : List (String × Literal)}

lemma covers_apply {s : Subst} {t u : Ty} (hu : s.apply t = .ok u)
    (h : t.covers broad ls = true) : u.covers broad ls = true := by
  obtain ⟨args, checks, rfl, hargs⟩ := exists_tuple_of_covers h
  obtain ⟨f, hf⟩ := s.exists_apply_eq (.con "tuple" args none checks)
  obtain ⟨args', rfl, hargs'⟩ := replaceVars_con (hf.symm.trans hu)
  exact covers_con.2 ⟨rfl, rfl, admitAll_of_forall₂ (fun _ _ _ => admits_replaceVars) hargs' hargs⟩

/-! ## Function results in tuples -/

variable {a b : Ty} {as bs : List Ty}

lemma Wraps.admits_eq (h : Wraps a b) : b.admits broad l = a.admits broad l := by
  induction h with
  | refl t => rfl
  | trans _ _ ih₁ ih₂ => rw [ih₂, ih₁]
  | arg c before after v checks _ _ => cases before <;> rfl
  | field | key => rfl
  | left right _ ih => rw [admits, admits, ih]
  | right left _ ih => rw [admits, admits, ih]
  | result => rfl

lemma forall₂_wraps_trans {cs : List Ty} (hab : List.Forall₂ Wraps as bs)
    (hbc : List.Forall₂ Wraps bs cs) : List.Forall₂ Wraps as cs := by
  induction hab generalizing cs with
  | nil =>
    cases hbc
    exact .nil
  | cons h _ ih =>
    cases hbc with
    | cons h' hbc => exact .cons (h.trans h') (ih hbc)

/-- Wrapping in a tuple wraps in its components. -/
lemma Wraps.exists_args {v : Option Literal} {checks : List Checked} {t : Ty}
    (h : Wraps (.con "tuple" as v checks) t) :
    ∃ bs, t = .con "tuple" bs v checks ∧ List.Forall₂ Wraps as bs := by
  generalize hs : Ty.con "tuple" as v checks = s at h
  induction h generalizing as with
  | refl => exact ⟨as, hs.symm, forall₂_wraps_refl as⟩
  | trans _ _ ih₁ ih₂ =>
    obtain ⟨bs, hbs, hab⟩ := ih₁ hs
    obtain ⟨cs, hcs, hbc⟩ := ih₂ hbs.symm
    exact ⟨cs, hcs, forall₂_wraps_trans hab hbc⟩
  | arg c before after v' checks' hab _ =>
    rw [Ty.con.injEq] at hs
    obtain ⟨rfl, rfl, rfl, rfl⟩ := hs
    exact ⟨_, rfl, List.rel_append (forall₂_wraps_refl before)
      (.cons hab (forall₂_wraps_refl after))⟩
  | result p r rest v' checks' _ =>
    rw [Ty.con.injEq] at hs
    exact absurd hs.1 (by decide)
  | field | key | left | right => cases hs

lemma covers_wraps (h : Wraps a b) (ha : a.covers broad ls = true) : b.covers broad ls = true := by
  obtain ⟨args, checks, rfl, hargs⟩ := exists_tuple_of_covers ha
  obtain ⟨args', rfl, hwraps⟩ := h.exists_args
  refine covers_con.2 ⟨rfl, rfl, admitAll_of_forall₂ ?_ hwraps hargs⟩
  intro l t u htu ht
  rw [htu.admits_eq, ht]

/-! ## Joins -/

/-- The name and the value of a constructor. -/
def head? : Ty → Option (String × Option Literal)
  | .con c _ v _ => some (c, v)
  | _ => none

/-- A literal type of another value stands before the plain type of a literal. -/
def hides (l : String × Literal) (a b : Ty) : Bool :=
  match a.head?, b.head? with
  | some (c, some x), some (d, none) => c == d && !l.2.equal x
  | _, _ => false

/-- Some of the first types hide a literal in the type that stands opposite. -/
def anyHidden : List (String × Literal) → List Ty → List Ty → Bool
  | l :: ls, a :: as, b :: bs => hides l a b || anyHidden ls as bs
  | _, _, _ => false

lemma anyHidden_cons :
    anyHidden (l :: ls) (a :: as) (b :: bs) = false ↔
      hides l a b = false ∧ anyHidden ls as bs = false := by
  rw [anyHidden, Bool.or_eq_false_iff]

lemma exists_con_of_hides (h : hides l a b = true) :
    ∃ c args x checks, a = .con c args (some x) checks ∧
      ∃ more args', b = .con c args' none more ∧ l.2.equal x = false := by
  cases a with
  | con c args v checks =>
    cases v with
    | none => cases h
    | some x =>
      cases b with
      | con d args' w more =>
        cases w with
        | none =>
          rw [hides, head?, head?, Bool.and_eq_true, beq_iff_eq, Bool.not_eq_true'] at h
          obtain ⟨rfl, hx⟩ := h
          exact ⟨c, args, x, checks, rfl, more, args', rfl, hx⟩
        | some => cases h
      | var | table | union | all => cases h
  | var | table | union | all => cases h

lemma Wraps.head?_eq (h : Wraps a b) : b.head? = a.head? := by
  induction h with
  | trans _ _ ih₁ ih₂ => rw [ih₂, ih₁]
  | refl | arg | field | key | left | right | result => rfl

/-- Wrapping on either side changes nothing about what is hidden. -/
lemma anyHidden_wraps {as' bs' : List Ty} (ha : List.Forall₂ Wraps as as')
    (hb : List.Forall₂ Wraps bs bs') : anyHidden ls as' bs' = anyHidden ls as bs := by
  induction ls generalizing as as' bs bs' with
  | nil => rfl
  | cons l ls ih =>
    cases ha with
    | nil => rfl
    | cons hab has =>
      cases hb with
      | nil => rfl
      | cons hcd hbs =>
        rw [anyHidden, anyHidden, hides, hides, hab.head?_eq, hcd.head?_eq, ih has hbs]

end Ty

lemma Binary64.equal_comm (x y : Binary64) : x.equal y = y.equal x := by
  rw [Bool.eq_iff_iff]
  cases x <;> cases y <;>
    simp only [Binary64.equal, Bool.and_eq_true, Bool.or_eq_true, beq_iff_eq, Bool.false_eq_true]
  · grind
  · exact eq_comm

lemma Binary64.equal_of_equal {x y z : Binary64} (hx : x.equal z = true) (hy : y.equal z = true) :
    x.equal y = true := by
  cases x <;> cases y <;> cases z <;>
    simp only [Binary64.equal, Bool.and_eq_true, Bool.or_eq_true, beq_iff_eq, Bool.false_eq_true]
      at hx hy ⊢
  · grind
  · rw [hx, hy]

lemma Literal.equal_comm (x y : Literal) : x.equal y = y.equal x := by
  cases x with
  | text =>
    cases y with
    | text => exact Bool.beq_comm
    | number | flag => rfl
  | number | flag =>
    cases y with
    | text => rfl
    | number | flag => exact Binary64.equal_comm _ _

lemma Literal.equal_of_equal {x y z : Literal} (hx : x.equal z = true) (hy : y.equal z = true) :
    x.equal y = true := by
  cases z with
  | text s =>
    cases x with
    | text => cases y <;> simp_all [Literal.equal]
    | number | flag => cases hx
  | number | flag =>
    cases x with
    | text => cases hx
    | number | flag =>
      cases y with
      | text => cases hy
      | number | flag => exact Binary64.equal_of_equal hx hy

namespace Ty

variable {broad : Bool} {l : String × Literal} {ls : List (String × Literal)}
variable {depth : Nat} {a b joined t : Ty} {k k' letters letters' : Letters} {as bs ts : List Ty}
  {v : Option Literal} {checks more : List Checked}

/-- Two types are joined into their union, unless they are the same variable, both tables, or
constructors of one name whose values do not differ. -/
lemma joinTo_cases (h : outcome (joinTo depth a b) letters = (.ok t, letters')) :
    t = .union a b ∨ (∃ x, a = .var x ∧ b = .var x) ∨
      (∃ fields more, a = .table fields ∧ b = .table more ∧ ∃ kept, t = .table kept) ∨
      ∃ c as v checks bs w more args, a = .con c as v checks ∧ b = .con c bs w more ∧
        t = .con c args v (checks ++ more) ∧
        (∀ x y, v = some x → w = some y → x.equal y = true) ∧
        ∃ depth' k k', outcome (joinLists (joinTo depth') as bs) k = (.ok args, k') := by
  cases depth with
  | zero => cases h
  | succ depth =>
    have hpure : ∀ {k : Letters} {u : Ty},
        outcome (pure u : Naming Ty) k = (.ok t, letters') → t = u := by
      intro k u hu
      exact (pure_eq_ok.1 hu).1.symm
    rw [joinTo.eq_def] at h
    simp only at h
    split at h
    · rename_i x y
      by_cases hxy : x = y
      · subst hxy
        exact .inr (.inl ⟨x, rfl, rfl⟩)
      · rw [if_neg hxy] at h
        exact .inl (hpure h)
    · rename_i c as v checks d bs w more
      by_cases hcd : c = d
      · subst hcd
        rw [if_pos rfl] at h
        split at h
        · rename_i x y
          by_cases hxy : x.equal y = true
          · simp only [hxy, Bool.not_true, Bool.false_eq_true, if_false] at h
            obtain ⟨args, k, hargs, h⟩ := bind_eq_ok.1 h
            refine .inr (.inr (.inr ⟨c, as, _, checks, bs, _, more, args, rfl, rfl, hpure h, ?_,
              depth, _, _, hargs⟩))
            rintro x' y' ⟨⟩ ⟨⟩
            exact hxy
          · simp only [hxy, Bool.not_false, if_true] at h
            exact .inl (hpure h)
        · rename_i hvalues
          simp only [Bool.false_eq_true, if_false] at h
          obtain ⟨args, k, hargs, h⟩ := bind_eq_ok.1 h
          exact .inr (.inr (.inr ⟨c, as, _, checks, bs, _, more, args, rfl, rfl, hpure h,
            fun x y hx hy => absurd hy (hvalues x y hx), depth, _, _, hargs⟩))
      · rw [if_neg hcd] at h
        exact .inl (hpure h)
    · obtain ⟨kept, k, _, h⟩ := bind_eq_ok.1 h
      obtain ⟨fields, k₁, _, h⟩ := bind_eq_ok.1 h
      exact .inr (.inr (.inl ⟨_, _, rfl, rfl, fields, hpure h⟩))
    · exact .inl (hpure h)

lemma joinLists_nil {join : Ty → Ty → Naming Ty} {args : List Ty}
    (h : outcome (joinLists join as bs) k = (.ok args, k')) (hnil : as = [] ∨ bs = []) :
    args = [] := by
  have hpure : joinLists join as bs = pure [] := by
    rcases hnil with rfl | rfl
    · rfl
    · cases as <;> rfl
  rw [hpure, pure_eq_ok] at h
  exact h.1.symm

/-- A join admits what its left type admits. -/
lemma admits_join_left (h : outcome (joinTo depth a b) letters = (.ok t, letters'))
    (ha : a.admits broad l = true) : t.admits broad l = true := by
  rcases joinTo_cases h with rfl | ⟨x, rfl, rfl⟩ | ⟨fields, more, rfl, rfl, _⟩ |
    ⟨c, as, v, checks, bs, w, more, args, rfl, rfl, rfl, _, depth', k, k', hargs⟩
  · exact admits_union.2 (.inl ha)
  · cases ha
  · cases ha
  · obtain ⟨hc, has, hv⟩ := admits_con.1 ha
    exact admits_con.2 ⟨hc, joinLists_nil hargs (.inl has), hv⟩

/-- A join admits what its right type admits, unless the left type hides it. Up to literal values,
nothing is hidden. -/
lemma admits_join_right (h : outcome (joinTo depth a b) letters = (.ok t, letters'))
    (hb : b.admits broad l = true) (hhide : broad = true ∨ hides l a b = false) :
    t.admits broad l = true := by
  rcases joinTo_cases h with rfl | ⟨x, rfl, rfl⟩ | ⟨fields, more, rfl, rfl, _⟩ |
    ⟨c, as, v, checks, bs, w, more, args, rfl, rfl, rfl, hvalues, depth', k, k', hargs⟩
  · exact admits_union.2 (.inr hb)
  · cases hb
  · cases hb
  · obtain ⟨hc, hbs, hw⟩ := admits_con.1 hb
    refine admits_con.2 ⟨hc, joinLists_nil hargs (.inr hbs), ?_⟩
    by_cases hbroad : broad = true
    · exact .inl hbroad
    · refine .inr ?_
      have hhide' := hhide.resolve_left hbroad
      have hw' := hw.resolve_left hbroad
      -- The join has the value of its left type, which the right one has as well if it has any.
      cases v with
      | none => rfl
      | some x =>
        cases w with
        | none =>
          rw [hides, head?, head?] at hhide'
          simpa using hhide'
        | some y => exact Literal.equal_of_equal hw' (hvalues x y rfl rfl)

lemma admitAll_iff : admitAll broad ls ts = true ↔ ls.length ≤ ts.length ∧
    ∀ (k : Nat) l t, ls[k]? = some l → ts[k]? = some t → t.admits broad l = true := by
  induction ls generalizing ts with
  | nil => simp [admitAll]
  | cons l ls ih =>
    cases ts with
    | nil => simp [admitAll]
    | cons t ts =>
      rw [admitAll, Bool.and_eq_true, ih, List.length_cons, List.length_cons, Nat.succ_le_succ_iff]
      constructor
      · rintro ⟨ht, hlen, hts⟩
        refine ⟨hlen, fun k l' t' hl' ht' => ?_⟩
        cases k with
        | zero =>
          obtain rfl := Option.some.inj hl'
          obtain rfl := Option.some.inj ht'
          exact ht
        | succ k => exact hts k l' t' hl' ht'
      · rintro ⟨hlen, hall⟩
        exact ⟨hall 0 l t rfl rfl, hlen, fun k l' t' hl' ht' => hall (k + 1) l' t' hl' ht'⟩

lemma admitAll_optional (h : admitAll broad ls ts = true) :
    admitAll broad ls (ts.map fun t => .union t .nil) = true := by
  have hoptional : List.Forall₂ (fun t u => u = Ty.union t .nil) ts
      (ts.map fun t => .union t .nil) := by simp
  refine admitAll_of_forall₂ ?_ hoptional h
  rintro l t _ rfl ht
  exact admits_union.2 (.inl ht)

/-- Types that may be absent admit no more than they do otherwise, apart from the absence. -/
lemma admitAll_of_optional (hls : ∀ l ∈ ls, l.1 ≠ "nil")
    (h : admitAll broad ls (ts.map fun t => .union t .nil) = true) :
    admitAll broad ls ts = true := by
  induction ls generalizing ts with
  | nil => rfl
  | cons l ls ih =>
    cases ts with
    | nil => cases h
    | cons t ts =>
      rw [List.map_cons, admitAll, Bool.and_eq_true, admits_union] at h
      rw [admitAll, Bool.and_eq_true]
      have hnil : ¬ Ty.nil.admits broad l = true := by
        rw [Ty.nil, plain, admits_con]
        exact fun hadmits => hls l (by simp) hadmits.1
      exact ⟨h.1.resolve_right hnil, ih (fun l' hl' => hls l' (by simp [hl'])) h.2⟩

/-- Lists of types joined one by one; if `keep`, what is left of the longer list is kept, made
optional if it is on the right. -/
inductive Joined (keep : Bool) : List Ty → List Ty → List Ty → Prop
  | both {a b t : Ty} {as bs ts : List Ty} {depth : Nat} {k k' : Letters} :
      outcome (joinTo depth a b) k = (.ok t, k') → Joined keep as bs ts →
      Joined keep (a :: as) (b :: bs) (t :: ts)
  | left (as : List Ty) : Joined keep as [] (if keep then as else [])
  | right (bs : List Ty) : Joined keep [] bs (if keep then bs.map fun b => .union b .nil else [])

lemma joined_of_joinLists (h : outcome (joinLists (joinTo depth) as bs) k = (.ok ts, k')) :
    Joined false as bs ts := by
  induction as generalizing bs ts k with
  | nil =>
    rw [joinLists_nil h (.inl rfl)]
    exact .right bs
  | cons a as ih =>
    cases bs with
    | nil =>
      rw [joinLists_nil h (.inr rfl)]
      exact .left (a :: as)
    | cons b bs =>
      obtain ⟨t, k₁, ht, h⟩ := bind_eq_ok.1 h
      obtain ⟨ts', k₂, hts, h⟩ := bind_eq_ok.1 h
      cases h
      exact .both ht (ih hts)

variable {keep : Bool}

/-- Joined types admit what those on the left admit, as far as something is kept of them. -/
lemma Joined.admitAll_left (h : Joined keep as bs ts)
    (has : admitAll broad ls as = true) (hlen : keep = true ∨ ls.length ≤ bs.length) :
    admitAll broad ls ts = true := by
  induction h generalizing ls with
  | both ht _ ih =>
    cases ls with
    | nil => rfl
    | cons l ls =>
      rw [admitAll, Bool.and_eq_true] at has ⊢
      exact ⟨admits_join_left ht has.1, ih has.2 (hlen.imp_right Nat.le_of_succ_le_succ)⟩
  | left as =>
    cases keep with
    | true => exact has
    | false =>
      have hnil : ls.length ≤ 0 := hlen.resolve_left (by simp)
      rw [List.length_eq_zero_iff.1 (Nat.le_zero.1 hnil)]
      rfl
  | right bs =>
    cases ls with
    | nil => rfl
    | cons => cases has

/-- Joined types admit what those on the right admit, as far as something is kept of them and no
type on the left hides it. -/
lemma Joined.admitAll_right (h : Joined keep as bs ts)
    (hbs : admitAll broad ls bs = true) (hlen : keep = true ∨ ls.length ≤ as.length)
    (hhide : broad = true ∨ anyHidden ls as bs = false) : admitAll broad ls ts = true := by
  induction h generalizing ls with
  | both ht _ ih =>
    cases ls with
    | nil => rfl
    | cons l ls =>
      rw [admitAll, Bool.and_eq_true] at hbs ⊢
      rw [anyHidden_cons] at hhide
      exact ⟨admits_join_right ht hbs.1 (hhide.imp_right And.left),
        ih hbs.2 (hlen.imp_right Nat.le_of_succ_le_succ) (hhide.imp_right And.right)⟩
  | left as =>
    cases ls with
    | nil => rfl
    | cons => cases hbs
  | right bs =>
    cases keep with
    | true => exact admitAll_optional hbs
    | false =>
      have hnil : ls.length ≤ 0 := hlen.resolve_left (by simp)
      rw [List.length_eq_zero_iff.1 (Nat.le_zero.1 hnil)]
      rfl

/-- The join of two constructors of one name, of which one has no value, joins their arguments and
has the value of the left one. -/
lemma joined_of_join {c : String} {w : Option Literal} (hvalues : v = none ∨ w = none)
    (h : outcome (joinTo depth (.con c as v checks) (.con c bs w more)) k = (.ok t, k')) :
    ∃ ts, t = .con c ts v (checks ++ more) ∧ Joined false as bs ts := by
  cases depth with
  | zero => cases h
  | succ depth =>
    rw [joinTo] at h
    · simp only [if_true, Bool.false_eq_true, if_false] at h
      obtain ⟨ts, k₁, hts, h⟩ := bind_eq_ok.1 h
      obtain ⟨rfl, _⟩ := pure_eq_ok.1 h
      exact ⟨ts, rfl, joined_of_joinLists hts⟩
    · rintro x y rfl rfl
      simp at hvalues

/-! ## What is missed -/

/-- No alternative of a type is a variable, or has the name of a literal and no value or that of the
literal. -/
def bars (l : String × Literal) : Ty → Bool
  | .var _ => false
  | .con c _ v _ => l.1 != c || !v.all l.2.equal
  | .union left right => left.bars l && right.bars l
  | .table _ | .all _ _ => true

lemma admits_of_bars (h : t.bars l = true) : t.admits false l = false := by
  induction t with
  | con c args v checks =>
    rw [bars, Bool.or_eq_true, bne_iff_ne, Bool.not_eq_true'] at h
    rcases h with hc | hv
    · simp [admits, hc]
    · simp [admits, hv]
  | union left right ihl ihr =>
    rw [bars, Bool.and_eq_true] at h
    rw [admits, ihl h.1, ihr h.2, Bool.or_false]
  | var | table | all => rfl

variable {u : Ty}

lemma bars_replaceVars {f : String → Except Fault Ty} (hu : t.replaceVars f = .ok u)
    (h : t.bars l = true) : u.bars l = true := by
  induction t generalizing u with
  | con c args v checks =>
    obtain ⟨args', rfl, _⟩ := replaceVars_con hu
    exact h
  | table fields =>
    simp only [replaceVars, except_bind_eq_ok, pure, Except.pure, Except.ok.injEq] at hu
    obtain ⟨fields', _, rfl⟩ := hu
    rfl
  | union left right ihl ihr =>
    simp only [replaceVars, except_bind_eq_ok, pure, Except.pure, Except.ok.injEq] at hu
    obtain ⟨left', hl, right', hr, rfl⟩ := hu
    rw [bars, Bool.and_eq_true] at h ⊢
    exact ⟨ihl hl h.1, ihr hr h.2⟩
  | var => cases h
  | all => cases hu

lemma Wraps.bars_eq (h : Wraps a b) : b.bars l = a.bars l := by
  induction h with
  | trans _ _ ih₁ ih₂ => rw [ih₂, ih₁]
  | left right _ ih => rw [bars, bars, ih]
  | right left _ ih => rw [bars, bars, ih]
  | refl | arg | field | key | result => rfl

/-- The join bars what both types do, and what its left type hides. -/
lemma bars_join (h : outcome (joinTo depth a b) letters = (.ok t, letters'))
    (hl : (hides l a b || (a.bars l && b.bars l)) = true) : t.bars l = true := by
  rw [Bool.or_eq_true] at hl
  rcases hl with hhides | hboth
  · obtain ⟨c, args, x, checks, rfl, more, args', rfl, hx⟩ := exists_con_of_hides hhides
    obtain ⟨ts, rfl, _⟩ := joined_of_join (.inr rfl) h
    simp [bars, hx]
  · rw [Bool.and_eq_true] at hboth
    rcases joinTo_cases h with rfl | ⟨x, rfl, rfl⟩ | ⟨fields, more, rfl, rfl, kept, rfl⟩ |
      ⟨c, as, v, checks, bs, w, more, args, rfl, rfl, rfl, _⟩
    · rw [bars, hboth.1, hboth.2, Bool.and_self]
    · cases hboth.1
    · rfl
    · exact hboth.1

/-- There are fewer types than literals, or one of the first types bars its literal. -/
def anyMissed : List (String × Literal) → List Ty → Bool
  | [], _ => false
  | _ :: _, [] => true
  | l :: ls, t :: ts => t.bars l || anyMissed ls ts

lemma admitAll_of_anyMissed (h : anyMissed ls ts = true) : admitAll false ls ts = false := by
  induction ls generalizing ts with
  | nil => cases h
  | cons l ls ih =>
    cases ts with
    | nil => rfl
    | cons t ts =>
      rw [anyMissed, Bool.or_eq_true] at h
      rw [admitAll, Bool.and_eq_false_iff]
      exact h.imp admits_of_bars ih

/-- Types miss what their counterparts do if they bar what those do. -/
lemma anyMissed_of_forall₂ {R : Ty → Ty → Prop}
    (hR : ∀ l ∈ ls, ∀ a b, R a b → a.bars l = true → b.bars l = true)
    (h : List.Forall₂ R as bs) (has : anyMissed ls as = true) : anyMissed ls bs = true := by
  induction h generalizing ls with
  | nil => exact has
  | cons hab _ ih =>
    cases ls with
    | nil => cases has
    | cons l ls =>
      rw [anyMissed, Bool.or_eq_true] at has ⊢
      exact has.imp (hR l (by simp) _ _ hab) (ih fun l' hl' => hR l' (by simp [hl']))

lemma anyMissed_wraps (h : List.Forall₂ Wraps as bs) (has : anyMissed ls as = true) :
    anyMissed ls bs = true :=
  anyMissed_of_forall₂ (fun _ _ _ _ hab ha => hab.bars_eq.trans ha) h has

/-- Types that may be absent miss what they do otherwise, apart from the absence. -/
lemma anyMissed_optional (hls : ∀ l ∈ ls, l.1 ≠ "nil") (h : anyMissed ls ts = true) :
    anyMissed ls (ts.map fun t => .union t .nil) = true := by
  have hoptional : List.Forall₂ (fun t u => u = Ty.union t .nil) ts
      (ts.map fun t => .union t .nil) := by simp
  refine anyMissed_of_forall₂ ?_ hoptional h
  rintro l hl t _ rfl ht
  rw [bars, ht, Ty.nil, plain, bars, Bool.true_and, Bool.or_eq_true, bne_iff_ne]
  exact .inl (hls l hl)

/-- Types joined one by one miss some of the literals: one of the first joins bars its literal, or
what is left of the longer list does, if it is kept at all. -/
def anyLost (keep : Bool) : List (String × Literal) → List Ty → List Ty → Bool
  | [], _, _ => false
  | l :: ls, a :: as, b :: bs => hides l a b || (a.bars l && b.bars l) || anyLost keep ls as bs
  | ls, as, bs => !keep || anyMissed ls (as ++ bs)

lemma Joined.anyMissed (h : Joined keep as bs ts) (hls : ∀ l ∈ ls, l.1 ≠ "nil")
    (hlost : anyLost keep ls as bs = true) : anyMissed ls ts = true := by
  induction h generalizing ls with
  | both ht _ ih =>
    cases ls with
    | nil => cases hlost
    | cons l ls =>
      rw [anyLost, Bool.or_eq_true] at hlost
      rw [Ty.anyMissed, Bool.or_eq_true]
      exact hlost.imp (bars_join ht) (ih fun l' hl' => hls l' (by simp [hl']))
  | left as =>
    cases ls with
    | nil => cases as <;> cases hlost
    | cons l ls =>
      cases keep with
      | true => cases as <;> simpa [anyLost] using hlost
      | false => rfl
  | right bs =>
    cases ls with
    | nil => cases hlost
    | cons l ls =>
      cases keep with
      | true => exact anyMissed_optional hls (by simpa [anyLost] using hlost)
      | false => rfl

lemma anyLost_self (h : anyMissed ls ts = true) : anyLost keep ls ts ts = true := by
  induction ls generalizing ts with
  | nil => cases h
  | cons l ls ih =>
    cases ts with
    | nil => simp [anyLost, anyMissed]
    | cons t ts =>
      rw [anyMissed, Bool.or_eq_true] at h
      rw [anyLost, Bool.and_self, Bool.or_assoc, Bool.or_eq_true, Bool.or_eq_true]
      exact .inr (h.imp_right ih)

lemma anyLost_wraps {as' bs' : List Ty} (ha : List.Forall₂ Wraps as as')
    (hb : List.Forall₂ Wraps bs bs') (h : anyLost keep ls as bs = true) :
    anyLost keep ls as' bs' = true := by
  induction ls generalizing as as' bs bs' with
  | nil => cases as <;> cases h
  | cons l ls ih =>
    cases ha with
    | nil =>
      simp only [anyLost, Bool.or_eq_true, List.nil_append] at h ⊢
      exact h.imp_right (anyMissed_wraps hb)
    | cons hab has =>
      cases hb with
      | nil =>
        simp only [anyLost, Bool.or_eq_true, List.append_nil] at h ⊢
        exact h.imp_right (anyMissed_wraps (.cons hab has))
      | cons hcd hbs =>
        rw [anyLost, Bool.or_eq_true] at h ⊢
        rw [hides, hab.head?_eq, hcd.head?_eq, hab.bars_eq, hcd.bars_eq]
        exact h.imp_right (ih has hbs)

/-- A tuple type that has too few components for some literals, or one that bars its literal. -/
def Misses (ls : List (String × Literal)) (t : Ty) : Prop :=
  ∃ args v checks, t = .con "tuple" args v checks ∧ anyMissed ls args = true

lemma Misses.apply {s : Subst} (h : t.Misses ls) (hu : s.apply t = .ok u) :
    u.Misses ls := by
  obtain ⟨args, v, checks, rfl, hargs⟩ := h
  obtain ⟨f, hf⟩ := s.exists_apply_eq (.con "tuple" args v checks)
  obtain ⟨args', rfl, hargs'⟩ := replaceVars_con (hf.symm.trans hu)
  exact ⟨args', v, checks, rfl, anyMissed_of_forall₂ (fun _ _ _ _ => bars_replaceVars) hargs' hargs⟩

lemma Misses.wraps (h : t.Misses ls) (hu : t.Wraps u) : u.Misses ls := by
  obtain ⟨args, v, checks, rfl, hargs⟩ := h
  obtain ⟨args', rfl, hargs'⟩ := hu.exists_args
  exact ⟨args', v, checks, rfl, anyMissed_wraps hargs' hargs⟩

lemma Misses.not_covers (h : t.Misses ls) : t.covers false ls = false := by
  obtain ⟨args, v, checks, rfl, hargs⟩ := h
  by_contra hcovers
  rw [Bool.not_eq_false, covers_con, admitAll_of_anyMissed hargs] at hcovers
  cases hcovers.2.2

/-! ## Joins of tuple types -/

lemma covers_join_left (ht : t.covers broad ls = true) (hlen : ls.length ≤ bs.length)
    (h : outcome (t.join (.con "tuple" bs v more)) k = (.ok joined, k')) :
    joined.covers broad ls = true := by
  obtain ⟨as, checks, rfl, has⟩ := exists_tuple_of_covers ht
  obtain ⟨ts, rfl, hts⟩ := joined_of_join (.inl rfl) h
  exact covers_con.2 ⟨rfl, rfl, hts.admitAll_left has (.inr hlen)⟩

/-- The join of two tuple types covers what the right one does, if the left one has as many
components and hides none of those. -/
lemma covers_join_right (hwraps : Wraps (.con "tuple" as none checks) t)
    (hbs : admitAll broad ls bs = true) (hlen : ls.length ≤ as.length)
    (hhide : anyHidden ls as bs = false)
    (h : outcome (t.join (.con "tuple" bs none more)) k = (.ok joined, k')) :
    joined.covers broad ls = true := by
  obtain ⟨as', rfl, has⟩ := hwraps.exists_args
  obtain ⟨ts, rfl, hts⟩ := joined_of_join (.inl rfl) h
  rw [has.length_eq] at hlen
  rw [← anyHidden_wraps has (forall₂_wraps_refl bs)] at hhide
  exact covers_con.2 ⟨rfl, rfl, hts.admitAll_right hbs (.inr hlen) (.inr hhide)⟩

/-- The join of two tuple types misses what is lost in it. -/
lemma misses_join (hwraps : Wraps (.con "tuple" as none checks) t) (hls : ∀ l ∈ ls, l.1 ≠ "nil")
    (hlost : anyLost false ls as bs = true)
    (h : outcome (t.join (.con "tuple" bs v more)) k = (.ok joined, k')) : joined.Misses ls := by
  obtain ⟨as', rfl, has⟩ := hwraps.exists_args
  obtain ⟨ts, rfl, hts⟩ := joined_of_join (.inl rfl) h
  exact ⟨ts, none, _, rfl,
    hts.anyMissed hls (anyLost_wraps has (forall₂_wraps_refl bs) hlost)⟩

end Ty

end LuaTyping
