import LuaTyping.Proofs.Kinds

set_option autoImplicit false

/-!
# What unification keeps

Two constructors unify if their arguments do, one pair after the other; but of the substitutions
that are found on the way only that of the last pair is kept, composed with itself. So on types that
are made of variables and of constructors without literal values, the substitution that unification
gives binds at most one variable, and the bindings found for the arguments before are lost. Applied
to both types it gives the same type exactly if the types agree everywhere else.

## Main definitions

* `Ty.Plain` — types made of variables and constructors.
* `Ty.lastBinding` — the binding of the last pair of arguments.
* `Ty.AgreeUpTo` — two types differ only where a variable stands opposite a type.

## Main results

* `Ty.unify_unifies_iff` — when a substitution that unification gives makes both types
  the same.
* `Ty.unify_drops_first_argument` — two types for which it does not.
-/

namespace LuaTyping

namespace Ty

/-! ## Plain types -/

/-- A type made of variables and of constructors other than functions, without literal values. -/
inductive Plain : Ty → Prop
  | var (x : String) : Plain (.var x)
  | con {c : String} {args : List Ty} (checks : List Checked) : c ≠ "function" →
      (∀ a ∈ args, Plain a) → Plain (.con c args none checks)

mutual

/-- A type with all its checks twice, as its meet with itself has them. -/
def doubled : Ty → Ty
  | .con c args v checks => .con c (doubledList args) v (checks ++ checks)
  | t => t

/-- Some types with all their checks twice. -/
def doubledList : List Ty → List Ty
  | [] => []
  | t :: ts => t.doubled :: doubledList ts

end

mutual

/-- The binding that unifying two types gives: where a variable stands opposite another type, this
one; for two constructors the one of their last arguments. -/
def lastBinding : Ty → Ty → Option (String × Ty)
  | .var x, .var y => if x = y then none else some (y, .var x)
  | a, .var y => some (y, a)
  | .var x, b => some (x, b)
  | .con _ as _ _, .con _ bs _ _ => (lastBindingList as bs).map (Prod.map id doubled)
  | _, _ => none

/-- The binding of the last members of two lists. -/
def lastBindingList : List Ty → List Ty → Option (String × Ty)
  | [a], [b] => lastBinding a b
  | _ :: as, _ :: bs => lastBindingList as bs
  | _, _ => none

end

/-- Two types agree, except that a variable may stand opposite the type it is bound to. -/
inductive AgreeUpTo (found : Option (String × Ty)) : Ty → Ty → Prop
  | var (x : String) : AgreeUpTo found (.var x) (.var x)
  | con {as bs : List Ty} (c : String) (v : Option Literal) (checks : List Checked) :
      as.length = bs.length →
      (∀ (i : Nat) (a b : Ty), as[i]? = some a → bs[i]? = some b → AgreeUpTo found a b) →
      AgreeUpTo found (.con c as v checks) (.con c bs v checks)
  | left {x : String} {t : Ty} : found = some (x, t) → AgreeUpTo found (.var x) t
  | right {x : String} {t : Ty} : found = some (x, t) → AgreeUpTo found t (.var x)

variable {a b t u : Ty}

lemma plain_con_iff {c : String} {args : List Ty} {v : Option Literal} {checks : List Checked} :
    Plain (.con c args v checks) ↔ v = none ∧ c ≠ "function" ∧ ∀ a ∈ args, Plain a :=
  ⟨fun | .con _ hc h => ⟨rfl, hc, h⟩, fun ⟨hv, hc, h⟩ => hv ▸ .con checks hc h⟩

lemma doubledList_eq_map (ts : List Ty) : doubledList ts = ts.map doubled := by
  induction ts with
  | nil => rfl
  | cons t ts ih => rw [doubledList, ih, List.map_cons]

lemma Plain.doubled (h : t.Plain) : t.doubled.Plain := by
  induction h with
  | var x => exact .var x
  | con checks hc _ ih =>
    refine .con _ hc ?_
    rw [doubledList_eq_map]
    exact List.forall_mem_map.2 ih

/-! ## What is found -/

section Found

variable {covers : Covers} {k k' : Letters}

lemma meetLists_self {meet : Ty → Ty → Naming (Option Ty)} {ts : List Ty} {r : Option (List Ty)}
    (hmeet : ∀ t ∈ ts, ∀ k k' r, outcome (meet t t) k = (.ok r, k') → r = some t.doubled)
    (h : outcome (meetLists meet ts ts) k = (.ok r, k')) : r = some (doubledList ts) := by
  induction ts generalizing k k' r with
  | nil =>
    obtain ⟨rfl, -⟩ : some [] = r ∧ k = k' := by simpa [meetLists] using h
    rfl
  | cons t ts ih =>
    obtain ⟨m, k₁, hm, h⟩ := bind_eq_ok.1 h
    obtain rfl := hmeet t (by simp) k k₁ m hm
    obtain ⟨ms, k₂, hms, h⟩ := bind_eq_ok.1 h
    obtain rfl := ih (fun t ht => hmeet t (by simp [ht])) hms
    exact (pure_eq_ok.1 h).1.symm

/-- The meet of a plain type with itself has all checks twice. -/
lemma Plain.meetTo_self {depth : Nat} {r : Option Ty} (ht : t.Plain)
    (h : outcome (meetTo covers depth t t) k = (.ok r, k')) : r = some t.doubled := by
  induction depth generalizing t r k k' with
  | zero => cases h
  | succ depth ih =>
    cases ht with
    | var x =>
      obtain ⟨rfl, -⟩ : some (Ty.var x) = r ∧ k = k' := by simpa [meetTo] using h
      rfl
    | con checks hc hargs =>
      simp only [meetTo, if_true] at h
      obtain ⟨ms, k₁, hms, h⟩ := bind_eq_ok.1 h
      obtain rfl := meetLists_self (fun t ht k k' r => ih (hargs t ht)) hms
      exact (pure_eq_ok.1 h).1.symm

/-- A substitution that binds one variable to a plain type, composed with itself. -/
lemma bindings_composeWith_self {s s' : Subst} {found : Option (String × Ty)}
    (hs : s.bindings = found.toList) (hplain : ∀ p ∈ found, p.2.Plain)
    (h : outcome (s.composeWith covers s) k = (.ok s', k')) :
    s'.bindings = (found.map (Prod.map id doubled)).toList := by
  obtain ⟨bindings, k₁, hbindings, h⟩ := bind_eq_ok.1 h
  cases h
  rw [hs] at hbindings
  cases found with
  | none =>
    simp only [Option.toList_none, Subst.composeBindings, outcome_pure, Prod.mk.injEq,
      Except.ok.injEq] at hbindings
    exact hbindings.1.symm
  | some p =>
    obtain ⟨x, t⟩ := p
    simp only [Option.toList_some, Subst.composeBindings, List.lookup, beq_self_eq_true]
      at hbindings
    obtain ⟨m, k₂, hm, hbindings⟩ := bind_eq_ok.1 hbindings
    obtain rfl := (hplain (x, t) rfl).meetTo_self hm
    simp only [Subst.enter, beq_self_eq_true, if_true, outcome_pure, Prod.mk.injEq,
      Except.ok.injEq] at hbindings
    exact hbindings.1.symm

/-- A run of a unification finds the last binding, if it finds a substitution. -/
def FindsLast (unify : Unifier) (a b : Ty) : Prop :=
  ∀ {k k' : Letters} {w : Unified} {s : Subst}, outcome (unify a b) k = (.ok w, k') →
    w.outcome = .ok s →
    s.bindings = (lastBinding a b).toList ∧ ∀ p ∈ lastBinding a b, p.2.Plain

lemma lastBindingList_cons {as bs : List Ty} (has : as ≠ []) (hlen : as.length = bs.length) :
    lastBindingList (a :: as) (b :: bs) = lastBindingList as bs := by
  cases as with
  | nil => exact absurd rfl has
  | cons a' as =>
    cases bs with
    | nil => cases hlen
    | cons b' bs => rfl

/-- Of what unifying two lists finds for their members, the last one is left. -/
lemma found_of_unifyLists {unify : Unifier} {s s' : Subst} {as bs : List Ty} {w : UnifiedLists}
    (hunify : ∀ a ∈ as, ∀ b ∈ bs, FindsLast unify a b) (hlen : as.length = bs.length)
    (h : outcome (unifyLists unify (fun found _ => found.composeWith covers found) s as bs) k =
      (.ok w, k')) (hs' : w.outcome = .ok s') :
    (as = [] → s' = s) ∧ (as ≠ [] →
      s'.bindings = ((lastBindingList as bs).map (Prod.map id doubled)).toList ∧
        ∀ p ∈ lastBindingList as bs, p.2.Plain) := by
  induction as generalizing bs s k k' w with
  | nil =>
    obtain rfl := List.length_eq_zero_iff.1 hlen.symm
    simp only [unifyLists, pure_eq_ok] at h
    obtain ⟨rfl, -⟩ := h
    exact ⟨fun _ => (Except.ok.inj hs').symm, fun hne => absurd rfl hne⟩
  | cons a as ih =>
    obtain ⟨b, bs, rfl⟩ : ∃ b bs', bs = b :: bs' := List.exists_cons_of_length_eq_add_one hlen.symm
    replace hlen := Nat.succ.inj hlen
    refine ⟨fun hnil => absurd hnil (List.cons_ne_nil a as), fun _ => ?_⟩
    obtain ⟨u, k₁, hu, h⟩ := bind_eq_ok.1 h
    rcases hfound : u.outcome with m | found
    · simp only [hfound, pure_eq_ok] at h
      rw [← h.1] at hs'
      cases hs'
    · simp only [hfound] at h
      obtain ⟨s₁, k₂, hs₁, h⟩ := bind_eq_ok.1 h
      obtain ⟨rest, k₃, hrest, h⟩ := bind_eq_ok.1 h
      cases h
      obtain ⟨hbindings, hplain⟩ := hunify a (by simp) b (by simp) hu hfound
      obtain ⟨hnil, hcons⟩ := ih (fun a ha b hb => hunify a (by simp [ha]) b (by simp [hb])) hlen
        hrest hs'
      by_cases has : as = []
      · subst has
        obtain rfl := List.length_eq_zero_iff.1 hlen.symm
        obtain rfl := hnil rfl
        exact ⟨bindings_composeWith_self hbindings hplain hs₁, hplain⟩
      · rw [lastBindingList_cons has hlen]
        exact hcons has

/-- On plain types, unification finds the binding of the last arguments and no other. -/
theorem Plain.findsLast {depth : Nat} (ha : a.Plain) (hb : b.Plain) :
    FindsLast (unifyTo depth) a b := by
  induction depth generalizing a b with
  | zero => exact fun h => nomatch h
  | succ depth ih =>
    intro k k' w s h hs
    rw [unifyTo] at h
    cases ha with
    | var x =>
      cases hb with
      | var y =>
        rw [unifyStep] at h
        by_cases hxy : x = y
        · simp only [hxy, if_true, pure_eq_ok] at h
          rw [← h.1] at hs
          cases hs
          simp [lastBinding, hxy, Subst.empty]
        · simp only [hxy, if_false, pure_eq_ok] at h
          rw [← h.1] at hs
          cases hs
          simp [lastBinding, hxy, Subst.single, Plain.var]
      | con more hd hbs =>
        simp only [unifyStep, pure_eq_ok] at h
        rw [← h.1] at hs
        cases hs
        simp [lastBinding, Subst.single, Plain.con more hd hbs]
    | @con c as checks hc has =>
      cases hb with
      | var y =>
        simp only [unifyStep, pure_eq_ok] at h
        rw [← h.1] at hs
        cases hs
        simp [lastBinding, Subst.single, Plain.con checks hc has]
      | @con d bs more hd hbs =>
        obtain ⟨rfl, hlen, -⟩ := eq_of_unifyConstructors h (Unified.succeeds_iff.2 ⟨s, hs⟩)
        rw [unifyStep, unifyConstructors_eq hc hlen rfl] at h
        obtain ⟨lists, k₁, hlists, h⟩ := bind_eq_ok.1 h
        rw [← (pure_eq_ok.1 h).1] at hs
        obtain ⟨hnil, hcons⟩ :=
          found_of_unifyLists (fun a ha b hb => ih (has a ha) (hbs b hb)) hlen hlists hs
        by_cases hempty : as = []
        · obtain rfl := hnil hempty
          subst hempty
          obtain rfl := List.length_eq_zero_iff.1 hlen.symm
          simp [lastBinding, lastBindingList, Subst.empty]
        · obtain ⟨hbindings, hplain⟩ := hcons hempty
          refine ⟨by rw [hbindings, lastBinding], fun p hp => ?_⟩
          obtain ⟨q, hq, rfl⟩ := Option.map_eq_some_iff.1 hp
          exact (hplain q hq).doubled

end Found

/-! ## Applying one binding -/

section Applying

variable {found : Option (String × Ty)}

/-- What at most one binding puts in the place of a variable. -/
def putFound : Option (String × Ty) → String → Ty
  | some (x, t), y => if y = x then t else .var y
  | none, y => .var y

variable {f : String → Except Fault Ty}

lemma Plain.replaceVars_eq_self (h : t.Plain) (hf : ∀ x ∈ t.openVars, f x = .ok (.var x)) :
    t.replaceVars f = .ok t := by
  induction h with
  | var x => exact hf x (by simp [openVars])
  | @con c args checks _ _ ih =>
    have hargs : replaceVarsList f args = .ok args :=
      replaceVarsList_eq_ok.2 (List.forall₂_same.2 fun a ha =>
        ih a ha fun x hx => hf x (mem_openVarsList.2 ⟨a, ha, hx⟩))
    rw [replaceVars, hargs]
    rfl

lemma Plain.replaceVars_congr {g : String → Except Fault Ty} (h : t.Plain)
    (ht : t.replaceVars f = .ok u) (hfg : ∀ x ∈ t.openVars, ∀ w, f x = .ok w → g x = .ok w) :
    t.replaceVars g = .ok u := by
  induction h generalizing u with
  | var x => exact hfg x (by simp [openVars]) u ht
  | @con c args checks _ _ ih =>
    simp only [replaceVars, except_bind_eq_ok, replaceVarsList_eq_ok] at ht ⊢
    obtain ⟨us, hus, hu⟩ := ht
    exact ⟨us, forall₂_imp_of_mem hus fun a ha u hau =>
      ih a ha hau fun x hx => hfg x (mem_openVarsList.2 ⟨a, ha, hx⟩), hu⟩

/-- An application of at most one binding puts it into the type, and its variable does not occur in
what it is bound to if it occurs in the type. -/
lemma Plain.apply_eq {s : Subst} (h : t.Plain) (hs : s.bindings = found.toList)
    (hu : s.apply t = .ok u) :
    t.replaceVars (fun y => .ok (putFound found y)) = .ok u ∧
      ∀ x w, found = some (x, w) → x ∈ t.openVars → x ∉ w.openVars := by
  rw [Subst.apply, hs] at hu
  cases found with
  | none => exact ⟨h.replaceVars_congr hu fun x _ w hw => hw, fun x w hfound => nomatch hfound⟩
  | some p =>
    obtain ⟨x, v⟩ := p
    have hself : [(x, v)].lookup x = some v := by simp [List.lookup]
    have hother : ∀ {y}, y ≠ x → [(x, v)].lookup y = none := fun hne => by
      simp [List.lookup, beq_false_of_ne hne]
    -- A binding is followed once, and not again: what is bound has no bound variable.
    have hfollow : ∀ {w}, Subst.follow [(x, v)] t 0 v = .ok w → w = v ∧ x ∉ v.openVars := by
      intro w hw
      have hx : x ∉ v.openVars := fun hx => by
        obtain ⟨w', hw'⟩ := exists_ok_of_mem_openVars hw hx
        simp [hself] at hw'
      exact ⟨Ty.replaceVars_eq_self hw fun y hy => by rw [hother fun hyx => hx (hyx ▸ hy)], hx⟩
    refine ⟨h.replaceVars_congr hu fun y _ w hw => ?_, fun y w hfound hy => ?_⟩
    · by_cases hyx : y = x
      · subst hyx
        simp only [Option.toList_some, hself] at hw
        rw [(hfollow hw).1, putFound, if_pos rfl]
      · simp only [Option.toList_some, hother hyx] at hw
        rw [putFound, if_neg hyx]
        exact hw
    · obtain ⟨rfl, rfl⟩ := Prod.mk.inj (Option.some.inj hfound)
      obtain ⟨w, hw⟩ := exists_ok_of_mem_openVars hu hy
      simp only [Option.toList_some, hself] at hw
      exact (hfollow hw).2

lemma replaceVarsList_eq_of_forall {as bs : List Ty} (hlen : as.length = bs.length)
    (h : ∀ (i : Nat) (a b : Ty), as[i]? = some a → bs[i]? = some b →
      a.replaceVars f = b.replaceVars f) : replaceVarsList f as = replaceVarsList f bs := by
  induction as generalizing bs with
  | nil => rw [List.length_eq_zero_iff.1 hlen.symm]
  | cons a as ih =>
    obtain ⟨b, bs, rfl⟩ : ∃ b bs', bs = b :: bs' := List.exists_cons_of_length_eq_add_one hlen.symm
    rw [replaceVarsList, replaceVarsList, h 0 a b rfl rfl,
      ih (Nat.succ.inj hlen) fun i => h (i + 1)]

/-- Types that agree up to a binding become the same by it, if its variable occurs in them only when
it does not occur in what it is bound to. -/
lemma AgreeUpTo.replaceVars_eq (h : AgreeUpTo found a b) (ha : a.Plain) (hb : b.Plain)
    (hfound : ∀ x w, found = some (x, w) → x ∈ a.openVars ∨ x ∈ b.openVars → x ∉ w.openVars) :
    a.replaceVars (fun y => .ok (putFound found y)) =
      b.replaceVars fun y => .ok (putFound found y) := by
  -- What the variable is bound to stays as it is.
  have hput : ∀ {x t}, found = some (x, t) → t.Plain → x ∉ t.openVars →
      t.replaceVars (fun y => .ok (putFound found y)) = .ok (putFound found x) := by
    intro x t heq ht hx
    subst heq
    have hself : ∀ y ∈ t.openVars, putFound (some (x, t)) y = .var y := by
      intro y hy
      rw [putFound, if_neg]
      rintro rfl
      exact hx hy
    rw [ht.replaceVars_eq_self fun y hy => congrArg Except.ok (hself y hy), putFound, if_pos rfl]
  induction h with
  | var x => rfl
  | con c v checks hlen _ ih =>
    obtain ⟨-, -, has⟩ := plain_con_iff.1 ha
    obtain ⟨-, -, hbs⟩ := plain_con_iff.1 hb
    rw [replaceVars, replaceVars, replaceVarsList_eq_of_forall hlen fun i a b hi hj => ?_]
    have hamem := List.mem_of_getElem? hi
    have hbmem := List.mem_of_getElem? hj
    refine ih i a b hi hj (has a hamem) (hbs b hbmem) fun x w hxw hx => hfound x w hxw ?_
    exact hx.imp (fun hx => mem_openVarsList.2 ⟨a, hamem, hx⟩)
      fun hx => mem_openVarsList.2 ⟨b, hbmem, hx⟩
  | left heq => exact (hput heq hb (hfound _ _ heq (.inl (by simp [openVars])))).symm
  | right heq => exact hput heq ha (hfound _ _ heq (.inr (by simp [openVars])))

/-- What is put in the place of a variable is the result or a smaller part of it. -/
lemma Plain.eq_or_size_lt {x : String} {w : Ty} (h : t.Plain) (ht : t.replaceVars f = .ok u)
    (hx : x ∈ t.openVars) (hw : f x = .ok w) : t = .var x ∨ w.size < u.size := by
  induction h generalizing u with
  | var y =>
    obtain rfl := List.mem_singleton.1 hx
    exact .inl rfl
  | con checks _ _ ih =>
    simp only [replaceVars, except_bind_eq_ok, replaceVarsList_eq_ok, pure, Except.pure,
      Except.ok.injEq] at ht
    obtain ⟨us, hus, rfl⟩ := ht
    obtain ⟨a, ha, hxa⟩ := mem_openVarsList.1 hx
    obtain ⟨v, hv, hav⟩ := exists_left_of_forall₂ hus.flip ha
    have hle : w.size ≤ v.size := by
      rcases ih a ha hav hxa with rfl | hlt
      · cases hw.symm.trans hav
        exact le_rfl
      · exact hlt.le
    right
    rw [size]
    exact Nat.lt_succ_of_le (hle.trans (size_le_sizeList hv))

/-- A type that becomes what a variable is bound to is the variable or this type. -/
lemma Plain.eq_of_replaceVars_eq {x : String} (h : t.Plain)
    (ht : t.replaceVars (fun y => .ok (putFound (some (x, u)) y)) = .ok u) :
    t = .var x ∨ t = u := by
  by_cases hx : x ∈ t.openVars
  · have hput : putFound (some (x, u)) x = u := if_pos rfl
    exact (h.eq_or_size_lt ht hx (congrArg Except.ok hput)).imp_right
      fun hlt => absurd hlt (Nat.lt_irrefl _)
  · refine .inr (Ty.replaceVars_eq_self ht fun y hy => ?_).symm
    rw [putFound, if_neg]
    rintro rfl
    exact hx hy

lemma putFound_cases (found : Option (String × Ty)) (y : String) :
    found = some (y, putFound found y) ∨ putFound found y = .var y := by
  cases found with
  | none => exact .inr rfl
  | some p =>
    by_cases hy : y = p.1
    · exact .inl (by rw [putFound, if_pos hy, hy])
    · exact .inr (by rw [putFound, if_neg hy])

/-- Types that become the same by a binding agree up to it. -/
lemma agreeUpTo_of_replaceVars_eq (ha : a.Plain) (hb : b.Plain)
    (hau : a.replaceVars (fun y => .ok (putFound found y)) = .ok u)
    (hbu : b.replaceVars (fun y => .ok (putFound found y)) = .ok u) : AgreeUpTo found a b := by
  induction ha generalizing b u with
  | var y =>
    obtain rfl : putFound found y = u := Except.ok.inj hau
    rcases putFound_cases found y with hfound | hfree
    · generalize putFound found y = t at hfound hbu
      subst hfound
      rcases hb.eq_of_replaceVars_eq hbu with rfl | rfl
      · exact .var y
      · exact .left rfl
    · rw [hfree] at hbu
      cases hb with
      | var z =>
        replace hbu : putFound found z = .var y := Except.ok.inj hbu
        rcases putFound_cases found z with hfound | hfree'
        · exact .right (hbu ▸ hfound)
        · obtain rfl := Ty.var.inj (hfree'.symm.trans hbu)
          exact .var z
      | con more =>
        simp only [replaceVars, except_bind_eq_ok] at hbu
        obtain ⟨us, -, hbu⟩ := hbu
        cases hbu
  | @con c as checks hc has ih =>
    cases hb with
    | var z =>
      obtain rfl : putFound found z = u := Except.ok.inj hbu
      rcases putFound_cases found z with hfound | hfree
      · generalize putFound found z = t at hfound hau
        subst hfound
        rcases (Plain.con checks hc has).eq_of_replaceVars_eq hau with hvar | rfl
        · cases hvar
        · exact .right rfl
      · rw [hfree] at hau
        simp only [replaceVars, except_bind_eq_ok] at hau
        obtain ⟨us, -, hau⟩ := hau
        cases hau
    | @con d bs more hd hbs =>
      simp only [replaceVars, except_bind_eq_ok, replaceVarsList_eq_ok, pure, Except.pure,
        Except.ok.injEq] at hau hbu
      obtain ⟨us, hus, rfl⟩ := hau
      obtain ⟨vs, hvs, heq⟩ := hbu
      obtain ⟨rfl, rfl, -, rfl⟩ := Ty.con.inj heq
      refine .con _ _ _ (hus.length_eq.trans hvs.length_eq.symm) fun i x y hx hy => ?_
      obtain ⟨hi, rfl⟩ := List.getElem?_eq_some_iff.1 hx
      obtain ⟨hj, rfl⟩ := List.getElem?_eq_some_iff.1 hy
      have hlen : i < vs.length := hvs.length_eq ▸ hj
      exact ih _ (List.getElem_mem hi) (hbs _ (List.getElem_mem hj))
        ((List.forall₂_iff_get.1 hus).2 i hi hlen) ((List.forall₂_iff_get.1 hvs).2 i hj hlen)

end Applying

/-- The substitution that unification gives on plain types binds what was found for the last
arguments and nothing else. So it makes both types the same exactly if they agree up to this
binding. -/
theorem unify_unifies_iff {a' b' : Ty} {w : Unified} {s : Subst} {k k' : Letters} (ha : a.Plain)
    (hb : b.Plain) (h : outcome (unify a b) k = (.ok w, k')) (hs : w.outcome = .ok s)
    (ha' : s.apply a = .ok a') (hb' : s.apply b = .ok b') :
    s.bindings = (lastBinding a b).toList ∧ (a' = b' ↔ AgreeUpTo (lastBinding a b) a b) := by
  obtain ⟨hbindings, -⟩ := ha.findsLast hb h hs
  obtain ⟨ha', haway⟩ := ha.apply_eq hbindings ha'
  obtain ⟨hb', hbway⟩ := hb.apply_eq hbindings hb'
  refine ⟨hbindings, fun heq => ?_, fun hagree => ?_⟩
  · subst heq
    exact agreeUpTo_of_replaceVars_eq ha hb ha' hb'
  · rw [hagree.replaceVars_eq ha hb fun x w hxw hx => hx.elim (haway x w hxw) (hbway x w hxw)]
      at ha'
    exact Except.ok.inj (ha'.symm.trans hb')

/-- A variable that occurs in both arguments is bound by the second one as the first one asks
for. -/
theorem unify_unifies_iff_repeatedVariable :
    let number := Ty.con "number" [] none []
    let a := Ty.con "pair" [.con "list" [.var "x"] none [], .var "x"] none []
    let b := Ty.con "pair" [.con "list" [number] none [], number] none []
    outcome (unify a b) [] = (.ok ⟨.ok (.single "x" number), a, b⟩, []) ∧
      (Subst.single "x" number).apply a = .ok b ∧ (Subst.single "x" number).apply b = .ok b ∧
      AgreeUpTo (lastBinding a b) a b := by
  intro number a b
  have hnumber : number.Plain := .con [] (by decide) (by simp)
  have ha : a.Plain := .con [] (by decide) (by simp [Plain.var, plain_con_iff])
  have hb : b.Plain := .con [] (by decide) (by simp [plain_con_iff, hnumber])
  have hrun : outcome (unify a b) [] = (.ok ⟨.ok (.single "x" number), a, b⟩, []) := rfl
  exact ⟨hrun, rfl, rfl, (unify_unifies_iff ha hb hrun rfl rfl rfl).2.1 rfl⟩

/-- The bindings of all arguments but the last one are lost: of two arguments that are both
variables, only the second one is filled in. -/
theorem unify_drops_first_argument :
    let number := Ty.con "number" [] none []
    let string := Ty.con "string" [] none []
    let a := Ty.con "pair" [.var "x", .var "y"] none []
    let b := Ty.con "pair" [number, string] none []
    a.Plain ∧ b.Plain ∧ outcome (unify a b) [] = (.ok ⟨.ok (.single "y" string), a, b⟩, []) ∧
      (Subst.single "y" string).apply a = .ok (.con "pair" [.var "x", string] none []) ∧
      (Subst.single "y" string).apply b = .ok b ∧
      Ty.con "pair" [.var "x", string] none [] ≠ b := by
  refine ⟨.con [] (by decide) (by simp [Plain.var]), .con [] (by decide) (by simp [plain_con_iff]),
    rfl, rfl, rfl, ?_⟩
  simp

end Ty

end LuaTyping
