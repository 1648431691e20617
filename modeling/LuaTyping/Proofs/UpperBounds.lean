import LuaTyping.Proofs.Preorder

set_option autoImplicit false

/-!
# Joins as upper bounds

The join of two types is to cover both. It covers the first one always. It does not cover the second
one if somewhere a constructor with a literal value meets one of the same name without: the two are
joined into one constructor, which keeps the value.

Types of one name have the same number of arguments here, as joining drops those that only one of
two constructors has.

## Main definitions

* `Ty.OfArity` — types whose constructors have numbers of arguments that depend on names.
* `Ty.Narrows` — a value on the left is kept where the right has none.

## Main results

* `Ty.joinTo_bounds` — the join in the order.
* `Ty.join_upper_bound_iff` — when the join covers both types.
-/

namespace LuaTyping.Ty

variable {a b : Ty} {arity : String → Nat}

/-! ## What is joined -/

/-- All constructors of a type have as many arguments as their names tell. -/
inductive OfArity (arity : String → Nat) : Ty → Prop
  | con {c : String} {args : List Ty} (v : Option Literal) (checks : List Checked) :
      args.length = arity c → (∀ t ∈ args, OfArity arity t) → OfArity arity (.con c args v checks)
  | union {left right : Ty} : OfArity arity left → OfArity arity right →
      OfArity arity (.union left right)

/-- Whether two constructors have values that differ. -/
def clash : Option Literal → Option Literal → Bool
  | some x, some y => !x.equal y
  | _, _ => false

/-- Where two types are joined into one, the first one has a literal value and the second one has
none. They are joined into one as constructors of one name whose values do not differ, and so are
then their arguments. -/
inductive Narrows : Ty → Ty → Prop
  | value (c : String) (as bs : List Ty) (x : Literal) (checks more : List Checked) :
      Narrows (.con c as (some x) checks) (.con c bs none more)
  | arg (c : String) {as bs : List Ty} {v w : Option Literal} (checks more : List Checked) {i : Nat}
      {a b : Ty} : clash v w = false → as[i]? = some a → bs[i]? = some b → Narrows a b →
      Narrows (.con c as v checks) (.con c bs w more)

section Constructors

variable {c d : String} {as bs : List Ty} {v w : Option Literal} {checks more : List Checked}

lemma narrows_con_iff (hclash : clash v w = false) :
    Narrows (.con c as v checks) (.con c bs w more) ↔
      (v.isSome = true ∧ w = none) ∨
        ∃ (i : Nat) (a b : Ty), as[i]? = some a ∧ bs[i]? = some b ∧ Narrows a b := by
  constructor
  · intro h
    cases h with
    | value => exact .inl ⟨rfl, rfl⟩
    | arg _ _ _ _ ha hb h => exact .inr ⟨_, _, _, ha, hb, h⟩
  · rintro (⟨hv, rfl⟩ | ⟨i, a, b, ha, hb, h⟩)
    · obtain ⟨x, rfl⟩ := Option.isSome_iff_exists.1 hv
      exact .value _ _ _ _ _ _
    · exact .arg _ _ _ hclash ha hb h

lemma not_narrows_con (h : ¬ (c = d ∧ clash v w = false)) :
    ¬ Narrows (.con c as v checks) (.con d bs w more) := by
  intro hnarrows
  cases hnarrows with
  | value => exact h ⟨rfl, rfl⟩
  | arg _ _ _ hclash => exact h ⟨rfl, hclash⟩

/-- The value that is kept serves for the one on the right unless this one is missing. -/
lemma serves_kept_iff (hclash : clash v w = false) :
    Literal.serves w v = true ↔ ¬ (v.isSome = true ∧ w = none) := by
  cases v with
  | none => simp [Literal.serves]
  | some x =>
    cases w with
    | none => simp [Literal.serves]
    | some y =>
      have hxy : x.equal y = true := by simpa [clash] using hclash
      simpa [Literal.serves] using (Literal.equal_comm y x).trans hxy

/-! ## The join in the order -/

/-- Constructors of one name are joined into one if their values do not differ, and into a union
otherwise. -/
lemma joinTo_con {depth : Nat} :
    joinTo (depth + 1) (.con c as v checks) (.con d bs w more) =
      if c = d ∧ clash v w = false then (do
        return .con c (← joinLists (joinTo depth) as bs) v (checks ++ more))
      else pure (.union (.con c as v checks) (.con d bs w more)) := by
  by_cases hcd : c = d
  · cases v with
    | none => cases w <;> simp [joinTo, clash, hcd]
    | some x =>
      cases w with
      | none => simp [joinTo, clash, hcd]
      | some y => cases hxy : x.equal y <;> simp [joinTo, clash, hcd, hxy]
  · simp [joinTo, hcd]

end Constructors

/-- Lists are joined member by member. -/
lemma exists_joinLists {join : Ty → Ty → Naming Ty} {Q : Ty → Ty → Ty → Prop} {as bs : List Ty}
    (hlen : as.length = bs.length) (h : ∀ a ∈ as, ∀ b ∈ bs, ∃ r, join a b = pure r ∧ Q a b r) :
    ∃ rs, joinLists join as bs = pure rs ∧ rs.length = as.length ∧
      ∀ (i : Nat) a b r, as[i]? = some a → bs[i]? = some b → rs[i]? = some r → Q a b r := by
  induction as generalizing bs with
  | nil => exact ⟨[], rfl, rfl, by simp⟩
  | cons a as ih =>
    cases bs with
    | nil => cases hlen
    | cons b bs =>
      obtain ⟨r, hr, hq⟩ := h a (by simp) b (by simp)
      obtain ⟨rs, hrs, hlen', hqs⟩ := ih (Nat.succ.inj hlen) fun x hx y hy =>
        h x (List.mem_cons_of_mem _ hx) y (List.mem_cons_of_mem _ hy)
      refine ⟨r :: rs, by simp [joinLists, hr, hrs], by simp [hlen'], fun i x y z hx hy hz => ?_⟩
      cases i with
      | zero =>
        cases hx
        cases hy
        cases hz
        exact hq
      | succ i => exact hqs i x y z hx hy hz

/-- How the join of two types lies in the order. -/
structure Bounds (a b r : Ty) : Prop where
  regular : r.Regular
  left : Under a r
  right : Under b r ↔ ¬ Narrows a b

lemma bounds_union (ha : a.Regular) (hb : b.Regular) (h : ¬ Narrows a b) :
    Bounds a b (.union a b) :=
  ⟨.union ha hb, .left _ ha.under_self, iff_of_true (.right _ hb.under_self) h⟩

/-- Two constructors of one name that are joined into one lie in the order as their arguments and
values do. -/
lemma bounds_con {c : String} {as bs rs : List Ty} {v w : Option Literal}
    {checks more both : List Checked} (ha : (Ty.con c as v checks).Regular)
    (hclash : clash v w = false) (hlen : as.length = bs.length) (hlen' : rs.length = as.length)
    (h : ∀ (i : Nat) a b r, as[i]? = some a → bs[i]? = some b → rs[i]? = some r → Bounds a b r) :
    Bounds (.con c as v checks) (.con c bs w more) (.con c rs v both) := by
  cases ha with
  | con _ hc _ hv =>
    -- each argument of the join comes from one argument on both sides
    have hthree : ∀ (i : Nat) r, rs[i]? = some r → ∃ a b, as[i]? = some a ∧ bs[i]? = some b := by
      intro i r hr
      obtain ⟨hi, _⟩ := List.getElem?_eq_some_iff.1 hr
      exact ⟨_, _, List.getElem?_eq_getElem (hlen' ▸ hi),
        List.getElem?_eq_getElem (hlen ▸ hlen' ▸ hi)⟩
    refine ⟨.con both hc (fun r hr => ?_) hv, ?_, ?_⟩
    · obtain ⟨i, hi⟩ := List.mem_iff_getElem?.1 hr
      obtain ⟨a, b, ha, hb⟩ := hthree i r hi
      exact (h i a b r ha hb hi).regular
    · refine .con _ _ _ (Literal.serves_self fun x hx => (hv x hx).1.equal_self) hlen'.symm ?_
      intro i a r ha hr
      obtain ⟨a', b, ha', hb⟩ := hthree i r hr
      cases ha.symm.trans ha'
      exact (h i a b r ha hb hr).left
    · rw [under_con_iff, narrows_con_iff hclash, not_or, serves_kept_iff hclash]
      refine ⟨fun ⟨_, hserves, _, hargs⟩ => ⟨hserves, ?_⟩, fun ⟨hserves, hargs⟩ =>
        ⟨rfl, hserves, (hlen'.trans hlen).symm, fun i b r hb hr => ?_⟩⟩
      · rintro ⟨i, a, b, ha, hb, hnarrows⟩
        obtain ⟨hi, _⟩ := List.getElem?_eq_some_iff.1 ha
        have hr : rs[i]? = some rs[i] := List.getElem?_eq_getElem (hlen'.symm ▸ hi)
        exact (h i a b _ ha hb hr).right.1 (hargs i b _ hb hr) hnarrows
      · obtain ⟨a, b', ha, hb'⟩ := hthree i r hr
        cases hb.symm.trans hb'
        exact (h i a b r ha hb hr).right.2 fun hnarrows => hargs ⟨i, a, b, ha, hb, hnarrows⟩

/-- The join of two types ends without a fault. It covers the first type, and the second one unless
a value on the left is kept where the right has none.

**Proof sketch.** Induction on the first type. Unions, constructors of different names and
constructors with different values are put into a union, which covers both. Otherwise the value of
the first constructor is kept, which serves for the second one if that one has a value too, and the
arguments are joined one by one. -/
theorem joinTo_bounds (ha : a.Regular) (hb : b.Regular) (ha' : a.OfArity arity)
    (hb' : b.OfArity arity) {depth : Nat} (hdepth : a.size ≤ depth) :
    ∃ r, joinTo depth a b = pure r ∧ Bounds a b r := by
  induction ha generalizing b depth with
  | @union left right hl hr _ _ =>
    obtain ⟨depth, rfl⟩ := exists_succ_of_size_le hdepth
    refine ⟨.union (.union left right) b, by cases hb <;> rfl, ?_⟩
    exact bounds_union (.union hl hr) hb nofun
  | @con c as v checks hc has hv ih =>
    obtain ⟨depth, rfl⟩ := exists_succ_of_size_le hdepth
    have ha : (Ty.con c as v checks).Regular := .con checks hc has hv
    cases hb with
    | union hl hr => exact ⟨_, rfl, bounds_union ha (.union hl hr) nofun⟩
    | @con d bs w more hd hbs hw =>
      have hb : (Ty.con d bs w more).Regular := .con more hd hbs hw
      rw [joinTo_con]
      split
      · rename_i hjoined
        obtain ⟨rfl, hclash⟩ := hjoined
        cases ha' with
        | con _ _ hlen has' =>
          cases hb' with
          | con _ _ hlen' hbs' =>
            have hargs : as.length = bs.length := hlen.trans hlen'.symm
            obtain ⟨rs, hrs, hlenrs, hbounds⟩ := exists_joinLists hargs fun x hx y hy =>
              ih x hx (hbs y hy) (has' x hx) (hbs' y hy)
                ((size_le_sizeList hx).trans (Nat.le_of_succ_le_succ hdepth))
            refine ⟨.con c rs v (checks ++ more), ?_, bounds_con ha hclash hargs hlenrs hbounds⟩
            rw [hrs, pure_bind]
      · rename_i hapart
        exact ⟨_, rfl, bounds_union ha hb (not_narrows_con hapart)⟩

/-- The join of two types always ends. It covers the first type; and it covers the second one exactly
if no value on the left is kept where the right has none. -/
theorem join_upper_bound_iff (ha : a.Regular) (hb : b.Regular) (ha' : a.OfArity arity)
    (hb' : b.OfArity arity) :
    ∃ r, a.join b = pure r ∧ r.Regular ∧ a.UsableAs r ∧ (b.UsableAs r ↔ ¬ a.Narrows b) := by
  obtain ⟨r, hr, hbounds⟩ := joinTo_bounds ha hb ha' hb' (Nat.le_add_right a.size b.size)
  have hregular := hbounds.regular
  refine ⟨r, hr, hregular, (ha.usableAs_iff hregular).2 hbounds.left, ?_⟩
  rw [hb.usableAs_iff hregular]
  exact hbounds.right

/-- A pair of a text and the absent value. -/
def textPair : Ty := .tuple [.string, .nil]

/-- The numbers of arguments if all tuples are pairs. -/
def pairArity (c : String) : Nat := if c = "tuple" then 2 else 0

lemma regular_textPair : textPair.Regular :=
  .con [] (by decide) (by simp [string, nil, regular_plain]) nofun

lemma ofArity_con_nil {c : String} (hc : c ≠ "tuple") (v : Option Literal) :
    (Ty.con c [] v []).OfArity pairArity :=
  .con v [] (by simp [pairArity, hc]) (by simp)

theorem join_upper_bound_iff_pairs :
    (optionalPair.Regular ∧ textPair.Regular ∧ optionalPair.OfArity pairArity ∧
      textPair.OfArity pairArity) ∧
      (∃ r, optionalPair.join textPair = pure r ∧ optionalPair.UsableAs r ∧ ¬ textPair.UsableAs r) ∧
      ∃ r, textPair.join optionalPair = pure r ∧ textPair.UsableAs r ∧ optionalPair.UsableAs r := by
  have hstring : Ty.string.OfArity pairArity := ofArity_con_nil (by decide) none
  have hnil : Ty.nil.OfArity pairArity := ofArity_con_nil (by decide) none
  have htext : (literal "string" (.text "a")).OfArity pairArity := ofArity_con_nil (by decide) _
  have hunion : (Ty.union .string .nil).OfArity pairArity := .union hstring hnil
  have hoptional : optionalPair.OfArity pairArity := .con none [] rfl (by simp [htext, hunion])
  have hpair : textPair.OfArity pairArity := .con none [] rfl (by simp [hstring, hnil])
  have hnarrows : optionalPair.Narrows textPair :=
    .arg _ [] [] rfl (i := 0) rfl rfl (.value _ _ _ _ _ _)
  have hbroad : ¬ textPair.Narrows optionalPair := by
    intro h
    cases h with
    | @arg _ _ _ _ _ _ _ i _ _ _ ha hb h =>
      -- the first components are a plain text and a literal one, the second ones no constructors
      match i with
      | 0 =>
        cases ha
        cases hb
        cases h with
        | arg _ _ _ _ ha => simp at ha
      | 1 =>
        cases ha
        cases hb
        cases h
      | i + 2 => simp at ha
  obtain ⟨r, hr, _, hleft, hright⟩ :=
    join_upper_bound_iff regular_optionalPair regular_textPair hoptional hpair
  obtain ⟨r', hr', _, hleft', hright'⟩ :=
    join_upper_bound_iff regular_textPair regular_optionalPair hpair hoptional
  exact ⟨⟨regular_optionalPair, regular_textPair, hoptional, hpair⟩,
    ⟨r, hr, hleft, fun h => hright.1 h hnarrows⟩, r', hr', hleft', hright'.2 hbroad⟩

/-- Joined with all texts, a literal text stays what it is, and not all texts extend it. -/
theorem join_text_string_too_narrow :
    (literal "string" (.text "a")).join string = pure (literal "string" (.text "a")) ∧
      ∀ k, outcome (string.fits (literal "string" (.text "a"))) k = (.ok false, k) :=
  ⟨rfl, fun _ => rfl⟩

end LuaTyping.Ty
