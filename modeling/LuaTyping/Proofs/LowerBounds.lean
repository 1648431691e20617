import LuaTyping.Proofs.Preorder
import LuaTyping.Proofs.Scalars

set_option autoImplicit false

/-!
# Meets as lower bounds

The meet of two types is to be what both allow. For unions of numbers, texts and the absent value it
is one alternative of one of the two types: a type that is no union is its own meet with each type in
which its name occurs, and of two types the first of which is a union it is the first alternative of
the second one whose name occurs in the first. Literal values are not compared, and alternatives
after the first one are lost. So two types without a meet have nothing below both, but a meet is
their greatest lower bound only if it is below both and all their common alternatives are below it.

## Main definitions

* `Ty.Basic` — unions of numbers, texts and the absent value.
* `Ty.kept` — the alternative that the meet of two types is.
* `Ty.IsMeet` — a greatest lower bound among these types.

## Main results

* `Ty.Basic.isMeet_iff` — greatest lower bounds by alternatives.
* `Ty.meet_greatest_lower_bound_iff` — when the meet is the greatest lower bound.
-/

namespace LuaTyping.Ty

variable {a b c r : Ty}

/-! ## The types -/

/-- The names of numbers, texts and the absent value. -/
def basicNames : List String := ["number", "string", "nil"]

/-- A union, however nested, of types of numbers, texts and the absent value, with or without a
literal value that suits. -/
inductive Basic : Ty → Prop
  | con {n : String} {v : Option Literal} (checks : List Checked) :
      n ∈ basicNames → (∀ x, v = some x → x.Suits n) → Basic (.con n [] v checks)
  | union {left right : Ty} : Basic left → Basic right → Basic (.union left right)

namespace Basic

lemma scalar (h : a.Basic) : a.Scalar := by
  induction h with
  | con checks hn hv =>
    refine .con checks ?_ fun x hx => (hv x hx).1.equal_self
    simp only [basicNames, scalarNames, List.mem_cons] at hn ⊢
    tauto
  | union _ _ ihl ihr => exact .union ihl ihr

lemma regular (h : a.Basic) : a.Regular := by
  induction h with
  | con checks hn hv =>
    refine .con checks ?_ (by simp) hv
    rintro rfl
    simp [basicNames] at hn
  | union _ _ ihl ihr => exact .union ihl ihr

lemma mem (h : a.Basic) (hc : c ∈ a.members) : c.Basic := by
  induction h with
  | con checks hn hv =>
    obtain rfl := List.mem_singleton.1 hc
    exact .con checks hn hv
  | union _ _ ihl ihr => exact (List.mem_append.1 hc).elim ihl ihr

lemma usableAs_iff (ha : a.Basic) (hb : b.Basic) : a.UsableAs b ↔ Under a b :=
  ha.regular.usableAs_iff hb.regular

end Basic

/-! ## The alternative that is kept -/

/-- Whether two types are constructors of one name. -/
def sameName : Ty → Ty → Bool
  | .con c _ _ _, .con d _ _ _ => c == d
  | _, _ => false

/-- The alternative that the meet of two types keeps. It is found by the first alternative of the
second type whose name occurs in the first one: this alternative if the first type is a union, and
the first type otherwise. -/
def kept (a b : Ty) : Option Ty :=
  (b.members.find? fun q => a.members.any q.sameName).map fun q =>
    match a with
    | .union _ _ => q
    | _ => a

/-- A type without the checks of its constructor. -/
def forgetChecks : Ty → Ty
  | .con c args v _ => .con c args v []
  | t => t

lemma map_findSome? {α β γ : Type} {f : α → Option β} {p : α → Bool} {g : β → γ} {h : α → γ}
    {l : List α} (hf : ∀ x ∈ l, (f x).map g = if p x then some (h x) else none) :
    (l.findSome? f).map g = (l.find? p).map h := by
  induction l with
  | nil => rfl
  | cons x l ih =>
    have hx := hf x (by simp)
    have ih := ih fun y hy => hf y (List.mem_cons_of_mem _ hy)
    cases hp : p x with
    | true =>
      rw [hp, if_pos rfl] at hx
      obtain ⟨y, hy, hg⟩ := Option.map_eq_some_iff.1 hx
      simp [hy, hp, hg]
    | false =>
      rw [hp, if_neg Bool.false_ne_true, Option.map_eq_none_iff] at hx
      simp [hx, hp, ih]

namespace Basic

/-- The meet is the alternative that is kept, with checks of both types.

**Proof sketch.** Alternative by alternative of the second type: one whose name does not occur in the
first type has no meet with it, and any other has the meet that is kept. -/
lemma map_firstMeet (ha : a.Basic) (hb : b.Basic) :
    (a.firstMeet b).map forgetChecks = (a.kept b).map forgetChecks := by
  rw [firstMeet, kept, Option.map_map]
  refine map_findSome? fun q hq => ?_
  obtain ⟨d, w, more, rfl, _⟩ := hb.scalar.exists_con_of_mem hq
  rw [meetOne]
  cases ha with
  | @con n v checks _ _ =>
    by_cases hd : n = d
    · simp [meetCon, members, sameName, forgetChecks, hd]
    · simp [meetCon, members, sameName, hd, Ne.symm hd]
  | @union left right hl hr =>
    -- an alternative of the first type is named `d` exactly if it has the same name
    have hnames : ∀ p ∈ (Ty.union left right).members,
        p.isNamed d = (Ty.con d [] w more).sameName p := by
      intro p hp
      obtain ⟨n, v, checks, rfl, _⟩ := (hl.union hr).scalar.exists_con_of_mem hp
      exact Bool.beq_comm
    have hfind : (Ty.union left right).members.find? (isNamed d) =
        (Ty.union left right).members.find? (Ty.con d [] w more).sameName :=
      List.find?_congr hnames
    rw [meetCon, hfind, Option.map_map]
    split
    · rename_i hany
      obtain ⟨p, hp⟩ := Option.isSome_iff_exists.1 (List.find?_isSome.2 (List.any_eq_true.1 hany))
      rw [hp]
      rfl
    · rename_i hany
      rw [Bool.not_eq_true, List.any_eq_false] at hany
      rw [List.find?_eq_none.2 hany]
      rfl

lemma of_forgetChecks (ha : a.Basic) (h : r.forgetChecks = a.forgetChecks) : r.Basic := by
  cases ha with
  | con checks hn hv =>
    cases r with
    | con n args v more =>
      obtain ⟨rfl, rfl, rfl, _⟩ := Ty.con.inj h
      exact .con more hn hv
    | var | table | union | all => cases h
  | union hl hr =>
    cases r with
    | union left right =>
      cases h
      exact .union hl hr
    | var | con | table | all => cases h

lemma of_kept (ha : a.Basic) (hb : b.Basic) (h : a.kept b = some c) : c.Basic := by
  obtain ⟨q, hq, rfl⟩ := Option.map_eq_some_iff.1 h
  cases ha with
  | con checks hn hv => exact .con checks hn hv
  | union => exact hb.mem (List.mem_of_find?_eq_some hq)

lemma of_firstMeet (ha : a.Basic) (hb : b.Basic) (h : a.firstMeet b = some r) : r.Basic := by
  have hmap := ha.map_firstMeet hb
  rw [h] at hmap
  obtain ⟨c, hc, heq⟩ := Option.map_eq_some_iff.1 hmap.symm
  exact (ha.of_kept hb hc).of_forgetChecks heq.symm

end Basic

/-! ## Greatest lower bounds -/

/-- A type is the greatest lower bound of two types: what extends it is what extends both. -/
def IsMeet (a b r : Ty) : Prop := ∀ c : Ty, c.Basic → (c.UsableAs r ↔ c.UsableAs a ∧ c.UsableAs b)

lemma Regular.under_of_mem (h : a.Regular) (hc : c ∈ a.members) : Under c a := by
  induction h with
  | con checks hn hargs hv =>
    obtain rfl := List.mem_singleton.1 hc
    exact under_self (.con checks hn hargs hv)
  | union _ _ ihl ihr => exact (List.mem_append.1 hc).elim (.left _ <| ihl ·) (.right _ <| ihr ·)

/-- Of two constructors without arguments that a third one extends, one extends the other. -/
lemma comparable_of_under {n m l : String} {u v w : Option Literal}
    {checks more others : List Checked} (hv : Under (.con n [] u checks) (.con m [] v more))
    (hw : Under (.con n [] u checks) (.con l [] w others)) :
    Under (.con m [] v more) (.con l [] w others) ∨
      Under (.con l [] w others) (.con m [] v more) := by
  obtain ⟨rfl, hv, _⟩ := under_con_iff.1 hv
  obtain ⟨rfl, hw, _⟩ := under_con_iff.1 hw
  have hboth : Literal.serves v w = true ∨ Literal.serves w v = true := by
    cases v with
    | none => exact .inr rfl
    | some y =>
      cases w with
      | none => exact .inl rfl
      | some z =>
        -- both values equal that of the third constructor
        obtain ⟨x, rfl, hxy⟩ := (Option.any_eq_true _ _).1 hv
        have hyx : y.equal x = true := (Literal.equal_comm y x).trans hxy
        have hzx : z.equal x = true := (Literal.equal_comm z x).trans hw
        exact .inl (Literal.equal_of_equal hyx hzx)
  exact hboth.imp (.con _ _ _ · rfl (by simp)) (.con _ _ _ · rfl (by simp))

namespace Basic

variable (ha : a.Basic) (hb : b.Basic)
include ha hb

/-- What extends two types extends two of their alternatives, of which one extends the other. -/
lemma exists_mem_of_under {n : String} {v : Option Literal} {checks : List Checked}
    (hca : Under (.con n [] v checks) a) (hcb : Under (.con n [] v checks) b) :
    ∃ p ∈ a.members, ∃ q ∈ b.members, Under (.con n [] v checks) p ∧
      Under (.con n [] v checks) q ∧ (Under p q ∨ Under q p) := by
  obtain ⟨p, hp, hcp⟩ := (under_iff_exists_members ha.regular.simple).1 hca
  obtain ⟨q, hq, hcq⟩ := (under_iff_exists_members hb.regular.simple).1 hcb
  obtain ⟨_, _, _, rfl, _⟩ := ha.scalar.exists_con_of_mem hp
  obtain ⟨_, _, _, rfl, _⟩ := hb.scalar.exists_con_of_mem hq
  exact ⟨_, hp, _, hq, hcp, hcq, comparable_of_under hcp hcq⟩

/-- A type is the greatest lower bound of two types if it extends both, and if of any two of their
alternatives one of which extends the other, this one extends it.

**Proof sketch.** Any alternative of a common lower bound extends an alternative of each type. Both
have its name, and if both have a value, it is equal to its value. So one of them extends the other,
and this one extends the type. -/
theorem isMeet_iff (hr : r.Basic) :
    IsMeet a b r ↔ r.UsableAs a ∧ r.UsableAs b ∧ ∀ p ∈ a.members, ∀ q ∈ b.members,
      (p.UsableAs q → p.UsableAs r) ∧ (q.UsableAs p → q.UsableAs r) := by
  constructor
  · intro h
    obtain ⟨hra, hrb⟩ := (h r hr).1 ((hr.usableAs_iff hr).2 hr.regular.under_self)
    refine ⟨hra, hrb, fun p hp q hq => ?_⟩
    have hbp := ha.mem hp
    have hbq := hb.mem hq
    have hpa : Under p a := ha.regular.under_of_mem hp
    have hqb : Under q b := hb.regular.under_of_mem hq
    rw [h p hbp, h q hbq, hbp.usableAs_iff ha, hbp.usableAs_iff hb, hbq.usableAs_iff ha,
      hbq.usableAs_iff hb, hbp.usableAs_iff hbq, hbq.usableAs_iff hbp]
    exact ⟨fun hpq => ⟨hpa, hpq.trans hqb⟩, fun hqp => ⟨hqp.trans hpa, hqb⟩⟩
  · rintro ⟨hra, hrb, hall⟩ c hc
    rw [hr.usableAs_iff ha] at hra
    rw [hr.usableAs_iff hb] at hrb
    rw [hc.usableAs_iff hr, hc.usableAs_iff ha, hc.usableAs_iff hb]
    refine ⟨fun h => ⟨h.trans hra, h.trans hrb⟩, ?_⟩
    rintro ⟨hca, hcb⟩
    induction hc with
    | union _ _ ihl ihr =>
      obtain ⟨hla, hra⟩ := under_union_left_iff.1 hca
      obtain ⟨hlb, hrb⟩ := under_union_left_iff.1 hcb
      exact .union (ihl hla hlb) (ihr hra hrb)
    | con =>
      obtain ⟨p, hp, q, hq, hcp, hcq, hpq⟩ := exists_mem_of_under ha hb hca hcb
      have hbp := ha.mem hp
      have hbq := hb.mem hq
      have hsmaller := hall p hp q hq
      rw [hbp.usableAs_iff hbq, hbq.usableAs_iff hbp, hbp.usableAs_iff hr,
        hbq.usableAs_iff hr] at hsmaller
      exact hpq.elim (hcp.trans <| hsmaller.1 ·) (hcq.trans <| hsmaller.2 ·)

/-- Types without a meet have no common lower bound. -/
lemma not_usableAs_of_firstMeet (h : a.firstMeet b = none) (hc : c.Basic) :
    ¬ (c.UsableAs a ∧ c.UsableAs b) := by
  rw [hc.usableAs_iff ha, hc.usableAs_iff hb]
  rintro ⟨hca, hcb⟩
  induction hc with
  | union _ _ ihl _ => exact ihl (under_union_left_iff.1 hca).1 (under_union_left_iff.1 hcb).1
  | con =>
    obtain ⟨p, hp, q, hq, hcp, hcq, _⟩ := exists_mem_of_under ha hb hca hcb
    obtain ⟨_, _, _, rfl, _⟩ := ha.scalar.exists_con_of_mem hp
    obtain ⟨_, _, _, rfl, _⟩ := hb.scalar.exists_con_of_mem hq
    obtain ⟨rfl, _⟩ := under_con_iff.1 hcp
    obtain ⟨rfl, _⟩ := under_con_iff.1 hcq
    -- both alternatives have one name, so there is a meet
    have hnone := List.findSome?_eq_none_iff.1 h _ hq
    rw [meetOne, ← Option.not_isSome_iff_eq_none, ha.scalar.isSome_meetCon_iff] at hnone
    exact hnone ⟨_, hp, beq_self_eq_true _⟩

end Basic

/-- The meet of two unions of numbers, texts and absent values always ends. It is the alternative
that is kept, with checks of both. If there is none, then no type extends both; and a meet is their
greatest lower bound exactly if it extends both, and if of any two of their alternatives one of which
extends the other, this one extends the meet. -/
theorem meet_greatest_lower_bound_iff (ha : a.Basic) (hb : b.Basic) :
    ∃ m, a.meet b = pure m ∧ m.map forgetChecks = (a.kept b).map forgetChecks ∧
      (m = none → ∀ c : Ty, c.Basic → ¬ (c.UsableAs a ∧ c.UsableAs b)) ∧
      ∀ r, m = some r → r.Basic ∧
        (IsMeet a b r ↔ r.UsableAs a ∧ r.UsableAs b ∧ ∀ p ∈ a.members, ∀ q ∈ b.members,
          (p.UsableAs q → p.UsableAs r) ∧ (q.UsableAs p → q.UsableAs r)) := by
  refine ⟨a.firstMeet b, ha.scalar.meetTo_firstMeet hb.scalar _ le_rfl, ha.map_firstMeet hb,
    fun h c hc => ha.not_usableAs_of_firstMeet hb h hc, fun r h => ?_⟩
  have hr : r.Basic := ha.of_firstMeet hb h
  exact ⟨hr, ha.isMeet_iff hb hr⟩

lemma basic_plain {n : String} (hn : n ∈ basicNames) : (plain n).Basic := .con [] hn nofun

lemma basic_text (s : String) : (literal "string" (.text s)).Basic :=
  .con [] (by decide) fun _ hx => Option.some.inj hx ▸ ⟨trivial, fun _ _ => by decide⟩

/-- The meet of an optional text with a literal text is their greatest lower bound; with an
alternative more on both sides, it is not. -/
theorem meet_greatest_lower_bound_iff_texts :
    let text := literal "string" (.text "a")
    ((Ty.union string nil).Basic ∧ text.Basic ∧ (Ty.union string number).Basic ∧
      (Ty.union text number).Basic) ∧
      (∃ r, (Ty.union string nil).meet text = pure (some r) ∧ IsMeet (.union string nil) text r) ∧
      ∃ r, (Ty.union string number).meet (.union text number) = pure (some r) ∧
        ¬ IsMeet (.union string number) (.union text number) r := by
  intro text
  have htext : text.Basic := basic_text "a"
  have hstring : string.Basic := basic_plain (by decide)
  have hnumber : number.Basic := basic_plain (by decide)
  have hoptional : (Ty.union string nil).Basic := .union hstring (basic_plain (by decide))
  have hleft : (Ty.union string number).Basic := .union hstring hnumber
  have hright : (Ty.union text number).Basic := .union htext hnumber
  refine ⟨⟨hoptional, htext, hleft, hright⟩, ⟨text, rfl, ?_⟩, text, rfl, ?_⟩
  · obtain ⟨m, hm, _, _, hiff⟩ := meet_greatest_lower_bound_iff hoptional htext
    obtain rfl : some text = m := Except.ok.inj (congrArg (fun x => (outcome x []).1) hm)
    have hself : text.UsableAs text := (htext.usableAs_iff htext).2 htext.regular.under_self
    have hbelow : text.UsableAs (.union string nil) :=
      (htext.usableAs_iff hoptional).2 (.left _ (.con _ _ _ rfl rfl (by simp)))
    refine (hiff text rfl).2.2 ⟨hbelow, hself, fun p _ q hq => ?_⟩
    obtain rfl := List.mem_singleton.1 hq
    exact ⟨id, fun _ => hself⟩
  · obtain ⟨m, hm, _, _, hiff⟩ := meet_greatest_lower_bound_iff hleft hright
    obtain rfl : some text = m := Except.ok.inj (congrArg (fun x => (outcome x []).1) hm)
    rw [(hiff text rfl).2]
    rintro ⟨_, _, hall⟩
    -- numbers are allowed on both sides, and are no texts
    have hself : number.UsableAs number :=
      (hnumber.usableAs_iff hnumber).2 hnumber.regular.under_self
    have hshared : ∀ t : Ty, number ∈ (Ty.union t number).members := fun _ =>
      List.mem_append_right _ (List.mem_singleton_self _)
    have hlost := (hall number (hshared _) number (hshared _)).1 hself
    exact absurd (under_con_iff.1 ((hnumber.usableAs_iff htext).1 hlost)).1 (by decide)

/-- The meet of two different literal texts is the first one, which does not extend the second. -/
theorem meet_texts_not_below :
    (literal "string" (.text "a")).meet (literal "string" (.text "b")) =
        pure (some (literal "string" (.text "a"))) ∧
      ∀ k, outcome ((literal "string" (.text "a")).fits (literal "string" (.text "b"))) k =
        (.ok false, k) :=
  ⟨rfl, fun _ => rfl⟩

end LuaTyping.Ty
