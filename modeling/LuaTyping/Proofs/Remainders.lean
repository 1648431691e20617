import LuaTyping.Types.Join
import LuaTyping.Proofs.Preorder

set_option autoImplicit false

/-!
# What is left of a union

To subtract one type from another is to drop the alternatives that extend it. The recursion tests
whole branches of a union before it looks inside, drops one branch and goes on with the other; all
the same, what is left is a filter of the list of alternatives. If all of them extend the subtracted
type, the last one stays, as a union without alternatives is no type.

## Main definitions

* `Ty.remaining` — a list without its covered entries, or its last entry.

## Main results

* `Ty.subtract_members` — which alternatives are left.
-/

namespace LuaTyping.Ty

variable {a b : Ty}

/-! ## Filters that leave something -/

/-- The entries of a list that are not covered, or the last entry if all of them are. -/
def remaining (covered : Ty → Bool) (ts : List Ty) : List Ty :=
  if ts.all covered then ts.getLast?.toList else ts.filter fun t => !covered t

section Remaining

variable {covered : Ty → Bool} {ts us : List Ty}

lemma remaining_singleton (t : Ty) : remaining covered [t] = [t] := by
  cases h : covered t <;> simp [remaining, h]

lemma remaining_append_of_left (hts : ts.all covered = true) (hus : us ≠ []) :
    remaining covered (ts ++ us) = remaining covered us := by
  have hfilter : ts.filter (fun t => !covered t) = [] := by
    simpa [List.filter_eq_nil_iff] using hts
  rw [remaining, remaining, List.all_append, hts, Bool.true_and,
    List.getLast?_append_of_ne_nil _ hus, List.filter_append, hfilter, List.nil_append]

lemma remaining_append_of_right (hts : ts.all covered = false) (hus : us.all covered = true) :
    remaining covered (ts ++ us) = remaining covered ts := by
  have hfilter : us.filter (fun t => !covered t) = [] := by
    simpa [List.filter_eq_nil_iff] using hus
  simp [remaining, hts, hfilter]

lemma remaining_append (hts : ts.all covered = false) (hus : us.all covered = false) :
    remaining covered (ts ++ us) = remaining covered ts ++ remaining covered us := by
  simp [remaining, hts, hus]

end Remaining

/-! ## Alternatives -/

lemma members_ne_nil (t : Ty) : t.members ≠ [] := by
  induction t using members.induct with
  | case1 left right ihl ihr => simp [members, ihl]
  | case2 t h => simp [members]

lemma Valued.mem {p : String → Literal → Prop} {t : Ty} (h : a.Valued p) (ht : t ∈ a.members) :
    t.Valued p := by
  induction h with
  | con checks hn hargs hv =>
    obtain rfl := List.mem_singleton.1 ht
    exact .con checks hn hargs hv
  | union _ _ ihl ihr => exact (List.mem_append.1 ht).elim ihl ihr

lemma Regular.under_iff_members (ha : a.Regular) : Under a b ↔ ∀ t ∈ a.members, Under t b := by
  induction ha with
  | con => simp [members]
  | union _ _ ihl ihr => simp [members, under_union_left_iff, ihl, ihr, or_imp, forall_and]

/-- The test of a type puts the answers for its alternatives together.

**Proof sketch.** Both sides say whether the type extends the other one: the answer itself, since
the test decides the order, and the answers for the alternatives, since a type extends another one
exactly if all its alternatives do. -/
lemma Regular.fits_members (ha : a.Regular) (hb : b.Regular) {covered : Ty → Bool}
    (hcovered : ∀ t ∈ a.members, covered t = true ↔ Under t b) :
    (a.fits b).Sat (· = a.members.all covered) fun _ => False := by
  refine (ha.fits_sat hb).imp (fun yes hyes => ?_) fun _ h => h
  rw [Bool.eq_iff_iff, hyes, ha.under_iff_members, List.all_eq_true]
  exact forall₂_congr fun t ht => (hcovered t ht).symm

/-! ## The difference -/

/-- What is left of a type is its list of alternatives without those that extend the other type.

**Proof sketch.** By induction on the unions. If the left branch is covered, the result is what is
left of the right one, which also gives the last alternative if both are covered; if only the right
branch is, it is what is left of the left one; and otherwise it is both parts. -/
lemma Regular.subtract_sat (ha : a.Regular) (hb : b.Regular) {covered : Ty → Bool}
    (hcovered : ∀ t ∈ a.members, covered t = true ↔ Under t b) :
    (a.subtract b).Sat (fun r => r.members = remaining covered a.members) fun _ => False := by
  induction ha with
  | con =>
    simp only [subtract, members, remaining_singleton]
    exact .pure rfl
  | @union left right hl hr ihl ihr =>
    have hcl : ∀ t ∈ left.members, covered t = true ↔ Under t b :=
      fun t ht => hcovered t (List.mem_append_left _ ht)
    have hcr : ∀ t ∈ right.members, covered t = true ↔ Under t b :=
      fun t ht => hcovered t (List.mem_append_right _ ht)
    rw [subtract, members]
    refine (Regular.fits_members hl hb hcl).bind fun yes hleft =>
      .ite (fun hyes => ?_) fun hno => ?_
    · rw [remaining_append_of_left (hleft.symm.trans hyes) right.members_ne_nil]
      exact ihr hcr
    have hleft : left.members.all covered = false := by
      rw [← hleft]
      exact Bool.eq_false_of_not_eq_true hno
    refine (Regular.fits_members hr hb hcr).bind fun yes hright =>
      .ite (fun hyes => ?_) fun hno => ?_
    · rw [remaining_append_of_right hleft (hright.symm.trans hyes)]
      exact ihl hcl
    · have hright : right.members.all covered = false := by
        rw [← hright]
        exact Bool.eq_false_of_not_eq_true hno
      rw [remaining_append hleft hright]
      refine (ihl hcl).bind fun r hr => (ihr hcr).bind fun r' hr' => .pure ?_
      rw [members, hr, hr']

/-- The alternatives of a difference, from left to right, are those of the first type that do not
extend the second one, or the last one if all of them do. -/
theorem subtract_members (ha : a.Regular) (hb : b.Regular) :
    ∃ covered : Ty → Bool,
      (∀ t ∈ a.members, (t.fits b).Sat (· = covered t) fun _ => False) ∧
        (a.subtract b).Sat (fun r => r.members = remaining covered a.members) fun _ => False := by
  classical
  have hcovered : ∀ t ∈ a.members, decide (Under t b) = true ↔ Under t b :=
    fun t _ => decide_eq_true_iff
  refine ⟨fun t => decide (Under t b), fun t ht => ?_, ha.subtract_sat hb hcovered⟩
  exact (Regular.fits_sat (ha.mem ht) hb).imp
    (fun yes hyes => Bool.eq_iff_iff.2 (hyes.trans decide_eq_true_iff.symm)) fun _ h => h

/-- A union of numbers, a literal text, texts and the absent value. -/
def mixedUnion : Ty :=
  .union (.union number (literal "string" (.text "a"))) (.union string nil)

theorem subtract_members_mixedUnion :
    mixedUnion.Regular ∧ string.Regular ∧
      (mixedUnion.subtract string).Sat (fun r => r.members = [number, nil]) fun _ => False := by
  have hmixed : mixedUnion.Regular :=
    .union (.union (regular_plain (by decide)) (regular_text "a"))
      (.union (regular_plain (by decide)) (regular_plain (by decide)))
  have hstring : string.Regular := regular_plain (by decide)
  have hmembers : mixedUnion.members = [number, literal "string" (.text "a"), string, nil] := rfl
  obtain ⟨covered, hfits, hsubtract⟩ := subtract_members hmixed hstring
  rw [hmembers] at hfits hsubtract
  obtain ⟨hnumber, htext, hstrings, hnil⟩ :
      covered number = false ∧ covered (literal "string" (.text "a")) = true ∧
        covered string = true ∧ covered nil = false :=
    ⟨((hfits _ (by simp)).of_eq_ok (l := []) rfl).symm,
      ((hfits _ (by simp)).of_eq_ok (l := []) rfl).symm,
      ((hfits _ (by simp)).of_eq_ok (l := []) rfl).symm,
      ((hfits _ (by simp)).of_eq_ok (l := []) rfl).symm⟩
  refine ⟨hmixed, hstring, hsubtract.imp (fun r hr => hr.trans ?_) fun _ h => h⟩
  simp [remaining, hnumber, htext, hstrings, hnil]

/-- A number that has a text as its value cannot be subtracted from a union with numbers, even as
one alternative of a union that covers them: the test breaks off when it shows this type. -/
theorem subtract_union_textNumber :
    (union number nil).Valued (fun _ => Literal.Proper) ∧
      (union number textNumber).Valued (fun _ => Literal.Proper) ∧
      ∀ k, outcome ((union number nil).subtract (.union number textNumber)) k =
        (.error .wrongKind, k) := by
  have hplain : ∀ n, n ≠ "function" → (plain n).Valued (fun _ => Literal.Proper) :=
    fun n hn => .con [] hn (by simp) nofun
  refine ⟨.union (hplain _ (by decide)) (hplain _ (by decide)),
    .union (hplain _ (by decide)) ?_, fun _ => rfl⟩
  exact .con [] (by decide) (by simp) fun _ hx => Option.some.inj hx ▸ trivial

end LuaTyping.Ty
