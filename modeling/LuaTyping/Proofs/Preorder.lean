import LuaTyping.Proofs.Kinds

set_option autoImplicit false

/-!
# Extension as a preorder

On closed types without tables and functions whose literal values are numbers and texts, the test
whether one type can be used where another is wanted always answers, and it is a preorder with the
union of two types as their least upper bound.

A constructor named `number` must not have a text as its value. Such a type has no text, so that the
test breaks off where it has to say why a number does not extend it, even if it extends another
alternative.

## Main definitions

* `Literal.Proper` — numbers and texts.
* `Ty.Valued` — types with a condition on their literal values.
* `Ty.Regular` — types with proper values, numbers with numbers only.
* `Ty.UsableAs` — the test says yes.

## Main results

* `Ty.Regular.fits_sat` — the test decides the order.
* `Ty.usableAs_preorder` — the test is a preorder with unions as joins.
-/

namespace LuaTyping

/-! ## Types with literal values -/

namespace Literal

/-- A number, or a text. -/
def Proper : Literal → Prop
  | number d => d ≠ .notANumber
  | text _ => True
  | flag _ => False

/-- A value of a constructor: a number or a text, and no text if the constructor is `number`. -/
def Suits (c : String) (x : Literal) : Prop :=
  x.Proper ∧ ∀ s, x = text s → c ≠ "number"

lemma Proper.equal_self {x : Literal} (h : x.Proper) : x.equal x = true := by
  cases x with
  | number d =>
    cases d with
    | finite | infinite => simp [equal, number?, Binary64.equal]
    | notANumber => exact absurd rfl h
  | text s => exact beq_self_eq_true s
  | flag => exact h.elim

end Literal

namespace Ty

variable {a b c : Ty} {p : String → Literal → Prop}

/-- A closed type without tables and functions, with a condition on each literal value and the name
of its constructor. -/
inductive Valued (p : String → Literal → Prop) : Ty → Prop
  | con {n : String} {args : List Ty} {v : Option Literal} (checks : List Checked) :
      n ≠ "function" → (∀ t ∈ args, Valued p t) → (∀ x, v = some x → p n x) →
      Valued p (.con n args v checks)
  | union {left right : Ty} : Valued p left → Valued p right → Valued p (.union left right)

/-- A closed type without tables and functions whose values are numbers or texts, those of numbers
being numbers. -/
abbrev Regular : Ty → Prop := Valued Literal.Suits

lemma Valued.simple (h : a.Valued p) : a.Simple := by
  induction h with
  | con _ hn _ _ ih => exact .con hn ih
  | union _ _ ihl ihr => exact .union ihl ihr

namespace Regular

lemma trueless (h : a.Regular) : a.Trueless := by
  induction h with
  | con _ _ _ hv ih =>
    refine .con ih ?_ fun s hs => (hv _ hs).2 s rfl
    rintro rfl
    exact (hv _ rfl).1
  | union _ _ ihl ihr => exact .union ihl ihr

lemma under_self (h : a.Regular) : Under a a := by
  induction h with
  | con checks _ _ hv ih =>
    refine .con _ _ _ (Literal.serves_self fun x hx => (hv x hx).1.equal_self) rfl ?_
    intro i x y hx hy
    cases hx.symm.trans hy
    exact ih x (List.mem_of_getElem? hx)
  | union _ _ ihl ihr => exact .union (.left _ ihl) (.right _ ihr)

end Regular

/-! ## The test -/

/-- The test says that one type can be used where another one is wanted, whatever letters have been
given. -/
def UsableAs (a b : Ty) : Prop := (a.fits b).Sat (· = true) fun _ => False

/-- The test decides the order, and does not break off.

**Proof sketch.** The unification of types without the value `true` does not break off, and where it
returns it succeeds exactly if the first type extends the second. -/
theorem Regular.fits_sat (ha : a.Regular) (hb : b.Regular) :
    (a.fits b).Sat (fun yes => yes = true ↔ Under a b) fun _ => False := by
  have hunify : (unify a b).Sat (fun u => u.succeeds = true ↔ Under a b) fun _ => False :=
    (unify_unchanged ha.simple ha.trueless.args hb.simple hb.trueless).imp_of_eq_ok
      fun _ _ _ h => succeeds_iff_under ha.simple hb.simple h
  rw [fits_eq ha.simple hb.simple]
  exact hunify.bind fun _ hu => .pure hu

lemma Regular.usableAs_iff (ha : a.Regular) (hb : b.Regular) : a.UsableAs b ↔ Under a b := by
  have hsat := ha.fits_sat hb
  constructor
  · intro h
    obtain ⟨yes, k, hyes, hiff⟩ := hsat.exists_ok []
    exact hiff.1 (h.of_eq_ok hyes)
  · intro h
    exact hsat.imp (fun _ hiff => hiff.2 h) fun _ hf => hf

lemma Regular.exists_answer (ha : a.Regular) (hb : b.Regular) :
    ∃ yes, (a.fits b).Sat (· = yes) fun _ => False := by
  classical
  refine ⟨decide (Under a b), (ha.fits_sat hb).imp (fun yes hiff => ?_) fun _ hf => hf⟩
  rw [Bool.eq_iff_iff, hiff, decide_eq_true_iff]

/-- On types with proper values the test always answers, and it is a preorder in which the union of
two types is their least upper bound. -/
theorem usableAs_preorder (ha : a.Regular) (hb : b.Regular) (hc : c.Regular) :
    (∃ yes, (a.fits b).Sat (· = yes) fun _ => False) ∧
      a.UsableAs a ∧
      (a.UsableAs b → b.UsableAs c → a.UsableAs c) ∧
      ((Ty.union a b).UsableAs c ↔ a.UsableAs c ∧ b.UsableAs c) ∧
      a.UsableAs (.union a b) ∧ b.UsableAs (.union a b) := by
  have hab : (Ty.union a b).Regular := .union ha hb
  refine ⟨ha.exists_answer hb, (ha.usableAs_iff ha).2 ha.under_self, ?_, ?_, ?_, ?_⟩
  · rw [ha.usableAs_iff hb, hb.usableAs_iff hc, ha.usableAs_iff hc]
    exact Under.trans
  · rw [hab.usableAs_iff hc, ha.usableAs_iff hc, hb.usableAs_iff hc]
    exact under_union_left_iff
  · exact (ha.usableAs_iff hab).2 (.left _ ha.under_self)
  · exact (hb.usableAs_iff hab).2 (.right _ hb.under_self)

/-- A pair of a literal text and a type that may be absent. -/
def optionalPair : Ty := .tuple [.literal "string" (.text "a"), .union .string .nil]

lemma regular_plain {n : String} (hn : n ≠ "function") : (plain n).Regular :=
  .con [] hn (by simp) nofun

lemma regular_text (s : String) : (literal "string" (.text s)).Regular :=
  .con [] (by decide) (by simp) fun _ hx => Option.some.inj hx ▸ ⟨trivial, fun _ _ => by decide⟩

lemma regular_optionalPair : optionalPair.Regular := by
  refine .con [] (by decide) ?_ nofun
  have hunion : (Ty.union .string .nil).Regular :=
    .union (regular_plain (by decide)) (regular_plain (by decide))
  simp [regular_text, hunion]

theorem usableAs_preorder_optionalPair :
    optionalPair.Regular ∧ nil.Regular ∧ number.Regular ∧
      optionalPair.UsableAs (.union (.union optionalPair nil) number) ∧
      ((Ty.union optionalPair nil).UsableAs (.union optionalPair nil) ↔
        optionalPair.UsableAs (.union optionalPair nil) ∧ nil.UsableAs (.union optionalPair nil)) := by
  have hpair := regular_optionalPair
  have hnil : nil.Regular := regular_plain (by decide)
  have hnumber : number.Regular := regular_plain (by decide)
  have hunion : (Ty.union optionalPair nil).Regular := .union hpair hnil
  obtain ⟨_, _, _, hjoin, hleft, _⟩ := usableAs_preorder hpair hnil hunion
  have hmiddle := (usableAs_preorder hunion hnumber hunion).2.2.2.2.1
  exact ⟨hpair, hnil, hnumber,
    (usableAs_preorder hpair hunion (.union hunion hnumber)).2.2.1 hleft hmiddle, hjoin⟩

/-- The type of a number that has a text as its value. -/
def textNumber : Ty := .literal "number" (.text "x")

/-- A number does not extend its union with a number that has a text as its value: the test breaks
off when it shows this type. -/
theorem number_not_usableAs_union_textNumber :
    number.Valued (fun _ => Literal.Proper) ∧ textNumber.Valued (fun _ => Literal.Proper) ∧
      (∀ k, outcome (number.fits (.union number textNumber)) k = (.error .wrongKind, k)) ∧
      ¬ number.UsableAs (.union number textNumber) := by
  have hbreaks : ∀ k,
      outcome (number.fits (.union number textNumber)) k = (.error .wrongKind, k) := fun _ => rfl
  refine ⟨.con [] (by decide) (by simp) nofun, ?_, hbreaks, fun h => ?_⟩
  · exact .con [] (by decide) (by simp) fun _ hx => Option.some.inj hx ▸ trivial
  · obtain ⟨yes, k, hyes, _⟩ := h.exists_ok []
    exact nomatch (hbreaks []).symm.trans hyes

end Ty

end LuaTyping
