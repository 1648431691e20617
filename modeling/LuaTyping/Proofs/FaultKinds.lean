import LuaTyping.Proofs.Acceptance

set_option autoImplicit false

/-!
# How a check can break off

A check should end in a type or in a report about the program. It can also break off at a fault,
where it met something that it was not made for. This file says which kinds of faults programs can
bring about: a fault of each of five kinds is met on some text, and faults of the other kinds on
none, since what they are about cannot be written and never turns up in the types of a check.

## Main definitions

* `Fault.Kind`, `Fault.kind` — the kinds of faults.
* `Regime.readable` — what occurs in the types of a check of a text.

## Main results

* `Check.infer_written_fault` — the kinds of faults that written trees can bring about.
* `Check.exists_parsed_fault_iff` — the kinds of faults that texts do bring about.
-/

namespace LuaTyping

/-- The kinds of faults. -/
inductive Fault.Kind where
  | unmet | unknownType | notImplemented | outOfRange | unboundName | noComponents | wrongKind
  | endless
  deriving DecidableEq, Repr

/-- The kind of a fault. -/
def Fault.kind : Fault → Fault.Kind
  | .unmet => .unmet
  | .unknownType _ => .unknownType
  | .notImplemented _ => .notImplemented
  | .outOfRange => .outOfRange
  | .unboundName _ => .unboundName
  | .noComponents => .noComponents
  | .wrongKind => .wrongKind
  | .endless => .endless

/-- A kind of faults that the check of a text may break off at. -/
def Fault.Kind.Met (k : Fault.Kind) : Prop :=
  k = .unmet ∨ k = .outOfRange ∨ k = .unboundName ∨ k = .noComponents ∨ k = .endless

/-! ## What occurs in the types of a check -/

/-- Numbers have no texts as values, only written trees are compared, and quantifiers stand only
outside. -/
def Permit.readable : Permit where
  var _ := True
  literal c v := c = "number" → ∀ s, v ≠ .text s
  key _ := True
  checked := True
  place p := p.Everywhere Node.Written
  quantified := False

/-- Operations on such types give no occasion for the other kinds of faults. -/
lemma Permit.readable_allows {f : Fault} (h : Permit.readable.Allows f) : f.kind.Met := by
  cases f with
  | unmet | outOfRange | noComponents | unboundName | endless =>
    simp [Fault.kind, Fault.Kind.Met]
  | unknownType t => exact absurd h id
  | notImplemented what => exact absurd h id
  | wrongKind =>
    obtain ⟨s, hs⟩ := h
    exact absurd rfl (hs rfl s)

/-- What occurs in the types of a check of a text, however many variables it has drawn. -/
def Regime.readable : Regime where
  permit _ := .readable
  fault f := f.kind.Met
  start := 0
  le _ := .refl _
  fresh _ _ := trivial
  rest _ := trivial
  flag _ _ h := absurd h (by decide)
  key _ _ := trivial
  checked _ := trivial
  allows _ _ := Permit.readable_allows
  unbound _ := .inr (.inr (.inl rfl))

/-- Trees that are as they can be written suit the regime. -/
lemma Node.Everywhere.suits_readable {t : Node} (h : t.Everywhere Node.Written) (n : Nat) :
    t.Suits .readable n := by
  cases t with
  | number | string | boolean => exact fun hc s hs => by simp_all
  | binary => exact fun _ => h.comparedPlaces
  | function => exact fun l t hnote => (h.here l t hnote).within fun _ => trivial
  | declare =>
    exact ⟨fun l x hx => absurd hx (h.here.1 l x),
      fun l t hnote => (h.here.2 l t hnote).within fun _ => trivial⟩
  | elseif | typeNote | resultNote => exact h.here.elim
  | _ => trivial

lemma Node.everywhere_suits_readable {t : Node} (h : t.Everywhere Node.Written) (n : Nat) :
    t.Everywhere (Node.Suits .readable n) :=
  everywhere_of (fun _ ht => ht.suits_readable n) (fun _ ht _ hm => ht.part hm) h

namespace Check

/-- The check of a written tree breaks off only at faults of the kinds that can be met. -/
theorem infer_written_fault {n : Node} (hn : n.Everywhere Node.Written) {f : Fault} {σ : Session}
    (h : outcome (Check.infer n) .initial = (.error (.fault f), σ)) : f.kind.Met := by
  have hendless : Fault.Kind.endless.Met := .inr (.inr (.inr (.inr rfl)))
  have hkeeps : Infers .readable .any 0 (inferTo (Check.depthFor n)) n :=
    inferTo_keeps hendless (fun m _ hp => Node.everywhere_suits_readable hp m) _
      (Node.everywhere_suits_readable hn 0)
  have hinitial : Session.initial.Within .readable :=
    Session.within_initial (Nat.zero_le _) fun _ _ => trivial
  exact ((hkeeps _ hinitial (Nat.zero_le _)).of_eq_error h).2 f rfl

/-! ## Faults that are met -/

/-- The kind of the fault at which the check of a text breaks off, if it does. -/
def faultKind? (file text : String) : Option Fault.Kind :=
  match parse file text with
  | .error _ => none
  | .ok n =>
    match (outcome (Check.infer n) .initial).1 with
    | .error (.fault f) => some f.kind
    | _ => none

lemma faultKind?_eq_some {file text : String} {k : Fault.Kind} (h : faultKind? file text = some k) :
    ∃ n f σ, parse file text = .ok n ∧
      outcome (Check.infer n) .initial = (.error (.fault f), σ) ∧ f.kind = k := by
  unfold faultKind? at h
  split at h
  · cases h
  · rename_i n hn
    split at h
    · rename_i f hf
      exact ⟨n, f, _, hn, Prod.ext hf rfl, Option.some.inj h⟩
    · cases h

section Texts

set_option maxRecDepth 100000

/-- A table is called. -/
lemma faultKind?_tableCall : faultKind? "main.lua" "return(\x7b\x7d)()" = some .unmet := by
  decide +kernel

/-- There are more names than expressions. -/
lemma faultKind?_missingExpression : faultKind? "main.lua" "local x,y=1" = some .outOfRange := by
  decide +kernel

/-- A field of a name that is not bound is assigned to. -/
lemma faultKind?_unboundTable : faultKind? "main.lua" "x.a=1" = some .unboundName := by
  decide +kernel

/-- A number is narrowed to a function, whose parameters are not known. -/
lemma faultKind?_unknownParameters :
    faultKind? "main.lua" "x=1if type(x)==\"function\"then end" = some .noComponents := by
  decide +kernel

/-- A function is given itself. -/
lemma faultKind?_selfCall : faultKind? "main.lua" "function f(x)x(x)end" = some .endless := by
  decide +kernel

end Texts

/-- The kinds of faults at which the check of a text can break off. -/
theorem exists_parsed_fault_iff (k : Fault.Kind) :
    (∃ file text n f σ, parse file text = .ok n ∧
      outcome (Check.infer n) .initial = (.error (.fault f), σ) ∧ f.kind = k) ↔
    k = .unmet ∨ k = .outOfRange ∨ k = .unboundName ∨ k = .noComponents ∨ k = .endless := by
  constructor
  · rintro ⟨file, text, n, f, σ, hn, hf, rfl⟩
    exact infer_written_fault (parse_written hn) hf
  · rintro (rfl | rfl | rfl | rfl | rfl)
    · exact ⟨_, _, faultKind?_eq_some faultKind?_tableCall⟩
    · exact ⟨_, _, faultKind?_eq_some faultKind?_missingExpression⟩
    · exact ⟨_, _, faultKind?_eq_some faultKind?_unboundTable⟩
    · exact ⟨_, _, faultKind?_eq_some faultKind?_unknownParameters⟩
    · exact ⟨_, _, faultKind?_eq_some faultKind?_selfCall⟩

/-- A declaration of more names than expressions is no report, but a fault. -/
theorem infer_missingExpression_fault : ∃ n σ, parse "main.lua" "local x,y=1" = .ok n ∧
    outcome (Check.infer n) .initial = (.error (.fault .outOfRange), σ) := by
  obtain ⟨n, f, σ, hn, hf, hk⟩ := faultKind?_eq_some faultKind?_missingExpression
  cases f with
  | outOfRange => exact ⟨n, σ, hn, hf⟩
  | unmet | unknownType | notImplemented | unboundName | noComponents | wrongKind | endless =>
    cases hk

end Check

end LuaTyping
