import LuaTyping.Proofs.KindKeeping
import LuaTyping.Proofs.Preorder

set_option autoImplicit false

/-!
# Broadening as a closure

On closed types without tables and functions, forgetting literal values is a closure operation for
the test whether one type can be used where another is wanted: it is extensive, idempotent and
monotone. Only that a type can be used where its broadened self is wanted needs a condition. The
test does not say no of the two, but it may have to show alternatives that do not fit, and it breaks
off where these have `true` beside `boolean` in their arguments.

## Main results

* `Ty.broaden_closure` — broadening is a closure operation for the test.
-/

namespace LuaTyping

namespace Ty

variable {a b : Ty}

lemma Simple.broaden_broaden (h : a.Simple) : a.broaden.broaden = a.broaden := by
  induction h with
  | con _ _ ih =>
    simp only [Ty.broaden, broadenList_eq_map, List.map_map]
    congr 1
    exact List.map_congr_left ih
  | union _ _ ihl ihr => rw [Ty.broaden, Ty.broaden, ihl, ihr]

lemma Below.broaden (h : Below a b) (ha : a.Simple) (hb : b.Simple) : Below a.broaden b.broaden :=
  ha.broaden_below.trans (h.trans hb.below_broaden)

lemma below_of_fits {k k' : Letters} (ha : a.Simple) (hb : b.Simple)
    (h : outcome (a.fits b) k = (.ok true, k')) : Below a b := by
  rw [fits_eq ha hb] at h
  obtain ⟨u, k₁, hu, h⟩ := bind_eq_ok.1 h
  simp only [pure_eq_ok] at h
  exact below_of_ordered ((succeeds_iff_under ha hb hu).1 h.1)

/-- A type below one without values can be used where this is wanted, if its constructors have no
`true` in their arguments. -/
lemma usableAs_of_below (ha : a.Simple) (hs : a.TruelessArgs) (hb : b.Simple)
    (h : Below a b.broaden) : a.UsableAs b.broaden := by
  intro k
  obtain ⟨k', hk⟩ := fits_of_below ha hs hb h k
  rw [Ensures, hk]

/-- Broadening is a closure operation for the test: no simple type is refused where its broadened
self is wanted, and it is accepted if its constructors have no `true` in their arguments; broadening
twice is broadening once; and if a type can be used where another is wanted, then so can their
broadened selves, whatever their values. -/
theorem broaden_closure (ha : a.Simple) (hb : b.Simple) :
    (∀ k k', outcome (a.fits a.broaden) k ≠ (.ok false, k')) ∧
      (a.TruelessArgs → a.UsableAs a.broaden) ∧
      a.broaden.broaden = a.broaden ∧
      ∀ k k', outcome (a.fits b) k = (.ok true, k') → a.broaden.UsableAs b.broaden := by
  refine ⟨fits_ne_false_of_below ha ha ha.below_broaden, fun hs => ?_, ha.broaden_broaden,
    fun k k' h => ?_⟩
  · exact usableAs_of_below ha hs ha ha.below_broaden
  · exact usableAs_of_below ha.broaden ha.broaden_trueless.args hb
      ((below_of_fits ha hb h).broaden ha hb)

/-- The type `true | ("a", nil)`. -/
def flagOrPair : Ty :=
  .union (.literal "boolean" (.flag true)) (.tuple [.literal "string" (.text "a"), .nil])

theorem broaden_closure_flagOrPair :
    flagOrPair.TruelessArgs ∧ flagOrPair.UsableAs flagOrPair.broaden ∧
      outcome (flagOrPair.fits (.union (.tuple [.string, .nil]) .boolean)) [] = (.ok true, []) ∧
      flagOrPair.broaden.UsableAs (.union (.tuple [.string, .nil]) .boolean) := by
  have ha : flagOrPair.Simple := by
    simp [flagOrPair, literal, tuple, Ty.nil, plain, simple_union_iff, simple_con_iff]
  have hb : (Ty.union (.tuple [.string, .nil]) .boolean).Simple := by
    simp [tuple, Ty.string, Ty.nil, Ty.boolean, plain, simple_union_iff, simple_con_iff]
  have hs : flagOrPair.TruelessArgs := by
    simp [flagOrPair, literal, tuple, Ty.nil, plain, truelessArgs_union_iff, truelessArgs_con_iff,
      trueless_con_iff]
  have hfits : outcome (flagOrPair.fits (.union (.tuple [.string, .nil]) .boolean)) [] =
      (.ok true, []) := rfl
  obtain ⟨-, hself, -, hmono⟩ := broaden_closure ha hb
  exact ⟨hs, hself hs, hfits, hmono _ _ hfits⟩

/-- Of `() | (true | boolean)`, where the right one is a tuple, the test against its broadened self
breaks off. -/
theorem nestedFlag_not_usableAs_broaden :
    Check.nestedFlag.Simple ∧ ¬ Check.nestedFlag.TruelessArgs ∧
      (∀ k, outcome (Check.nestedFlag.fits Check.nestedFlag.broaden) k = (.error .unmet, k)) ∧
      ¬ Check.nestedFlag.UsableAs Check.nestedFlag.broaden := by
  have hbreaks : ∀ k,
      outcome (Check.nestedFlag.fits Check.nestedFlag.broaden) k = (.error .unmet, k) :=
    fun _ => rfl
  refine ⟨?_, ?_, hbreaks, fun h => ?_⟩
  · simp [Check.nestedFlag, literal, tuple, Ty.boolean, plain, simple_union_iff, simple_con_iff]
  · simp [Check.nestedFlag, literal, tuple, truelessArgs_union_iff, truelessArgs_con_iff,
      trueless_union_iff, trueless_con_iff]
  · obtain ⟨_, _, hyes, _⟩ := h.exists_ok []
    cases (hbreaks []).symm.trans hyes

end Ty

end LuaTyping
