import Mathlib
import LuaTyping.Types.Naming

set_option autoImplicit false

/-!
# What computations come to

Checking and showing types are computations with a state that may stop early. This file says what
such a computation comes to from a given state, and how that follows from what its parts come to.

## Main definitions

* `outcome` — what a computation comes to from a state.
* `Ensures` — from a state, a computation gives a value, or stops, as promised.
* `Naming.Sat` — the same whatever letters have been given.

## Main results

* `bind_eq_ok` — a sequence succeeds exactly if both of its parts do.
* `Ensures.bind`, `Naming.Sat.bind` — promises about a sequence.
-/

namespace LuaTyping

section Runs

variable {ε σ α β : Type}

/-- What a computation comes to from a state: a value or a stop, and the state afterwards. -/
def outcome (x : ExceptT ε (StateM σ) α) (s : σ) : Except ε α × σ := x s

lemma outcome_bind (x : ExceptT ε (StateM σ) α) (f : α → ExceptT ε (StateM σ) β) (s : σ) :
    outcome (x >>= f) s = match outcome x s with
      | (.ok a, s') => outcome (f a) s'
      | (.error e, s') => (.error e, s') := by
  simp only [outcome, bind, ExceptT.bind, ExceptT.bindCont, ExceptT.mk, StateT.bind]
  rcases x s with ⟨_ | _, _⟩ <;> rfl

@[simp]
lemma outcome_pure (a : α) (s : σ) :
    outcome (pure a : ExceptT ε (StateM σ) α) s = (.ok a, s) := rfl

@[simp]
lemma outcome_throw (e : ε) (s : σ) :
    outcome (throw e : ExceptT ε (StateM σ) α) s = (.error e, s) := rfl

lemma pure_eq_ok {a b : α} {s s' : σ} :
    outcome (pure a : ExceptT ε (StateM σ) α) s = (.ok b, s') ↔ a = b ∧ s = s' := by
  rw [outcome_pure, Prod.mk.injEq, Except.ok.injEq]

/-- A sequence succeeds exactly if its first part does, and then its second. -/
lemma bind_eq_ok {x : ExceptT ε (StateM σ) α} {f : α → ExceptT ε (StateM σ) β} {s s'' : σ} {b : β} :
    outcome (x >>= f) s = (.ok b, s'') ↔
      ∃ a s', outcome x s = (.ok a, s') ∧ outcome (f a) s' = (.ok b, s'') := by
  rw [outcome_bind]
  rcases outcome x s with ⟨e | a, s'⟩
  · simp
  · constructor
    · intro hf
      exact ⟨a, s', rfl, hf⟩
    · rintro ⟨a', t, heq, hf⟩
      simp only [Prod.mk.injEq, Except.ok.injEq] at heq
      obtain ⟨rfl, rfl⟩ := heq
      exact hf

lemma eq_of_outcome_eq {x : ExceptT ε (StateM σ) α} {s t t' : σ} {a a' : α}
    (h : outcome x s = (.ok a, t)) (h' : outcome x s = (.ok a', t')) : a = a' ∧ t = t' := by
  rw [h, Prod.mk.injEq, Except.ok.injEq] at h'
  exact h'

lemma exists_of_isOk {x : ExceptT ε (StateM σ) α} {s : σ} (h : (outcome x s).1.isOk = true) :
    ∃ a s', outcome x s = (.ok a, s') := by
  rcases hx : outcome x s with ⟨e | a, s'⟩
  · rw [hx] at h
    cases h
  · exact ⟨a, s', rfl⟩

/-- From the state `s`, a computation gives a value with `Q`, or stops with `E`. -/
def Ensures (x : ExceptT ε (StateM σ) α) (s : σ) (Q : α → σ → Prop) (E : ε → σ → Prop) : Prop :=
  match outcome x s with
  | (.ok a, s') => Q a s'
  | (.error e, s') => E e s'

namespace Ensures

variable {x : ExceptT ε (StateM σ) α} {s : σ} {Q R : α → σ → Prop} {E G : ε → σ → Prop}

lemma pure {a : α} (h : Q a s) : Ensures (pure a : ExceptT ε (StateM σ) α) s Q E := h

lemma throw {e : ε} (h : E e s) : Ensures (throw e : ExceptT ε (StateM σ) α) s Q E := h

/-- A promise about a sequence, from one about its first part and one about the second part on
whatever the first one gives. -/
lemma bind {f : α → ExceptT ε (StateM σ) β} {S : β → σ → Prop} (h : Ensures x s Q E)
    (hf : ∀ a s', Q a s' → Ensures (f a) s' S E) : Ensures (x >>= f) s S E := by
  unfold Ensures at h ⊢
  rw [outcome_bind]
  rcases hx : outcome x s with ⟨e | a, s'⟩ <;> rw [hx] at h
  · exact h
  · exact hf a s' h

lemma imp (h : Ensures x s Q E) (hQ : ∀ a s', Q a s' → R a s') (hE : ∀ e s', E e s' → G e s') :
    Ensures x s R G := by
  unfold Ensures at h ⊢
  rcases hx : outcome x s with ⟨e | a, s'⟩ <;> rw [hx] at h
  · exact hE e s' h
  · exact hQ a s' h

lemma and (h : Ensures x s Q E) (h' : Ensures x s R G) :
    Ensures x s (fun a s' => Q a s' ∧ R a s') (fun e s' => E e s' ∧ G e s') := by
  unfold Ensures at h h' ⊢
  rcases hx : outcome x s with ⟨e | a, s'⟩ <;> rw [hx] at h h'
  · exact ⟨h, h'⟩
  · exact ⟨h, h'⟩

lemma of_eq_ok {a : α} {s' : σ} (h : Ensures x s Q E) (hx : outcome x s = (.ok a, s')) :
    Q a s' := by
  unfold Ensures at h
  rwa [hx] at h

lemma of_eq_error {e : ε} {s' : σ} (h : Ensures x s Q E) (hx : outcome x s = (.error e, s')) :
    E e s' := by
  unfold Ensures at h
  rwa [hx] at h

end Ensures

end Runs

namespace Naming

variable {α β : Type}

/-- Whatever letters have been given, a computation gives a value with `Q` or a fault with `F`. -/
def Sat (x : Naming α) (Q : α → Prop) (F : Fault → Prop) : Prop :=
  ∀ letters, Ensures x letters (fun a _ => Q a) (fun f _ => F f)

namespace Sat

variable {x : Naming α} {Q R : α → Prop} {F G : Fault → Prop}

lemma pure {a : α} (h : Q a) : Sat (pure a) Q F := fun _ => h

lemma throw {f : Fault} (h : F f) : Sat (throw f : Naming α) Q F := fun _ => h

lemma bind {f : α → Naming β} {S : β → Prop} (h : Sat x Q F) (hf : ∀ a, Q a → Sat (f a) S F) :
    Sat (x >>= f) S F :=
  fun letters => (h letters).bind fun a letters' ha => hf a ha letters'

lemma ite {c : Prop} [Decidable c] {y : Naming α} (hx : c → Sat x Q F) (hy : ¬ c → Sat y Q F) :
    Sat (if c then x else y) Q F := by
  split
  · exact hx ‹_›
  · exact hy ‹_›

lemma imp (h : Sat x Q F) (hQ : ∀ a, Q a → R a) (hF : ∀ f, F f → G f) : Sat x R G :=
  fun letters => (h letters).imp (fun a _ => hQ a) (fun f _ => hF f)

lemma and (h : Sat x Q F) (h' : Sat x R G) : Sat x (fun a => Q a ∧ R a) (fun f => F f ∧ G f) :=
  fun letters => (h letters).and (h' letters)

lemma trivial : Sat x (fun _ => True) fun _ => True := by
  intro letters
  unfold Ensures
  split <;> exact True.intro

lemma of_eq_ok {a : α} {l l' : Letters} (h : Sat x Q F) (hx : outcome x l = (.ok a, l')) : Q a :=
  (h l).of_eq_ok hx

lemma bind_congr {f g : α → Naming β} (h : Sat x Q F) (hfg : ∀ a, Q a → f a = g a) :
    x >>= f = x >>= g := by
  funext l
  change outcome (x >>= f) l = outcome (x >>= g) l
  rw [outcome_bind, outcome_bind]
  rcases hx : outcome x l with ⟨e | a, l'⟩
  · rfl
  · simp only [hfg a (h.of_eq_ok hx)]

lemma exists_ok (h : Sat x Q fun _ => False) (l : Letters) :
    ∃ a l', outcome x l = (.ok a, l') ∧ Q a := by
  have hl := h l
  unfold Ensures at hl
  rcases hx : outcome x l with ⟨f | a, l'⟩ <;> rw [hx] at hl
  · exact hl.elim
  · exact ⟨a, l', rfl, hl⟩

lemma imp_of_eq_ok (h : Sat x Q F) (hR : ∀ a l l', outcome x l = (.ok a, l') → R a) :
    Sat x R F := by
  intro l
  have hl := h l
  unfold Ensures at hl ⊢
  rcases hx : outcome x l with ⟨f | a, l'⟩ <;> rw [hx] at hl
  · exact hl
  · exact hR a l l' hx

lemma ofExcept {r : Except Fault α} (hQ : ∀ a, r = .ok a → Q a) (hF : ∀ f, r = .error f → F f) :
    Sat (Naming.ofExcept r) Q F := by
  intro letters
  cases r with
  | ok a => exact hQ a rfl
  | error f => exact hF f rfl

lemma anyM {p : α → Naming Bool} {l : List α} (h : ∀ a ∈ l, Sat (p a) (fun _ => True) F) :
    Sat (l.anyM p) (fun _ => True) F := by
  induction l with
  | nil => exact pure True.intro
  | cons a l ih =>
    simp only [List.anyM]
    refine bind (h a (by simp)) fun b _ => ?_
    cases b with
    | true => exact pure True.intro
    | false => exact ih fun c hc => h c (by simp [hc])

end Sat

end Naming

end LuaTyping
