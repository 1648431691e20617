import LuaTyping.Proofs.Congruence

set_option autoImplicit false

/-!
# More depth changes no answer

Inference is a recursion that is cut off at a given depth. If the inference of the parts of a tree
is replaced by one that goes deeper, then the rule for the tree comes to the same, unless it was cut
off. So an inference that is not cut off at some depth comes to the same at every greater depth.

## Main definitions

* `Check.CutOff` — a computation is cut off.
* `Check.Refines` — a computation comes to the same as another one, unless it is cut off.

## Main results

* `Check.inferStep_refines` — a rule goes as deep as the inference of the parts.
* `Check.inferTo_refines` — a greater depth changes no answer.
-/

namespace LuaTyping.Check

variable {α β : Type}

/-- From this session, a computation is cut off. -/
def CutOff (x : Check α) (σ : Session) : Prop :=
  ∃ σ', outcome x σ = (.error (.fault (.endless (c := .depth))), σ')

/-- A computation comes to the same as another one, unless it is cut off. -/
def Refines (x y : Check α) : Prop := ∀ σ, CutOff x σ ∨ outcome x σ = outcome y σ

namespace Refines

lemma refl (x : Check α) : Refines x x := fun _ => .inr rfl

lemma trans {x y z : Check α} (h : Refines x y) (h' : Refines y z) : Refines x z := by
  intro σ
  rcases h σ with hcut | heq
  · exact .inl hcut
  · rcases h' σ with ⟨σ', hcut⟩ | heq'
    · exact .inl ⟨σ', heq.trans hcut⟩
    · exact .inr (heq.trans heq')

lemma bind {x y : Check α} {f g : α → Check β} (h : Refines x y) (hf : ∀ a, Refines (f a) (g a)) :
    Refines (x >>= f) (y >>= g) := by
  intro σ
  unfold CutOff
  rw [outcome_bind, outcome_bind]
  rcases h σ with ⟨σ', hcut⟩ | heq
  · rw [hcut]
    exact .inl ⟨σ', rfl⟩
  · rw [← heq]
    rcases outcome x σ with ⟨e | a, σ'⟩
    · exact .inr rfl
    · exact hf a σ'

lemma inScope {x y : Check α} (h : Refines x y) : Refines (Check.inScope x) (Check.inScope y) := by
  intro σ
  rcases h { σ with scopes := σ.scopes.push } with ⟨σ', hcut⟩ | heq
  · exact .inl ⟨{ σ' with scopes := σ'.scopes.pop }, congrArg
      (fun r : Except Stop α × Session => (r.1, { r.2 with scopes := r.2.scopes.pop })) hcut⟩
  · exact .inr (congrArg
      (fun r : Except Stop α × Session => (r.1, { r.2 with scopes := r.2.scopes.pop })) heq)

end Refines

/-- The rules keep this relation, whatever frames have been opened. -/
lemma refines_congruence : Congruence (fun _ s t => t = s) (fun _ => Refines) where
  local?_eq h _ := h ▸ rfl
  bind _ _ _ h := h ▸ rfl
  bindGlobal _ _ _ h := h ▸ rfl
  update _ _ h := h ▸ rfl
  seq := .bind
  inScope := .inScope
  scopeless _ := .refl _
  look hf := (Refines.refl _).bind fun s => hf s s rfl
  change _ := .refl _
  print _ := .refl _
  instantiate _ := .refl _
  generalize _ := .refl _
  inferVar _ _ := .refl _

/-- A rule comes to the same with a deeper inference of the parts, unless it is cut off. -/
theorem inferStep_refines {infer deeper : Inference} (h : ∀ n, Refines (infer n) (deeper n))
    (n : Node) : Refines (inferStep infer n) (inferStep deeper n) :=
  inferStep_congr refines_congruence (k := 1) (fun _ _ => Nat.one_pos) (fun m _ => h m) h

lemma inferTo_refines_succ (depth : Nat) (n : Node) :
    Refines (inferTo depth n) (inferTo (depth + 1) n) := by
  induction depth generalizing n with
  | zero => exact fun σ => .inl ⟨σ, rfl⟩
  | succ depth ih => exact inferStep_refines ih n

/-- An inference that is not cut off comes to the same at every greater depth. -/
theorem inferTo_refines {depth depth' : Nat} (hle : depth ≤ depth') (n : Node) :
    Refines (inferTo depth n) (inferTo depth' n) := by
  induction hle with
  | refl => exact .refl _
  | step _ ih => exact ih.trans (inferTo_refines_succ _ n)

lemma inferTo_eq_ok_of_le {depth depth' : Nat} {n : Node} {i : Inferred} {σ σ' : Session}
    (hle : depth ≤ depth') (h : outcome (inferTo depth n) σ = (.ok i, σ')) :
    outcome (inferTo depth' n) σ = (.ok i, σ') := by
  rcases inferTo_refines hle n σ with ⟨_, hcut⟩ | hsame
  · exact nomatch (Prod.mk.inj (hcut.symm.trans h)).1
  · exact hsame.symm.trans h

end LuaTyping.Check
