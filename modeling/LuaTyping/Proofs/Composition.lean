import LuaTyping.Proofs.Circles
import LuaTyping.Types.Unify

set_option autoImplicit false

/-!
# Composing substitutions

An application follows bindings until no bound variable is left. Where it always comes to an end it
is the same as filling in one type for each variable, and this choice of types is the only one that
respects the bindings and leaves all other variables alone.

So a composition can be compared with its parts. If no variable is bound by both of them, and what
the outer one binds to mentions nothing that the inner one binds, then the composition respects the
bindings of both, makes no circle that was not there, and comes to the same as applying the one
after the other.

## Main definitions

* `Subst.domain` — the variables that a substitution binds.
* `Subst.Acyclic` — the application to every type comes to an end.
* `Subst.Respects` — a choice of types that agrees with the bindings.

## Main results

* `Subst.compose_applies_in_turn` — composing is applying one after the other.
-/

namespace LuaTyping

namespace Ty

/-! ## Filling in types -/

variable {f g : String → Ty} {t u : Ty}

/-- Only what is chosen for the open variables counts. -/
lemma fill_congr (h : ∀ x ∈ t.openVars, f x = g x) : t.fill f = t.fill g := by
  induction t with
  | var x => exact h x (by simp [openVars])
  | con c args v checks ih =>
    have hargs : args.map (fill f) = args.map (fill g) :=
      List.map_congr_left fun a ha => ih a ha fun x hx => h x (mem_openVarsList.2 ⟨a, ha, hx⟩)
    simp only [fill, fillList_eq_map, hargs]
  | table fields ih =>
    have hfields : fields.map (fun e => (e.1, e.2.fill f)) = fields.map fun e => (e.1, e.2.fill g) :=
      List.map_congr_left fun e he => by
        rw [(ih e he).2 fun x hx => h x (mem_openVarsFields.2 ⟨e, he, hx⟩)]
    simp only [fill, fillFields_eq_map, hfields]
  | union left right ihl ihr =>
    simp only [openVars, List.mem_append] at h
    rw [fill, fill, ihl fun x hx => h x (.inl hx), ihr fun x hx => h x (.inr hx)]
  | all => rfl

lemma fill_fill (t : Ty) : (t.fill f).fill g = t.fill fun x => (f x).fill g := by
  induction t with
  | con c args v checks ih =>
    simp only [fill, fillList_eq_map, List.map_map]
    congr 1
    exact List.map_congr_left ih
  | table fields ih =>
    simp only [fill, fillFields_eq_map, List.map_map]
    congr 1
    exact List.map_congr_left fun e he => congrArg (Prod.mk e.1) (ih e he).2
  | union left right ihl ihr => simp only [fill, ihl, ihr]
  | var | all => rfl

lemma Mono.exists_fill (ht : t.Mono) {r : String → Except Fault Ty} (h : t.replaceVars r = .ok u) :
    ∃ g, (∀ x ∈ t.openVars, r x = .ok (g x)) ∧ u = t.fill g := by
  have hg : ∀ x ∈ t.openVars, r x = .ok ((r x).toOption.getD (.var x)) := by
    intro x hx
    obtain ⟨w, hw⟩ := exists_ok_of_mem_openVars h hx
    rw [hw]
    rfl
  exact ⟨_, hg, Except.ok.inj (h.symm.trans (ht.replaceVars_eq_fill hg))⟩

lemma Mono.exists_of_mem_openVars_fill (ht : t.Mono) {y : String} (hy : y ∈ (t.fill g).openVars) :
    ∃ x ∈ t.openVars, y ∈ (g x).openVars := by
  have hfill : t.replaceVars (fun x => .ok (g x)) = .ok (t.fill g) :=
    ht.replaceVars_eq_fill fun _ _ => rfl
  obtain ⟨x, hx, w, hw, hyw⟩ := exists_of_mem_openVars hfill y hy
  exact ⟨x, hx, Except.ok.inj hw ▸ hyw⟩

end Ty

namespace Subst

variable {s t : Subst} {m u : Ty} {g : String → Ty}

/-! ## Choices that respect bindings -/

/-- The variables that a substitution binds. -/
def domain (s : Subst) : List String := s.bindings.map Prod.fst

variable {x : String} {bindings : List (String × Ty)} {origin : Ty} {depth : Nat}

lemma lookup_eq_none_of_not_mem {known : List (String × Ty)} (h : x ∉ known.map Prod.fst) :
    known.lookup x = none := by
  rw [List.lookup_eq_none_iff]
  intro b hb
  simpa using fun heq : x = b.1 => h (List.mem_map.2 ⟨b, hb, heq.symm⟩)

lemma find?_eq_none_of_not_mem (h : x ∉ s.domain) : s.find? x = none :=
  lookup_eq_none_of_not_mem h

lemma mem_domain_of_find? {w : Ty} (h : s.find? x = some w) : x ∈ s.domain :=
  List.mem_map.2 ⟨(x, w), mem_of_lookup h, rfl⟩

/-- The application to every type without quantifiers comes to an end. -/
def Acyclic (s : Subst) : Prop := ∀ m : Ty, m.Mono → ∃ u, s.apply m = .ok u

/-- What is chosen for a bound variable is what it is bound to, filled in by the same choice. -/
def Respects (s : Subst) (g : String → Ty) : Prop := ∀ x w, s.find? x = some w → g x = w.fill g

lemma exists_fill_of_follow (hm : m.Mono) (h : follow bindings origin depth m = .ok u) :
    ∃ k, (∀ x ∈ m.openVars, follow bindings origin depth (.var x) = .ok (k x)) ∧
      u = m.fill k := by
  cases depth with
  | zero => exact hm.exists_fill h
  | succ => exact hm.exists_fill h

lemma follow_var_eq_ok :
    follow bindings origin depth (.var x) = .ok u ↔
      bindings.lookup x = none ∧ u = .var x ∨
        ∃ w less, bindings.lookup x = some w ∧ depth = less + 1 ∧
          follow bindings origin less w = .ok u := by
  cases depth <;> cases hx : bindings.lookup x <;> simp [follow, Ty.replaceVars, hx, eq_comm]

/-- Following bindings, as far as it comes to an end, makes no difference to a choice that respects
them. -/
lemma Respects.fill_follow (hg : s.Respects g) (hs : ∀ b ∈ s.bindings, b.2.Mono) (hm : m.Mono)
    (h : follow s.bindings origin depth m = .ok u) : u.fill g = m.fill g := by
  induction depth using Nat.strong_induction_on generalizing m u with
  | _ depth ih =>
    obtain ⟨k, hk, rfl⟩ := exists_fill_of_follow hm h
    rw [Ty.fill_fill]
    refine Ty.fill_congr fun x hx => ?_
    rcases follow_var_eq_ok.1 (hk x hx) with ⟨-, hkx⟩ | ⟨w, less, hw, rfl, hkx⟩
    · rw [hkx, Ty.fill]
    · rw [ih less (Nat.lt_succ_self less) (hs _ (mem_of_lookup hw)) hkx, hg x w hw]

/-- What is open after following is open before, or in a type that is bound to. -/
lemma mem_openVars_of_follow (hs : ∀ b ∈ bindings, b.2.Mono) (hm : m.Mono)
    (h : follow bindings origin depth m = .ok u) {y : String} (hy : y ∈ u.openVars) :
    y ∈ m.openVars ∨ ∃ b ∈ bindings, y ∈ b.2.openVars := by
  induction depth using Nat.strong_induction_on generalizing m u with
  | _ depth ih =>
    obtain ⟨k, hk, rfl⟩ := exists_fill_of_follow hm h
    obtain ⟨x, hx, hyx⟩ := hm.exists_of_mem_openVars_fill hy
    rcases follow_var_eq_ok.1 (hk x hx) with ⟨-, hkx⟩ | ⟨w, less, hw, rfl, hkx⟩
    · rw [hkx] at hyx
      obtain rfl : y = x := by simpa [Ty.openVars] using hyx
      exact .inl hx
    · have hmem := mem_of_lookup hw
      rcases ih less (Nat.lt_succ_self less) (hs _ hmem) hkx hyx with hyw | hbound
      · exact .inr ⟨_, hmem, hyw⟩
      · exact .inr hbound

lemma Respects.apply_eq (hg : s.Respects g) (hfree : ∀ x, s.find? x = none → g x = .var x)
    (hs : ∀ b ∈ s.bindings, b.2.Mono) (hm : m.Mono) (h : s.apply m = .ok u) : u = m.fill g := by
  have hsame : u.fill g = u.fill .var := Ty.fill_congr fun x hx => hfree x (apply_resolves h x hx)
  rw [← hg.fill_follow hs hm h, hsame, Ty.fill_var]

/-- Following deeper gives what following has given, from wherever it starts. -/
lemma follow_deeper (hs : ∀ b ∈ bindings, b.2.Mono) {origin' : Ty} {more : Nat}
    (hle : depth ≤ more) (hm : m.Mono) (h : follow bindings origin depth m = .ok u) :
    follow bindings origin' more m = .ok u := by
  induction more generalizing depth m u with
  | zero =>
    obtain ⟨k, hk, rfl⟩ := exists_fill_of_follow hm h
    refine hm.replaceVars_eq_fill fun x hx => ?_
    rcases follow_var_eq_ok.1 (hk x hx) with ⟨hw, hkx⟩ | ⟨w, less, -, rfl, -⟩
    · rw [hw, hkx]
    · omega
  | succ more ih =>
    obtain ⟨k, hk, rfl⟩ := exists_fill_of_follow hm h
    refine hm.replaceVars_eq_fill fun x hx => ?_
    rcases follow_var_eq_ok.1 (hk x hx) with ⟨hw, hkx⟩ | ⟨w, less, hw, rfl, hkx⟩
    · rw [hw, hkx]
    · rw [hw]
      exact ih (by omega) (hs _ (mem_of_lookup hw)) hkx

/-- Where applications come to an end, they respect the bindings. -/
lemma Acyclic.exists_respects (hacyclic : s.Acyclic) (hs : ∀ b ∈ s.bindings, b.2.Mono) :
    ∃ g, s.Respects g ∧ (∀ x, s.find? x = none → g x = .var x) ∧
      ∀ m : Ty, m.Mono → s.apply m = .ok (m.fill g) := by
  choose g hg using fun x => hacyclic (.var x) (.var x)
  -- at any depth that suffices, following comes to the same
  have hfollow : ∀ {origin m u : Ty} {depth : Nat}, depth ≤ s.bindings.length → m.Mono →
      follow s.bindings origin depth m = .ok u → u = m.fill g := by
    intro origin m u depth hle hm h
    obtain ⟨k, hk, rfl⟩ := exists_fill_of_follow hm h
    refine Ty.fill_congr fun x hx => ?_
    exact Except.ok.inj ((follow_deeper hs hle (.var x) (hk x hx)).symm.trans (hg x))
  have hrespects : s.Respects g := by
    intro x w hw
    have hlookup : s.bindings.lookup x = some w := hw
    rcases follow_var_eq_ok.1 (hg x) with ⟨hx, -⟩ | ⟨w', depth, hw', hdepth, hx⟩
    · exact nomatch hx.symm.trans hlookup
    · cases hw'.symm.trans hlookup
      exact hfollow (by omega) (hs _ (mem_of_lookup hlookup)) hx
  have hfree : ∀ x, s.find? x = none → g x = .var x := by
    intro x hx
    rcases follow_var_eq_ok.1 (hg x) with ⟨-, hgx⟩ | ⟨w, depth, hw, -⟩
    · exact hgx
    · exact nomatch hw.symm.trans hx
  refine ⟨g, hrespects, hfree, fun m hm => ?_⟩
  obtain ⟨u, hu⟩ := hacyclic m hm
  rw [hu, hrespects.apply_eq hfree hs hm hu]

lemma acyclic_iff (hs : ∀ b ∈ s.bindings, b.2.Mono) :
    s.Acyclic ↔ ∀ x, ¬Relation.TransGen s.Leads x x := by
  constructor
  · intro h x hx
    exact (exists_apply_iff (.var x) hs).1 (h _ (.var x)) ⟨x, by simp [Ty.openVars], x, .refl, hx⟩
  · rintro h m hm
    refine (exists_apply_iff hm hs).2 ?_
    rintro ⟨_, _, y, _, hy⟩
    exact h y hy

/-- It is enough that bindings lead from each variable to variables of lower rank. -/
lemma acyclic_of_rank (hs : ∀ b ∈ s.bindings, b.2.Mono) (rank : String → Nat)
    (h : ∀ b ∈ s.bindings, ∀ y ∈ b.2.openVars, rank y < rank b.1) : s.Acyclic := by
  have hlt : ∀ x y, Relation.TransGen s.Leads x y → rank y < rank x := by
    intro x y hxy
    induction hxy with
    | single hxy =>
      obtain ⟨w, hw, hy⟩ := hxy
      exact h _ (mem_of_lookup hw) _ hy
    | tail _ hyz ih =>
      obtain ⟨w, hw, hz⟩ := hyz
      exact (h _ (mem_of_lookup hw) _ hz).trans ih
  exact (acyclic_iff hs).2 fun x hx => (hlt x x hx).false

/-! ## The bindings of a composition -/

lemma enter_of_not_mem {u : Ty} {known : List (String × Ty)} (h : x ∉ known.map Prod.fst) :
    enter x u known = known ++ [(x, u)] := by
  induction known with
  | nil => rfl
  | cons b known ih =>
    rw [List.map_cons, List.mem_cons, not_or] at h
    simp [enter, Ne.symm h.1, ih h.2]

lemma not_mem_of_nodup {b : String × Ty} {known rest : List (String × Ty)}
    (h : ((known ++ b :: rest).map Prod.fst).Nodup) : b.1 ∉ known.map Prod.fst := by
  rw [List.map_append, List.map_cons] at h
  exact fun hmem => (List.nodup_append.1 h).2.2 b.1 hmem b.1 (by simp) rfl

section Bindings

variable {known rest : List (String × Ty)} {f : Ty → Ty}
  (happly : ∀ b ∈ rest, s.apply b.2 = .ok (f b.2))
  (hnodup : ((known ++ rest).map Prod.fst).Nodup)

include happly hnodup

/-- Bindings of new variables are put after the others, with the substitution applied to them. -/
lemma composeBindings_of_nodup (covers : Covers) :
    composeBindings covers s known rest = pure (known ++ rest.map fun b => (b.1, f b.2)) := by
  induction rest generalizing known with
  | nil => rw [List.map_nil, List.append_nil]; rfl
  | cons b rest ih =>
    have hnew := not_mem_of_nodup hnodup
    rw [composeBindings, lookup_eq_none_of_not_mem hnew]
    simp only [happly b (by simp)]
    change composeBindings covers s (enter b.1 (f b.2) known) rest = _
    rw [enter_of_not_mem hnew, ih (fun b' hb' => happly b' (by simp [hb'])) (by simpa using hnodup)]
    simp

/-- It makes no difference if later bindings may replace earlier ones. -/
lemma foldlM_enter_of_nodup :
    rest.foldlM (fun known (x, u) => do return enter x (← s.apply u) known) known =
      .ok (known ++ rest.map fun b => (b.1, f b.2)) := by
  induction rest generalizing known with
  | nil => rw [List.map_nil, List.append_nil]; rfl
  | cons b rest ih =>
    rw [List.foldlM_cons]
    simp only [happly b (by simp)]
    change rest.foldlM _ (enter b.1 (f b.2) known) = _
    rw [enter_of_not_mem (not_mem_of_nodup hnodup),
      ih (fun b' hb' => happly b' (by simp [hb'])) (by simpa using hnodup)]
    simp

end Bindings

/-- The bindings of `s` and then those of `t`, with types filled in. -/
def composed (s t : Subst) (g : String → Ty) : Subst :=
  ⟨s.bindings ++ t.bindings.map fun b => (b.1, b.2.fill g), s.returning || t.returning⟩

lemma find?_composed (x : String) :
    (composed s t g).find? x = (s.find? x).or ((t.find? x).map (Ty.fill g)) := by
  have hmap : ∀ l : List (String × Ty),
      (l.map fun b => (b.1, b.2.fill g)).lookup x = (l.lookup x).map (Ty.fill g) := by
    intro l
    induction l with
    | nil => rfl
    | cons b l ih =>
      rw [List.map_cons, List.lookup_cons, List.lookup_cons, ih]
      cases x == b.1 <;> rfl
  rw [composed, find?, List.lookup_append, hmap]
  rfl

/-! ## Composition and application -/

section Composed

variable (hsmono : ∀ b ∈ s.bindings, b.2.Mono) (htmono : ∀ b ∈ t.bindings, b.2.Mono)
  (happly : ∀ m : Ty, m.Mono → s.apply m = .ok (m.fill g))

include hsmono htmono happly

lemma mono_composed : ∀ b ∈ (composed s t g).bindings, b.2.Mono := by
  intro b hb
  rcases List.mem_append.1 hb with hb | hb
  · exact hsmono b hb
  · obtain ⟨b', hb', rfl⟩ := List.mem_map.1 hb
    exact (follow_mono hsmono (htmono b' hb')).1 _ (happly b'.2 (htmono b' hb'))

variable (hapart : ∀ b ∈ s.bindings, ∀ x ∈ b.2.openVars, x ∉ t.domain)

include hapart

/-- Where a variable leads in a composition. From one that `s` binds it is where it leads in `s`, and
is not bound by `t`. From one that `t` binds it is not bound by `s`; and if it is bound by `t`, it is
where the variable leads in `t`. -/
lemma leads_composed {x y : String} (h : (composed s t g).Leads x y) :
    s.Leads x y ∧ y ∉ t.domain ∨
      s.find? x = none ∧ x ∈ t.domain ∧ s.find? y = none ∧ (y ∈ t.domain → t.Leads x y) := by
  obtain ⟨w, hw, hy⟩ := h
  rw [find?_composed] at hw
  cases hx : s.find? x with
  | some w' =>
    obtain rfl : w' = w := by simpa [hx] using hw
    exact .inl ⟨⟨w', hx, hy⟩, hapart _ (mem_of_lookup hx) y hy⟩
  | none =>
    rw [hx, Option.none_or, Option.map_eq_some_iff] at hw
    obtain ⟨u, hu, rfl⟩ := hw
    have hu' := happly u (htmono _ (mem_of_lookup hu))
    refine .inr ⟨rfl, mem_domain_of_find? hu, apply_resolves hu' y hy, fun hyt => ?_⟩
    rcases mem_openVars_of_follow hsmono (htmono _ (mem_of_lookup hu)) hu' hy with hyu | ⟨b, hb, hyb⟩
    · exact ⟨u, hu, hyu⟩
    · exact absurd hyt (hapart b hb y hyb)

/-- A composition makes no circle.

**Proof sketch.** What can be reached from a variable that `s` binds is reached in `s`, since `t`
binds nothing on the way. From a variable that `t` binds no variable of `s` can be reached, so what
is reached and bound again is reached in `t`. -/
lemma acyclic_composed (hs : s.Acyclic) (ht : t.Acyclic) : (composed s t g).Acyclic := by
  rw [acyclic_iff hsmono] at hs
  rw [acyclic_iff htmono] at ht
  rw [acyclic_iff (mono_composed hsmono htmono happly)]
  have hleads := @leads_composed s t g hsmono htmono happly hapart
  intro x hx
  obtain ⟨z, hxz, -⟩ := Relation.TransGen.head'_iff.1 hx
  rcases hleads hxz with ⟨⟨w, hw, -⟩, -⟩ | ⟨hxs, hxt, -⟩
  · have hreach : ∀ y, Relation.TransGen (composed s t g).Leads x y →
        Relation.TransGen s.Leads x y ∧ y ∉ t.domain := by
      intro y hy
      induction hy with
      | single hxy =>
        rcases hleads hxy with ⟨hxy, hy⟩ | ⟨hxs, -⟩
        · exact ⟨.single hxy, hy⟩
        · exact nomatch hw.symm.trans hxs
      | tail _ hyz ih =>
        rcases hleads hyz with ⟨hyz, hz⟩ | ⟨-, hyt, -⟩
        · exact ⟨ih.1.tail hyz, hz⟩
        · exact absurd hyt ih.2
    exact hs x (hreach x hx).1
  · have hreach : ∀ y, Relation.TransGen (composed s t g).Leads x y →
        s.find? y = none ∧ (y ∈ t.domain → Relation.TransGen t.Leads x y) := by
      intro y hy
      induction hy with
      | single hxy =>
        rcases hleads hxy with ⟨⟨w, hw, -⟩, -⟩ | ⟨-, -, hys, hyt⟩
        · exact nomatch hw.symm.trans hxs
        · exact ⟨hys, fun h => .single (hyt h)⟩
      | tail _ hyz ih =>
        rcases hleads hyz with ⟨⟨w, hw, -⟩, -⟩ | ⟨-, hyt, hzs, hzt⟩
        · exact nomatch hw.symm.trans ih.1
        · exact ⟨hzs, fun h => (ih.2 hyt).tail (hzt h)⟩
    exact ht x ((hreach x hx).2 hxt)

omit htmono in
/-- Filling in for the variables of `t` first, and then for those of `s`, respects the bindings of
both. -/
lemma respects_composed {k : String → Ty} (hs : s.Respects g) (ht : t.Respects k)
    (htfree : ∀ x, t.find? x = none → k x = .var x) (hdisjoint : s.domain.Disjoint t.domain) :
    (composed s t g).Respects fun x => (k x).fill g := by
  have hsame : ∀ x, x ∉ t.domain → (k x).fill g = g x := by
    intro x hx
    rw [htfree x (find?_eq_none_of_not_mem hx), Ty.fill]
  have hkept : s.Respects fun x => (k x).fill g := by
    intro x w hw
    have hx := hsame x fun hxt => hdisjoint (mem_domain_of_find? hw) hxt
    refine (hx.trans (hs x w hw)).trans ?_
    exact Ty.fill_congr fun y hy => (hsame y (hapart _ (mem_of_lookup hw) y hy)).symm
  intro x w hw
  rw [find?_composed] at hw
  cases hx : s.find? x with
  | some w' =>
    obtain rfl : w' = w := by simpa [hx] using hw
    exact hkept x w' hx
  | none =>
    rw [hx, Option.none_or, Option.map_eq_some_iff] at hw
    obtain ⟨u, hu, rfl⟩ := hw
    -- what `s` does to a variable makes no difference any more
    have habsorb : ∀ y, (g y).fill (fun x => (k x).fill g) = (k y).fill g := fun y =>
      hkept.fill_follow hsmono (.var y) (happly (.var y) (.var y))
    calc (k x).fill g = (u.fill k).fill g := by rw [ht x u hu]
      _ = u.fill fun y => (k y).fill g := Ty.fill_fill u
      _ = u.fill fun y => (g y).fill fun x => (k x).fill g :=
        Ty.fill_congr fun y _ => (habsorb y).symm
      _ = (u.fill g).fill fun x => (k x).fill g := (Ty.fill_fill u).symm

end Composed

/-- **Composing is applying one after the other.** If no variable is bound by both, and the types of
the outer substitution mention no variable that the inner one binds outside of keys, then the
composition succeeds, no binding is replaced, it comes to an end on every type, and what it gives is
what the two give one after the other. -/
theorem compose_applies_in_turn (hs : s.Acyclic) (ht : t.Acyclic) (hsmono : ∀ b ∈ s.bindings, b.2.Mono)
    (htmono : ∀ b ∈ t.bindings, b.2.Mono) (hsnodup : s.domain.Nodup) (htnodup : t.domain.Nodup)
    (hdisjoint : s.domain.Disjoint t.domain)
    (hapart : ∀ b ∈ s.bindings, ∀ x ∈ b.2.openVars, x ∉ t.domain) :
    ∃ r, s.compose t = pure r ∧ s.override t = .ok r ∧ r.Acyclic ∧
      ∀ m : Ty, m.Mono → r.apply m = t.apply m >>= s.apply := by
  obtain ⟨g, hg, hgfree, hgapply⟩ := hs.exists_respects hsmono
  obtain ⟨k, hk, hkfree, hkapply⟩ := ht.exists_respects htmono
  have hnodup : ((s.bindings ++ t.bindings).map Prod.fst).Nodup := by
    rw [List.map_append]
    exact hsnodup.append htnodup hdisjoint
  have hbindings : ∀ b ∈ t.bindings, s.apply b.2 = .ok (b.2.fill g) := fun b hb =>
    hgapply b.2 (htmono b hb)
  have hacyclic := acyclic_composed hsmono htmono hgapply hapart hs ht
  refine ⟨composed s t g, ?_, ?_, hacyclic, fun m hm => ?_⟩
  · rw [compose, composeWith, composeBindings_of_nodup hbindings hnodup]
    rfl
  · rw [override, foldlM_enter_of_nodup hbindings hnodup]
    rfl
  · have hrespects := respects_composed hsmono hgapply hapart hg hk hkfree hdisjoint
    have hfree : ∀ x, (composed s t g).find? x = none → (k x).fill g = .var x := by
      intro x hx
      rw [find?_composed, Option.or_eq_none_iff, Option.map_eq_none_iff] at hx
      rw [hkfree x hx.2, Ty.fill, hgfree x hx.1]
    obtain ⟨u, hu⟩ := hacyclic m hm
    have hmono := (follow_mono htmono hm).1 _ (hkapply m hm)
    rw [hu, hrespects.apply_eq hfree (mono_composed hsmono htmono hgapply) hm hu, hkapply m hm]
    exact (congrArg Except.ok (Ty.fill_fill m).symm).trans (hgapply _ hmono).symm

/-- Bindings of `c` and `d`, which mention `a` and each other. -/
def innerBindings : Subst :=
  ⟨[("c", .union (.var "a") (.var "d")), ("d", .tuple [.var "a", .var "e"])], false⟩

/-- The outer bindings lead back to a variable in a key only. -/
theorem compose_applies_in_turn_chain :
    ∃ r, keyCircle.compose innerBindings = pure r ∧ keyCircle.override innerBindings = .ok r ∧
      r.Acyclic ∧ r.apply (.var "c") = innerBindings.apply (.var "c") >>= keyCircle.apply := by
  have hs : ∀ b ∈ keyCircle.bindings, b.2.Mono := by
    simp only [keyCircle, List.mem_cons, List.not_mem_nil, or_false, forall_eq_or_imp, forall_eq]
    exact ⟨.table (by simp [Ty.Mono.var]) (by simp [Ty.Mono.var]), .con _ _ _ (by simp)⟩
  have ht : ∀ b ∈ innerBindings.bindings, b.2.Mono := by
    simp only [innerBindings, List.mem_cons, List.not_mem_nil, or_false, forall_eq_or_imp, forall_eq]
    exact ⟨.union (.var _) (.var _), .con _ _ _ (by simp [Ty.Mono.var])⟩
  obtain ⟨r, hcompose, hoverride, hacyclic, happly⟩ := compose_applies_in_turn
    (acyclic_of_rank hs (fun x => if x = "a" then 1 else 0) (by decide))
    (acyclic_of_rank ht (fun x => if x = "c" then 2 else if x = "d" then 1 else 0) (by decide))
    hs ht (by decide) (by decide) (by simp [domain, keyCircle, innerBindings]) (by decide)
  exact ⟨r, hcompose, hoverride, hacyclic, happly (.var "c") (.var "c")⟩

end Subst

end LuaTyping
