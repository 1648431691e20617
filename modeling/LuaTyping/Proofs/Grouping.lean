import LuaTyping.Proofs.NamedTypes
import LuaTyping.Proofs.Overlap

set_option autoImplicit false

/-!
# Composition does not depend on grouping

Where substitutions bind variables to closed types that are built from constructors, a shared
variable is bound to a meet that takes its values from the type of the later substitution and the
checks of both. Such meets can be grouped in either way, and one grouping fails exactly if the other
does. A composition binds each variable to such a meet, so that the composition of three does not
depend on how they are grouped, however their variables overlap.

## Main results

* `compose_grouping` — the composition of three substitutions.
-/

namespace LuaTyping

namespace Ty

/-! ## Types built from constructors -/

/-- A type that is built from constructors only, each with as many arguments as its name tells. -/
inductive Term (arity : String → Nat) : Ty → Prop
  | con {c : String} {args : List Ty} (v : Option Literal) (checks : List Checked) :
      args.length = arity c → (∀ t ∈ args, Term arity t) → Term arity (.con c args v checks)

mutual

/-- The meet of two types that are built from constructors: the values are those of the first one,
and the checks are those of both. -/
def fuse : Ty → Ty → Option Ty
  | .con c as v checks, .con d bs _ more =>
    if c = d then (fuseList as bs).map fun args => .con c args v (checks ++ more) else none
  | _, _ => none

/-- The meets of some types with as many others. -/
def fuseList : List Ty → List Ty → Option (List Ty)
  | [], [] => some []
  | a :: as, b :: bs => (a.fuse b).bind fun m => (fuseList as bs).map (m :: ·)
  | _, _ => none

end

variable {arity : String → Nat} {a b c m : Ty} {as bs cs ms : List Ty}

lemma fuse_con {n d : String} {v w : Option Literal} {checks more : List Checked} :
    (Ty.con n as v checks).fuse (.con d bs w more) =
      if n = d then (fuseList as bs).map fun args => .con n args v (checks ++ more) else none := by
  rw [fuse]

lemma fuse_left (h : ∀ n as v checks, a ≠ .con n as v checks) : a.fuse = fun _ => none := by
  funext b
  rw [fuse]
  exact fun n as v checks _ _ _ _ ha => absurd ha (h n as v checks)

lemma fuse_right (h : ∀ n as v checks, b ≠ .con n as v checks) : a.fuse b = none := by
  rw [fuse]
  exact fun _ _ _ _ n bs w more _ hb => absurd hb (h n bs w more)

lemma Term.ground (h : a.Term arity) : a.Ground := by
  induction h with
  | con _ _ _ _ ih => exact ground_con_iff.2 ih

lemma meetLists_terms {meet : Ty → Ty → Naming (Option Ty)} (hlength : as.length = bs.length)
    (h : ∀ a ∈ as, ∀ b ∈ bs,
      meet a b = pure (a.fuse b) ∧ ∀ m, a.fuse b = some m → m.Term arity) :
    meetLists meet as bs = pure (fuseList as bs) ∧
      ∀ ms, fuseList as bs = some ms → ms.length = as.length ∧ ∀ m ∈ ms, m.Term arity := by
  induction as generalizing bs with
  | nil =>
    obtain rfl := List.length_eq_zero_iff.1 hlength.symm
    exact ⟨rfl, by simp [fuseList]⟩
  | cons a as ih =>
    obtain ⟨b, bs, rfl⟩ := List.exists_cons_of_length_eq_add_one hlength.symm
    obtain ⟨hmeet, hterm⟩ := h a (by simp) b (by simp)
    obtain ⟨hrest, hterms⟩ := ih (Nat.succ.inj hlength) fun a ha b hb =>
      h a (by simp [ha]) b (by simp [hb])
    constructor
    · rw [meetLists, fuseList, hmeet, pure_bind, hrest]
      cases a.fuse b <;> cases fuseList as bs <;> rfl
    · intro _ hfuse
      obtain ⟨m, hm, hmap⟩ := Option.bind_eq_some_iff.1 hfuse
      obtain ⟨ms, hms, rfl⟩ := Option.map_eq_some_iff.1 hmap
      obtain ⟨hlen, hms⟩ := hterms ms hms
      exact ⟨congrArg (· + 1) hlen, List.forall_mem_cons.2 ⟨hterm m hm, hms⟩⟩

/-- The meet of types that are built from constructors is one, too. -/
lemma meetTo_terms {covers : Covers} {depth : Nat} (ha : a.Term arity) (hb : b.Term arity)
    (hdepth : a.size ≤ depth) :
    meetTo covers depth a b = pure (a.fuse b) ∧ ∀ m, a.fuse b = some m → m.Term arity := by
  induction ha generalizing b depth with
  | @con c as v checks hlength _ ih =>
    obtain ⟨depth, rfl⟩ := exists_succ_of_size_le hdepth
    obtain @⟨d, bs, w, more, hlength', hbs⟩ := hb
    rw [fuse_con]
    by_cases hcd : c = d
    · subst hcd
      have hmembers : ∀ a ∈ as, ∀ b ∈ bs, meetTo covers depth a b = pure (a.fuse b) ∧
          ∀ m, a.fuse b = some m → m.Term arity := by
        intro a ha b hb
        have := size_le_sizeList ha
        simp only [size] at hdepth
        exact ih a ha (hbs b hb) (by omega)
      obtain ⟨hmeets, hterms⟩ := meetLists_terms (hlength.trans hlength'.symm) hmembers
      simp only [meetTo, hmeets, pure_bind, if_pos]
      constructor
      · cases fuseList as bs <;> rfl
      · rintro m hm
        obtain ⟨ms, hms, rfl⟩ := Option.map_eq_some_iff.1 hm
        obtain ⟨hlen, hms⟩ := hterms ms hms
        exact .con v _ (hlen.trans hlength) hms
    · simp [meetTo, hcd]

lemma fuseList_assoc
    (h : ∀ a ∈ as, ∀ b c, ((a.fuse b).bind fun m => m.fuse c) = (b.fuse c).bind a.fuse) :
    ((fuseList as bs).bind fun ms => fuseList ms cs) = (fuseList bs cs).bind (fuseList as) := by
  induction as generalizing bs cs with
  | nil =>
    cases bs <;> cases cs <;>
      simp [fuseList, Option.bind_assoc, Option.bind_map, Function.comp_def]
  | cons a as ih =>
    rcases bs with _ | ⟨b, bs⟩ <;> rcases cs with _ | ⟨c, cs⟩
    · rfl
    · rfl
    · simp [fuseList, Option.bind_assoc, Option.bind_map, Function.comp_def]
    have hrest := @ih bs cs fun a ha => h a (by simp [ha])
    -- the first members and the others are met apart from each other
    calc ((fuseList (a :: as) (b :: bs)).bind fun ms => fuseList ms (c :: cs))
        = ((a.fuse b).bind fun m => m.fuse c).bind fun m =>
            ((fuseList as bs).bind fun ms => fuseList ms cs).map (m :: ·) := by
          cases hx : a.fuse b <;> cases hy : fuseList as bs <;> simp [fuseList, hx, hy]
      _ = ((b.fuse c).bind a.fuse).bind fun m =>
            ((fuseList bs cs).bind (fuseList as)).map (m :: ·) := by rw [h a (by simp), hrest]
      _ = (fuseList (b :: bs) (c :: cs)).bind (fuseList (a :: as)) := by
          cases hx : b.fuse c <;> cases hy : fuseList bs cs <;> simp [fuseList, hx, hy]

/-- The meet of three types does not depend on grouping. -/
lemma fuse_assoc (a b c : Ty) :
    ((a.fuse b).bind fun m => m.fuse c) = (b.fuse c).bind a.fuse := by
  induction a generalizing b c with
  | con n as v checks ih =>
    cases b with
    | con d bs w more =>
      cases c with
      | con e cs x last =>
        have hargs := congrArg (Option.map fun args => Ty.con n args v (checks ++ (more ++ last)))
          (@fuseList_assoc as bs cs ih)
        by_cases hnd : n = d <;> by_cases hde : d = e
        · subst hnd hde
          simpa [fuse_con, Option.bind_map, Option.map_bind, Function.comp_def] using hargs
        · subst hnd
          simp [fuse_con, hde, Option.bind_map]
        · subst hde
          simp [fuse_con, hnd, Option.bind_map]
        · simp [fuse_con, hnd, hde]
      | _ => simp [fuse_right]
    | _ => simp [fuse_left, fuse_right]
  | var | table | union | all => simp [fuse_left]

end Ty

/-! ## Bindings -/

namespace Subst

variable {arity : String → Nat} {s t : Subst} {x : String} {u : Ty}
  {known more : List (String × Ty)}

/-- What a variable is bound to by the composition of two substitutions, unless they cannot be
composed. -/
def fuseAt : Option Ty → Option Ty → Option (Option Ty)
  | some u, some t => (t.fuse u).map some
  | some u, none => some (some u)
  | none, t => some t

lemma fuseAt_none (f : Option Ty) : fuseAt f none = some f := by
  cases f <;> rfl

lemma fuseAt_assoc (f g h : Option Ty) :
    ((fuseAt f g).bind fun m => fuseAt m h) = (fuseAt g h).bind (fuseAt f) := by
  rcases f with _ | a
  · exact (Option.bind_fun_some _).symm
  rcases g with _ | b
  · rfl
  rcases h with _ | c
  · simp only [fuseAt_none, Option.bind_some, Option.bind_fun_some]
  · simpa [fuseAt, Option.bind_map, Option.map_bind, Function.comp_def] using
      congrArg (Option.map some) (Ty.fuse_assoc c b a).symm

/-- Bindings of different variables to types that are built from constructors. -/
structure Terms (arity : String → Nat) (bindings : List (String × Ty)) : Prop where
  nodup : (bindings.map Prod.fst).Nodup
  term : ∀ b ∈ bindings, b.2.Term arity

lemma nodup_enter (h : (known.map Prod.fst).Nodup) : ((enter x u known).map Prod.fst).Nodup := by
  induction known with
  | nil => simp [enter]
  | cons b known ih =>
    obtain ⟨hb, hknown⟩ := List.nodup_cons.1 h
    by_cases hbx : b.1 = x
    · simpa [enter, hbx] using h
    · have hnames : b.1 ∉ (enter x u known).map Prod.fst := by
        rw [enter_eq_enterName, mem_names_enterName]
        exact not_or.2 ⟨hbx, hb⟩
      simpa [enter, hbx] using ⟨by simpa using hnames, ih hknown⟩

lemma Terms.enter (h : Terms arity known) (hu : u.Term arity) : Terms arity (enter x u known) := by
  have hnodup := nodup_enter (x := x) (u := u) h.nodup
  refine ⟨hnodup, fun b hb => ?_⟩
  have hlookup := lookup_of_mem hnodup hb
  rw [lookup_enter] at hlookup
  split at hlookup
  · exact Option.some.inj hlookup ▸ hu
  · exact h.term _ (mem_of_lookup hlookup)

/-- A computation comes to bindings to what is given for the variables, or it ends in a fault
because nothing can be given for one. -/
def Comes (arity : String → Nat) (f : String → Option (Option Ty)) (returning : Bool)
    (c : Naming Subst) : Prop :=
  (∃ r, c = pure ⟨r, returning⟩ ∧ Terms arity r ∧ ∀ x, f x = some (r.lookup x)) ∨
    c = throw .unmet ∧ ∃ x, f x = none

lemma Comes.bind {f : String → Option (Option Ty)} {g : String → Option Ty → Option (Option Ty)}
    {returning : Bool} {c : Naming Subst} {k : Subst → Naming Subst} (also : Bool → Bool)
    (h : Comes arity f returning c)
    (hk : ∀ r, Terms arity r.bindings →
      Comes arity (fun x => g x (r.find? x)) (also r.returning) (k r)) :
    Comes arity (fun x => (f x).bind (g x)) (also returning) (c >>= k) := by
  rcases h with ⟨r, rfl, hterms, hf⟩ | ⟨rfl, x, hx⟩
  · simp only [hf, Option.bind_some]
    exact hk ⟨r, returning⟩ hterms
  · exact .inr ⟨rfl, x, by simp [hx]⟩

/-- Adding bindings comes to what is bound by either, or to the meet. -/
lemma composeBindings_comes {covers : Covers} {returning : Bool} (hknown : Terms arity known)
    (hmore : Terms arity more) :
    Comes arity (fun x => fuseAt (known.lookup x) (more.lookup x)) returning
      (do return ⟨← composeBindings covers s known more, returning⟩) := by
  induction more generalizing known with
  | nil => exact .inl ⟨known, rfl, hknown, fun x => fuseAt_none _⟩
  | cons b more ih =>
    obtain ⟨x, t⟩ := b
    obtain ⟨hx, hnodup⟩ := List.nodup_cons.1 hmore.nodup
    obtain ⟨ht, hterms⟩ := List.forall_mem_cons.1 hmore.term
    -- entering what `x` is bound to brings the composition one step forward
    have hstep : ∀ m : Ty, m.Term arity → fuseAt (known.lookup x) (some t) = some (some m) →
        Comes arity (fun y => fuseAt (known.lookup y) (((x, t) :: more).lookup y)) returning
          (do return ⟨← composeBindings covers s (Subst.enter x m known) more, returning⟩) := by
      intro m hm hfuse
      convert ih (hknown.enter (x := x) hm) ⟨hnodup, hterms⟩ using 2 with y
      rw [lookup_enter, List.lookup_cons]
      by_cases hyx : y = x
      · rw [if_pos hyx, hyx, beq_self_eq_true, lookup_eq_none_of_not_mem hx, fuseAt_none]
        exact hfuse
      · rw [if_neg hyx, beq_eq_false_iff_ne.2 hyx]
    rw [composeBindings]
    cases hu : known.lookup x with
    | none =>
      simp only [ht.ground.apply s]
      exact hstep t ht (by rw [hu]; rfl)
    | some u =>
      have huterm : u.Term arity := hknown.term _ (mem_of_lookup hu)
      obtain ⟨hmeet, hterm⟩ :
          t.meetWith covers u = pure (t.fuse u) ∧ ∀ m, t.fuse u = some m → m.Term arity :=
        Ty.meetTo_terms ht huterm (Nat.le_add_right ..)
      simp only [hmeet, pure_bind]
      cases hm : t.fuse u with
      | none => exact .inr ⟨rfl, x, by simp [hu, fuseAt, hm]⟩
      | some m => exact hstep m (hterm m hm) (by simp [hu, fuseAt, hm])

lemma compose_comes (hs : Terms arity s.bindings) (ht : Terms arity t.bindings) :
    Comes arity (fun x => fuseAt (s.find? x) (t.find? x)) (s.returning || t.returning)
      (s.compose t) :=
  composeBindings_comes hs ht

end Subst

/-- The composition of three substitutions for types that are built from constructors does not
depend on how they are grouped: both groupings end in the same fault, or both give substitutions
with the same bindings.

**Proof sketch.** Name by name, both groupings take the meet of the types that the name is bound to,
and the meet of three types does not depend on grouping. -/
theorem compose_grouping {arity : String → Nat} {s₁ s₂ s₃ : Subst}
    (h₁ : Subst.Terms arity s₁.bindings) (h₂ : Subst.Terms arity s₂.bindings)
    (h₃ : Subst.Terms arity s₃.bindings) :
    ((s₁.compose s₂ >>= fun s => s.compose s₃) = throw .unmet ∧
        (s₂.compose s₃ >>= s₁.compose) = throw .unmet) ∨
      ∃ r r', (s₁.compose s₂ >>= fun s => s.compose s₃) = pure r ∧
        (s₂.compose s₃ >>= s₁.compose) = pure r' ∧
        (∀ x, r.find? x = r'.find? x) ∧ r.returning = r'.returning := by
  have hleft := Subst.Comes.bind (g := fun x m => Subst.fuseAt m (s₃.find? x))
    (· || s₃.returning) (Subst.compose_comes h₁ h₂) fun r hr => Subst.compose_comes hr h₃
  have hright := Subst.Comes.bind (g := fun x => Subst.fuseAt (s₁.find? x))
    (s₁.returning || ·) (Subst.compose_comes h₂ h₃) fun r hr => Subst.compose_comes h₁ hr
  simp only [Subst.fuseAt_assoc] at hleft
  rcases hleft with ⟨r, hr, -, hfuse⟩ | ⟨hthrow, x, hx⟩
  · rcases hright with ⟨r', hr', -, hfuse'⟩ | ⟨-, x, hx⟩
    · exact .inr ⟨_, _, hr, hr', fun x => Option.some.inj ((hfuse x).symm.trans (hfuse' x)),
        Bool.or_assoc ..⟩
    · simp [hfuse x] at hx
  · rcases hright with ⟨r', -, -, hfuse'⟩ | ⟨hthrow', -⟩
    · simp [hfuse' x] at hx
    · exact .inl ⟨hthrow, hthrow'⟩

/-- Three substitutions that all bind `x`, to pairs of texts, the first one with a value. -/
theorem compose_grouping_pairs :
    let pair : Ty → Ty := fun t => .tuple [t, .nil]
    let s₁ : Subst := ⟨[("x", pair (.literal "string" (.text "a"))), ("y", .nil)], true⟩
    let s₂ : Subst := ⟨[("z", .number), ("x", pair .string)], false⟩
    let s₃ : Subst := ⟨[("y", .nil), ("x", pair (.literal "string" (.text "b")))], false⟩
    ∃ r, (s₂.compose s₃ >>= s₁.compose) = pure r ∧ r.returning = true ∧
      r.find? "x" = some (pair (.literal "string" (.text "b"))) ∧ r.find? "z" = some .number := by
  intro pair s₁ s₂ s₃
  let arity : String → Nat := fun c => if c = "tuple" then 2 else 0
  have hplain : ∀ {c} v, c ≠ "tuple" → (Ty.con c [] v []).Term arity :=
    fun v hc => .con v [] (if_neg hc).symm (List.forall_mem_nil _)
  have hnil : Ty.nil.Term arity := hplain none (by decide)
  have hpair : ∀ v, (pair (.con "string" [] v [])).Term arity :=
    fun v => .con none [] rfl (by simp [hnil, hplain])
  have h₁ : Subst.Terms arity s₁.bindings := ⟨by decide, by simp [s₁, hpair, hnil, Ty.literal]⟩
  have h₂ : Subst.Terms arity s₂.bindings :=
    ⟨by decide, by simp [s₂, hpair, Ty.number, Ty.string, Ty.plain, hplain]⟩
  have h₃ : Subst.Terms arity s₃.bindings := ⟨by decide, by simp [s₃, hpair, hnil, Ty.literal]⟩
  rcases compose_grouping h₁ h₂ h₃ with ⟨hthrow, -⟩ | ⟨r, r', hr, hr', hfind, hreturning⟩
  · cases congrArg (fun c => (outcome c []).1) hthrow
  · obtain rfl := Naming.pure_inj.1 hr
    exact ⟨r', hr', hreturning.symm, (hfind "x").symm, (hfind "z").symm⟩

end LuaTyping
