import LuaTyping.Proofs.StatementRules

set_option autoImplicit false

/-!
# Well-formed trees

The syntax trees are one type, but not every tree has a place everywhere: a program is a chunk, a
chunk is made up of statements, and statements hold expressions. A tree is *formed* in a role if
each of its components has the role that belongs there. In particular declarations and assignments
stand in chunks only.

## Main definitions

* `Role` — the roles of trees.
* `Node.Formed` — a tree has a role, and so have all its components.
* `Node.isBinding` — a tree is a declaration or an assignment.
* `Node.subtrees` — a tree with all trees in it.
* `Node.assigned` — the plain names that are assigned to somewhere in a tree.

## Main results

* `Node.Formed.part` — what the rule for a formed tree infers is formed, and binds nothing
  unless the tree is a chunk.
* `Node.subtrees_subset_of_mem_parts` — what is in what the rule for a tree infers is in the
  tree.
-/

namespace LuaTyping

/-- The roles of trees in a program. -/
inductive Role where
  | expr
  | statement
  | last
  | chunk
  | elseif
  | note
  deriving DecidableEq

/-- Whether there is a rule for the trees of a role: for further conditions and annotations there is
none. -/
def Role.isInferred : Role → Bool
  | elseif | note => false
  | _ => true

namespace Node

/-- A tree has a role, and its components have the roles that belong there; the types of its
annotations have a property. -/
inductive Formed (T : Ty → Prop) : Role → Node → Prop
  | var (l : Location) (x : String) : Formed T .expr (var l x)
  | nil (l : Location) : Formed T .expr (nil l)
  | vararg (l : Location) : Formed T .expr (vararg l)
  | number (l : Location) (v : Binary64) : Formed T .expr (number l v)
  | boolean (l : Location) (v : Bool) : Formed T .expr (boolean l v)
  | string (l : Location) (v : String) : Formed T .expr (string l v)
  | table (l : Location) {fields : List (Node × Node)} : (∀ f ∈ fields, Formed T .expr f.1) →
      (∀ f ∈ fields, Formed T .expr f.2) → Formed T .expr (table l fields)
  | unary (l : Location) (op : UnaryOp) {value : Node} : Formed T .expr value →
      Formed T .expr (unary l op value)
  | binary (l : Location) (op : BinaryOp) {left right : Node} : Formed T .expr left →
      Formed T .expr right → Formed T .expr (binary l left op right)
  | call (l : Location) {callee : Node} {args : List Node} : Formed T .expr callee →
      (∀ a ∈ args, Formed T .expr a) → Formed T .expr (call l callee args)
  | index (l : Location) {object key : Node} : Formed T .expr object → Formed T .expr key →
      Formed T .expr (index l object key)
  | function (l : Location) (params : List String) (isVararg : Bool) (name : Option String)
      (ln : Location) {body : Node} {result : Option Ty} : Formed T .chunk body →
      (∀ t, result = some t → T t) →
      Formed T .expr (function l params isVararg body name (resultNote ln result))
  | declare (l : Location) {names : List DeclaredName} {exprs : List Node} {note : Option Node} :
      (∀ l x, .variable l x ∉ names) → (∀ e ∈ exprs, Formed T .expr e) →
      (∀ n, note = some n → ∃ ln t, n = typeNote ln t ∧ T t) →
      Formed T .statement (declare l names exprs note)
  | assign (l : Location) {targets exprs : List Node} : (∀ t ∈ targets, t.isPlace) →
      (∀ t ∈ targets, Formed T .expr t) → (∀ e ∈ exprs, Formed T .expr e) →
      Formed T .statement (assign l targets exprs)
  | branch (l : Location) {condition body : Node} {elseifs : List Node} {otherwise : Option Node} :
      Formed T .expr condition → Formed T .chunk body → (∀ e ∈ elseifs, Formed T .elseif e) →
      (∀ o, otherwise = some o → Formed T .chunk o) →
      Formed T .statement (branch l condition body elseifs otherwise)
  | callStatement (l : Location) {callee : Node} {args : List Node} : Formed T .expr callee →
      (∀ a ∈ args, Formed T .expr a) → Formed T .statement (call l callee args)
  | reveal (l : Location) {expr : Node} : Formed T .expr expr → Formed T .statement (reveal l expr)
  | elseif (l : Location) {condition body : Node} : Formed T .expr condition →
      Formed T .chunk body → Formed T .elseif (elseif l condition body)
  | typeNote (l : Location) {t : Ty} : T t → Formed T .note (typeNote l t)
  | resultNote (l : Location) {result : Option Ty} : (∀ t, result = some t → T t) →
      Formed T .note (resultNote l result)
  | returns (l : Location) {exprs : List Node} : (∀ e ∈ exprs, Formed T .expr e) →
      Formed T .last (returns l exprs)
  | chunk (l : Location) {statements : List Node} {last : Option Node} :
      (∀ s ∈ statements, Formed T .statement s) → (∀ s, last = some s → Formed T .last s) →
      Formed T .chunk (chunk l statements last)

/-- Whether a tree is a declaration or an assignment. -/
def isBinding : Node → Bool
  | declare .. | assign .. => true
  | _ => false

namespace Formed

variable {T : Ty → Prop} {r : Role} {n : Node}

lemma isBinding_eq_false (h : n.Formed T r) (hr : r ≠ .statement) : n.isBinding = false := by
  cases h with
  | declare | assign => exact absurd rfl hr
  | _ => rfl

lemma pathKeys (h : n.Formed T .expr) : ∀ k ∈ n.pathKeys, k.Formed T .expr := by
  refine of_mem_pathKeys (fun l object key h => ?_) h
  cases h with
  | index _ hobject hkey => exact ⟨hobject, hkey⟩

/-- What the rule for a formed tree infers is formed, and there is a rule for it. It is no declaration
and no assignment, unless the tree is a chunk. -/
lemma part (h : n.Formed T r) : ∀ m ∈ n.parts, ∃ r', r'.isInferred ∧ m.Formed T r' ∧
    ((∃ l ss last, n = .chunk l ss last) ∨ m.isBinding = false) := by
  have hexpr : ∀ {m : Node}, m.Formed T .expr → ∃ r', r'.isInferred ∧ m.Formed T r' ∧
      ((∃ l ss last, n = .chunk l ss last) ∨ m.isBinding = false) :=
    fun hm => ⟨.expr, by decide, hm, .inr (hm.isBinding_eq_false (by decide))⟩
  have hchunk : ∀ {m : Node}, m.Formed T .chunk → ∃ r', r'.isInferred ∧ m.Formed T r' ∧
      ((∃ l ss last, n = .chunk l ss last) ∨ m.isBinding = false) :=
    fun hm => ⟨.chunk, by decide, hm, .inr (hm.isBinding_eq_false (by decide))⟩
  intro m hm
  cases h with
  | var | nil | vararg | number | boolean | string | elseif | typeNote | resultNote =>
    exact absurd hm List.not_mem_nil
  | table _ hkeys hvalues =>
    obtain ⟨f, hf, hm⟩ := List.mem_flatMap.1 hm
    simp only [List.mem_cons, List.not_mem_nil, or_false] at hm
    rcases hm with rfl | rfl
    · exact hexpr (hkeys f hf)
    · exact hexpr (hvalues f hf)
  | unary _ _ hvalue => exact hexpr (List.mem_singleton.1 hm ▸ hvalue)
  | binary _ _ hleft hright | index _ hleft hright =>
    simp only [parts, List.mem_cons, List.not_mem_nil, or_false] at hm
    rcases hm with rfl | rfl
    · exact hexpr hleft
    · exact hexpr hright
  | call _ hcallee hargs | callStatement _ hcallee hargs =>
    rcases List.mem_cons.1 hm with rfl | hm
    · exact hexpr hcallee
    · exact hexpr (hargs m hm)
  | function _ _ _ _ _ hbody _ => exact hchunk (List.mem_singleton.1 hm ▸ hbody)
  | declare _ _ hexprs _ | returns _ hexprs => exact hexpr (hexprs m hm)
  | assign _ _ htargets hexprs =>
    rcases List.mem_append.1 hm with hm | hm
    · exact hexpr (hexprs m hm)
    · obtain ⟨t, ht, hm⟩ := List.mem_flatMap.1 hm
      exact hexpr ((htargets t ht).pathKeys m hm)
  | branch _ hcondition hbody _ hotherwise =>
    simp only [parts, List.mem_cons, Option.mem_toList] at hm
    rcases hm with rfl | rfl | hm
    · exact hexpr hcondition
    · exact hchunk hbody
    · exact hchunk (hotherwise m hm)
  | reveal _ hexpr' => exact hexpr (List.mem_singleton.1 hm ▸ hexpr')
  | chunk l hstatements hlast =>
    rcases List.mem_append.1 hm with hm | hm
    · exact ⟨.statement, by decide, hstatements m hm, .inl ⟨_, _, _, rfl⟩⟩
    · exact ⟨.last, by decide, hlast m (Option.mem_toList.1 hm), .inl ⟨_, _, _, rfl⟩⟩

/-- The children of a formed tree are formed. -/
lemma child (h : n.Formed T r) : ∀ m ∈ n.children, ∃ r', m.Formed T r' := by
  intro m hm
  cases h with
  | var | nil | vararg | number | boolean | string | typeNote | resultNote =>
    exact absurd hm List.not_mem_nil
  | table _ hkeys hvalues =>
    obtain ⟨f, hf, hm⟩ := List.mem_flatMap.1 hm
    simp only [List.mem_cons, List.not_mem_nil, or_false] at hm
    rcases hm with rfl | rfl
    · exact ⟨_, hkeys f hf⟩
    · exact ⟨_, hvalues f hf⟩
  | declare _ _ hexprs | returns _ hexprs => exact ⟨_, hexprs m hm⟩
  | _ =>
    simp only [children, List.cons_append, List.mem_cons, List.mem_append, Option.mem_toList,
      List.not_mem_nil, or_false] at hm
    grind

/-- A property that all formed trees have for which there is a rule holds everywhere in one. -/
lemma everywhere {p : Node → Prop} (hp : ∀ r n, r.isInferred → n.Formed T r → p n)
    (hr : r.isInferred) (h : n.Formed T r) : n.Everywhere p :=
  everywhere_of (q := fun n => ∃ r, r.isInferred ∧ n.Formed T r)
    (fun n ⟨r, hr, hn⟩ => hp r n hr hn)
    (fun _ ⟨_, _, hn⟩ m hm => (hn.part m hm).imp fun _ h => ⟨h.1, h.2.1⟩) ⟨r, hr, h⟩

end Formed

/-! ## Subtrees -/

mutual

/-- A tree with all trees in it, its annotation included. -/
def subtrees : Node → List Node
  | n@(table _ fields) => n :: subtreesPairs fields
  | n@(unary _ _ value) => n :: value.subtrees
  | n@(binary _ left _ right) => n :: (left.subtrees ++ right.subtrees)
  | n@(call _ callee args) => n :: (callee.subtrees ++ subtreesList args)
  | n@(index _ object key) => n :: (object.subtrees ++ key.subtrees)
  | n@(function _ _ _ body _ note) => n :: (body.subtrees ++ note.subtrees)
  | n@(declare _ _ exprs note) => n :: (subtreesList exprs ++ subtreesOption note)
  | n@(assign _ targets exprs) => n :: (subtreesList targets ++ subtreesList exprs)
  | n@(returns _ exprs) => n :: subtreesList exprs
  | n@(branch _ condition body elseifs otherwise) =>
    n :: (condition.subtrees ++ body.subtrees ++ subtreesList elseifs ++ subtreesOption otherwise)
  | n@(elseif _ condition body) => n :: (condition.subtrees ++ body.subtrees)
  | n@(chunk _ statements last) => n :: (subtreesList statements ++ subtreesOption last)
  | n@(reveal _ expr) => n :: expr.subtrees
  | n => [n]

/-- Some trees with all trees in them. -/
def subtreesList : List Node → List Node
  | [] => []
  | n :: ns => n.subtrees ++ subtreesList ns

/-- Some pairs of trees with all trees in them. -/
def subtreesPairs : List (Node × Node) → List Node
  | [] => []
  | (k, v) :: rest => k.subtrees ++ v.subtrees ++ subtreesPairs rest

/-- A tree that may be absent with all trees in it. -/
def subtreesOption : Option Node → List Node
  | none => []
  | some n => n.subtrees

end

lemma mem_subtrees (n : Node) : n ∈ n.subtrees := by
  cases n <;> simp [subtrees]

lemma subtreesList_eq (ns : List Node) : subtreesList ns = ns.flatMap subtrees := by
  induction ns with
  | nil => rfl
  | cons n ns ih => simp [subtreesList, ih]

lemma subtreesPairs_eq (fields : List (Node × Node)) :
    subtreesPairs fields = (fields.flatMap fun f => [f.1, f.2]).flatMap subtrees := by
  induction fields with
  | nil => rfl
  | cons f fields ih => simp [subtreesPairs, ih]

lemma flatMap_subtrees_subset (n : Node) : n.children.flatMap subtrees ⊆ n.subtrees := by
  cases n with
  | branch l condition body elseifs otherwise =>
    cases otherwise <;> simp [subtrees, children, subtreesList_eq, subtreesOption]
  | chunk l statements last =>
    cases last <;> simp [subtrees, children, subtreesList_eq, subtreesOption]
  | _ => simp [subtrees, children, subtreesList_eq, subtreesPairs_eq]

lemma subtrees_subset_of_mem_parts {n : Node} : ∀ m ∈ n.parts, m.subtrees ⊆ n.subtrees :=
  rel_of_mem_parts (r := (·.subtrees ⊆ ·.subtrees)) (fun _ _ _ => List.Subset.trans)
    fun n m hm _ hx => n.flatMap_subtrees_subset (List.mem_flatMap.2 ⟨m, hm, hx⟩)

/-! ## Assigned names -/

/-- The plain names that are assigned to somewhere in a tree. -/
def assigned (n : Node) : List String := n.subtrees.flatMap targetNames

end Node

end LuaTyping
