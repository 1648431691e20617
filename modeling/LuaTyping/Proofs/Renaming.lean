import LuaTyping.Proofs.Kinds
import LuaTyping.Proofs.ScopeMoves

set_option autoImplicit false

/-!
# Renaming the identifiers of a program

A renaming changes the identifiers in a syntax tree, and forgets where the parts of the tree stand.
A type holds trees in its checks; nothing else of a type is changed, its variables least of all. The
scopes are renamed together with the types in them. What can be seen of a type and of scopes is then
renamed, too: the operations on types commute with every renaming, those on scopes with every one
that keeps different names apart.

## Main definitions

* `Node.renamed`, `Ty.renamed` — renamed trees and types.
* `Subst.renamed`, `Fault.renamed`, `Scopes.renamed` — what is made up
  of them.

## Main results

* `Ty.broaden_renamed`, `Ty.generalize_renamed` and the like — operations on
  types.
* `Scopes.local?_renamed`, `Scopes.update_renamed` and the like — operations on
  scopes.
-/

namespace LuaTyping

/-- A declared name renamed, wherever it stands. -/
def DeclaredName.renamed (ρ : String → String) : DeclaredName → DeclaredName
  | .bare x => .bare (ρ x)
  | .variable _ x => .variable default (ρ x)

mutual

/-- A type with the trees in its checks renamed. -/
@[simp]
def Ty.renamed (ρ : String → String) : Ty → Ty
  | .var x => .var x
  | .con c args v checks => .con c (Ty.renamedList ρ args) v (Ty.renamedChecks ρ checks)
  | .table fields => .table (Ty.renamedFields ρ fields)
  | .union left right => .union (left.renamed ρ) (right.renamed ρ)
  | .all x body => .all x (body.renamed ρ)

/-- Some types renamed. -/
def Ty.renamedList (ρ : String → String) : List Ty → List Ty
  | [] => []
  | t :: ts => t.renamed ρ :: Ty.renamedList ρ ts

/-- Some fields renamed. -/
def Ty.renamedFields (ρ : String → String) : List (Ty × Ty) → List (Ty × Ty)
  | [] => []
  | (k, v) :: rest => (k.renamed ρ, v.renamed ρ) :: Ty.renamedFields ρ rest

/-- Some checks renamed. -/
def Ty.renamedChecks (ρ : String → String) : List (Node × Ty) → List (Node × Ty)
  | [] => []
  | (n, t) :: rest => (n.renamed ρ, t.renamed ρ) :: Ty.renamedChecks ρ rest

/-- A tree with its identifiers renamed, wherever it stands. -/
@[simp]
def Node.renamed (ρ : String → String) : Node → Node
  | .var _ x => .var default (ρ x)
  | .nil _ => .nil default
  | .vararg _ => .vararg default
  | .number _ v => .number default v
  | .boolean _ v => .boolean default v
  | .string _ v => .string default v
  | .table _ fields => .table default (Node.renamedPairs ρ fields)
  | .unary _ op value => .unary default op (value.renamed ρ)
  | .binary _ left op right => .binary default (left.renamed ρ) op (right.renamed ρ)
  | .call _ callee args => .call default (callee.renamed ρ) (Node.renamedList ρ args)
  | .index _ object key => .index default (object.renamed ρ) (key.renamed ρ)
  | .function _ params isVararg body name note =>
    .function default (params.map ρ) isVararg (body.renamed ρ) (name.map ρ) (note.renamed ρ)
  | .declare _ names exprs note =>
    .declare default (names.map (·.renamed ρ)) (Node.renamedList ρ exprs)
      (Node.renamedOption ρ note)
  | .assign _ targets exprs =>
    .assign default (Node.renamedList ρ targets) (Node.renamedList ρ exprs)
  | .returns _ exprs => .returns default (Node.renamedList ρ exprs)
  | .branch _ condition body elseifs otherwise =>
    .branch default (condition.renamed ρ) (body.renamed ρ) (Node.renamedList ρ elseifs)
      (Node.renamedOption ρ otherwise)
  | .elseif _ condition body => .elseif default (condition.renamed ρ) (body.renamed ρ)
  | .chunk _ statements last =>
    .chunk default (Node.renamedList ρ statements) (Node.renamedOption ρ last)
  | .reveal _ expr => .reveal default (expr.renamed ρ)
  | .typeNote _ t => .typeNote default (t.renamed ρ)
  | .resultNote _ t => .resultNote default (Node.renamedResult ρ t)

/-- Some trees renamed. -/
def Node.renamedList (ρ : String → String) : List Node → List Node
  | [] => []
  | n :: ns => n.renamed ρ :: Node.renamedList ρ ns

/-- Some pairs of trees renamed. -/
def Node.renamedPairs (ρ : String → String) : List (Node × Node) → List (Node × Node)
  | [] => []
  | (k, v) :: rest => (k.renamed ρ, v.renamed ρ) :: Node.renamedPairs ρ rest

/-- A tree that may be absent renamed. -/
def Node.renamedOption (ρ : String → String) : Option Node → Option Node
  | none => none
  | some n => some (n.renamed ρ)

/-- An annotation that may be absent renamed. -/
def Node.renamedResult (ρ : String → String) : Option Ty → Option Ty
  | none => none
  | some t => some (t.renamed ρ)

end

variable {ρ : String → String}

/-! ## Trees -/

namespace Node

@[simp]
lemma renamedList_eq_map (ns : List Node) : renamedList ρ ns = ns.map (renamed ρ) := by
  induction ns with
  | nil => rfl
  | cons n ns ih => rw [renamedList, ih, List.map_cons]

@[simp]
lemma renamedPairs_eq_map (fields : List (Node × Node)) :
    renamedPairs ρ fields = fields.map (Prod.map (renamed ρ) (renamed ρ)) := by
  induction fields with
  | nil => rfl
  | cons f fields ih => rw [renamedPairs, ih, List.map_cons, Prod.map]

@[simp]
lemma renamedOption_eq_map (n : Option Node) : renamedOption ρ n = n.map (renamed ρ) := by
  cases n <;> rfl

@[simp]
lemma renamedResult_eq_map (t : Option Ty) : renamedResult ρ t = t.map (Ty.renamed ρ) := by
  cases t <;> rfl

@[simp]
lemma isPlace_renamed (n : Node) : (n.renamed ρ).isPlace = n.isPlace := by
  cases n <;> rfl

mutual

lemma size_renamed : ∀ n : Node, (n.renamed ρ).size = n.size
  | .table _ fields => by simp only [renamed, size, sizePairs_renamed fields]
  | .unary _ _ value => by simp only [renamed, size, size_renamed value]
  | .binary _ left _ right => by
    simp only [renamed, size, size_renamed left, size_renamed right]
  | .call _ callee args => by
    simp only [renamed, size, size_renamed callee, sizeList_renamed args]
  | .index _ object key => by simp only [renamed, size, size_renamed object, size_renamed key]
  | .function _ _ _ body _ _ => by simp only [renamed, size, size_renamed body]
  | .declare _ _ exprs _ => by simp only [renamed, size, sizeList_renamed exprs]
  | .assign _ targets exprs => by
    simp only [renamed, size, sizeList_renamed targets, sizeList_renamed exprs]
  | .returns _ exprs => by simp only [renamed, size, sizeList_renamed exprs]
  | .branch _ condition body elseifs otherwise => by
    simp only [renamed, size, size_renamed condition, size_renamed body, sizeList_renamed elseifs,
      sizeOption_renamed otherwise]
  | .elseif _ condition body => by
    simp only [renamed, size, size_renamed condition, size_renamed body]
  | .chunk _ statements last => by
    simp only [renamed, size, sizeList_renamed statements, sizeOption_renamed last]
  | .reveal _ expr => by simp only [renamed, size, size_renamed expr]
  | .var .. | .nil _ | .vararg _ | .number .. | .boolean .. | .string .. | .typeNote ..
  | .resultNote .. => rfl

lemma sizeList_renamed : ∀ ns : List Node, sizeList (renamedList ρ ns) = sizeList ns
  | [] => rfl
  | n :: ns => by rw [renamedList, sizeList, sizeList, size_renamed n, sizeList_renamed ns]

lemma sizePairs_renamed :
    ∀ fields : List (Node × Node), sizePairs (renamedPairs ρ fields) = sizePairs fields
  | [] => rfl
  | (k, v) :: rest => by
    rw [renamedPairs, sizePairs, sizePairs, size_renamed k, size_renamed v, sizePairs_renamed rest]

lemma sizeOption_renamed : ∀ n : Option Node, sizeOption (renamedOption ρ n) = sizeOption n
  | none => rfl
  | some n => size_renamed n

end

end Node

/-! ## Types -/

namespace Ty

@[simp]
lemma renamedList_eq_map (ts : List Ty) : renamedList ρ ts = ts.map (renamed ρ) := by
  induction ts with
  | nil => rfl
  | cons t ts ih => rw [renamedList, ih, List.map_cons]

/-- A field with its key and its value renamed. -/
abbrev renamedField (ρ : String → String) : Ty × Ty → Ty × Ty := Prod.map (renamed ρ) (renamed ρ)

/-- A check with its place and its type renamed. -/
abbrev renamedCheck (ρ : String → String) : Checked → Checked :=
  Prod.map (Node.renamed ρ) (renamed ρ)

@[simp]
lemma renamedFields_eq_map (fields : List (Ty × Ty)) :
    renamedFields ρ fields = fields.map (renamedField ρ) := by
  induction fields with
  | nil => rfl
  | cons f fields ih => rw [renamedFields, ih, List.map_cons, renamedField, Prod.map]

@[simp]
lemma renamedChecks_eq_map (checks : List Checked) :
    renamedChecks ρ checks = checks.map (renamedCheck ρ) := by
  induction checks with
  | nil => rfl
  | cons k checks ih => rw [renamedChecks, ih, List.map_cons, renamedCheck, Prod.map]

lemma renamed_con (c : String) (args : List Ty) (v : Option Literal) (checks : List Checked) :
    (con c args v checks).renamed ρ = con c (args.map (renamed ρ)) v
      (checks.map (renamedCheck ρ)) := by
  rw [renamed, renamedList_eq_map, renamedChecks_eq_map]

lemma renamed_table (fields : List (Ty × Ty)) :
    (table fields).renamed ρ = table (fields.map (renamedField ρ)) := by
  rw [renamed, renamedFields_eq_map]

lemma renamed_tuple (args : List Ty) : (tuple args).renamed ρ = tuple (args.map (renamed ρ)) :=
  renamed_con "tuple" args none []

@[simp]
lemma isNamed_renamed (t : Ty) (c : String) : (t.renamed ρ).isNamed c = t.isNamed c := by
  cases t <;> rfl

@[simp]
lemma tupleArgs?_renamed (t : Ty) :
    (t.renamed ρ).tupleArgs? = t.tupleArgs?.map (List.map (renamed ρ)) := by
  cases t with
  | con c args v checks =>
    by_cases hc : c = "tuple"
    · subst hc
      simp [renamed, tupleArgs?]
    · simp [renamed, tupleArgs?, hc]
  | var | table | union | all => rfl

@[simp]
lemma isPlainNil_renamed (t : Ty) : (t.renamed ρ).isPlainNil = t.isPlainNil := by
  cases t with
  | con c args v checks => cases args <;> cases v <;> cases checks <;> simp [renamed, isPlainNil]
  | var | table | union | all => rfl

lemma sizeList_eq_sum (ts : List Ty) : sizeList ts = (ts.map size).sum := by
  induction ts with
  | nil => rfl
  | cons t ts ih => rw [sizeList, ih, List.map_cons, List.sum_cons]

lemma sizeFields_eq_sum (fields : List (Ty × Ty)) :
    sizeFields fields = (fields.map fun f => f.1.size + f.2.size).sum := by
  induction fields with
  | nil => rfl
  | cons f fields ih => rw [sizeFields, ih, List.map_cons, List.sum_cons]

lemma freeVarsList_eq_flatMap (ts : List Ty) : freeVarsList ts = ts.flatMap freeVars := by
  induction ts with
  | nil => rfl
  | cons t ts ih => rw [freeVarsList, ih, List.flatMap_cons]

lemma freeVarsFields_eq_flatMap (fields : List (Ty × Ty)) :
    freeVarsFields fields = fields.flatMap fun f => f.1.freeVars ++ f.2.freeVars := by
  induction fields with
  | nil => rfl
  | cons f fields ih => rw [freeVarsFields, ih, List.flatMap_cons]

@[simp]
lemma size_renamed (t : Ty) : (t.renamed ρ).size = t.size := by
  induction t with
  | var => rfl
  | con c args v checks ih =>
    have hargs : args.map (size ∘ renamed ρ) = args.map size := List.map_congr_left ih
    simp only [renamed, size, renamedList_eq_map, sizeList_eq_sum, List.map_map, hargs]
  | table fields ih =>
    have hfields : fields.map ((fun f => f.1.size + f.2.size) ∘ renamedField ρ) =
        fields.map fun f => f.1.size + f.2.size := by
      refine List.map_congr_left fun f hf => ?_
      simp only [Function.comp, renamedField, Prod.map, (ih f hf).1, (ih f hf).2]
    simp only [renamed, size, renamedFields_eq_map, sizeFields_eq_sum, List.map_map, hfields]
  | union left right ihl ihr => simp only [renamed, size, ihl, ihr]
  | all x body ih => simp only [renamed, size, ih]

@[simp]
lemma freeVars_renamed (t : Ty) : (t.renamed ρ).freeVars = t.freeVars := by
  induction t with
  | var => rfl
  | con c args v checks ih =>
    simp only [renamed, freeVars, renamedList_eq_map, freeVarsList_eq_flatMap, List.flatMap_map]
    exact List.flatMap_congr ih
  | table fields ih =>
    simp only [renamed, freeVars, renamedFields_eq_map, freeVarsFields_eq_flatMap,
      List.flatMap_map, renamedField, Prod.map]
    refine List.flatMap_congr fun f hf => ?_
    rw [(ih f hf).1, (ih f hf).2]
  | union left right ihl ihr => simp only [renamed, freeVars, ihl, ihr]
  | all x body ih => simp only [renamed, freeVars, ih]

@[simp]
lemma broaden_renamed (t : Ty) : (t.renamed ρ).broaden = t.broaden.renamed ρ := by
  induction t with
  | con c args v checks ih =>
    have hargs : args.map (broaden ∘ renamed ρ) = args.map (renamed ρ ∘ broaden) :=
      List.map_congr_left ih
    simp only [renamed, broaden, renamedList_eq_map, broadenList_eq_map, List.map_map, hargs]
  | union left right ihl ihr => simp only [renamed, broaden, ihl, ihr]
  | var | table | all => rfl

@[simp]
lemma members_renamed (t : Ty) : (t.renamed ρ).members = t.members.map (renamed ρ) := by
  induction t with
  | union left right ihl ihr => simp only [renamed, members, ihl, ihr, List.map_append]
  | var | con | table | all => rfl

lemma foldl_all_renamed (names : List String) (t : Ty) :
    names.foldl (fun body x => .all x body) (t.renamed ρ) =
      (names.foldl (fun body x => .all x body) t).renamed ρ := by
  induction names generalizing t with
  | nil => rfl
  | cons x names ih => exact ih (.all x t)

@[simp]
lemma generalize_renamed (t : Ty) (fixed : List String) :
    (t.renamed ρ).generalize fixed = (t.generalize fixed).renamed ρ := by
  simp only [generalize, freeVars_renamed, foldl_all_renamed]

/-- Which variables stay free decides about the quantification, not how often they are given. -/
lemma generalize_congr (t : Ty) {fixed fixed' : List String} (h : ∀ x, x ∈ fixed ↔ x ∈ fixed') :
    t.generalize fixed = t.generalize fixed' := by
  have hcontains : ∀ x, fixed.contains x = fixed'.contains x := fun x => by
    rw [Bool.eq_iff_iff, List.contains_iff_mem, List.contains_iff_mem, h]
  simp only [generalize, hcontains]

@[simp]
lemma isArray_renamed (fields : List (Ty × Ty)) :
    isArray (fields.map (renamedField ρ)) = isArray fields := by
  simp only [isArray, List.all_map, Function.comp_def, renamedField, Prod.map, isNamed_renamed]

end Ty

/-! ## Substitutions and faults -/

/-- A substitution with the types renamed. -/
def Subst.renamed (ρ : String → String) (s : Subst) : Subst :=
  ⟨s.bindings.map (Prod.map id (Ty.renamed ρ)), s.returning⟩

/-- A circle with the types renamed. -/
def Circle.renamed (ρ : String → String) : Circle → Circle
  | .depth => .depth
  | .bindings bs t => .bindings (bs.map (Prod.map id (Ty.renamed ρ))) (t.renamed ρ)

/-- A fault with types and identifiers renamed. -/
def Fault.renamed (ρ : String → String) : Fault → Fault
  | .unknownType t => .unknownType (t.renamed ρ)
  | .unboundName x => .unboundName (ρ x)
  | @Fault.endless c => .endless (c := c.renamed ρ)
  | f => f

/-! ## Scopes -/

section Entries

variable {α β : Type} {x : String} {g : α → β} {l : List (String × α)}

lemma lookup_map_renamed (hρ : Function.Injective ρ) :
    (l.map (Prod.map ρ g)).lookup (ρ x) = (l.lookup x).map g := by
  induction l with
  | nil => rfl
  | cons p l ih =>
    obtain ⟨y, a⟩ := p
    by_cases hxy : x = y
    · subst hxy
      simp
    · have hne : (x == y) = false := by simpa using hxy
      have hne' : (ρ x == ρ y) = false := by simpa using fun h => hxy (hρ h)
      simp only [List.map_cons, Prod.map, List.lookup, hne, hne', ih]

lemma enterName_renamed (hρ : Function.Injective ρ) {a : α} :
    enterName (ρ x) (g a) (l.map (Prod.map ρ g)) = (enterName x a l).map (Prod.map ρ g) := by
  induction l with
  | nil => rfl
  | cons p l ih =>
    obtain ⟨y, b⟩ := p
    by_cases hyx : y = x
    · simp [enterName, hyx]
    · have hne : ρ y ≠ ρ x := fun h => hyx (hρ h)
      simp only [List.map_cons, Prod.map, enterName, beq_iff_eq, hyx, hne, if_false, ih]

end Entries

/-- What a local name is bound to, renamed. -/
def Binding.renamed (ρ : String → String) : Binding → Binding
  | .own t => .own (t.renamed ρ)
  | .shared => .shared

namespace Scopes

/-- Scopes with all names and types renamed. -/
def renamed (ρ : String → String) (s : Scopes) : Scopes where
  frames := s.frames.map fun frame => frame.map (Prod.map ρ (Binding.renamed ρ))
  globals := s.globals.map (Prod.map ρ (Ty.renamed ρ))

variable {s : Scopes} {x : String}

@[simp]
lemma push_renamed : (s.renamed ρ).push = s.push.renamed ρ := rfl

@[simp]
lemma pop_renamed : (s.renamed ρ).pop = s.pop.renamed ρ := by
  simp [Scopes.pop, renamed]

lemma mem_freeVars_iff {y : String} :
    y ∈ s.freeVars ↔ ∃ x t, s.local? x = some t ∧ y ∈ t.freeVars := by
  simp only [Scopes.freeVars, Scopes.locals, List.mem_flatMap, List.mem_filterMap,
    Option.map_eq_some_iff]
  constructor
  · rintro ⟨_, ⟨x, _, t, hlocal, rfl⟩, hy⟩
    exact ⟨x, t, hlocal, hy⟩
  · rintro ⟨x, t, hlocal, hy⟩
    have hx : x ∈ s.boundNames 0 := mem_boundNames_of_local? hlocal
    exact ⟨(x, t), ⟨x, List.mem_eraseDups.2 hx, t, hlocal, rfl⟩, hy⟩

lemma mem_boundNames_renamed {z : String} :
    z ∈ (s.renamed ρ).boundNames 0 ↔ ∃ x ∈ s.boundNames 0, ρ x = z := by
  simp only [boundNames, renamed, List.drop_zero, List.flatMap_map, List.map_map, List.mem_flatMap,
    List.mem_map, Function.comp, Prod.map]
  constructor
  · rintro ⟨frame, hframe, p, hp, rfl⟩
    exact ⟨p.1, ⟨frame, hframe, p, hp, rfl⟩, rfl⟩
  · rintro ⟨_, ⟨frame, hframe, p, hp, rfl⟩, rfl⟩
    exact ⟨frame, hframe, p, hp, rfl⟩

section Injective

variable (hρ : Function.Injective ρ)

include hρ

lemma global?_renamed : (s.renamed ρ).global? (ρ x) = (s.global? x).map (Ty.renamed ρ) :=
  lookup_map_renamed hρ

lemma binding?_renamed : (s.renamed ρ).binding? (ρ x) = (s.binding? x).map (Binding.renamed ρ) := by
  simp only [Scopes.binding?, renamed, List.findSome?_map, Function.comp_def,
    lookup_map_renamed hρ]
  induction s.frames with
  | nil => rfl
  | cons frame frames ih =>
    rw [List.findSome?_cons, List.findSome?_cons]
    cases frame.lookup x with
    | none => exact ih
    | some b => rfl

lemma local?_renamed : (s.renamed ρ).local? (ρ x) = (s.local? x).map (Ty.renamed ρ) := by
  rw [Scopes.local?, Scopes.local?, binding?_renamed hρ]
  cases s.binding? x with
  | none => rfl
  | some b =>
    cases b with
    | own t => rfl
    | shared => exact global?_renamed hρ

lemma isLocal_renamed : (s.renamed ρ).isLocal (ρ x) = s.isLocal x := by
  simp only [Scopes.isLocal, local?_renamed hρ, Option.isSome_map]

lemma enter_renamed {b : Binding} :
    (s.renamed ρ).enter (ρ x) (b.renamed ρ) = (s.enter x b).renamed ρ := by
  obtain ⟨frames, globals⟩ := s
  cases frames with
  | nil => rfl
  | cons frame frames =>
    simp only [Scopes.enter, renamed, List.map_cons, enterName_renamed hρ]

lemma bind_renamed {t : Ty} : (s.renamed ρ).bind (ρ x) (t.renamed ρ) = (s.bind x t).renamed ρ :=
  enter_renamed hρ (b := .own t)

lemma bindGlobal_renamed {t : Ty} :
    (s.renamed ρ).bindGlobal (ρ x) (t.renamed ρ) = (s.bindGlobal x t).renamed ρ := by
  have henter := enter_renamed hρ (s := s) (x := x) (b := .shared)
  have hglobals := enterName_renamed hρ (x := x) (g := Ty.renamed ρ) (a := t) (l := s.globals)
  simp only [Binding.renamed] at henter
  simp only [Scopes.bindGlobal, henter]
  simp only [renamed, hglobals]

lemma updateFrames_renamed {t : Ty} {frames : List Frame} :
    updateFrames (ρ x) (t.renamed ρ)
        (frames.map fun frame => frame.map (Prod.map ρ (Binding.renamed ρ))) =
      (updateFrames x t frames).map fun frame => frame.map (Prod.map ρ (Binding.renamed ρ)) := by
  induction frames with
  | nil => rfl
  | cons frame frames ih =>
    have henter := enterName_renamed hρ (x := x) (g := Binding.renamed ρ) (a := .own t) (l := frame)
    simp only [List.map_cons, updateFrames, lookup_map_renamed hρ, Option.isSome_map]
    split
    · rw [List.map_cons, ← henter]
      rfl
    · rw [List.map_cons, ih]

lemma update_renamed {t : Ty} :
    (s.renamed ρ).update (ρ x) (t.renamed ρ) = (s.update x t).renamed ρ := by
  have hglobals := enterName_renamed hρ (x := x) (g := Ty.renamed ρ) (a := t) (l := s.globals)
  rw [Scopes.update, Scopes.update, binding?_renamed hρ]
  cases s.binding? x with
  | none => rfl
  | some b =>
    cases b with
    | own u => simp only [Option.map_some, Binding.renamed, renamed, updateFrames_renamed hρ]
    | shared => simp only [Option.map_some, Binding.renamed, renamed, hglobals]

/-- The variables that are free in the types of the local names are the same after a renaming. -/
lemma mem_freeVars_renamed {y : String} : y ∈ (s.renamed ρ).freeVars ↔ y ∈ s.freeVars := by
  rw [mem_freeVars_iff, mem_freeVars_iff]
  constructor
  · rintro ⟨z, u, hlocal, hy⟩
    obtain ⟨x, _, rfl⟩ := mem_boundNames_renamed.1 (mem_boundNames_of_local? hlocal)
    rw [local?_renamed hρ, Option.map_eq_some_iff] at hlocal
    obtain ⟨t, hlocal, rfl⟩ := hlocal
    exact ⟨x, t, hlocal, by rwa [Ty.freeVars_renamed] at hy⟩
  · rintro ⟨x, t, hlocal, hy⟩
    refine ⟨ρ x, t.renamed ρ, ?_, by rwa [Ty.freeVars_renamed]⟩
    rw [local?_renamed hρ, hlocal, Option.map_some]

end Injective

end Scopes

end LuaTyping
