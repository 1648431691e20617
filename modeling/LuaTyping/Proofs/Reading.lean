import LuaTyping.Grammar.Parse
import LuaTyping.Proofs.Formation
import LuaTyping.Proofs.Freshness

set_option autoImplicit false

/-!
# Trees that are read from texts

Not every syntax tree can be written. A tree that is read from a text is a well-formed chunk, and the
types of its annotations are made up of primitive types and variables with a quote in front. The
grammar gives this alternative by alternative. The builders are partial: each of them is made for
pieces of certain forms, of which it makes a piece of a certain form, and each alternative hands its
builder no others.

## Main definitions

* `Ty.Written`, `Node.Written` — types and trees as they can be written.
* `Ty.Annotated` — written types whose variables have a quote in front.
* `Category.Yields` — the form of the pieces of a category.

## Main results

* `alternatives_make` — each alternative makes a piece of its category of the pieces of its parts.
* `Node.Formed.written` — a well-formed tree is as it can be written.
-/

namespace LuaTyping

/-- Types as annotations write them. -/
inductive Ty.Written : Ty → Prop
  | primitive (c : String) : Written (.con c [] none [])
  | var (x : String) : Written (.var x)
  | union {left right : Ty} : Written left → Written right → Written (.union left right)
  | tuple {ts : List Ty} : (∀ t ∈ ts, Written t) → Written (.con "tuple" ts none [])

lemma Ty.Written.within {P : Permit} (hvar : ∀ x, P.var x) {t : Ty} (h : t.Written) :
    t.Within P := by
  induction h with
  | primitive c => simp [checksWithin_nil]
  | var x => exact .var (hvar x)
  | union _ _ ihl ihr => exact .union ihl ihr
  | tuple _ ih => exact within_tuple_iff.2 ih

/-- Types as annotations write them, in which each variable has a quote in front. -/
def Ty.Annotated (t : Ty) : Prop := t.Written ∧ ∀ x ∈ t.names, x.toList.head? = some '\''

lemma Ty.Annotated.tuple {ts : List Ty} (h : ∀ t ∈ ts, t.Annotated) :
    (Ty.con "tuple" ts none []).Annotated := by
  refine ⟨.tuple fun t ht => (h t ht).1, fun x hx => ?_⟩
  simp only [Ty.names, Ty.namesChecks, List.append_nil] at hx
  induction ts with
  | nil => exact absurd hx List.not_mem_nil
  | cons t ts ih =>
    rcases List.mem_append.1 hx with hx | hx
    · exact (h t (by simp)).2 x hx
    · exact ih (fun u hu => h u (by simp [hu])) hx

/-- A tree is of a kind that has a rule; if it is a declaration or a function, it declares bare
names and its annotation is one with a written type. -/
def Node.Written : Node → Prop
  | .declare _ names _ note => (∀ l x, .variable l x ∉ names) ∧
      ∀ l t, note = some (.typeNote l t) → t.Written
  | .function _ _ _ _ _ note => ∀ l t, note = .resultNote l (some t) → t.Written
  | .elseif .. | .typeNote .. | .resultNote .. => False
  | _ => True

/-! ## The forms of pieces -/

namespace Piece

/-- A well-formed tree with a role. -/
def IsTree (r : Role) (p : Piece) : Prop := ∃ n, p = .node n ∧ n.Formed Ty.Annotated r

/-- A well-formed call. -/
def IsCall (p : Piece) : Prop := ∃ l callee args, p = .node (.call l callee args) ∧
  callee.Formed Ty.Annotated .expr ∧ ∀ a ∈ args, a.Formed Ty.Annotated .expr

/-- A well-formed variable or index expression. -/
def IsTarget (p : Piece) : Prop := ∃ n, p = .node n ∧ n.isPlace ∧ n.Formed Ty.Annotated .expr

/-- A type of an annotation. -/
def IsType (p : Piece) : Prop := ∃ t, p = .type t ∧ t.Annotated

/-- The annotation of a declaration. -/
def IsTypeNote (p : Piece) : Prop := ∃ l t, p = .node (.typeNote l t) ∧ t.Annotated

/-- The annotation of a function. -/
def IsResultNote (p : Piece) : Prop :=
  ∃ l t?, p = .node (.resultNote l t?) ∧ ∀ t, t? = some t → t.Annotated

/-- A lexeme. -/
def IsToken (p : Piece) : Prop := ∃ t, p = .token t

/-- Parameters of a function. -/
def IsParameters (p : Piece) : Prop := ∃ ps, p = .parameters ps

/-- A field of a table constructor, made up of expressions. -/
def IsField (p : Piece) : Prop :=
  ∃ f, p = .field f ∧ ∀ number, (Builder.fieldPair number f).1.Formed Ty.Annotated .expr ∧
    (Builder.fieldPair number f).2.Formed Ty.Annotated .expr

/-- Any number of pieces of one form. -/
def Many (P : Piece → Prop) (p : Piece) : Prop := ∃ ps, p = .many ps ∧ ∀ q ∈ ps, P q

/-- At least one piece, all of one form. -/
def Several (P : Piece → Prop) (p : Piece) : Prop :=
  ∃ ps, p = .many ps ∧ ps ≠ [] ∧ ∀ q ∈ ps, P q

variable {p : Piece}

lemma Several.many {P : Piece → Prop} : Several P p → Many P p
  | ⟨ps, hp, _, hps⟩ => ⟨ps, hp, hps⟩

lemma IsCall.expr : IsCall p → IsTree .expr p
  | ⟨l, _, _, hp, hcallee, hargs⟩ => ⟨_, hp, .call l hcallee hargs⟩

lemma IsCall.statement : IsCall p → IsTree .statement p
  | ⟨l, _, _, hp, hcallee, hargs⟩ => ⟨_, hp, .callStatement l hcallee hargs⟩

lemma IsTarget.expr : IsTarget p → IsTree .expr p
  | ⟨n, hp, _, hn⟩ => ⟨n, hp, hn⟩

end Piece

open Piece

/-- The form of the pieces of a category. -/
def Category.Yields : Category → Piece → Prop
  | .program | .chunk | .otherwise => IsTree .chunk
  | .statement | .branch | .functionAssign | .functionDeclare | .assign | .reveal | .declare =>
    IsTree .statement
  | .last | .returns => IsTree .last
  | .elseif => IsTree .elseif
  | .function | .table | .expr | .logic | .equality | .relation | .sum | .product | .power |
    .unary | .atom | .primary => IsTree .expr
  | .call => IsCall
  | .target | .property | .index => IsTarget
  | .type | .typeVariable | .tupleType | .resultNote | .resultType => IsType
  | .typeNote => IsTypeNote
  | .resultNotes => IsResultNote
  | .parameters => IsParameters
  | .field => IsField
  | .names | .moreNames => Several IsToken
  | .moreTypes | .moreNotes => Several IsType
  | .elseifs => Many (IsTree .elseif)
  | .moreElseifs => Several (IsTree .elseif)
  | .moreFields => Several IsField
  | .targets | .moreTargets => Several IsTarget
  | .args => Many (IsTree .expr)
  | .exprs | .moreExprs => Several (IsTree .expr)
  | .statements => Several (IsTree .statement)

/-- The form of the piece of a lexeme. -/
def Terminal.Yields : Terminal → Piece → Prop
  | .ellipsis | .nil | .boolean | .string | .number => IsTree .expr
  | .primitiveType | .typeVariable => IsType
  | _ => IsToken

/-- The form of the pieces of a part. -/
def Part.Yields : Part → Piece → Prop
  | .lexeme t => t.Yields
  | .category c => c.Yields

/-- Whether a part is only a mark, which leaves no piece. -/
def Part.isMark : Part → Bool
  | .lexeme t => t.isMark
  | .category _ => false

/-- The forms of the pieces that an alternative hands to its builder. -/
def Alternative.forms (a : Alternative) : List (Piece → Prop) :=
  (a.parts.filter (!·.isMark)).map Part.Yields

/-- Of all pieces of the given forms a builder makes a piece of the given form. -/
def Builder.Makes (b : Builder) (forms : List (Piece → Prop)) (form : Piece → Prop) : Prop :=
  ∀ file ps, List.Forall₂ (fun P q => P q) forms ps → ∃ p, b file ps = some p ∧ form p

/-! ## Lists of pieces -/

namespace Piece

variable {ps : List Piece}

/-- Pieces that can each be read in one way can be read so together. -/
lemma exists_mapM {α : Type} {f : Piece → Option α} {Q : α → Prop}
    (h : ∀ q ∈ ps, ∃ y, f q = some y ∧ Q y) :
    ∃ ys, ps.mapM f = some ys ∧ ys.length = ps.length ∧ ∀ y ∈ ys, Q y := by
  induction ps with
  | nil => exact ⟨[], rfl, rfl, List.forall_mem_nil _⟩
  | cons p ps ih =>
    obtain ⟨y, hy, hQ⟩ := h p List.mem_cons_self
    obtain ⟨ys, hys, hlength, hall⟩ := ih fun q hq => h q (List.mem_cons_of_mem p hq)
    refine ⟨y :: ys, ?_, congrArg (· + 1) hlength, List.forall_mem_cons.2 ⟨hQ, hall⟩⟩
    rw [List.mapM_cons, hy, hys]
    rfl

lemma exists_trees {r : Role} (h : ∀ q ∈ ps, IsTree r q) : ∃ ns, ps.mapM node? = some ns ∧
    ns.length = ps.length ∧ ∀ n ∈ ns, n.Formed Ty.Annotated r :=
  exists_mapM fun q hq => by obtain ⟨n, rfl, hn⟩ := h q hq; exact ⟨n, rfl, hn⟩

lemma exists_targets (h : ∀ q ∈ ps, IsTarget q) : ∃ ns, ps.mapM node? = some ns ∧
    ns.length = ps.length ∧ ∀ n ∈ ns, n.isPlace ∧ n.Formed Ty.Annotated .expr :=
  exists_mapM fun q hq => by obtain ⟨n, rfl, hn⟩ := h q hq; exact ⟨n, rfl, hn⟩

lemma exists_types (h : ∀ q ∈ ps, IsType q) : ∃ ts, ps.mapM type? = some ts ∧
    ts.length = ps.length ∧ ∀ t ∈ ts, t.Annotated :=
  exists_mapM fun q hq => by obtain ⟨t, rfl, ht⟩ := h q hq; exact ⟨t, rfl, ht⟩

lemma exists_fields (h : ∀ q ∈ ps, IsField q) : ∃ fs, ps.mapM field? = some fs ∧
    fs.length = ps.length ∧ ∀ f ∈ fs, IsField (.field f) :=
  exists_mapM fun q hq => by obtain ⟨f, rfl, hf⟩ := h q hq; exact ⟨f, rfl, f, rfl, hf⟩

lemma exists_tokens (h : ∀ q ∈ ps, IsToken q) : ∃ ts, ps.mapM token? = some ts := by
  obtain ⟨ts, hts, -⟩ := exists_mapM (f := token?) (Q := fun _ => True) fun q hq => by
    obtain ⟨t, rfl⟩ := h q hq
    exact ⟨t, rfl, trivial⟩
  exact ⟨ts, hts⟩

lemma exists_first {r : Role} (hne : ps ≠ []) (h : ∀ q ∈ ps, IsTree r q) :
    ∃ n ns, ps.mapM node? = some (n :: ns) ∧ ∀ m ∈ n :: ns, m.Formed Ty.Annotated r := by
  obtain ⟨ns, hns, hlength, hformed⟩ := exists_trees h
  cases ns with
  | nil => exact absurd (List.length_eq_zero_iff.1 hlength.symm) hne
  | cons n ns => exact ⟨n, ns, hns, hformed⟩

end Piece

namespace Builder

variable {b : Builder} {P Q S T form : Piece → Prop}

lemma makes_nil (h : ∀ file, ∃ p, b file [] = some p ∧ form p) : b.Makes [] form := by
  rintro file _ ⟨⟩
  exact h file

lemma makes_one (h : ∀ file x, P x → ∃ p, b file [x] = some p ∧ form p) : b.Makes [P] form := by
  rintro file _ (_ | ⟨hx, ⟨⟩⟩)
  exact h file _ hx

lemma makes_two (h : ∀ file x y, P x → Q y → ∃ p, b file [x, y] = some p ∧ form p) :
    b.Makes [P, Q] form := by
  rintro file _ (_ | ⟨hx, _ | ⟨hy, ⟨⟩⟩⟩)
  exact h file _ _ hx hy

lemma makes_three (h : ∀ file x y z, P x → Q y → S z → ∃ p, b file [x, y, z] = some p ∧ form p) :
    b.Makes [P, Q, S] form := by
  rintro file _ (_ | ⟨hx, _ | ⟨hy, _ | ⟨hz, ⟨⟩⟩⟩⟩)
  exact h file _ _ _ hx hy hz

lemma makes_four (h : ∀ file w x y z, P w → Q x → S y → T z →
    ∃ p, b file [w, x, y, z] = some p ∧ form p) : b.Makes [P, Q, S, T] form := by
  rintro file _ (_ | ⟨hw, _ | ⟨hx, _ | ⟨hy, _ | ⟨hz, ⟨⟩⟩⟩⟩⟩)
  exact h file _ _ _ _ hw hx hy hz

lemma Makes.imp {forms : List (Piece → Prop)} (h : b.Makes forms P) (himp : ∀ p, P p → Q p) :
    b.Makes forms Q :=
  fun file ps hps => (h file ps hps).imp fun p hp => ⟨hp.1, himp p hp.2⟩

lemma Makes.many {forms : List (Piece → Prop)} (h : b.Makes forms (Several P)) :
    b.Makes forms (Many P) :=
  h.imp fun _ => Several.many

/-! ### Lists -/

lemma only_makes : only.Makes [P] P := makes_one fun _ x hx => ⟨x, rfl, hx⟩

lemma start_makes : start.Makes [P] (Several P) :=
  makes_one fun _ x hx => ⟨_, rfl, [x], rfl, by simp, by simpa using hx⟩

lemma add_makes : add.Makes [Several P, P] (Several P) := by
  refine makes_two ?_
  rintro file _ y ⟨xs, rfl, -, hxs⟩ hy
  exact ⟨_, rfl, xs ++ [y], rfl, by simp, by simpa [or_imp, forall_and] using ⟨hxs, hy⟩⟩

lemma before_makes : before.Makes [P, Several P] (Several P) := by
  refine makes_two ?_
  rintro file x _ hx ⟨ys, rfl, -, hys⟩
  exact ⟨_, rfl, x :: ys, rfl, by simp, by simpa using ⟨hx, hys⟩⟩

lemma empty_makes : empty.Makes [] (Many P) :=
  makes_nil fun _ => ⟨_, rfl, [], rfl, List.forall_mem_nil _⟩

/-! ### Types and annotations -/

lemma unionType_makes : unionType.Makes [IsType, IsType] IsType := by
  refine makes_two ?_
  rintro file _ _ ⟨s, rfl, hs⟩ ⟨t, rfl, ht⟩
  refine ⟨_, rfl, _, rfl, .union hs.1 ht.1, fun x hx => ?_⟩
  rcases List.mem_append.1 hx with hx | hx
  · exact hs.2 x hx
  · exact ht.2 x hx

lemma tupleType_makes_one : tupleType.Makes [IsType] IsType := by
  refine makes_one ?_
  rintro file _ ⟨t, rfl, ht⟩
  exact ⟨_, rfl, _, rfl, .tuple (by simpa using ht)⟩

lemma tupleType_makes : tupleType.Makes [IsType, Several IsType] IsType := by
  refine makes_two ?_
  rintro file _ _ ⟨t, rfl, ht⟩ ⟨ps, rfl, -, hps⟩
  obtain ⟨ts, hts, -, hall⟩ := exists_types hps
  exact ⟨_, by rw [tupleType, hts]; rfl, _, rfl, .tuple (List.forall_mem_cons.2 ⟨ht, hall⟩)⟩

lemma typeNote_makes : typeNote.Makes [IsType] IsTypeNote := by
  refine makes_one ?_
  rintro file _ ⟨t, rfl, ht⟩
  exact ⟨_, rfl, _, t, rfl, ht⟩

lemma resultNotes_makes_nil : resultNotes.Makes [] IsResultNote :=
  makes_nil fun _ => ⟨_, rfl, _, none, rfl, by simp⟩

lemma resultNotes_makes : resultNotes.Makes [Several IsType] IsResultNote := by
  refine makes_one ?_
  rintro file _ ⟨ps, rfl, -, hps⟩
  obtain ⟨ts, hts, -, hall⟩ := exists_types hps
  refine ⟨_, by rw [resultNotes, hts]; rfl, _, _, rfl, fun t ht => ?_⟩
  exact hall t (List.mem_of_mem_getLast? ht)

lemma reveal_makes : reveal.Makes [IsTree .expr] (IsTree .statement) := by
  refine makes_one ?_
  rintro file _ ⟨n, rfl, hn⟩
  exact ⟨_, rfl, _, rfl, .reveal _ hn⟩

/-! ### Statements -/

lemma chunk_makes_nil : chunk.Makes [] (IsTree .chunk) :=
  makes_nil fun _ => ⟨_, rfl, _, rfl, .chunk _ (by simp) (by simp)⟩

lemma chunk_makes_last : chunk.Makes [IsTree .last] (IsTree .chunk) := by
  refine makes_one ?_
  rintro file _ ⟨r, rfl, hr⟩
  exact ⟨_, rfl, _, rfl, .chunk _ (by simp) (by simpa using hr)⟩

lemma chunk_makes_statements : chunk.Makes [Several (IsTree .statement)] (IsTree .chunk) := by
  refine makes_one ?_
  rintro file _ ⟨ps, rfl, -, hps⟩
  obtain ⟨ns, hns, -, hformed⟩ := exists_trees hps
  exact ⟨_, by rw [chunk, hns]; rfl, _, rfl, .chunk _ hformed (by simp)⟩

lemma chunk_makes : chunk.Makes [Several (IsTree .statement), IsTree .last] (IsTree .chunk) := by
  refine makes_two ?_
  rintro file _ _ ⟨ps, rfl, -, hps⟩ ⟨r, rfl, hr⟩
  obtain ⟨ns, hns, -, hformed⟩ := exists_trees hps
  exact ⟨_, by rw [chunk, hns]; rfl, _, rfl, .chunk _ hformed (by simpa using hr)⟩

lemma branch_makes :
    branch.Makes [IsTree .expr, IsTree .chunk, Many (IsTree .elseif)] (IsTree .statement) := by
  refine makes_three ?_
  rintro file _ _ _ ⟨c, rfl, hc⟩ ⟨body, rfl, hbody⟩ ⟨es, rfl, hes⟩
  obtain ⟨ns, hns, -, hformed⟩ := exists_trees hes
  exact ⟨_, by rw [branch, hns]; rfl, _, rfl, .branch _ hc hbody hformed (by simp)⟩

lemma branch_makes_otherwise :
    branch.Makes [IsTree .expr, IsTree .chunk, Many (IsTree .elseif), IsTree .chunk]
      (IsTree .statement) := by
  refine makes_four ?_
  rintro file _ _ _ _ ⟨c, rfl, hc⟩ ⟨body, rfl, hbody⟩ ⟨es, rfl, hes⟩ ⟨o, rfl, ho⟩
  obtain ⟨ns, hns, -, hformed⟩ := exists_trees hes
  exact ⟨_, by rw [branch, hns]; rfl, _, rfl, .branch _ hc hbody hformed (by simpa using ho)⟩

lemma elseif_makes : elseif.Makes [IsTree .expr, IsTree .chunk] (IsTree .elseif) := by
  refine makes_two ?_
  rintro file _ _ ⟨c, rfl, hc⟩ ⟨body, rfl, hbody⟩
  exact ⟨_, rfl, _, rfl, .elseif _ hc hbody⟩

lemma returns_makes_nil : returns.Makes [] (IsTree .last) :=
  makes_nil fun _ => ⟨_, rfl, _, rfl, .returns _ (by simp)⟩

lemma returns_makes : returns.Makes [Several (IsTree .expr)] (IsTree .last) := by
  refine makes_one ?_
  rintro file _ ⟨ps, rfl, hne, hps⟩
  obtain ⟨n, ns, hns, hformed⟩ := exists_first hne hps
  exact ⟨_, by rw [returns, hns]; rfl, _, rfl, .returns _ hformed⟩

lemma functionOf_formed {file : String} {params : Parameters} {l : Location} {t? : Option Ty}
    {body : Node} {name : Option String} (hbody : body.Formed Ty.Annotated .chunk)
    (ht : ∀ t, t? = some t → t.Annotated) :
    (functionOf file params body name (.resultNote l t?)).Formed Ty.Annotated .expr :=
  .function _ _ _ _ _ hbody ht

lemma function_makes_bare : function.Makes [IsResultNote, IsTree .chunk] (IsTree .expr) := by
  refine makes_two ?_
  rintro file _ _ ⟨l, t?, rfl, ht⟩ ⟨body, rfl, hbody⟩
  exact ⟨_, rfl, _, rfl, functionOf_formed hbody ht⟩

lemma function_makes :
    function.Makes [IsParameters, IsResultNote, IsTree .chunk] (IsTree .expr) := by
  refine makes_three ?_
  rintro file _ _ _ ⟨ps, rfl⟩ ⟨l, t?, rfl, ht⟩ ⟨body, rfl, hbody⟩
  exact ⟨_, rfl, _, rfl, functionOf_formed hbody ht⟩

lemma functionAssign_makes :
    functionAssign.Makes [IsToken, IsParameters, IsResultNote, IsTree .chunk]
      (IsTree .statement) := by
  refine makes_four ?_
  rintro file _ _ _ _ ⟨x, rfl⟩ ⟨ps, rfl⟩ ⟨l, t?, rfl, ht⟩ ⟨body, rfl, hbody⟩
  exact ⟨_, rfl, _, rfl, .assign _ (by simp [Node.isPlace]) (by simpa using .var _ _)
    (by simpa using functionOf_formed hbody ht)⟩

lemma functionDeclare_makes :
    functionDeclare.Makes [IsToken, IsParameters, IsResultNote, IsTree .chunk]
      (IsTree .statement) := by
  refine makes_four ?_
  rintro file _ _ _ _ ⟨x, rfl⟩ ⟨ps, rfl⟩ ⟨l, t?, rfl, ht⟩ ⟨body, rfl, hbody⟩
  exact ⟨_, rfl, _, rfl, .declare _ (by simp) (by simpa using functionOf_formed hbody ht)
    (by simp)⟩

/-- A named function without parameters is one with an empty list of them. -/
lemma makes_without_parameters (hb : ∀ file x note body, b file [.token x, .node note, .node body] =
      b file [.token x, .parameters ⟨[], false⟩, .node note, .node body])
    (h : b.Makes [IsToken, IsParameters, IsResultNote, IsTree .chunk] form) :
    b.Makes [IsToken, IsResultNote, IsTree .chunk] form := by
  refine makes_three ?_
  rintro file _ _ _ ⟨x, rfl⟩ ⟨l, t?, rfl, ht⟩ ⟨body, rfl, hbody⟩
  rw [hb]
  exact h file _ (.cons ⟨x, rfl⟩ (.cons ⟨_, rfl⟩ (.cons ⟨l, t?, rfl, ht⟩
    (.cons ⟨body, rfl, hbody⟩ .nil))))

lemma functionAssign_makes_bare :
    functionAssign.Makes [IsToken, IsResultNote, IsTree .chunk] (IsTree .statement) :=
  makes_without_parameters (fun _ _ _ _ => rfl) functionAssign_makes

lemma functionDeclare_makes_bare :
    functionDeclare.Makes [IsToken, IsResultNote, IsTree .chunk] (IsTree .statement) :=
  makes_without_parameters (fun _ _ _ _ => rfl) functionDeclare_makes

lemma parameters_makes : parameters.Makes [Several IsToken] IsParameters := by
  refine makes_one ?_
  rintro file _ ⟨ps, rfl, -, hps⟩
  obtain ⟨ts, hts⟩ := exists_tokens hps
  exact ⟨_, by rw [parameters, hts]; rfl, _, rfl⟩

lemma parameters_makes_vararg :
    parameters.Makes [Several IsToken, IsTree .expr] IsParameters := by
  refine makes_two ?_
  rintro file _ _ ⟨ps, rfl, -, hps⟩ ⟨n, rfl, -⟩
  obtain ⟨ts, hts⟩ := exists_tokens hps
  exact ⟨_, by rw [parameters, hts]; rfl, _, rfl⟩

lemma parameters_makes_only_vararg : parameters.Makes [IsTree .expr] IsParameters := by
  refine makes_one ?_
  rintro file _ ⟨n, rfl, -⟩
  exact ⟨_, rfl, _, rfl⟩

lemma targetName_makes : targetName.Makes [IsToken] IsTarget := by
  refine makes_one ?_
  rintro file _ ⟨x, rfl⟩
  exact ⟨_, rfl, _, rfl, rfl, .var _ _⟩

lemma assign_makes :
    assign.Makes [Several IsTarget, Several (IsTree .expr)] (IsTree .statement) := by
  refine makes_two ?_
  rintro file _ _ ⟨ts, rfl, -, hts⟩ ⟨ps, rfl, hne, hps⟩
  obtain ⟨targets, htargets, -, hplaces⟩ := exists_targets hts
  obtain ⟨n, ns, hns, hformed⟩ := exists_first hne hps
  exact ⟨_, by rw [assign, htargets, hns]; rfl, _, rfl, .assign _ (fun t ht => (hplaces t ht).1)
    (fun t ht => (hplaces t ht).2) hformed⟩

lemma exists_declareOf {xs ps : List Piece} {note : Option Node} (hxs : ∀ q ∈ xs, IsToken q)
    (hne : ps ≠ []) (hps : ∀ q ∈ ps, IsTree .expr q)
    (hnote : ∀ n, note = some n → ∃ l t, n = .typeNote l t ∧ t.Annotated) :
    ∃ p, declareOf xs ps note = some p ∧ IsTree .statement p := by
  obtain ⟨tokens, htokens⟩ := exists_tokens hxs
  obtain ⟨n, ns, hns, hformed⟩ := exists_first hne hps
  exact ⟨_, by rw [declareOf, htokens, hns]; rfl, _, rfl, .declare _ (by simp) hformed hnote⟩

lemma declare_makes :
    declare.Makes [Several IsToken, Several (IsTree .expr)] (IsTree .statement) := by
  refine makes_two ?_
  rintro file _ _ ⟨xs, rfl, -, hxs⟩ ⟨ps, rfl, hne, hps⟩
  exact exists_declareOf hxs hne hps (by simp)

lemma declare_makes_note :
    declare.Makes [IsTypeNote, Several IsToken, Several (IsTree .expr)] (IsTree .statement) := by
  refine makes_three ?_
  rintro file _ _ _ ⟨l, t, rfl, ht⟩ ⟨xs, rfl, -, hxs⟩ ⟨ps, rfl, hne, hps⟩
  exact exists_declareOf hxs hne hps fun n hn => ⟨l, t, (Option.some.inj hn).symm, ht⟩

/-! ### Expressions -/

lemma property_makes : property.Makes [IsTree .expr, IsToken] IsTarget := by
  refine makes_two ?_
  rintro file _ _ ⟨o, rfl, ho⟩ ⟨x, rfl⟩
  exact ⟨_, rfl, _, rfl, rfl, .index _ ho (.string _ _)⟩

lemma index_makes : index.Makes [IsTree .expr, IsTree .expr] IsTarget := by
  refine makes_two ?_
  rintro file _ _ ⟨o, rfl, ho⟩ ⟨k, rfl, hk⟩
  exact ⟨_, rfl, _, rfl, rfl, .index _ ho hk⟩

lemma call_makes : call.Makes [IsTree .expr, Many (IsTree .expr)] IsCall := by
  refine makes_two ?_
  rintro file _ _ ⟨f, rfl, hf⟩ ⟨ps, rfl, hps⟩
  obtain ⟨args, hargs, -, hformed⟩ := exists_trees hps
  exact ⟨_, by rw [call, hargs]; rfl, _, _, _, rfl, hf, hformed⟩

lemma itemField_makes : itemField.Makes [IsTree .expr] IsField := by
  refine makes_one ?_
  rintro file _ ⟨e, rfl, he⟩
  exact ⟨_, rfl, _, rfl, fun number => ⟨.number _ _, he⟩⟩

lemma namedField_makes : namedField.Makes [IsToken, IsTree .expr] IsField := by
  refine makes_two ?_
  rintro file _ _ ⟨x, rfl⟩ ⟨e, rfl, he⟩
  exact ⟨_, rfl, _, rfl, fun number => ⟨.string _ _, he⟩⟩

lemma keyedField_makes : keyedField.Makes [IsTree .expr, IsTree .expr] IsField := by
  refine makes_two ?_
  rintro file _ _ ⟨k, rfl, hk⟩ ⟨e, rfl, he⟩
  exact ⟨_, rfl, _, rfl, fun number => ⟨hk, he⟩⟩

lemma fieldPairs_formed {fs : List TableField} (hfs : ∀ f ∈ fs, IsField (.field f))
    (number : Nat) : ∀ q ∈ fieldPairs number fs,
      q.1.Formed Ty.Annotated .expr ∧ q.2.Formed Ty.Annotated .expr := by
  induction fs generalizing number with
  | nil => exact List.forall_mem_nil _
  | cons f fs ih =>
    intro q hq
    rcases List.mem_cons.1 hq with rfl | hq
    · obtain ⟨g, heq, hg⟩ := hfs f List.mem_cons_self
      cases heq
      exact hg number
    · exact ih (fun g hg => hfs g (List.mem_cons_of_mem _ hg)) (number + 1) q hq

lemma tableOf_isTree {file : String} {fs : List TableField} (hfs : ∀ f ∈ fs, IsField (.field f)) :
    IsTree .expr (.node (tableOf file fs)) :=
  ⟨_, rfl, .table _ (fun q hq => (fieldPairs_formed hfs 1 q hq).1)
    fun q hq => (fieldPairs_formed hfs 1 q hq).2⟩

lemma table_makes_nil : table.Makes [] (IsTree .expr) :=
  makes_nil fun _ => ⟨_, rfl, tableOf_isTree (by simp)⟩

lemma table_makes_one : table.Makes [IsField] (IsTree .expr) := by
  refine makes_one ?_
  rintro file _ ⟨f, rfl, hf⟩
  exact ⟨_, rfl, tableOf_isTree (by simpa using ⟨f, rfl, hf⟩)⟩

lemma table_makes : table.Makes [IsField, Several IsField] (IsTree .expr) := by
  refine makes_two ?_
  rintro file _ _ ⟨f, rfl, hf⟩ ⟨ps, rfl, -, hps⟩
  obtain ⟨fs, hfs, -, hall⟩ := exists_fields hps
  exact ⟨_, by rw [table, hfs]; rfl,
    tableOf_isTree (List.forall_mem_cons.2 ⟨⟨f, rfl, hf⟩, hall⟩)⟩

lemma binary_makes : binary.Makes [IsTree .expr, IsToken, IsTree .expr] (IsTree .expr) := by
  refine makes_three ?_
  rintro file _ _ _ ⟨x, rfl, hx⟩ ⟨op, rfl⟩ ⟨y, rfl, hy⟩
  exact ⟨_, rfl, _, rfl, .binary _ _ hx hy⟩

lemma unary_makes : unary.Makes [IsToken, IsTree .expr] (IsTree .expr) := by
  refine makes_two ?_
  rintro file _ _ ⟨op, rfl⟩ ⟨x, rfl, hx⟩
  exact ⟨_, rfl, _, rfl, .unary _ _ hx⟩

lemma reference_makes : reference.Makes [IsToken] (IsTree .expr) := by
  refine makes_one ?_
  rintro file _ ⟨x, rfl⟩
  exact ⟨_, rfl, _, rfl, .var _ _⟩

end Builder

open Builder in
/-- Each alternative of a category makes a piece of the category of all pieces of its parts. -/
lemma alternatives_make (c : Category) : ∀ a ∈ alternatives c, a.build.Makes a.forms c.Yields := by
  cases c <;> simp only [alternatives, List.forall_mem_cons, List.not_mem_nil, IsEmpty.forall_iff,
    implies_true, and_true]
  case program | typeVariable | otherwise | last | resultNote | resultType => exact only_makes
  case type => exact ⟨only_makes, only_makes, unionType_makes⟩
  case tupleType => exact ⟨tupleType_makes, tupleType_makes_one⟩
  case chunk => exact ⟨chunk_makes, chunk_makes_statements, chunk_makes_last, chunk_makes_nil⟩
  case statement =>
    exact ⟨only_makes, only_makes, only_makes, only_makes, only_makes,
      only_makes.imp fun _ => IsCall.statement, only_makes⟩
  case branch => exact ⟨branch_makes_otherwise, branch_makes⟩
  case elseifs => exact ⟨only_makes.many, empty_makes⟩
  case elseif => exact elseif_makes
  case returns => exact ⟨returns_makes, returns_makes_nil⟩
  case functionAssign => exact ⟨functionAssign_makes, functionAssign_makes_bare⟩
  case functionDeclare => exact ⟨functionDeclare_makes, functionDeclare_makes_bare⟩
  case function => exact ⟨function_makes, function_makes_bare⟩
  case parameters =>
    exact ⟨parameters_makes_vararg, parameters_makes, parameters_makes_only_vararg⟩
  case resultNotes => exact ⟨resultNotes_makes, resultNotes_makes_nil⟩
  case assign => exact assign_makes
  case target => exact ⟨targetName_makes, only_makes, only_makes⟩
  case reveal => exact reveal_makes
  case typeNote => exact typeNote_makes
  case declare => exact ⟨declare_makes_note, declare_makes⟩
  case targets | exprs | names => exact ⟨before_makes, start_makes⟩
  case property => exact property_makes
  case index => exact index_makes
  case call => exact call_makes
  case args => exact ⟨before_makes.many, start_makes.many, empty_makes⟩
  case table =>
    exact ⟨table_makes, table_makes, table_makes_one, table_makes_one, table_makes_nil⟩
  case field => exact ⟨itemField_makes, namedField_makes, keyedField_makes⟩
  case expr => exact ⟨only_makes, only_makes, only_makes⟩
  case logic | equality | relation | sum | product | power => exact ⟨binary_makes, only_makes⟩
  case unary => exact ⟨unary_makes, only_makes⟩
  case atom =>
    exact ⟨only_makes, only_makes, only_makes, only_makes, only_makes, only_makes⟩
  case primary =>
    exact ⟨reference_makes, only_makes.imp fun _ => IsTarget.expr,
      only_makes.imp fun _ => IsTarget.expr, only_makes.imp fun _ => IsCall.expr, only_makes⟩
  case moreTypes | statements | moreElseifs | moreNotes | moreTargets | moreExprs | moreNames |
      moreFields =>
    exact ⟨start_makes, add_makes⟩

/-! ## Trees as they can be written -/

/-- A well-formed tree for which there is a rule is as it can be written. -/
lemma Node.Formed.written {n : Node} {r : Role} (h : n.Formed Ty.Annotated r) (hr : r.isInferred) :
    n.Written := by
  cases h with
  | function _ _ _ _ _ _ hresult =>
    intro l t ht
    obtain ⟨_, ht⟩ := Node.resultNote.inj ht
    exact (hresult t ht).1
  | declare _ hnames _ hnote =>
    refine ⟨hnames, fun l t ht => ?_⟩
    obtain ⟨_, u, heq, hu⟩ := hnote _ ht
    obtain ⟨_, rfl⟩ := Node.typeNote.inj heq
    exact hu.1
  | elseif | typeNote | resultNote => cases hr
  | _ => trivial

end LuaTyping
