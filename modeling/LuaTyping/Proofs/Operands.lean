import LuaTyping.Proofs.Meanings
import LuaTyping.Proofs.Renaming

set_option autoImplicit false

/-!
# Reading expressions without choice

The grammar of expressions is left-recursive and ambiguous, and it says nothing of where a part has
to end. For a class of texts there is no choice all the same: after an operand, an operator that
follows is taken if it is of the level at hand, and brackets that follow are taken at once. This
file describes this way to read as a relation between a text, the tree that is read and the rest of
the text, in which each rule also says what must not come next. What is read in this way is derived
by the grammar.

## Main definitions

* `Operand` — reading an operand of a level.
* `Loop` — going on with the operators of a level behind an operand.
* `Suffixes` — going on with brackets behind a name or a parenthesis.
* `Ends` — what may follow an operand of a level.

## Main results

* `Operand.readable` — what is read as an operand is derived as one.
-/

namespace LuaTyping

/-- A tree, wherever it stands. -/
def Node.bare (n : Node) : Node := n.renamed id

lemma Node.bare_call (l : Location) (f : Node) (args : List Node) :
    (Node.call l f args).bare = .call default f.bare (args.map Node.bare) := by
  rw [bare, renamed, renamedList_eq_map]
  rfl

lemma Node.bare_table (l : Location) (fields : List (Node × Node)) :
    (Node.table l fields).bare = .table default (fields.map (Prod.map Node.bare Node.bare)) := by
  rw [bare, renamed, renamedPairs_eq_map]
  rfl

/-- The category of a level: binary operators from the loosest to the tightest, unary ones, atoms
and primary expressions. -/
def Category.ofLevel : Nat → Category
  | 0 => .logic
  | 1 => .equality
  | 2 => .relation
  | 3 => .sum
  | 4 => .product
  | 5 => .power
  | 6 => .unary
  | 7 => .atom
  | _ => .primary

/-- The binary operators of a level. -/
def Terminal.ofLevel : Nat → Terminal
  | 0 => .logicOp
  | 1 => .equalityOp
  | 2 => .relationOp
  | 3 => .additiveOp
  | 4 => .multiplicativeOp
  | _ => .powerOp

/-- None of some terminals has a lexeme next. -/
def Refuses (cs : List Char) (ts : List Terminal) : Prop := ∀ t ∈ ts, next? t cs = none

/-- Neither arguments nor an index nor a property come next. -/
def NoSuffix (cs : List Char) : Prop :=
  Refuses cs [.word "(", .word "["] ∧
    ∀ x rest, next? (.word ".") cs = some (x, rest) → next? .name rest = none

mutual

/-- Reading an operand of a level from the front of a text. -/
inductive Operand : Nat → List Char → Node → List Char → Prop
  | ladder {L : Nat} {cs cs₁ rest : List Char} {a n : Node} : L < 6 →
    Refuses cs [.word "function", .ellipsis] → Operand (L + 1) cs a cs₁ → Loop L a cs₁ n rest →
      Operand L cs n rest
  | unary {cs x cs₁ rest : List Char} {n : Node} : next? .unaryOp cs = some (x, cs₁) →
    Refuses cs (Category.firsts .atom) → Operand 6 cs₁ n rest →
      Operand 6 cs (.unary default (.ofText (String.ofList x)) n) rest
  | atom {cs rest : List Char} {n : Node} : next? .unaryOp cs = none → Operand 7 cs n rest →
      Operand 6 cs n rest
  | string {cs x rest : List Char} : next? .string cs = some (x, rest) →
    Refuses cs [.number, .boolean, .nil, .word "\x7b", .name, .word "("] →
      Operand 7 cs (.string default (String.ofList ((x.drop 1).dropLast))) rest
  | table {cs x cs₁ rest : List Char} {fields : List (Node × Node)} :
    next? (.word "\x7b") cs = some (x, cs₁) →
    Refuses cs [.number, .string, .boolean, .nil, .name, .word "("] → Fields cs₁ fields rest →
      Operand 7 cs (.table default fields) rest
  | primary {cs rest : List Char} {n : Node} :
    Refuses cs [.number, .string, .boolean, .nil, .word "\x7b"] → Operand 8 cs n rest →
      Operand 7 cs n rest
  | name {cs x cs₁ rest : List Char} {n : Node} : next? .name cs = some (x, cs₁) →
    Refuses cs [.word "("] → Suffixes (.var default (String.ofList x)) cs₁ n rest →
      Operand 8 cs n rest
  | parens {cs x cs₁ cs₂ y cs₃ rest : List Char} {a n : Node} :
    next? (.word "(") cs = some (x, cs₁) → Refuses cs [.name] → Operand 0 cs₁ a cs₂ →
    next? (.word ")") cs₂ = some (y, cs₃) → Suffixes a cs₃ n rest → Operand 8 cs n rest

/-- Going on behind an operand with the operators of a level. -/
inductive Loop : Nat → Node → List Char → Node → List Char → Prop
  | stop {L : Nat} {cs : List Char} {a : Node} : next? (Terminal.ofLevel L) cs = none →
      Loop L a cs a cs
  | more {L : Nat} {cs x cs₁ cs₂ rest : List Char} {a b n : Node} :
    next? (Terminal.ofLevel L) cs = some (x, cs₁) → Operand (L + 1) cs₁ b cs₂ →
    Loop L (.binary default a (.ofText (String.ofList x)) b) cs₂ n rest → Loop L a cs n rest

/-- Going on behind a primary expression with arguments and indices. -/
inductive Suffixes : Node → List Char → Node → List Char → Prop
  | stop {cs : List Char} {a : Node} : NoSuffix cs → Suffixes a cs a cs
  | index {cs x cs₁ cs₂ y cs₃ rest : List Char} {a k n : Node} :
    next? (.word "[") cs = some (x, cs₁) → Refuses cs [.word "(", .word "."] →
    Operand 0 cs₁ k cs₂ → next? (.word "]") cs₂ = some (y, cs₃) →
    Suffixes (.index default a k) cs₃ n rest → Suffixes a cs n rest
  | call {cs x cs₁ cs₂ rest : List Char} {a n : Node} {args : List Node} :
    next? (.word "(") cs = some (x, cs₁) → Refuses cs [.word "[", .word "."] →
    Args cs₁ args cs₂ → Suffixes (.call default a args) cs₂ n rest → Suffixes a cs n rest

/-- Reading arguments behind an opening parenthesis. -/
inductive Args : List Char → List Node → List Char → Prop
  | empty {cs x rest : List Char} : next? (.word ")") cs = some (x, rest) →
    Refuses cs (Category.firsts .expr) → Args cs [] rest
  | first {cs cs₁ rest : List Char} {a : Node} {args : List Node} : Refuses cs [.word ")"] →
    Operand 0 cs a cs₁ → MoreArgs cs₁ args rest → Args cs (a :: args) rest

/-- Reading further arguments up to a closing parenthesis. -/
inductive MoreArgs : List Char → List Node → List Char → Prop
  | stop {cs x rest : List Char} : next? (.word ")") cs = some (x, rest) →
    Refuses cs [.word ","] → MoreArgs cs [] rest
  | more {cs x cs₁ cs₂ rest : List Char} {a : Node} {args : List Node} :
    next? (.word ",") cs = some (x, cs₁) → Refuses cs [.word ")"] → Operand 0 cs₁ a cs₂ →
    MoreArgs cs₂ args rest → MoreArgs cs (a :: args) rest

/-- Reading fields behind an opening brace. -/
inductive Fields : List Char → List (Node × Node) → List Char → Prop
  | empty {cs x rest : List Char} : next? (.word "\x7d") cs = some (x, rest) →
    Refuses cs (Category.firsts .field) → Fields cs [] rest
  | first {cs cs₁ rest : List Char} {k v : Node} {fields : List (Node × Node)} :
    Refuses cs [.word "\x7d"] → Field cs k v cs₁ → MoreFields cs₁ fields rest →
      Fields cs ((k, v) :: fields) rest

/-- Reading further fields up to a closing brace. -/
inductive MoreFields : List Char → List (Node × Node) → List Char → Prop
  | stop {cs x rest : List Char} : next? (.word "\x7d") cs = some (x, rest) →
    Refuses cs [.word ","] → MoreFields cs [] rest
  | more {cs x cs₁ cs₂ rest : List Char} {k v : Node} {fields : List (Node × Node)} :
    next? (.word ",") cs = some (x, cs₁) → Refuses cs [.word "\x7d"] →
    Refuses cs₁ [.word "\x7d"] → Field cs₁ k v cs₂ → MoreFields cs₂ fields rest →
      MoreFields cs ((k, v) :: fields) rest

/-- Reading a field with a key in brackets. -/
inductive Field : List Char → Node → Node → List Char → Prop
  | keyed {cs x cs₁ cs₂ y cs₃ z cs₄ rest : List Char} {k v : Node} :
    next? (.word "[") cs = some (x, cs₁) → Refuses cs (Category.firsts .expr) →
    Operand 0 cs₁ k cs₂ → next? (.word "]") cs₂ = some (y, cs₃) →
    next? (.word "=") cs₃ = some (z, cs₄) → Operand 0 cs₄ v rest → Field cs k v rest

end

/-! ## What may follow -/

/-- None of the operators that are tighter than a level follows, and no brackets. -/
def Ends (L : Nat) (cs : List Char) : Prop :=
  (∀ L', L < L' → L' < 6 → next? (Terminal.ofLevel L') cs = none) ∧ NoSuffix cs

/-- No operator follows, and no brackets. -/
def Closed (cs : List Char) : Prop := (∀ L, next? (Terminal.ofLevel L) cs = none) ∧ NoSuffix cs

lemma Closed.ends {cs : List Char} (h : Closed cs) (L : Nat) : Ends L cs :=
  ⟨fun L' _ _ => h.1 L', h.2⟩

lemma Ends.succ {L : Nat} {cs : List Char} (h : Ends L cs) : Ends (L + 1) cs :=
  ⟨fun L' hlt => h.1 L' (Nat.lt_of_succ_lt hlt), h.2⟩

lemma isProper_ofLevel (L : Nat) : (Terminal.ofLevel L).isProper := by
  rcases L with _ | _ | _ | _ | _ | L <;> rfl

lemma noSuffix_of_refuses {cs : List Char} (h : Refuses cs [.word "(", .word "[", .word "."]) :
    NoSuffix cs := by
  refine ⟨fun t ht => h t (List.mem_append_left [Terminal.word "."] ht), fun x rest hnext => ?_⟩
  rw [h (.word ".") (by simp)] at hnext
  cases hnext

lemma closed_of_blanks {cs : List Char} (h : cs.dropWhile Text.isBlank = []) : Closed cs := by
  refine ⟨fun L => next?_of_blanks (isProper_ofLevel L) h, noSuffix_of_refuses fun t ht => ?_⟩
  refine next?_of_blanks ?_ h
  revert t
  decide

lemma ofLevel_mem (L : Nat) : Terminal.ofLevel L ∈
    [.logicOp, .equalityOp, .relationOp, .additiveOp, .multiplicativeOp, .powerOp] := by
  rcases L with _ | _ | _ | _ | _ | L <;> simp [Terminal.ofLevel]

/-- A mark that no operator begins like closes an expression. -/
lemma closed_of_mark {s : String} {cs : List Char} {r : List Char × List Char}
    (hs : s ∈ [")", "]", ",", "\x7d"]) (h : next? (.word s) cs = some r) : Closed cs := by
  have hoperator : ∀ s ∈ [")", "]", ",", "\x7d"], ∀ t ∈ [Terminal.logicOp, .equalityOp,
      .relationOp, .additiveOp, .multiplicativeOp, .powerOp], (Terminal.word s).apart t := by decide
  have hsuffix : ∀ s ∈ [")", "]", ",", "\x7d"], ∀ t ∈ [Terminal.word "(", .word "[", .word "."],
      (Terminal.word s).apart t := by decide
  exact ⟨fun L => next?_eq_none_of_apart (hoperator s hs _ (ofLevel_mem L)) h,
    noSuffix_of_refuses fun t ht => next?_eq_none_of_apart (hsuffix s hs t ht) h⟩

/-- An operator that begins with a point has a second one. -/
lemma exists_points {ds : List Char} {n m : Nat} (hn : Terminal.lexeme? (.word ".") ds = some n)
    (hm : Terminal.lexeme? .additiveOp ds = some m) : ∃ ds', ds.drop n = '.' :: ds' := by
  simp only [Terminal.lexeme?, Terminal.spelled, List.isPrefixOf_iff_prefix] at hn hm
  split at hn
  · rename_i hprefix
    obtain ⟨ds', rfl⟩ := hprefix
    cases hn
    split at hm
    · rename_i hprefix
      obtain ⟨rest, hrest⟩ := hprefix
      exact ⟨rest, (List.cons.inj hrest).2.symm⟩
    · simp at hm
  · cases hn

/-- Two points are no property: behind the first one comes no name. -/
lemma noSuffix_of_additiveOp {cs : List Char} {r : List Char × List Char}
    (h : next? .additiveOp cs = some r) : NoSuffix cs := by
  have hbrackets : ∀ t ∈ [Terminal.word "(", .word "["], Terminal.additiveOp.apart t := by decide
  refine ⟨fun t ht => next?_eq_none_of_apart (hbrackets t ht) h, fun x rest hpoint => ?_⟩
  obtain ⟨n, hn, heq⟩ := Option.map_eq_some_iff.1 hpoint
  obtain ⟨m, hm, -⟩ := Option.map_eq_some_iff.1 h
  obtain ⟨ds, hds⟩ := exists_points hn hm
  cases heq
  rw [hds]
  exact next?_eq_none rfl rfl

/-- Before an operator, no tighter one comes next. -/
lemma ends_of_operator {L : Nat} {cs : List Char} {r : List Char × List Char} (hL : L < 6)
    (h : next? (Terminal.ofLevel L) cs = some r) : Ends L cs := by
  refine ⟨fun L' hlt hL' => next?_eq_none_of_apart ?_ h, ?_⟩
  · interval_cases L <;> interval_cases L' <;> decide
  · by_cases hadd : L = 3
    · subst hadd
      exact noSuffix_of_additiveOp h
    · refine noSuffix_of_refuses fun t ht => next?_eq_none_of_apart ?_ h
      revert t
      interval_cases L
      · decide
      · decide
      · decide
      · exact absurd rfl hadd
      · decide
      · decide

/-! ## Taking a reading apart -/

section Inversion

variable {L : Nat} {cs rest : List Char} {a n : Node} {r : List Char × List Char}

lemma Operand.ladder_inv (h : Operand L cs n rest) (hL : L < 6) :
    Refuses cs [.word "function", .ellipsis] ∧
      ∃ a cs₁, Operand (L + 1) cs a cs₁ ∧ Loop L a cs₁ n rest := by
  cases h with
  | ladder _ hrefuses hoperand hloop => exact ⟨hrefuses, _, _, hoperand, hloop⟩
  | _ => omega

lemma Loop.stop_inv (h : Loop L a cs n rest) (hnext : next? (Terminal.ofLevel L) cs = none) :
    n = a ∧ rest = cs := by
  cases h with
  | stop => exact ⟨rfl, rfl⟩
  | more hmore => exact nomatch hnext.symm.trans hmore

lemma Loop.more_inv (h : Loop L a cs n rest) (hnext : next? (Terminal.ofLevel L) cs = some r) :
    ∃ b cs₂, Operand (L + 1) r.2 b cs₂ ∧
      Loop L (.binary default a (.ofText (String.ofList r.1)) b) cs₂ n rest := by
  cases h with
  | stop hnone => exact nomatch hnone.symm.trans hnext
  | more hmore hoperand hloop =>
    cases hmore.symm.trans hnext
    exact ⟨_, _, hoperand, hloop⟩

lemma Suffixes.stop_inv (h : Suffixes a cs n rest) (hstop : NoSuffix cs) : n = a ∧ rest = cs := by
  cases h with
  | stop => exact ⟨rfl, rfl⟩
  | index hindex => exact nomatch (hstop.1 (.word "[") (by simp)).symm.trans hindex
  | call hcall => exact nomatch (hstop.1 (.word "(") (by simp)).symm.trans hcall

lemma Suffixes.index_inv (h : Suffixes a cs n rest) (hnext : next? (.word "[") cs = some r) :
    ∃ k cs₂ y cs₃, Operand 0 r.2 k cs₂ ∧ next? (.word "]") cs₂ = some (y, cs₃) ∧
      Suffixes (.index default a k) cs₃ n rest := by
  cases h with
  | stop hstop => exact nomatch (hstop.1 (.word "[") (by simp)).symm.trans hnext
  | index hindex _ hkey hclose hrest =>
    cases hindex.symm.trans hnext
    exact ⟨_, _, _, _, hkey, hclose, hrest⟩
  | call _ hrefuses => exact nomatch (hrefuses (.word "[") (by simp)).symm.trans hnext

lemma Suffixes.call_inv (h : Suffixes a cs n rest) (hnext : next? (.word "(") cs = some r) :
    ∃ args cs₂, Args r.2 args cs₂ ∧ Suffixes (.call default a args) cs₂ n rest := by
  cases h with
  | stop hstop => exact nomatch (hstop.1 (.word "(") (by simp)).symm.trans hnext
  | index _ hrefuses => exact nomatch (hrefuses (.word "(") (by simp)).symm.trans hnext
  | call hcall _ hargs hrest =>
    cases hcall.symm.trans hnext
    exact ⟨_, _, hargs, hrest⟩

/-- No property follows what is read. -/
lemma Suffixes.not_property (h : Suffixes a cs n rest) (hpoint : next? (.word ".") cs = some r)
    {r' : List Char × List Char} (hname : next? .name r.2 = some r') : False := by
  cases h with
  | stop hstop => exact nomatch (hstop.2 r.1 r.2 hpoint).symm.trans hname
  | index _ hrefuses => exact nomatch (hrefuses (.word ".") (by simp)).symm.trans hpoint
  | call _ hrefuses => exact nomatch (hrefuses (.word ".") (by simp)).symm.trans hpoint

lemma Args.first_inv {args : List Node} (h : Args cs args rest)
    (hfirst : ¬ Refuses cs (Category.firsts .expr)) :
    ∃ a args' cs₁, args = a :: args' ∧ Operand 0 cs a cs₁ ∧ MoreArgs cs₁ args' rest := by
  cases h with
  | empty _ hrefuses => exact absurd hrefuses hfirst
  | first _ hoperand hmore => exact ⟨_, _, _, rfl, hoperand, hmore⟩

lemma Args.empty_inv {args : List Node} (h : Args cs args rest)
    (hnext : next? (.word ")") cs = some r) : args = [] ∧ rest = r.2 := by
  cases h with
  | empty hclose =>
    cases hclose.symm.trans hnext
    exact ⟨rfl, rfl⟩
  | first hrefuses => exact nomatch (hrefuses (.word ")") (by simp)).symm.trans hnext

lemma MoreArgs.stop_inv {args : List Node} (h : MoreArgs cs args rest)
    (hnext : next? (.word ")") cs = some r) : args = [] ∧ rest = r.2 := by
  cases h with
  | stop hclose =>
    cases hclose.symm.trans hnext
    exact ⟨rfl, rfl⟩
  | more _ hrefuses => exact nomatch (hrefuses (.word ")") (by simp)).symm.trans hnext

lemma MoreArgs.more_inv {args : List Node} (h : MoreArgs cs args rest)
    (hnext : next? (.word ",") cs = some r) :
    ∃ a args' cs₁, args = a :: args' ∧ Operand 0 r.2 a cs₁ ∧ MoreArgs cs₁ args' rest := by
  cases h with
  | stop _ hrefuses => exact nomatch (hrefuses (.word ",") (by simp)).symm.trans hnext
  | more hcomma _ hoperand hmore =>
    cases hcomma.symm.trans hnext
    exact ⟨_, _, _, rfl, hoperand, hmore⟩

lemma Fields.first_inv {fields : List (Node × Node)} (h : Fields cs fields rest)
    (hfirst : ¬ Refuses cs (Category.firsts .field)) :
    ∃ k v fields' cs₁, fields = (k, v) :: fields' ∧ Field cs k v cs₁ ∧
      MoreFields cs₁ fields' rest := by
  cases h with
  | empty _ hrefuses => exact absurd hrefuses hfirst
  | first _ hfield hmore => exact ⟨_, _, _, _, rfl, hfield, hmore⟩

lemma Fields.empty_inv {fields : List (Node × Node)} (h : Fields cs fields rest)
    (hnext : next? (.word "\x7d") cs = some r) : fields = [] ∧ rest = r.2 := by
  cases h with
  | empty hclose =>
    cases hclose.symm.trans hnext
    exact ⟨rfl, rfl⟩
  | first hrefuses => exact nomatch (hrefuses (.word "\x7d") (by simp)).symm.trans hnext

lemma MoreFields.stop_inv {fields : List (Node × Node)} (h : MoreFields cs fields rest)
    (hnext : next? (.word "\x7d") cs = some r) : fields = [] ∧ rest = r.2 := by
  cases h with
  | stop hclose =>
    cases hclose.symm.trans hnext
    exact ⟨rfl, rfl⟩
  | more _ hrefuses => exact nomatch (hrefuses (.word "\x7d") (by simp)).symm.trans hnext

lemma MoreFields.more_inv {fields : List (Node × Node)} (h : MoreFields cs fields rest)
    (hnext : next? (.word ",") cs = some r) :
    Refuses r.2 [.word "\x7d"] ∧ ∃ k v fields' cs₁, fields = (k, v) :: fields' ∧
      Field r.2 k v cs₁ ∧ MoreFields cs₁ fields' rest := by
  cases h with
  | stop _ hrefuses => exact nomatch (hrefuses (.word ",") (by simp)).symm.trans hnext
  | more hcomma _ hbrace hfield hmore =>
    cases hcomma.symm.trans hnext
    exact ⟨hbrace, _, _, _, _, rfl, hfield, hmore⟩

end Inversion

/-! ## What is read is derived -/

/-- Some parts stand, one after the other, between two rests of every text that has them. -/
def Readable (parts : List Part) (cs rest : List Char) : Prop :=
  ∀ (text : List Char) (start : Nat), text.drop start = cs → start ≤ text.length →
    ∃ stop, Reads text parts start stop ∧ text.drop stop = rest ∧ stop ≤ text.length

namespace Readable

variable {part : Part} {parts : List Part} {cs mid rest : List Char}

lemma nil (cs : List Char) : Readable [] cs cs :=
  fun _ start hstart hle => ⟨start, .nil start, hstart, hle⟩

lemma cons (h : Readable [part] cs mid) (hs : Readable parts mid rest) :
    Readable (part :: parts) cs rest := by
  intro text start hstart hle
  obtain ⟨place, hpart, hplace, hle⟩ := h text start hstart hle
  obtain ⟨stop, hparts, hstop, hle⟩ := hs text place hplace hle
  exact ⟨stop, hpart.append hparts, hstop, hle⟩

lemma lexeme {t : Terminal} {x : List Char} (ht : t.isProper) (h : next? t cs = some (x, mid))
    (hs : Readable parts mid rest) : Readable (.lexeme t :: parts) cs rest := by
  refine cons (fun text start hstart _ => ?_) hs
  subst hstart
  obtain ⟨span, hspan, hrest⟩ := exists_lexemeAt?_of_next? h
  obtain ⟨hlt, hle⟩ := lexemeAt?_bounds ht hspan
  exact ⟨span.stop, (Reads.nil start).lexeme hspan hlt, hrest, hle⟩

lemma category {c : Category} {a : Alternative} (ha : a ∈ alternatives c)
    (h : Readable a.parts cs rest) : Readable [.category c] cs rest := by
  intro text start hstart hle
  obtain ⟨k, hk⟩ := List.getElem?_of_mem ha
  obtain ⟨stop, hparts, hstop, hle⟩ := h text start hstart hle
  exact ⟨stop, (Reads.nil start).category hk hparts, hstop, hle⟩

lemma expr (h : Readable [.category (.ofLevel 0)] cs rest) : Readable [.category .expr] cs rest :=
  category (a := ⟨[.category .logic], Builder.only⟩) (by simp [alternatives]) h

end Readable

lemma alternatives_ofLevel {L : Nat} (hL : L < 6) : alternatives (.ofLevel L) =
    [⟨[.category (.ofLevel L), .lexeme (.ofLevel L), .category (.ofLevel (L + 1))],
      Builder.binary⟩, ⟨[.category (.ofLevel (L + 1))], Builder.only⟩] := by
  interval_cases L <;> rfl

mutual

theorem Operand.readable {L : Nat} {cs rest : List Char} {n : Node} :
    Operand L cs n rest → Readable [.category (.ofLevel L)] cs rest
  | .ladder (L := L) hL _ h hloop =>
    hloop.readable hL (.category (a := ⟨[.category (.ofLevel (L + 1))], Builder.only⟩)
      (by simp [alternatives_ofLevel hL]) h.readable)
  | .unary hop _ h => .category (a := ⟨[.lexeme .unaryOp, .category .unary], Builder.unary⟩)
      (by simp [Category.ofLevel, alternatives]) (.lexeme rfl hop h.readable)
  | .atom _ h => .category (a := ⟨[.category .atom], Builder.only⟩)
      (by simp [Category.ofLevel, alternatives]) h.readable
  | .string h _ => .category (a := ⟨[.lexeme .string], Builder.only⟩)
      (by simp [Category.ofLevel, alternatives]) (.lexeme rfl h (.nil _))
  | .table hopen _ h => .category (a := ⟨[.category .table], Builder.only⟩)
      (by simp [Category.ofLevel, alternatives]) (h.readable hopen)
  | .primary _ h => .category (a := ⟨[.category .primary], Builder.only⟩)
      (by simp [Category.ofLevel, alternatives]) h.readable
  | .name h _ hrest => hrest.readable (.category (a := ⟨[.lexeme .name], Builder.reference⟩)
      (by simp [alternatives]) (.lexeme rfl h (.nil _)))
  | .parens hopen _ h hclose hrest => hrest.readable
      (.category (a := ⟨[mark "(", .category .expr, mark ")"], Builder.only⟩)
        (by simp [alternatives])
        (.lexeme (by decide) hopen (h.readable.expr.cons (.lexeme (by decide) hclose (.nil _)))))

theorem Loop.readable {L : Nat} {start cs rest : List Char} {a n : Node} (hL : L < 6)
    (hstart : Readable [.category (.ofLevel L)] start cs) :
    Loop L a cs n rest → Readable [.category (.ofLevel L)] start rest
  | .stop _ => hstart
  | .more hop h hloop => hloop.readable hL
      (.category (a := ⟨[.category (.ofLevel L), .lexeme (.ofLevel L),
          .category (.ofLevel (L + 1))], Builder.binary⟩) (by simp [alternatives_ofLevel hL])
        (hstart.cons (.lexeme (isProper_ofLevel L) hop h.readable)))

theorem Suffixes.readable {start cs rest : List Char} {a n : Node}
    (hstart : Readable [.category .primary] start cs) :
    Suffixes a cs n rest → Readable [.category .primary] start rest
  | .stop _ => hstart
  | .index hopen _ h hclose hrest => hrest.readable
      (.category (a := ⟨[.category .index], Builder.only⟩) (by simp [alternatives])
        (.category (List.mem_singleton_self _) (hstart.cons (.lexeme (by decide) hopen
          (h.readable.expr.cons (.lexeme (by decide) hclose (.nil _)))))))
  | .call hopen _ h hrest => hrest.readable
      (.category (a := ⟨[.category .call], Builder.only⟩) (by simp [alternatives])
        (.category (List.mem_singleton_self _) (hstart.cons (h.readable hopen))))

theorem Args.readable {start x cs rest : List Char} {args : List Node}
    (hopen : next? (.word "(") start = some (x, cs)) :
    Args cs args rest → Readable [.category .args] start rest
  | .empty hclose _ => .category (a := ⟨[mark "(", mark ")"], Builder.empty⟩)
      (by simp [alternatives]) (.lexeme (by decide) hopen (.lexeme (by decide) hclose (.nil _)))
  | .first _ h hmore => by
    obtain ⟨mid, y, hclose, hmid | hmid, -⟩ := hmore.readable
    · exact .category (a := ⟨[mark "(", .category .expr, mark ")"], Builder.start⟩)
        (by simp [alternatives]) (.lexeme (by decide) hopen
          (h.readable.expr.cons (.lexeme (by decide) (hmid ▸ hclose) (.nil _))))
    · exact .category
        (a := ⟨[mark "(", .category .expr, .category .moreExprs, mark ")"], Builder.before⟩)
        (by simp [alternatives]) (.lexeme (by decide) hopen
          (h.readable.expr.cons (hmid.cons (.lexeme (by decide) hclose (.nil _)))))

theorem MoreArgs.readable {cs rest : List Char} {args : List Node} :
    MoreArgs cs args rest → ∃ mid y, next? (.word ")") mid = some (y, rest) ∧
      (mid = cs ∨ Readable [.category .moreExprs] cs mid) ∧
      ∀ start, Readable [.category .moreExprs] start cs →
        Readable [.category .moreExprs] start mid
  | .stop hclose _ => ⟨_, _, hclose, .inl rfl, fun _ => id⟩
  | .more hcomma _ h hmore => by
    obtain ⟨mid, y, hclose, -, hmid⟩ := hmore.readable
    refine ⟨mid, y, hclose, .inr (hmid _ ?_), fun start hstart => hmid start ?_⟩
    · exact .category (a := ⟨[mark ",", .category .expr], Builder.start⟩) (by simp [alternatives])
        (.lexeme (by decide) hcomma h.readable.expr)
    · exact .category (a := ⟨[.category .moreExprs, mark ",", .category .expr], Builder.add⟩)
        (by simp [alternatives]) (hstart.cons (.lexeme (by decide) hcomma h.readable.expr))

theorem Fields.readable {start x cs rest : List Char} {fields : List (Node × Node)}
    (hopen : next? (.word "\x7b") start = some (x, cs)) :
    Fields cs fields rest → Readable [.category .table] start rest
  | .empty hclose _ => .category (a := ⟨[mark "\x7b", mark "\x7d"], Builder.table⟩)
      (by simp [alternatives]) (.lexeme (by decide) hopen (.lexeme (by decide) hclose (.nil _)))
  | .first _ h hmore => by
    obtain ⟨mid, y, hclose, hmid | hmid, -⟩ := hmore.readable
    · exact .category (a := ⟨[mark "\x7b", .category .field, mark "\x7d"], Builder.table⟩)
        (by simp [alternatives]) (.lexeme (by decide) hopen
          (h.readable.cons (.lexeme (by decide) (hmid ▸ hclose) (.nil _))))
    · exact .category
        (a := ⟨[mark "\x7b", .category .field, .category .moreFields, mark "\x7d"],
          Builder.table⟩)
        (by simp [alternatives]) (.lexeme (by decide) hopen
          (h.readable.cons (hmid.cons (.lexeme (by decide) hclose (.nil _)))))

theorem MoreFields.readable {cs rest : List Char} {fields : List (Node × Node)} :
    MoreFields cs fields rest → ∃ mid y, next? (.word "\x7d") mid = some (y, rest) ∧
      (mid = cs ∨ Readable [.category .moreFields] cs mid) ∧
      ∀ start, Readable [.category .moreFields] start cs →
        Readable [.category .moreFields] start mid
  | .stop hclose _ => ⟨_, _, hclose, .inl rfl, fun _ => id⟩
  | .more hcomma _ _ h hmore => by
    obtain ⟨mid, y, hclose, -, hmid⟩ := hmore.readable
    refine ⟨mid, y, hclose, .inr (hmid _ ?_), fun start hstart => hmid start ?_⟩
    · exact .category (a := ⟨[mark ",", .category .field], Builder.start⟩) (by simp [alternatives])
        (.lexeme (by decide) hcomma h.readable)
    · exact .category (a := ⟨[.category .moreFields, mark ",", .category .field], Builder.add⟩)
        (by simp [alternatives]) (hstart.cons (.lexeme (by decide) hcomma h.readable))

theorem Field.readable {cs rest : List Char} {k v : Node} :
    Field cs k v rest → Readable [.category .field] cs rest
  | .keyed hopen _ hk hclose hequals hv => .category
      (a := ⟨[mark "[", .category .expr, mark "]", mark "=", .category .expr],
        Builder.keyedField⟩) (by simp [alternatives])
      (.lexeme (by decide) hopen (hk.readable.expr.cons (.lexeme (by decide) hclose
        (.lexeme (by decide) hequals hv.readable.expr))))

end

end LuaTyping
