import LuaTyping.Proofs.Acceptance

set_option autoImplicit false

/-!
# Meanings of stretches of text

What a category means on a stretch of text is the meaning of one of its derivations there. Facts
about all meanings are shown alternative by alternative, with the parts of the alternative given as
lexemes and as meanings of shorter stretches. Such a stretch is given here by the rest of the text
at its beginning and at its end. A first fact of this kind: what a category means begins with one of
some terminals, and a terminal's lexeme with one of some characters.

## Main definitions

* `next?` — the next lexeme of a terminal and what comes behind it.
* `Means` — a category has a meaning on a stretch of text.
* `Parts` — the parts of an alternative, one after the other.
* `Category.firsts` — the terminals that a category can begin with.
* `Terminal.heads` — the characters that a lexeme can begin with.

## Main results

* `Means.induction` — induction on meanings, one alternative at a time.
* `Means.first` — a meaning begins with one of the first terminals of its category.
-/

namespace LuaTyping

/-! ## Lexemes -/

/-- The next lexeme of a terminal in a text, blanks before it left out, and the text behind it. -/
def next? (t : Terminal) (cs : List Char) : Option (List Char × List Char) :=
  let rest := cs.dropWhile Text.isBlank
  (t.lexeme? rest).map fun n => (rest.take n, rest.drop n)

section Lexemes

variable {text : List Char} {t : Terminal} {place : Nat}

lemma drop_run (f : Char → Bool) (cs : List Char) :
    cs.drop (Terminal.run f cs) = cs.dropWhile f := by
  induction cs with
  | nil => rfl
  | cons c cs ih =>
    by_cases hc : f c
    · simp [Terminal.run, hc, ih]
    · simp [Terminal.run, hc]

lemma next?_of_lexemeAt? {span : Span} (h : lexemeAt? t place (text.drop place) = some span) :
    next? t (text.drop place) =
      some ((text.drop span.start).take (span.stop - span.start), text.drop span.stop) := by
  rw [lexemeAt?, skipBlanks_eq_run] at h
  obtain ⟨n, hn, rfl⟩ := Option.map_eq_some_iff.1 h
  rw [drop_run] at hn
  simp only [next?, hn, Option.map_some, ← List.drop_drop, drop_run, Nat.add_sub_cancel_left]

lemma exists_lexemeAt?_of_next? {x rest : List Char}
    (h : next? t (text.drop place) = some (x, rest)) :
    ∃ span, lexemeAt? t place (text.drop place) = some span ∧ text.drop span.stop = rest := by
  obtain ⟨n, hn, heq⟩ := Option.map_eq_some_iff.1 h
  cases heq
  refine ⟨⟨place + Terminal.run Text.isBlank (text.drop place),
    place + Terminal.run Text.isBlank (text.drop place) + n⟩, ?_, ?_⟩
  · simp only [lexemeAt?, skipBlanks_eq_run, drop_run, hn, Option.map_some]
  · rw [← List.drop_drop, ← List.drop_drop, drop_run]

end Lexemes

/-! ## Meanings -/

/-- A category has a meaning on the stretch of text between two rests of it. -/
def Means (file : String) (c : Category) (cs rest : List Char) (p : Piece) : Prop :=
  ∃ (text : List Char) (start stop : Nat) (d : Derivation), d.part = .category c ∧ d.Follows ∧
    MakeUp text start d.lexemes stop ∧ d.piece? file text = some p ∧ text.drop start = cs ∧
    text.drop stop = rest

/-- The parts of an alternative stand one after the other between two rests of a text, with the
pieces that they mean; of the categories among them a property holds. -/
inductive Parts (P : Category → List Char → List Char → Piece → Prop) :
    List Part → List Char → List Char → List Piece → Prop
  | nil (cs : List Char) : Parts P [] cs cs []
  | mark {s : String} {parts : List Part} {cs x cs₁ rest : List Char} {ps : List Piece} :
    next? (.word s) cs = some (x, cs₁) → Parts P parts cs₁ rest ps →
      Parts P (.lexeme (.word s) :: parts) cs rest ps
  | lexeme {t : Terminal} {parts : List Part} {cs x cs₁ rest : List Char} {l : Location}
    {p : Piece} {ps : List Piece} : t.isMark = false → next? t cs = some (x, cs₁) →
      Piece.ofLexeme t ⟨String.ofList x, l⟩ = some p → Parts P parts cs₁ rest ps →
      Parts P (.lexeme t :: parts) cs rest (p :: ps)
  | category {c : Category} {parts : List Part} {cs cs₁ rest : List Char} {p : Piece}
    {ps : List Piece} : P c cs cs₁ p → Parts P parts cs₁ rest ps →
      Parts P (.category c :: parts) cs rest (p :: ps)

namespace Parts

variable {P : Category → List Char → List Char → Piece → Prop} {parts : List Part}
  {cs rest : List Char} {ps : List Piece}

lemma nil_inv (h : Parts P [] cs rest ps) : rest = cs ∧ ps = [] := by
  cases h
  exact ⟨rfl, rfl⟩

lemma mark_inv {s : String} (h : Parts P (.lexeme (.word s) :: parts) cs rest ps) :
    ∃ x cs₁, next? (.word s) cs = some (x, cs₁) ∧ Parts P parts cs₁ rest ps := by
  cases h with
  | mark hnext hrest => exact ⟨_, _, hnext, hrest⟩
  | lexeme hmark => cases hmark

lemma lexeme_inv {t : Terminal} (ht : t.isMark = false)
    (h : Parts P (.lexeme t :: parts) cs rest ps) :
    ∃ x cs₁ l p qs, next? t cs = some (x, cs₁) ∧ Piece.ofLexeme t ⟨String.ofList x, l⟩ = some p ∧
      ps = p :: qs ∧ Parts P parts cs₁ rest qs := by
  cases h with
  | mark => cases ht
  | lexeme _ hnext hp hrest => exact ⟨_, _, _, _, _, hnext, hp, rfl, hrest⟩

lemma category_inv {c : Category} (h : Parts P (.category c :: parts) cs rest ps) :
    ∃ cs₁ p qs, P c cs cs₁ p ∧ ps = p :: qs ∧ Parts P parts cs₁ rest qs := by
  cases h with
  | category hc hrest => exact ⟨_, _, _, hc, rfl, hrest⟩

lemma mono {Q : Category → List Char → List Char → Piece → Prop}
    (hPQ : ∀ c cs rest p, P c cs rest p → Q c cs rest p) (h : Parts P parts cs rest ps) :
    Parts Q parts cs rest ps := by
  induction h with
  | nil cs => exact .nil cs
  | mark hnext _ ih => exact .mark hnext ih
  | lexeme hmark hnext hp _ ih => exact .lexeme hmark hnext hp ih
  | category hc _ ih => exact .category (hPQ _ _ _ _ hc) ih

end Parts

namespace Means

variable {file : String} {P : Category → List Char → List Char → Piece → Prop}

/-- The derivations of the parts of a node give its parts. -/
lemma parts_of_forall {text : List Char} {ds : List Derivation} {start stop : Nat}
    {ps : List Piece} (hds : ∀ d ∈ ds, d.Follows)
    (hP : ∀ d ∈ ds, ∀ c start stop p, d.part = .category c → MakeUp text start d.lexemes stop →
      d.piece? file text = some p → P c (text.drop start) (text.drop stop) p)
    (hproper : ∀ t, .lexeme t ∈ ds.map Derivation.part → t.isProper)
    (hmake : MakeUp text start (Derivation.lexemesList ds) stop)
    (hps : Derivation.pieces? file text ds = some ps) :
    Parts (fun c cs rest p => Means file c cs rest p ∧ P c cs rest p) (ds.map Derivation.part)
      (text.drop start) (text.drop stop) ps := by
  induction ds generalizing start ps with
  | nil =>
    cases hmake
    cases hps
    exact .nil _
  | cons d ds ih =>
    obtain ⟨place, hd, hrest⟩ := hmake.append_inv
    rw [Derivation.pieces?] at hps
    obtain ⟨qs, hqs, hps⟩ := Option.bind_eq_some_iff.1 hps
    have hparts := ih (fun e he => hds e (List.mem_cons_of_mem d he))
      (fun e he => hP e (List.mem_cons_of_mem d he))
      (fun t ht => hproper t (List.mem_cons_of_mem _ ht)) hrest hqs
    cases d with
    | node c k parts =>
      obtain ⟨p, hp, heq⟩ := Option.bind_eq_some_iff.1 hps
      cases heq
      exact .category ⟨⟨text, start, place, _, rfl, hds _ List.mem_cons_self, hd, hp, rfl, rfl⟩,
        hP _ List.mem_cons_self c start place p rfl hd hp⟩ hparts
    | lexeme t span =>
      have ht : t.isProper := hproper t List.mem_cons_self
      cases hd with
      | cons hblank hmatch hstop hnil =>
        cases hnil
        have hnext := next?_of_lexemeAt? (lexemeAt?_of_blankRun ht hblank hmatch hstop)
        -- A lexeme that is no mark has its piece in front of the others.
        have hkeep : t.isMark = false →
            (((Derivation.lexeme t span).piece? file text).bind fun p => some (p :: qs)) =
              some ps →
            Parts (fun c cs rest p => Means file c cs rest p ∧ P c cs rest p)
              (((Derivation.lexeme t span) :: ds).map Derivation.part) (text.drop start)
              (text.drop stop) ps := by
          intro hmark hps
          obtain ⟨p, hp, heq⟩ := Option.bind_eq_some_iff.1 hps
          cases heq
          exact .lexeme hmark hnext hp hparts
        cases t with
        | word s =>
          cases hps
          exact .mark hnext hparts
        | _ => exact hkeep rfl hps

/-- Induction on meanings: a property of meanings that each alternative hands on from the categories
among its parts to the whole holds of all meanings. -/
theorem induction
    (step : ∀ {c : Category} {k : Nat} {a : Alternative} {cs rest : List Char} {ps : List Piece}
      {p : Piece}, (alternatives c)[k]? = some a →
      Parts (fun c cs rest p => Means file c cs rest p ∧ P c cs rest p) a.parts cs rest ps →
      a.build file ps = some p → P c cs rest p) {c : Category} {cs rest : List Char} {p : Piece}
    (h : Means file c cs rest p) : P c cs rest p := by
  obtain ⟨text, start, stop, d, hpart, hfollows, hmake, hp, rfl, rfl⟩ := h
  induction hfollows generalizing c start stop p with
  | lexeme t span => cases hpart
  | @node c' k a ds ha hparts hds ih =>
    cases hpart
    simp only [Derivation.piece?, ha, Option.bind_eq_bind, Option.bind_some,
      Option.bind_eq_some_iff] at hp
    obtain ⟨ps, hps, hp⟩ := hp
    refine step ha (hparts ▸ parts_of_forall hds (fun d hd c start stop p hpart hmake hp => ?_)
      (fun t ht => isProper_of_mem ha (hparts ▸ ht)) hmake hps) hp
    exact ih d hd start stop hpart hmake hp

lemma inv {c : Category} {cs rest : List Char} {p : Piece} (h : Means file c cs rest p) :
    ∃ a ∈ alternatives c, ∃ ps, Parts (Means file) a.parts cs rest ps ∧ a.build file ps = some p :=
  h.induction (P := fun c cs rest p => ∃ a ∈ alternatives c, ∃ ps,
    Parts (Means file) a.parts cs rest ps ∧ a.build file ps = some p)
    fun ha hparts hbuild => ⟨_, List.mem_of_getElem? ha, _, hparts.mono fun _ _ _ _ => And.left,
      hbuild⟩

end Means

/-! ## How meanings begin -/

/-- The terminals that a category which is not nullable can begin with. -/
def Category.firsts : Category → List Terminal
  | .type | .tupleType => [.primitiveType, .typeVariable]
  | .typeVariable => [.typeVariable]
  | .branch => [.word "if"]
  | .moreElseifs | .elseif => [.word "elseif"]
  | .otherwise => [.word "else"]
  | .last | .returns => [.word "return"]
  | .functionAssign | .function => [.word "function"]
  | .functionDeclare => [.word "local"]
  | .parameters => [.name, .ellipsis]
  | .moreNotes | .resultNote | .resultType | .reveal | .typeNote => [.word "--"]
  | .declare => [.word "--", .word "local"]
  | .statement | .statements =>
    [.word "--", .word "local", .word "function", .word "if", .name, .word "("]
  | .names => [.name]
  | .target | .targets | .assign | .property | .index | .call | .primary => [.name, .word "("]
  | .args => [.word "("]
  | .table => [.word "\x7b"]
  | .atom => [.number, .string, .boolean, .nil, .word "\x7b", .name, .word "("]
  | .unary | .power | .product | .sum | .relation | .equality | .logic =>
    [.unaryOp, .number, .string, .boolean, .nil, .word "\x7b", .name, .word "("]
  | .expr | .exprs =>
    [.word "function", .ellipsis, .unaryOp, .number, .string, .boolean, .nil, .word "\x7b", .name,
      .word "("]
  | .field =>
    [.word "[", .word "function", .ellipsis, .unaryOp, .number, .string, .boolean, .nil,
      .word "\x7b", .name, .word "("]
  | .moreTypes | .moreTargets | .moreExprs | .moreNames | .moreFields => [.word ","]
  | .program | .chunk | .elseifs | .resultNotes => []

/-- Whether a part begins with one of some terminals. -/
def Part.startsIn (ts : List Terminal) : Part → Bool
  | .lexeme t => t ∈ ts
  | .category c => !c.nullable && c.firsts.all (· ∈ ts)

lemma startsIn_firsts {c : Category} {k : Nat} {a : Alternative} (hc : c.nullable = false)
    (ha : (alternatives c)[k]? = some a) :
    ∃ part parts, a.parts = part :: parts ∧ part.startsIn c.firsts := by
  have hall : ∀ a ∈ alternatives c, c.nullable = false →
      a.parts.head?.any (Part.startsIn c.firsts) := by
    cases c <;> decide
  have h := hall a (List.mem_of_getElem? ha) hc
  cases hparts : a.parts with
  | nil => simp [hparts] at h
  | cons part parts => exact ⟨part, parts, rfl, by simpa [hparts] using h⟩

/-- A meaning of a category begins with one of its first terminals. -/
theorem Means.first {file : String} {c : Category} {cs rest : List Char} {p : Piece}
    (h : Means file c cs rest p) (hc : c.nullable = false) :
    ∃ t ∈ c.firsts, ∃ r, next? t cs = some r := by
  revert hc
  refine Means.induction (P := fun c cs _ _ => c.nullable = false →
    ∃ t ∈ c.firsts, ∃ r, next? t cs = some r) ?_ h
  intro c k a cs rest ps p ha hparts _ hc
  obtain ⟨part, parts, heq, hstart⟩ := startsIn_firsts hc ha
  rw [heq] at hparts
  cases hparts with
  | mark hnext => exact ⟨_, by simpa [Part.startsIn] using hstart, _, hnext⟩
  | lexeme _ hnext => exact ⟨_, by simpa [Part.startsIn] using hstart, _, hnext⟩
  | category hd =>
    simp only [Part.startsIn, Bool.and_eq_true, Bool.not_eq_true', List.all_eq_true,
      decide_eq_true_eq] at hstart
    obtain ⟨t, ht, hnext⟩ := hd.2 hstart.1
    exact ⟨t, hstart.2 t ht, hnext⟩

/-- The characters that a lexeme of a terminal can begin with, apart from the digits of a number and
the letters of a name. -/
def Terminal.signs : Terminal → List Char
  | word s => s.toList.take 1
  | primitiveType => ['b', 'n', 's']
  | typeVariable => ['\'']
  | ellipsis => ['.']
  | logicOp => ['a', 'o']
  | equalityOp => ['=', '~']
  | relationOp => ['<', '>']
  | additiveOp => ['.', '+', '-']
  | multiplicativeOp => ['*', '/', '%']
  | powerOp => ['^']
  | unaryOp => ['n', '-', '#']
  | nil => ['n']
  | boolean => ['t', 'f']
  | string => ['"']
  | number => ['-']
  | name => []

/-- Whether a lexeme of a terminal can begin with a character. -/
def Terminal.heads : Terminal → Char → Bool
  | number, c => c == '-' || Text.isDigit c
  | name, c => Text.startsName c
  | t, c => c ∈ t.signs

/-- Whether the lexemes of two terminals, of which the first is no name and no number, begin with
different characters. -/
def Terminal.apart : Terminal → Terminal → Bool
  | name, _ | number, _ => false
  | t, u => t.isProper && u.isProper && t.signs.all fun c => !u.heads c

namespace Terminal

variable {cs : List Char} {n : Nat}

lemma spelled_head {f : Char → Bool} {spellings : List String}
    (hs : ∀ s ∈ spellings, s.toList.head?.any f) (h : spelled cs spellings = some n) :
    cs.head?.any f := by
  induction spellings with
  | nil => cases h
  | cons s rest ih =>
    rw [spelled] at h
    split at h
    · rename_i hprefix
      obtain ⟨tail, rfl⟩ := List.isPrefixOf_iff_prefix.1 hprefix
      have hfirst := hs s List.mem_cons_self
      cases hlist : s.toList with
      | nil => simp [hlist] at hfirst
      | cons c cs => simpa [hlist] using hfirst
    · exact ih (fun s' hs' => hs s' (List.mem_cons_of_mem _ hs')) h

lemma nameLength_head (h : nameLength cs = some n) : cs.head?.any Text.startsName := by
  cases cs with
  | nil => cases h
  | cons c cs =>
    rw [nameLength] at h
    split at h
    · assumption
    · cases h

lemma digits_head (h : digits cs = some n) : cs.head?.any Text.isDigit := by
  cases cs with
  | nil => cases h
  | cons c cs =>
    by_cases hc : Text.isDigit c
    · exact hc
    · have hrun : run Text.isDigit (c :: cs) = 0 := by
        rw [run, if_neg hc]
      rw [digits, if_pos hrun] at h
      cases h

/-- A lexeme begins with one of the characters of its terminal. -/
lemma lexeme?_heads {t : Terminal} (ht : t.isProper) (h : t.lexeme? cs = some n) :
    cs.head?.any t.heads := by
  cases t with
  | word s =>
    refine spelled_head (List.forall_mem_singleton.2 ?_) h
    have hopens : (s.toList.head?).any (!Text.isBlank ·) := ht
    cases hlist : s.toList with
    | nil => simp [hlist] at hopens
    | cons c cs => simp [heads, signs, hlist]
  | nil | primitiveType | ellipsis | logicOp | equalityOp | relationOp | additiveOp |
    multiplicativeOp | powerOp | unaryOp | boolean => exact spelled_head (by decide) h
  | typeVariable =>
    rw [lexeme?.eq_def] at h
    dsimp only at h
    split at h
    · rfl
    · cases h
  | string =>
    rw [lexeme?.eq_def] at h
    dsimp only at h
    split at h
    · rfl
    · cases h
  | number =>
    rw [lexeme?.eq_def] at h
    dsimp only at h
    split at h
    · rfl
    · obtain ⟨c, hc, hdigit⟩ := (Option.any_eq_true _ _).1 (digits_head h)
      simp [hc, heads, hdigit]
  | name =>
    rw [lexeme?] at h
    split at h
    · cases h
    · obtain ⟨c, hc, hstarts⟩ := (Option.any_eq_true _ _).1 (nameLength_head h)
      simp [hc, heads, hstarts]

end Terminal

variable {t u : Terminal} {cs : List Char} {r : List Char × List Char}

lemma next?_heads (ht : t.isProper) (h : next? t cs = some r) :
    ((cs.dropWhile Text.isBlank).head?).any t.heads := by
  obtain ⟨n, hn, -⟩ := Option.map_eq_some_iff.1 h
  exact Terminal.lexeme?_heads ht hn

lemma next?_eq_none (ht : t.isProper)
    (h : ((cs.dropWhile Text.isBlank).head?).any t.heads = false) : next? t cs = none := by
  cases hnext : next? t cs with
  | none => rfl
  | some r => exact absurd (next?_heads ht hnext) (by simp [h])

/-- Where one of two terminals that begin differently has a lexeme next, the other has none. -/
lemma next?_eq_none_of_apart (hapart : t.apart u) (h : next? t cs = some r) :
    next? u cs = none := by
  have hsigns : t.isProper ∧ u.isProper ∧ (∀ c ∈ t.signs, u.heads c = false) ∧
      ∀ c, t.heads c → c ∈ t.signs := by
    cases t with
    | name | number => cases hapart
    | _ => simpa [Terminal.apart, Terminal.heads, and_assoc] using hapart
  refine next?_eq_none hsigns.2.1 ?_
  obtain ⟨c, hc, hhead⟩ := (Option.any_eq_true _ _).1 (next?_heads hsigns.1 h)
  rw [hc, Option.any_some]
  exact hsigns.2.2.1 c (hsigns.2.2.2 c hhead)

lemma next?_of_blanks (ht : t.isProper) (h : cs.dropWhile Text.isBlank = []) : next? t cs = none :=
  next?_eq_none ht (by simp [h])

end LuaTyping
