import LuaTyping.Proofs.Meanings

set_option autoImplicit false

/-!
# Tokens between spaces

A text that is made of tokens with a space before each of them. Since no lexeme but a string goes on
over a space, the lexeme of a terminal at a token is the one that it has in the token alone,
whatever follows. So what comes next in such a text can be computed from its first token.

## Main definitions

* `spaced` — the text of some tokens.
* `Terminal.takes`, `Terminal.rejects` — a token is a lexeme of a terminal, or
  does not begin with one.

## Main results

* `Terminal.lexeme?_append_spaced` — what follows a token does not change its lexeme.
* `next?_of_takes`, `next?_of_rejects` — what comes next is computed from the
  first token.
-/

namespace LuaTyping

/-- The text of some tokens, with a space before each. -/
def spaced (ts : List String) : List Char := ts.flatMap fun t => ' ' :: t.toList

@[simp] lemma spaced_nil : spaced [] = [] := rfl

@[simp] lemma spaced_cons (t : String) (ts : List String) :
    spaced (t :: ts) = ' ' :: (t.toList ++ spaced ts) := rfl

/-- Tokens that are set apart by single spaces, behind one more space. -/
lemma cons_intercalate_toList {ts : List String} (h : ts ≠ []) :
    ' ' :: (" ".intercalate ts).toList = spaced ts := by
  rw [String.toList_intercalate]
  induction ts with
  | nil => exact absurd rfl h
  | cons t ts ih =>
    cases ts with
    | nil => simp
    | cons u ts =>
      rw [spaced_cons, ← ih (List.cons_ne_nil u ts)]
      simp [List.intercalate_cons_cons]

/-! ## Lexemes at a token -/

namespace Terminal

variable {x : List Char} {ts : List String}

lemma isPrefixOf_append_spaced {s : List Char} (hs : s.all (!Text.isBlank ·)) :
    s.isPrefixOf (x ++ spaced ts) = s.isPrefixOf x := by
  induction s generalizing x with
  | nil => rfl
  | cons c s ih =>
    simp only [List.all_cons, Bool.and_eq_true, Bool.not_eq_true'] at hs
    cases x with
    | cons d x => rw [List.cons_append, List.isPrefixOf, List.isPrefixOf, ih hs.2]
    | nil =>
      cases ts with
      | nil => rfl
      | cons t ts =>
        have hc : c ≠ ' ' := fun hc => absurd (hc ▸ hs.1) (by decide)
        simp [List.isPrefixOf, hc]

lemma spelled_eq_none {spellings : List String}
    (h : ∀ s ∈ spellings, s.toList.isPrefixOf x = false) : spelled x spellings = none := by
  induction spellings with
  | nil => rfl
  | cons s spellings ih =>
    rw [spelled, h s List.mem_cons_self, if_neg Bool.false_ne_true]
    exact ih fun s' hs' => h s' (List.mem_cons_of_mem s hs')

lemma spelled_append_spaced {spellings : List String}
    (hs : spellings.all fun s => s.toList.all (!Text.isBlank ·)) :
    spelled (x ++ spaced ts) spellings = spelled x spellings := by
  induction spellings with
  | nil => rfl
  | cons s spellings ih =>
    simp only [List.all_cons, Bool.and_eq_true] at hs
    rw [spelled, spelled, isPrefixOf_append_spaced hs.1, ih hs.2]

lemma run_append_spaced {f : Char → Bool} (hf : f ' ' = false) :
    run f (x ++ spaced ts) = run f x := by
  induction x with
  | nil => cases ts <;> simp [run, hf]
  | cons c x ih => simp [run, ih]

lemma nameLength_append_spaced : nameLength (x ++ spaced ts) = nameLength x := by
  cases x with
  | nil =>
    cases ts with
    | nil => rfl
    | cons t ts => simp [nameLength, show Text.startsName ' ' = false by decide]
  | cons c x => simp [nameLength, run_append_spaced (show Text.isWord ' ' = false by decide)]

lemma digits_append_spaced : digits (x ++ spaced ts) = digits x := by
  have hspace : Text.isDigit ' ' = false := by decide
  rw [digits, digits, run_append_spaced hspace, List.drop_append_of_le_length run_le_length]
  cases hrest : x.drop (run Text.isDigit x) with
  | nil => cases ts <;> simp
  | cons c rest =>
    by_cases hc : c = '.'
    · subst hc
      simp [run_append_spaced hspace]
    · simp [hc]

/-- Whether the lexeme of a terminal at the front of a token does not go on over a space. -/
def stopsAtSpace (t : Terminal) (x : List Char) : Bool :=
  match t with
  | word s => s.toList.all (!Text.isBlank ·)
  | string => x.head? != some '"'
  | _ => true

lemma lexeme?_string_eq_none (h : x.head? ≠ some '"') : lexeme? .string x = none := by
  rw [lexeme?.eq_def]
  dsimp only
  split
  · exact absurd rfl h
  · rfl

/-- What follows a token does not change the lexeme at its front. -/
lemma lexeme?_append_spaced {t : Terminal} (ht : t.stopsAtSpace x) :
    t.lexeme? (x ++ spaced ts) = t.lexeme? x := by
  cases t with
  | word s => exact spelled_append_spaced (by simpa [stopsAtSpace] using ht)
  | primitiveType | ellipsis | logicOp | equalityOp | relationOp | additiveOp | multiplicativeOp |
    powerOp | unaryOp | nil | boolean => exact spelled_append_spaced (by decide)
  | string =>
    have hx : x.head? ≠ some '"' := by simpa [stopsAtSpace] using ht
    rw [lexeme?_string_eq_none hx, lexeme?_string_eq_none]
    cases x with
    | nil => cases ts <;> simp
    | cons c x => simpa using hx
  | typeVariable =>
    cases x with
    | nil => cases ts <;> rfl
    | cons c x =>
      by_cases hc : c = '\''
      · subst hc
        simp only [lexeme?, List.cons_append, nameLength_append_spaced]
      · simp [lexeme?, hc]
  | number =>
    cases x with
    | nil =>
      cases ts with
      | nil => rfl
      | cons t ts =>
        have h : digits ([] ++ spaced (t :: ts)) = digits [] := digits_append_spaced
        exact h
    | cons c x =>
      by_cases hc : c = '-'
      · subst hc
        simp only [lexeme?, List.cons_append, digits_append_spaced]
      · have h : digits (c :: x ++ spaced ts) = digits (c :: x) := digits_append_spaced
        simpa [lexeme?, hc] using h
  | name =>
    simp only [lexeme?, nameLength_append_spaced,
      spelled_append_spaced (show ["return"].all fun s => s.toList.all (!Text.isBlank ·) by decide)]

/-- Whether a token is a lexeme of a terminal, wherever it stands. -/
def takes (t : Terminal) (token : String) : Bool :=
  opens token && t.stopsAtSpace token.toList && t.lexeme? token.toList == some token.length

/-- Whether a token does not begin with a lexeme of a terminal, wherever it stands. -/
def rejects (t : Terminal) (token : String) : Bool :=
  opens token && t.stopsAtSpace token.toList && t.lexeme? token.toList == none

end Terminal

variable {t : Terminal} {token : String} {ts : List String}

lemma dropWhile_spaced (h : Terminal.opens token) :
    (spaced (token :: ts)).dropWhile Text.isBlank = token.toList ++ spaced ts := by
  rw [Terminal.opens] at h
  cases htoken : token.toList with
  | nil => simp [htoken] at h
  | cons c cs =>
    have hc : Text.isBlank c = false := by simpa [htoken] using h
    have hspace : Text.isBlank ' ' := by decide
    simp [htoken, hc, hspace]

lemma next?_of_takes (h : t.takes token) :
    next? t (spaced (token :: ts)) = some (token.toList, spaced ts) := by
  simp only [Terminal.takes, Bool.and_eq_true, beq_iff_eq] at h
  rw [next?, dropWhile_spaced h.1.1, Terminal.lexeme?_append_spaced h.1.2, h.2, Option.map_some,
    ← String.length_toList, List.take_left, List.drop_left]

lemma next?_of_rejects (h : t.rejects token) : next? t (spaced (token :: ts)) = none := by
  simp only [Terminal.rejects, Bool.and_eq_true, beq_iff_eq] at h
  rw [next?, dropWhile_spaced h.1.1, Terminal.lexeme?_append_spaced h.1.2, h.2, Option.map_none]

/-! ## Names -/

/-- Whether a text is a name that begins with no word that has a meaning of its own at the beginning
of an expression. -/
def isPlainName (x : String) : Bool :=
  (x.toList.head?).any Text.startsName && x.toList.all Text.isWord &&
    ["return", "not", "nil", "true", "false", "function"].all fun s =>
      !s.toList.isPrefixOf x.toList

lemma isDigit_of_startsName {c : Char} (h : Text.startsName c) : Text.isDigit c = false := by
  simp only [Text.startsName, Char.isAlpha, Char.isUpper, Char.isLower, Bool.or_eq_true,
    Bool.and_eq_true, decide_eq_true_eq, beq_iff_eq] at h
  have hrange : 57 < c.toNat ∧ c.toNat < 128 := by
    rcases h with (h | h) | rfl
    · exact ⟨Nat.lt_of_lt_of_le (by decide) (UInt32.le_iff_toNat_le.1 h.1),
        Nat.lt_of_le_of_lt (UInt32.le_iff_toNat_le.1 h.2) (by decide)⟩
    · exact ⟨Nat.lt_of_lt_of_le (by decide) (UInt32.le_iff_toNat_le.1 h.1),
        Nat.lt_of_le_of_lt (UInt32.le_iff_toNat_le.1 h.2) (by decide)⟩
    · decide
  have hdigit : c.isDigit = false := by
    rw [Char.isDigit, Bool.and_eq_false_iff]
    refine .inr (decide_eq_false fun hle => ?_)
    exact absurd (UInt32.le_iff_toNat_le.1 hle) (Nat.not_le_of_lt hrange.1)
  simp [Text.isDigit, Text.digit?, hrange.2, hdigit]

section Names

variable {x : String}

lemma opens_of_isPlainName (h : isPlainName x) : Terminal.opens x := by
  simp only [isPlainName, Bool.and_eq_true] at h
  obtain ⟨c, hc, hstarts⟩ := (Option.any_eq_true _ _).1 h.1.1
  simp [Terminal.opens, hc, Terminal.isBlank_of_startsName hstarts]

/-- A name is a lexeme as a whole. -/
lemma takes_of_isPlainName (h : isPlainName x) : Terminal.name.takes x := by
  have hopens := opens_of_isPlainName h
  simp only [isPlainName, Bool.and_eq_true, List.all_cons, Bool.not_eq_true'] at h
  obtain ⟨⟨hhead, hword⟩, hreturn, -⟩ := h
  have hname : Terminal.nameLength x.toList = some x.length := by
    rw [← String.length_toList]
    cases hx : x.toList with
    | nil => simp [hx] at hhead
    | cons c cs =>
      simp only [hx, List.head?_cons, Option.any_some, List.all_cons, Bool.and_eq_true]
        at hhead hword
      have hrun : Terminal.run Text.isWord cs = cs.length := by
        have hdrop := drop_run Text.isWord cs
        rw [List.dropWhile_eq_nil_iff.2 fun d hd => List.all_eq_true.1 hword.2 d hd,
          List.drop_eq_nil_iff] at hdrop
        exact Nat.le_antisymm Terminal.run_le_length hdrop
      rw [Terminal.nameLength, if_pos hhead, hrun, List.length_cons]
  have hspelled : Terminal.spelled x.toList ["return"] = none :=
    Terminal.spelled_eq_none (List.forall_mem_singleton.2 hreturn)
  simp [Terminal.takes, hopens, Terminal.stopsAtSpace, Terminal.lexeme?, hspelled, hname]

/-- The terminals that an expression can begin with, names apart, have no lexeme at the front of a
plain name. -/
lemma rejects_of_isPlainName (h : isPlainName x) {t : Terminal}
    (ht : t ∈ [.word "function", .ellipsis, .word ")", .unaryOp, .number, .string, .boolean, .nil,
      .word "\x7b", .word "("]) : t.rejects x := by
  have hopens := opens_of_isPlainName h
  simp only [isPlainName, Bool.and_eq_true, List.all_cons, List.all_nil, Bool.not_eq_true',
    and_true] at h
  obtain ⟨⟨hhead, -⟩, -, hnot, hnil, htrue, hfalse, hfunction⟩ := h
  obtain ⟨c, hc, hstarts⟩ := (Option.any_eq_true _ _).1 hhead
  have hne : ∀ {d}, Text.startsName d = false → c ≠ d := fun hd heq => by simp [heq, hd] at hstarts
  have hsign : ∀ {d}, Text.startsName d = false → [d].isPrefixOf x.toList = false := by
    intro d hd
    cases hx : x.toList with
    | nil => rfl
    | cons c' cs =>
      obtain rfl : c' = c := by simpa [hx] using hc
      simp [List.isPrefixOf, (hne hd).symm]
  have hheads : ∀ {u : Terminal}, u.isProper → u.heads c = false → u.lexeme? x.toList = none := by
    intro u hu hheads
    by_contra hsome
    obtain ⟨n, hn⟩ := Option.ne_none_iff_exists'.1 hsome
    have := Terminal.lexeme?_heads hu hn
    simp [hc, hheads] at this
  have hsigns : ∀ {d}, Text.startsName d = false → decide (c ∈ [d]) = false :=
    fun hd => decide_eq_false fun hmem => hne hd (List.mem_singleton.1 hmem)
  have hreject : ∀ {u : Terminal}, u.stopsAtSpace x.toList → u.lexeme? x.toList = none →
      u.rejects x := fun hstop hnone => by simp [Terminal.rejects, hopens, hstop, hnone]
  simp only [List.mem_cons, List.not_mem_nil, or_false] at ht
  rcases ht with rfl | rfl | rfl | rfl | rfl | rfl | rfl | rfl | rfl | rfl
  · exact hreject rfl (Terminal.spelled_eq_none (List.forall_mem_singleton.2 hfunction))
  · exact hreject rfl (hheads rfl (hsigns (d := '.') (by decide)))
  · exact hreject rfl (hheads (by decide) (hsigns (d := ')') (by decide)))
  · refine hreject rfl (Terminal.spelled_eq_none fun s hs => ?_)
    simp only [List.mem_cons, List.not_mem_nil, or_false] at hs
    rcases hs with rfl | rfl | rfl
    · exact hnot
    · exact hsign (d := '-') (by decide)
    · exact hsign (d := '#') (by decide)
  · have hminus : c ≠ '-' := hne (by decide)
    exact hreject rfl (hheads rfl (by simp [Terminal.heads, isDigit_of_startsName hstarts, hminus]))
  · have hquote : c ≠ '"' := hne (by decide)
    exact hreject (by simp [Terminal.stopsAtSpace, hc, hquote])
      (hheads rfl (hsigns (d := '"') (by decide)))
  · refine hreject rfl (Terminal.spelled_eq_none fun s hs => ?_)
    simp only [List.mem_cons, List.not_mem_nil, or_false] at hs
    rcases hs with rfl | rfl
    · exact htrue
    · exact hfalse
  · exact hreject rfl (Terminal.spelled_eq_none (List.forall_mem_singleton.2 hnil))
  · exact hreject rfl (hheads (by decide) (hsigns (d := '\x7b') (by decide)))
  · exact hreject rfl (hheads (by decide) (hsigns (d := '(') (by decide)))

end Names

/-! ## Strings -/

/-- The texts that can stand between quotes: characters other than quotes and backslashes, and
backslashes with a character behind them that is not the end of a line. -/
inductive Quotable : List Char → Prop
  | nil : Quotable []
  | plain {c : Char} {cs : List Char} : c ≠ '"' → c ≠ '\\' → Quotable cs → Quotable (c :: cs)
  | escaped {c : Char} {cs : List Char} : c ≠ '\n' → Quotable cs → Quotable ('\\' :: c :: cs)

/-- The token of a string. -/
def quoted (s : String) : String := "\"" ++ s ++ "\""

lemma toList_quoted (s : String) : (quoted s).toList = '"' :: (s.toList ++ ['"']) := by
  simp [quoted]

lemma opens_quoted (s : String) : Terminal.opens (quoted s) := by
  simp [Terminal.opens, toList_quoted, show Text.isBlank '"' = false by decide]

lemma Quotable.quotedRest_append {cs : List Char} (h : Quotable cs) (rest : List Char) :
    Terminal.quotedRest (cs ++ '"' :: rest) = some (cs.length + 1) := by
  induction h with
  | nil => rfl
  | plain hquote hescape _ ih =>
    rw [List.cons_append, Terminal.quotedRest.eq_def]
    simp [hescape, ih]
  | escaped hline _ ih => simp [Terminal.quotedRest, hline, ih]

/-- The token of a string is its lexeme, and all of it but the quotes is its value. -/
lemma Quotable.next?_quoted {s : String} (h : Quotable s.toList) :
    next? .string (spaced (quoted s :: ts)) = some ((quoted s).toList, spaced ts) := by
  have hlexeme : Terminal.lexeme? .string ((quoted s).toList ++ spaced ts) =
      some (quoted s).toList.length := by
    have hrest := h.quotedRest_append (spaced ts)
    simp [toList_quoted, Terminal.lexeme?, hrest]
  rw [next?, dropWhile_spaced (opens_quoted s), hlexeme,
    Option.map_some, List.take_left, List.drop_left]

lemma next?_quoted_eq_none {s : String} (ht : t.isProper) (hheads : t.heads '"' = false) :
    next? t (spaced (quoted s :: ts)) = none := by
  refine next?_eq_none ht ?_
  rw [dropWhile_spaced (opens_quoted s), toList_quoted]
  exact hheads

end LuaTyping
