import Mathlib
import LuaTyping.Grammar.Terminal

set_option autoImplicit false

/-!
# Terminals as patterns

A terminal is given by a pattern over characters. A pattern may match the front of a text in several
ways, which are tried in an order of preference: an alternative before the later ones, and a
repetition as long as it can go on before it ends. The match that is taken is the first one. This
file shows that the lexeme of a terminal is this match of its pattern.

## Main definitions

* `Pattern.match?` — the match that is taken.
* `Terminal.pattern` — the pattern of a terminal.

## Main results

* `Terminal.match?_pattern` — the lexeme of a terminal is the match of its pattern.
* `Terminal.lexeme?_fronts` — a lexeme is not empty, lies within the text and does not
  begin with a blank.
-/

namespace LuaTyping

/-- A pattern over the characters of a text. -/
inductive Pattern where
  /-- One character that passes a test. -/
  | one (test : Char → Bool)
  /-- A given text. -/
  | text (s : String)
  /-- One pattern after the other. -/
  | seq (p q : Pattern)
  /-- The first pattern, or else the second. -/
  | alt (p q : Pattern)
  /-- The pattern, or else nothing. -/
  | opt (p : Pattern)
  /-- The pattern any number of times, as often as possible. -/
  | star (p : Pattern)
  /-- Nothing, where the pattern does not match. -/
  | unless (p : Pattern)
  /-- Nothing, between a character of a word and another or none. -/
  | boundary

namespace Pattern

/-- The pattern at least once, as often as possible. -/
def plus (p : Pattern) : Pattern := .seq p (.star p)

/-- One of some texts, the first that fits. -/
def oneOf : List String → Pattern
  | [] => .unless (.text "")
  | s :: rest => .alt (.text s) (oneOf rest)

/-- The character before the place that lies `n` characters on in a text, which itself has a
character before it or none. -/
def before (prev : Option Char) (cs : List Char) : Nat → Option Char
  | 0 => prev
  | n + 1 => cs[n]?

/-- The lengths of the repetitions of what `one` matches, at most `fuel` times, longer ones
first. -/
def repeated (one : Option Char → List Char → List Nat) :
    Nat → Option Char → List Char → List Nat
  | 0, _, _ => [0]
  | fuel + 1, prev, cs =>
    ((one prev cs).filter (0 < ·)).flatMap
      (fun n => (repeated one fuel (before prev cs n) (cs.drop n)).map (n + ·)) ++ [0]

/-- The lengths of the matches of a pattern at the front of a text, in the order in which they are
tried. The character before the text counts for boundaries of words. -/
@[grind =]
def lengths : Pattern → Option Char → List Char → List Nat
  | one test, _, cs => if cs.head?.any test then [1] else []
  | text s, _, cs => if s.toList.isPrefixOf cs then [s.length] else []
  | seq p q, prev, cs =>
    (p.lengths prev cs).flatMap fun n =>
      (q.lengths (before prev cs n) (cs.drop n)).map (n + ·)
  | alt p q, prev, cs => p.lengths prev cs ++ q.lengths prev cs
  | opt p, prev, cs => p.lengths prev cs ++ [0]
  | star p, prev, cs => repeated p.lengths cs.length prev cs
  | .unless p, prev, cs => if (p.lengths prev cs).isEmpty then [0] else []
  | boundary, prev, cs => if prev.any Text.isWord != cs.head?.any Text.isWord then [0] else []

/-- The length of the match of a pattern at a place of a text. -/
def match? (p : Pattern) (cs : List Char) (place : Nat) : Option Nat :=
  (p.lengths (before none cs place) (cs.drop place)).head?

end Pattern

namespace Terminal

open Pattern

/-- The pattern of a terminal. -/
def pattern : Terminal → Pattern
  | word s => .text s
  | primitiveType => oneOf ["boolean", "number", "string", "nil"]
  | typeVariable =>
    .seq (.text "'") (.seq (.one Text.startsName) (.seq (.star (.one Text.isWord)) .boundary))
  | ellipsis => oneOf ["..."]
  | logicOp => oneOf ["and", "or"]
  | equalityOp => oneOf ["==", "~="]
  | relationOp => oneOf ["<=", ">=", "<", ">"]
  | additiveOp => oneOf ["..", "+", "-"]
  | multiplicativeOp => oneOf ["*", "/", "%"]
  | powerOp => oneOf ["^"]
  | unaryOp => oneOf ["not", "-", "#"]
  | nil => .text "nil"
  | boolean => oneOf ["true", "false"]
  | string =>
    .seq (.text "\"") (.seq
      (.star (.alt (.one fun c => c != '"' && c != '\\') (.seq (.text "\\") (.one (· != '\n')))))
      (.text "\""))
  | number =>
    .seq (.opt (.text "-")) (.seq (.plus (.one Text.isDigit))
      (.opt (.seq (.text ".") (.plus (.one Text.isDigit)))))
  | name =>
    .seq (.unless (.text "return")) (.seq (.one Text.startsName) (.star (.one Text.isWord)))

end Terminal

/-! ## Matches -/

namespace Pattern

variable {p q : Pattern} {prev : Option Char} {cs : List Char} {f : Char → Bool}

@[simp]
lemma before_zero : before prev cs 0 = prev := rfl

/-- The first match of a sequence, if the second pattern matches after the first one's first
match. -/
lemma head?_seq {n m : Nat} (hp : (p.lengths prev cs).head? = some n)
    (hq : (q.lengths (before prev cs n) (cs.drop n)).head? = some m) :
    ((seq p q).lengths prev cs).head? = some (n + m) := by
  obtain ⟨ns, hns⟩ := List.head?_eq_some_iff.1 hp
  obtain ⟨ms, hms⟩ := List.head?_eq_some_iff.1 hq
  simp [lengths, hns, hms]

lemma head?_seq_of_eq {n : Nat} (hp : p.lengths prev cs = [n]) :
    ((seq p q).lengths prev cs).head? =
      ((q.lengths (before prev cs n) (cs.drop n)).head?).map (n + ·) := by
  simp [lengths, hp]

lemma lengths_seq_of_nil (hp : p.lengths prev cs = []) : (seq p q).lengths prev cs = [] := by
  simp [lengths, hp]

lemma lengths_one_cons (c : Char) :
    (one f).lengths prev (c :: cs) = if f c then [1] else [] := rfl

/-- A repetition of one character matches as many as there are, or any smaller number of them. -/
lemma lengths_star_one :
    (star (one f)).lengths prev cs = (List.range (Terminal.run f cs + 1)).reverse := by
  suffices h : ∀ fuel, cs.length ≤ fuel → ∀ prev, repeated (one f).lengths fuel prev cs =
      (List.range (Terminal.run f cs + 1)).reverse from h cs.length le_rfl prev
  induction cs with
  | nil =>
    intro fuel _ prev
    cases fuel with
    | zero => rfl
    | succ fuel => simp [repeated, lengths, Terminal.run]
  | cons c cs ih =>
    intro fuel hfuel prev
    obtain ⟨fuel, rfl⟩ : ∃ k, fuel = k + 1 := ⟨fuel - 1, by simp at hfuel; omega⟩
    have hrest := ih fuel (by simpa using hfuel) (some c)
    by_cases hc : f c
    · have hbefore : before prev (c :: cs) 1 = some c := rfl
      simp only [repeated, lengths_one_cons, hc, if_true, Terminal.run, List.filter_cons,
        Nat.lt_one_iff, decide_true, List.filter_nil, List.flatMap_cons, List.flatMap_nil,
        List.append_nil, hbefore, List.drop_succ_cons, List.drop_zero, hrest]
      rw [List.range_succ_eq_map (n := Terminal.run f cs + 1), List.reverse_cons, List.map_reverse]
      congr 2
      exact List.map_congr_left fun n _ => Nat.add_comm 1 n
    · simp [repeated, lengths_one_cons, hc, Terminal.run]

lemma head?_star_one : ((star (one f)).lengths prev cs).head? = some (Terminal.run f cs) := by
  rw [lengths_star_one, List.range_succ, List.reverse_append]
  rfl

lemma head?_oneOf (spellings : List String) :
    ((oneOf spellings).lengths prev cs).head? = Terminal.spelled cs spellings := by
  induction spellings with
  | nil => simp [oneOf, lengths, Terminal.spelled]
  | cons s rest ih =>
    by_cases hs : s.toList.isPrefixOf cs
    · simp [oneOf, lengths, Terminal.spelled, hs]
    · simp [oneOf, lengths, Terminal.spelled, hs, ih]

lemma head?_text (s : String) : ((text s).lengths prev cs).head? = Terminal.spelled cs [s] := by
  by_cases hs : s.toList.isPrefixOf cs <;> simp [lengths, Terminal.spelled, hs]

variable {c : Char}

lemma lengths_text_of_ne {s : String} (hs : s.toList = [c]) (h : ∀ rest, cs = c :: rest → False) :
    (text s).lengths prev cs = [] := by
  cases cs with
  | nil => simp [lengths, hs]
  | cons d cs =>
    have hd : c ≠ d := fun hd => h cs (by rw [hd])
    simp [lengths, hs, hd]

/-! ### Quoted strings -/

/-- A character of a quoted string: a plain one, or a backslash with the one after it. -/
def quotedChar : Pattern :=
  .alt (.one fun c => c != '"' && c != '\\') (.seq (.text "\\") (.one (· != '\n')))

lemma lengths_quotedChar_escape (hc : c ≠ '\n') :
    quotedChar.lengths prev ('\\' :: c :: cs) = [2] := by
  have hone : (one (· != '\n')).lengths (some '\\') (c :: cs) = [1] := by
    rw [lengths_one_cons, if_pos (by simpa using hc)]
  have htext : (text "\\").lengths prev ('\\' :: c :: cs) = [1] := rfl
  have hplain : (one fun c => c != '"' && c != '\\').lengths prev ('\\' :: c :: cs) = [] := rfl
  simp only [quotedChar, lengths.eq_3, lengths.eq_4, hplain, htext, List.flatMap_cons,
    List.drop_succ_cons, List.drop_zero, List.flatMap_nil]
  exact congrArg (fun l => l.map (1 + ·) ++ []) hone

lemma lengths_quotedChar_plain (hquote : c ≠ '"') (hescape : c ≠ '\\') :
    quotedChar.lengths prev (c :: cs) = [1] := by
  have hone : (one fun c => c != '"' && c != '\\').lengths prev (c :: cs) = [1] := by
    rw [lengths_one_cons, if_pos (by simp [hquote, hescape])]
  have htext : (text "\\").lengths prev (c :: cs) = [] := by
    simp [lengths, hescape.symm]
  simp only [quotedChar, lengths.eq_3, lengths.eq_4, hone, htext, List.flatMap_nil, List.append_nil]

/-- Where a character of a quoted string is the only thing that can be matched, the string goes on
behind it. -/
lemma head?_repeated_of_eq {fuel k : Nat} (hk : 0 < k) (hone : quotedChar.lengths prev cs = [k])
    (hquote : cs.head? ≠ some '"') :
    ((repeated quotedChar.lengths (fuel + 1) prev cs).flatMap fun n =>
      ((text "\"").lengths (before prev cs n) (cs.drop n)).map (n + ·)).head? =
    (((repeated quotedChar.lengths fuel (before prev cs k) (cs.drop k)).flatMap fun n =>
      ((text "\"").lengths (before (before prev cs k) (cs.drop k) n) ((cs.drop k).drop n)).map
        (n + ·)).head?).map (k + ·) := by
  have hshort : (text "\"").lengths prev cs = [] := by
    cases cs with
    | nil => rfl
    | cons c cs =>
      have hc : c ≠ '"' := by simpa using hquote
      simp [lengths, hc.symm]
  have htext : ∀ (prev' : Option Char) (ds : List Char),
      (text "\"").lengths prev' ds = (text "\"").lengths none ds := fun _ _ => rfl
  simp only [repeated, hone, List.filter_cons, hk, decide_true, if_true, List.filter_nil,
    List.flatMap_cons, List.flatMap_nil, List.append_nil, List.flatMap_append, List.flatMap_map,
    before_zero, List.drop_zero, hshort, List.map_nil]
  rw [← List.head?_map, List.map_flatMap]
  congr 1
  refine List.flatMap_congr fun n _ => ?_
  rw [htext, htext (before (before prev cs k) _ _), List.map_map, List.drop_drop]
  exact List.map_congr_left fun m _ => Nat.add_assoc k n m

/-- Where a closing quote follows the characters of a quoted string, the string ends. None of the
shorter repetitions is followed by a quote, since each is followed by a further character. -/
lemma head?_repeated_quotedChar {fuel : Nat} (hfuel : cs.length ≤ fuel) (prev : Option Char) :
    ((repeated quotedChar.lengths fuel prev cs).flatMap fun n =>
      ((text "\"").lengths (before prev cs n) (cs.drop n)).map (n + ·)).head? =
        Terminal.quotedRest cs := by
  fun_induction Terminal.quotedRest cs generalizing fuel prev with
  | case1 => cases fuel <;> rfl
  | case2 rest => cases fuel <;> rfl
  | case3 rest => cases fuel <;> rfl
  | case4 c rest hc ih =>
    obtain ⟨fuel, rfl⟩ : ∃ k, fuel = k + 1 := ⟨fuel - 1, by simp at hfuel; omega⟩
    rw [head?_repeated_of_eq (by decide) (lengths_quotedChar_escape hc) (by simp),
      List.drop_succ_cons, List.drop_succ_cons, List.drop_zero, ih (by simp at hfuel; omega)]
    exact Option.map_congr fun n _ => Nat.add_comm 2 n
  | case5 => cases fuel <;> rfl
  | case6 c rest h₁ h₂ h₃ ih =>
    obtain ⟨fuel, rfl⟩ : ∃ k, fuel = k + 1 := ⟨fuel - 1, by simp at hfuel; omega⟩
    have hescape : c ≠ '\\' := by
      rintro rfl
      cases rest with
      | nil => exact h₃ rfl rfl
      | cons d rest => exact h₂ d rest rfl rfl
    rw [head?_repeated_of_eq (by decide) (lengths_quotedChar_plain h₁ hescape) (by simpa using h₁),
      List.drop_succ_cons, List.drop_zero, ih (by simpa using hfuel)]
    exact Option.map_congr fun n _ => Nat.add_comm 1 n

end Pattern

/-! ## Lexemes -/

namespace Terminal

open Pattern

variable {prev : Option Char} {cs : List Char} {f : Char → Bool}

/-! ### Runs of characters -/

lemma any_getElem?_of_lt_run {k : Nat} (h : k < run f cs) : (cs[k]?).any f := by
  induction cs generalizing k with
  | nil => exact absurd h (Nat.not_lt_zero k)
  | cons c cs ih =>
    by_cases hc : f c
    · cases k with
      | zero => exact hc
      | succ k =>
        rw [run, if_pos hc] at h
        exact ih (Nat.lt_of_succ_lt_succ h)
    · rw [run, if_neg hc] at h
      exact absurd h (Nat.not_lt_zero k)

lemma any_head?_drop_run : ((cs.drop (run f cs)).head?).any f = false := by
  induction cs with
  | nil => rfl
  | cons c cs ih =>
    by_cases hc : f c
    · rw [run, if_pos hc, List.drop_succ_cons]
      exact ih
    · rw [run, if_neg hc, List.drop_zero]
      simpa using hc

lemma run_le_length : run f cs ≤ cs.length := by
  induction cs with
  | nil => exact le_rfl
  | cons c cs ih =>
    rw [run]
    split
    · exact Nat.succ_le_succ ih
    · exact Nat.zero_le _

/-- At least one character of a class, as many as there are. -/
lemma head?_plus_one (h : 0 < run f cs) :
    ((plus (.one f)).lengths prev cs).head? = some (run f cs) := by
  cases cs with
  | nil => exact absurd h (Nat.lt_irrefl 0)
  | cons c cs =>
    by_cases hc : f c
    · rw [plus, head?_seq_of_eq (n := 1) (by rw [lengths_one_cons, if_pos hc]),
        List.drop_succ_cons, List.drop_zero, head?_star_one, run, if_pos hc]
      exact congrArg some (Nat.add_comm 1 _)
    · rw [run, if_neg hc] at h
      exact absurd h (Nat.lt_irrefl 0)

lemma lengths_plus_one (h : run f cs = 0) : (plus (.one f)).lengths prev cs = [] := by
  refine lengths_seq_of_nil ?_
  cases cs with
  | nil => rfl
  | cons c cs =>
    by_cases hc : f c
    · rw [run, if_pos hc] at h
      exact absurd h (Nat.succ_ne_zero _)
    · rw [lengths_one_cons, if_neg hc]

/-! ### Names -/

variable {c : Char} {n : Nat}

/-- The characters that begin a name are characters of words. -/
lemma isWord_of_startsName (h : Text.startsName c) : Text.isWord c := by
  have hlt : c.toNat < 128 ∧ (c.isAlphanum || c == '_') := by
    simp only [Text.startsName, Char.isAlpha, Char.isUpper, Char.isLower, Bool.or_eq_true,
      Bool.and_eq_true, decide_eq_true_eq, beq_iff_eq] at h
    refine ⟨?_, ?_⟩
    · rcases h with (h | h) | rfl
      · exact Nat.lt_of_le_of_lt (UInt32.le_iff_toNat_le.1 h.2) (by decide)
      · exact Nat.lt_of_le_of_lt (UInt32.le_iff_toNat_le.1 h.2) (by decide)
      · decide
    · simpa [Char.isAlphanum, Char.isAlpha, Char.isUpper, Char.isLower] using
        h.imp_left Or.inl
  rw [Text.isWord, if_pos hlt.1]
  exact hlt.2

/-- The first match of a name is its length if behind its first character, the first match is the
run of the characters of a word. -/
lemma head?_startsName {tail : Pattern} (htail : ∀ c cs, Text.startsName c →
      (tail.lengths (before prev (c :: cs) 1) cs).head? = some (run Text.isWord cs)) :
    ((Pattern.seq (.one Text.startsName) tail).lengths prev cs).head? = nameLength cs := by
  cases cs with
  | nil => rfl
  | cons c cs =>
    by_cases hc : Text.startsName c
    · rw [head?_seq_of_eq (n := 1) (by rw [lengths_one_cons, if_pos hc]), List.drop_succ_cons,
        List.drop_zero, htail c cs hc, nameLength, if_pos hc]
      exact congrArg some (Nat.add_comm 1 _)
    · rw [lengths_seq_of_nil (by rw [lengths_one_cons, if_neg hc]), nameLength, if_neg hc]
      rfl

lemma head?_nameLength :
    ((Pattern.seq (.one Text.startsName) (.star (.one Text.isWord))).lengths prev cs).head? =
      nameLength cs :=
  head?_startsName fun _ _ _ => head?_star_one

/-- Behind the run of the characters of a word, the word ends. -/
lemma head?_boundary (hprev : prev.any Text.isWord) :
    ((Pattern.seq (.star (.one Text.isWord)) .boundary).lengths prev cs).head? =
      some (run Text.isWord cs) := by
  refine head?_seq head?_star_one (m := 0) ?_
  have hbefore : (before prev cs (run Text.isWord cs)).any Text.isWord := by
    cases hrun : run Text.isWord cs with
    | zero => exact hprev
    | succ k => exact any_getElem?_of_lt_run (k := k) (by omega)
  rw [lengths, hbefore, any_head?_drop_run]
  rfl

lemma head?_nameLength_boundary :
    ((Pattern.seq (.one Text.startsName)
      (.seq (.star (.one Text.isWord)) .boundary)).lengths prev cs).head? = nameLength cs :=
  head?_startsName fun _ _ hc => head?_boundary (isWord_of_startsName hc)

/-! ### Numbers -/

/-- The length of a point with digits behind it, at the front of a text. -/
def fraction : List Char → Nat
  | '.' :: rest => if run Text.isDigit rest = 0 then 0 else run Text.isDigit rest + 1
  | _ => 0

lemma digits_eq (h : run Text.isDigit cs ≠ 0) :
    digits cs = some (run Text.isDigit cs + fraction (cs.drop (run Text.isDigit cs))) := by
  rw [digits, if_neg h]
  split
  · rename_i rest hrest
    rw [hrest, fraction]
    by_cases hrun : run Text.isDigit rest = 0
    · simp [hrun]
    · simp [hrun]
      omega
  · rename_i hrest
    rw [fraction]
    · rfl
    · exact hrest

lemma head?_fraction :
    ((Pattern.opt (.seq (.text ".") (.plus (.one Text.isDigit)))).lengths prev cs).head? =
      some (fraction cs) := by
  rw [lengths, fraction.eq_def]
  split
  · rename_i rest
    have htext : (text ".").lengths prev ('.' :: rest) = [1] := rfl
    split
    · rename_i hrun
      simp [lengths.eq_3, htext, lengths_plus_one hrun]
    · rename_i hrun
      have hhead := head?_seq_of_eq (q := plus (.one Text.isDigit)) htext
      rw [List.drop_succ_cons, List.drop_zero, head?_plus_one (Nat.pos_of_ne_zero hrun)] at hhead
      simp [List.head?_append, hhead, Nat.add_comm]
  · rename_i hpoint
    rw [lengths_seq_of_nil (lengths_text_of_ne rfl hpoint)]
    rfl

/-- The digits of a number, with or without a fraction. -/
def unsigned : Pattern :=
  .seq (.plus (.one Text.isDigit)) (.opt (.seq (.text ".") (.plus (.one Text.isDigit))))

lemma lengths_unsigned (h : run Text.isDigit cs = 0) : unsigned.lengths prev cs = [] :=
  lengths_seq_of_nil (lengths_plus_one h)

lemma head?_unsigned : (unsigned.lengths prev cs).head? = digits cs := by
  by_cases hrun : run Text.isDigit cs = 0
  · rw [lengths_unsigned hrun, digits, if_pos hrun]
    rfl
  · rw [digits_eq hrun]
    exact head?_seq (head?_plus_one (Nat.pos_of_ne_zero hrun)) head?_fraction

/-- A sign is no digit, so that a number with a sign is read from behind it. -/
lemma head?_number :
    ((Pattern.seq (.opt (.text "-")) unsigned).lengths prev cs).head? = lexeme? .number cs := by
  rw [lexeme?.eq_def]
  dsimp only
  split
  · rename_i rest
    have hsign : (opt (text "-")).lengths prev ('-' :: rest) = [1, 0] := rfl
    have hzero : unsigned.lengths prev ('-' :: rest) = [] := lengths_unsigned rfl
    simp only [lengths.eq_3, hsign, List.flatMap_cons, before_zero, List.drop_zero, hzero,
      List.map_nil, List.flatMap_nil, List.append_nil, List.head?_map, List.drop_succ_cons,
      head?_unsigned]
    exact Option.map_congr fun n _ => Nat.add_comm 1 n
  · rename_i hsign
    have hnone : (opt (text "-")).lengths prev cs = [0] := by
      rw [lengths, lengths_text_of_ne rfl hsign, List.nil_append]
    rw [head?_seq_of_eq hnone, before_zero, List.drop_zero, head?_unsigned]
    simp

/-! ### All terminals -/

lemma head?_typeVariable :
    (Terminal.typeVariable.pattern.lengths prev cs).head? = lexeme? .typeVariable cs := by
  rw [lexeme?.eq_def, pattern]
  dsimp only
  split
  · rename_i rest
    have htext : (text "'").lengths prev ('\'' :: rest) = [1] := rfl
    rw [head?_seq_of_eq htext, List.drop_succ_cons, List.drop_zero, head?_nameLength_boundary]
    exact Option.map_congr fun n _ => Nat.add_comm 1 n
  · rename_i hmark
    rw [lengths_seq_of_nil (lengths_text_of_ne rfl hmark)]
    rfl

lemma head?_string : (Terminal.string.pattern.lengths prev cs).head? = lexeme? .string cs := by
  rw [lexeme?.eq_def, pattern]
  dsimp only
  split
  · rename_i rest
    have htext : (text "\"").lengths prev ('"' :: rest) = [1] := rfl
    rw [head?_seq_of_eq htext, List.drop_succ_cons, List.drop_zero, lengths, lengths.eq_6]
    erw [head?_repeated_quotedChar le_rfl]
    exact Option.map_congr fun n _ => Nat.add_comm 1 n
  · rename_i hmark
    rw [lengths_seq_of_nil (lengths_text_of_ne rfl hmark)]
    rfl

lemma head?_name : (Terminal.name.pattern.lengths prev cs).head? = lexeme? .name cs := by
  rw [lexeme?, pattern]
  by_cases hreturn : "return".toList.isPrefixOf cs
  · have hnone : (Pattern.unless (.text "return")).lengths prev cs = [] := by
      rw [lengths, lengths, if_pos hreturn]
      rfl
    rw [lengths_seq_of_nil hnone, spelled, if_pos hreturn]
    rfl
  · have hzero : (Pattern.unless (.text "return")).lengths prev cs = [0] := by
      rw [lengths, lengths, if_neg hreturn]
      rfl
    rw [head?_seq_of_eq hzero, before_zero, List.drop_zero, head?_nameLength, spelled,
      if_neg hreturn]
    simp [spelled]

lemma head?_pattern (t : Terminal) : (t.pattern.lengths prev cs).head? = t.lexeme? cs := by
  cases t with
  | word s => exact head?_text s
  | nil => exact head?_text "nil"
  | primitiveType | ellipsis | logicOp | equalityOp | relationOp | additiveOp | multiplicativeOp |
    powerOp | unaryOp | boolean => exact head?_oneOf _
  | typeVariable => exact head?_typeVariable
  | string => exact head?_string
  | number => exact head?_number
  | name => exact head?_name

/-- The lexeme of a terminal at a place of a text is the match of its pattern there. -/
theorem match?_pattern (t : Terminal) (cs : List Char) (place : Nat) :
    t.pattern.match? cs place = t.lexeme? (cs.drop place) :=
  head?_pattern t

/-! ### Where lexemes begin and end -/

/-- Some characters at the front of a text, of which the first is no blank. -/
def Fronts (n : Nat) (cs : List Char) : Prop :=
  0 < n ∧ n ≤ cs.length ∧ cs.head?.any (!Text.isBlank ·)

/-- Whether a text begins with a character that is no blank. All words of the grammar do. -/
def opens (s : String) : Bool := s.toList.head?.any (!Text.isBlank ·)

/-- A word of the grammar, or a terminal that is no word. -/
def isProper : Terminal → Bool
  | word s => opens s
  | _ => true

lemma Fronts.cons {n : Nat} {c : Char} (hc : Text.isBlank c = false) (hn : n ≤ cs.length) :
    Fronts (n + 1) (c :: cs) :=
  ⟨Nat.succ_pos n, Nat.succ_le_succ hn, by simp [hc]⟩

lemma spelled_fronts {spellings : List String} (hs : ∀ s ∈ spellings, opens s)
    (h : spelled cs spellings = some n) : Fronts n cs := by
  induction spellings with
  | nil => cases h
  | cons s rest ih =>
    rw [spelled] at h
    split at h
    · rename_i hprefix
      cases h
      obtain ⟨tail, rfl⟩ := List.isPrefixOf_iff_prefix.1 hprefix
      have hopens := hs s List.mem_cons_self
      rw [opens] at hopens
      rw [← String.length_toList]
      cases hlist : s.toList with
      | nil => simp [hlist] at hopens
      | cons c cs =>
        rw [hlist] at hopens
        exact ⟨Nat.succ_pos _, by simp, hopens⟩
    · exact ih (fun s' hs' => hs s' (List.mem_cons_of_mem _ hs')) h

lemma quotedRest_le (h : quotedRest cs = some n) : n ≤ cs.length := by
  fun_induction quotedRest cs generalizing n with
  | case1 | case3 | case5 => cases h
  | case2 rest =>
    cases h
    simp
  | case4 c rest hc ih =>
    obtain ⟨m, hm, rfl⟩ := Option.map_eq_some_iff.1 h
    simpa using ih hm
  | case6 c rest _ _ _ ih =>
    obtain ⟨m, hm, rfl⟩ := Option.map_eq_some_iff.1 h
    simpa using ih hm

lemma inRanges_eq_false {ranges : List (Nat × Nat)} {low high : Nat}
    (h : ∀ r ∈ ranges, high < r.1 ∨ r.2 < low) (hlow : low ≤ n) (hhigh : n ≤ high) :
    Text.inRanges ranges n = false := by
  simp only [Text.inRanges, List.any_eq_false, Bool.and_eq_true, decide_eq_true_eq, not_and]
  intro r hr _ _
  rcases h r hr with h | h <;> omega

lemma isBlank_of_isDigit (h : Text.isDigit c) : Text.isBlank c = false := by
  obtain ⟨value, hvalue⟩ := Option.isSome_iff_exists.1 h
  rw [Text.digit?] at hvalue
  split at hvalue
  · split at hvalue
    · rename_i hdigit
      simp only [Char.isDigit, Bool.and_eq_true, decide_eq_true_eq] at hdigit
      exact inRanges_eq_false (show ∀ r ∈ Text.blankRanges, 57 < r.1 ∨ r.2 < 48 by decide)
        (UInt32.le_iff_toNat_le.1 hdigit.1) (UInt32.le_iff_toNat_le.1 hdigit.2)
    · cases hvalue
  · obtain ⟨range, hfind, _⟩ := Option.map_eq_some_iff.1 hvalue
    have hmeet : ∀ d ∈ Text.digitRanges, ∀ b ∈ Text.blankRanges, d.2 < b.1 ∨ b.2 < d.1 := by
      decide
    have hin := List.find?_some hfind
    simp only [Bool.and_eq_true, decide_eq_true_eq] at hin
    exact inRanges_eq_false (hmeet range (List.mem_of_find?_eq_some hfind)) hin.1 hin.2

lemma isBlank_of_startsName (h : Text.startsName c) : Text.isBlank c = false := by
  simp only [Text.startsName, Char.isAlpha, Char.isUpper, Char.isLower, Bool.or_eq_true,
    Bool.and_eq_true, decide_eq_true_eq, beq_iff_eq] at h
  rcases h with (h | h) | rfl
  · exact inRanges_eq_false (show ∀ r ∈ Text.blankRanges, 90 < r.1 ∨ r.2 < 65 by decide)
      (UInt32.le_iff_toNat_le.1 h.1) (UInt32.le_iff_toNat_le.1 h.2)
  · exact inRanges_eq_false (show ∀ r ∈ Text.blankRanges, 122 < r.1 ∨ r.2 < 97 by decide)
      (UInt32.le_iff_toNat_le.1 h.1) (UInt32.le_iff_toNat_le.1 h.2)
  · decide

lemma nameLength_fronts (h : nameLength cs = some n) : Fronts n cs := by
  cases cs with
  | nil => cases h
  | cons c cs =>
    rw [nameLength] at h
    split at h
    · rename_i hc
      cases h
      exact .cons (isBlank_of_startsName hc) run_le_length
    · cases h

lemma fraction_le : fraction cs ≤ cs.length := by
  rw [fraction.eq_def]
  split
  · split
    · exact Nat.zero_le _
    · exact Nat.succ_le_succ run_le_length
  · exact Nat.zero_le _

lemma digits_fronts (h : digits cs = some n) : Fronts n cs := by
  by_cases hrun : run Text.isDigit cs = 0
  · rw [digits, if_pos hrun] at h
    cases h
  · rw [digits_eq hrun] at h
    cases h
    have hle : fraction (cs.drop (run Text.isDigit cs)) ≤ (cs.drop (run Text.isDigit cs)).length :=
      fraction_le
    have hrun_le : run Text.isDigit cs ≤ cs.length := run_le_length
    rw [List.length_drop] at hle
    refine ⟨by omega, by omega, ?_⟩
    have hfirst := any_getElem?_of_lt_run (Nat.pos_of_ne_zero hrun)
    cases cs with
    | nil => exact absurd rfl hrun
    | cons c cs => simpa using isBlank_of_isDigit hfirst

/-- A lexeme has at least one character, of which the first is no blank, and lies within the
text. -/
theorem lexeme?_fronts {t : Terminal} (ht : t.isProper) (h : t.lexeme? cs = some n) :
    Fronts n cs := by
  cases t with
  | word s => exact spelled_fronts (List.forall_mem_singleton.2 ht) h
  | nil | primitiveType | ellipsis | logicOp | equalityOp | relationOp | additiveOp |
    multiplicativeOp | powerOp | unaryOp | boolean => exact spelled_fronts (by decide) h
  | typeVariable =>
    rw [lexeme?.eq_def] at h
    dsimp only at h
    split at h
    · obtain ⟨m, hm, rfl⟩ := Option.map_eq_some_iff.1 h
      exact .cons rfl (nameLength_fronts hm).2.1
    · cases h
  | string =>
    rw [lexeme?.eq_def] at h
    dsimp only at h
    split at h
    · obtain ⟨m, hm, rfl⟩ := Option.map_eq_some_iff.1 h
      exact .cons rfl (quotedRest_le hm)
    · cases h
  | number =>
    rw [lexeme?.eq_def] at h
    dsimp only at h
    split at h
    · obtain ⟨m, hm, rfl⟩ := Option.map_eq_some_iff.1 h
      exact .cons rfl (digits_fronts hm).2.1
    · exact digits_fronts h
  | name =>
    rw [lexeme?] at h
    split at h
    · cases h
    · exact nameLength_fronts h

end Terminal

end LuaTyping
