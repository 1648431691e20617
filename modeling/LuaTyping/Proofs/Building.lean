import LuaTyping.Proofs.Derivations
import LuaTyping.Proofs.Reading

set_option autoImplicit false

/-!
# Every derivation has a meaning

The builders of the grammar make a piece of all pieces that the alternatives hand to them, and the
lexeme of a number can always be read. So every derivation that follows the grammar and makes up a
text has a meaning, and the meaning has the form of the part that the derivation stands for.

## Main results

* `Terminal.readWith?_isSome` — the lexeme of a number can be read.
* `Derivation.Follows.exists_piece?` — every derivation that makes up a text has a
  meaning of the form of its part.
-/

namespace LuaTyping

/-! ## Numbers -/

namespace Terminal

open Binary64

/-- Digits in front of what is no digit are split off. -/
lemma spanDigits_append {ds rest : List Char} (hds : ∀ c ∈ ds, Text.isDigit c)
    (hrest : rest.head?.any Text.isDigit = false) :
    ∃ vs, vs.length = ds.length ∧ spanDigits Text.digit? (ds ++ rest) = (vs, rest) := by
  induction ds with
  | nil =>
    cases rest with
    | nil => exact ⟨[], rfl, rfl⟩
    | cons c rest =>
      have hc : Text.digit? c = none := by simpa [Text.isDigit] using hrest
      exact ⟨[], rfl, by rw [List.nil_append, spanDigits, hc]⟩
  | cons c ds ih =>
    obtain ⟨v, hv⟩ := Option.isSome_iff_exists.1 (hds c List.mem_cons_self)
    obtain ⟨vs, hlength, hvs⟩ := ih fun d hd => hds d (List.mem_cons_of_mem c hd)
    exact ⟨v :: vs, congrArg (· + 1) hlength, by rw [List.cons_append, spanDigits, hv, hvs]⟩

/-- The digits of a number: some digits, and nothing or a point with digits behind them. -/
def IsUnsigned (cs : List Char) : Prop :=
  ∃ ds rest, cs = ds ++ rest ∧ ds ≠ [] ∧ (∀ c ∈ ds, Text.isDigit c) ∧
    (rest = [] ∨ ∃ fs, rest = '.' :: fs ∧ ∀ c ∈ fs, Text.isDigit c)

lemma forall_mem_take_run {f : Char → Bool} (cs : List Char) : ∀ c ∈ cs.take (run f cs), f c := by
  intro c hc
  obtain ⟨k, hk, rfl⟩ := List.mem_take_iff_getElem.1 hc
  have hany := any_getElem?_of_lt_run (show k < run f cs by omega)
  rwa [List.getElem?_eq_getElem (by omega), Option.any_some] at hany

lemma take_fraction (cs : List Char) : cs.take (fraction cs) = [] ∨
    ∃ fs, cs.take (fraction cs) = '.' :: fs ∧ ∀ c ∈ fs, Text.isDigit c := by
  rw [fraction.eq_def]
  split
  · split
    · exact .inl List.take_zero
    · exact .inr ⟨_, List.take_succ_cons, forall_mem_take_run _⟩
  · exact .inl List.take_zero

variable {cs : List Char} {n : Nat}

lemma isUnsigned_of_digits (h : digits cs = some n) :
    IsUnsigned (cs.take n) := by
  have hrun : run Text.isDigit cs ≠ 0 := by
    intro hrun
    rw [digits, if_pos hrun] at h
    cases h
  rw [digits_eq hrun] at h
  cases h
  refine ⟨_, _, List.take_add, ?_, forall_mem_take_run cs, take_fraction _⟩
  have hle : run Text.isDigit cs ≤ cs.length := run_le_length
  rw [← List.length_pos_iff, List.length_take]
  omega

/-- A sign, if there is one, is split off a number. -/
lemma splitSign_of_isUnsigned {sign : List Char} (h : IsUnsigned cs)
    (hsign : sign = [] ∨ sign = ['-']) : ∃ neg, splitSign (sign ++ cs) = (neg, cs) := by
  rcases hsign with rfl | rfl
  · obtain ⟨ds, rest, rfl, hne, hds, -⟩ := h
    obtain ⟨d, ds, rfl⟩ := List.exists_cons_of_ne_nil hne
    have hd := hds d List.mem_cons_self
    refine ⟨false, ?_⟩
    rw [List.nil_append, List.cons_append, splitSign]
    · rintro cs' heq
      cases heq
      exact absurd hd (by decide)
    · rintro cs' heq
      cases heq
      exact absurd hd (by decide)
  · exact ⟨true, rfl⟩

lemma readWith?_of_isUnsigned {sign : List Char} (h : IsUnsigned cs)
    (hsign : sign = [] ∨ sign = ['-']) :
    ∃ d, readWith? Text.digit? (String.ofList (sign ++ cs)) = some d := by
  obtain ⟨neg, hneg⟩ := splitSign_of_isUnsigned h hsign
  obtain ⟨ds, rest, rfl, hne, hds, hrest⟩ := h
  have hstop : rest.head?.any Text.isDigit = false := by
    rcases hrest with rfl | ⟨fs, rfl, -⟩ <;> rfl
  obtain ⟨vs, hlength, hvs⟩ := spanDigits_append hds hstop
  have hvs_ne : vs.isEmpty = false := by
    cases vs with
    | nil => exact absurd (List.length_eq_zero_iff.1 hlength.symm) hne
    | cons => rfl
  rcases hrest with rfl | ⟨fs, rfl, hfs⟩
  · simp only [readWith?, String.toList_ofList, hneg, hvs, hvs_ne, Bool.false_and,
      Bool.false_eq_true, if_false]
    exact ⟨_, rfl⟩
  · obtain ⟨ws, -, hws⟩ := spanDigits_append hfs (rfl : ([] : List Char).head?.any _ = false)
    rw [List.append_nil] at hws
    simp only [readWith?, String.toList_ofList, hneg, hvs, hws, hvs_ne, Bool.false_and,
      Bool.false_eq_true, if_false]
    exact ⟨_, rfl⟩

/-- The lexeme of a number can be read. -/
theorem readWith?_isSome (h : Terminal.number.lexeme? cs = some n) :
    ∃ d, readWith? Text.digit? (String.ofList (cs.take n)) = some d := by
  rw [lexeme?.eq_def] at h
  dsimp only at h
  split at h
  · obtain ⟨m, hm, rfl⟩ := Option.map_eq_some_iff.1 h
    rw [List.take_succ_cons, ← List.singleton_append]
    exact readWith?_of_isUnsigned (isUnsigned_of_digits hm) (.inr rfl)
  · rw [← List.nil_append (cs.take n)]
    exact readWith?_of_isUnsigned (isUnsigned_of_digits h) (.inl rfl)

lemma head?_of_typeVariable
    (h : Terminal.typeVariable.lexeme? cs = some n) : (cs.take n).head? = some '\'' := by
  rw [lexeme?.eq_def] at h
  dsimp only at h
  split at h
  · obtain ⟨m, _, rfl⟩ := Option.map_eq_some_iff.1 h
    rfl
  · cases h

end Terminal

/-! ## Derivations -/

namespace Derivation

variable {file : String} {text : List Char}

variable {start stop : Nat}

/-- The lexeme of a derivation has a meaning of the form of its terminal. -/
lemma exists_piece?_lexeme {t : Terminal} {span : Span}
    (h : MakeUp text start (Derivation.lexeme t span).lexemes stop) :
    ∃ p, (Derivation.lexeme t span).piece? file text = some p ∧ t.Yields p := by
  cases h with
  | @cons _ _ n _ _ _ hblank hmatch hstop hrest =>
    rw [Terminal.match?_pattern] at hmatch
    rw [Derivation.piece?]
    simp only [hstop, Nat.add_sub_cancel_left]
    cases t with
    | number =>
      obtain ⟨d, hd⟩ := Terminal.readWith?_isSome hmatch
      simp only [Piece.ofLexeme, hd]
      exact ⟨_, rfl, _, rfl, .number _ _⟩
    | ellipsis => exact ⟨_, rfl, _, rfl, .vararg _⟩
    | nil => exact ⟨_, rfl, _, rfl, .nil _⟩
    | boolean => exact ⟨_, rfl, _, rfl, .boolean _ _⟩
    | string => exact ⟨_, rfl, _, rfl, .string _ _⟩
    | primitiveType => exact ⟨_, rfl, _, rfl, .primitive _, List.forall_mem_nil _⟩
    | typeVariable =>
      refine ⟨_, rfl, _, rfl, .var _, fun x hx => ?_⟩
      obtain rfl := List.mem_singleton.1 hx
      simpa using Terminal.head?_of_typeVariable hmatch
    | _ => exact ⟨_, rfl, _, rfl⟩

/-- The parts of a node have meanings of their forms, those of marks left out. -/
lemma exists_pieces? {ds : List Derivation}
    (hds : ∀ d ∈ ds, ∀ start stop, MakeUp text start d.lexemes stop →
      ∃ p, d.piece? file text = some p ∧ d.part.Yields p)
    (h : MakeUp text start (lexemesList ds) stop) :
    ∃ ps, pieces? file text ds = some ps ∧
      List.Forall₂ (fun P q => P q) (((ds.map part).filter (!·.isMark)).map Part.Yields) ps := by
  induction ds generalizing start with
  | nil => exact ⟨[], rfl, .nil⟩
  | cons d ds ih =>
    obtain ⟨place, hd, hrest⟩ := h.append_inv
    obtain ⟨ps, hps, hforall⟩ := ih (fun e he => hds e (List.mem_cons_of_mem d he)) hrest
    obtain ⟨p, hp, hyields⟩ := hds d List.mem_cons_self start place hd
    -- A derivation that stands for no mark has its piece in front of the others.
    have hkeep : d.part.isMark = false → pieces? file text (d :: ds) = some (p :: ps) →
        ∃ ps, pieces? file text (d :: ds) = some ps ∧ List.Forall₂ (fun P q => P q)
          ((((d :: ds).map part).filter (!·.isMark)).map Part.Yields) ps := by
      intro hmark hpieces
      refine ⟨p :: ps, hpieces, ?_⟩
      rw [List.map_cons, List.filter_cons_of_pos (by simp [hmark])]
      exact .cons hyields hforall
    cases d with
    | node c k parts => exact hkeep rfl (by rw [pieces?, hps]; simp [hp])
    | lexeme t span =>
      cases t with
      | word s => exact ⟨ps, by rw [pieces?, hps]; rfl, hforall⟩
      | _ => exact hkeep rfl (by rw [pieces?, hps]; simp [hp])

/-- Every derivation that follows the grammar and makes up a text has a meaning, of the form of the
part that it stands for. -/
theorem Follows.exists_piece? {d : Derivation} (h : d.Follows) (file : String)
    (hmake : MakeUp text start d.lexemes stop) :
    ∃ p, d.piece? file text = some p ∧ d.part.Yields p := by
  induction h generalizing start stop with
  | lexeme t span => exact exists_piece?_lexeme hmake
  | @node c k a ds ha hparts _ ih =>
    obtain ⟨ps, hps, hforall⟩ := exists_pieces? (fun d hd _ _ hmake => ih d hd hmake) hmake
    rw [hparts] at hforall
    obtain ⟨p, hp, hyields⟩ := alternatives_make c a (List.mem_of_getElem? ha) file ps hforall
    refine ⟨p, ?_, hyields⟩
    rw [Derivation.piece?, ha, hps]
    exact hp

end Derivation

end LuaTyping
