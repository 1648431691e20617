import LuaTyping.Grammar.Parse
import LuaTyping.Proofs.Patterns

set_option autoImplicit false

/-!
# Derivations of a text

A derivation follows the grammar if each of its nodes is made up by an alternative of the node's
category. Its lexemes, in their order, make up a text if each is the match of its terminal's pattern
where it stands and nothing but blanks is in between. Which categories stand between which places
can also be said without trees, part after part; this is how a chart sees it, and a derivation of
the text gives it.

## Main definitions

* `Derivation.Follows` — a derivation follows the grammar.
* `Derivation.lexemes` — the lexemes of a derivation.
* `MakeUp` — some lexemes make up a stretch of text.
* `Derivation.IsProgram` — a derivation of a program that makes up a whole text.
* `Reads` — some parts stand between two places of a text.

## Main results

* `Derivation.Follows.reads` — what a derivation makes up can be read part by part.
* `Reads.nullable` — only nullable categories stand between a place and itself.
-/

namespace LuaTyping

/-! ## Trees -/

namespace Derivation

/-- The part of an alternative that a derivation can stand for. -/
def part : Derivation → Part
  | lexeme t _ => .lexeme t
  | node c _ _ => .category c

/-- A derivation follows the grammar: the parts of each node are those of an alternative of its
category. -/
inductive Follows : Derivation → Prop
  | lexeme (t : Terminal) (span : Span) : Follows (.lexeme t span)
  | node {c : Category} {k : Nat} {a : Alternative} {ds : List Derivation} :
    (alternatives c)[k]? = some a → ds.map part = a.parts → (∀ d ∈ ds, Follows d) →
      Follows (.node c k ds)

mutual

/-- The lexemes of a derivation, with their terminals. -/
def lexemes : Derivation → List (Terminal × Span)
  | lexeme t span => [(t, span)]
  | node _ _ ds => lexemesList ds

/-- The lexemes of some derivations. -/
def lexemesList : List Derivation → List (Terminal × Span)
  | [] => []
  | d :: ds => d.lexemes ++ lexemesList ds

end

end Derivation

/-- Only blanks stand between two places of a text. -/
def BlankRun (text : List Char) (start stop : Nat) : Prop :=
  start ≤ stop ∧ ∀ place, start ≤ place → place < stop → (text[place]?).any Text.isBlank

/-- Some lexemes make up a text between two places: each of them is the match of its terminal's
pattern where it stands, and nothing but blanks stands before it. -/
inductive MakeUp (text : List Char) : Nat → List (Terminal × Span) → Nat → Prop
  | nil (place : Nat) : MakeUp text place [] place
  | cons {place stop n : Nat} {t : Terminal} {span : Span} {rest : List (Terminal × Span)} :
    BlankRun text place span.start → t.pattern.match? text span.start = some n →
      span.stop = span.start + n → MakeUp text span.stop rest stop →
      MakeUp text place ((t, span) :: rest) stop

/-- A derivation of a program that follows the grammar and whose lexemes make up a whole text, with
blanks behind the last one or not. -/
structure Derivation.IsProgram (text : List Char) (d : Derivation) : Prop where
  part_eq : d.part = .category .program
  follows : d.Follows
  makeUp : ∃ stop, MakeUp text 0 d.lexemes stop ∧ BlankRun text stop text.length

/-! ## Blanks -/

namespace Terminal

variable {f : Char → Bool} {cs : List Char}

lemma run_eq_of_forall {n : Nat} (hlt : ∀ k < n, (cs[k]?).any f) (hn : (cs[n]?).any f = false) :
    run f cs = n := by
  induction cs generalizing n with
  | nil =>
    cases n with
    | zero => rfl
    | succ n => simpa using hlt n (Nat.lt_succ_self n)
  | cons c cs ih =>
    cases n with
    | zero => simp_all [run]
    | succ n =>
      have hc : f c := by simpa using hlt 0 (Nat.succ_pos n)
      rw [run, if_pos hc, ih (fun k hk => hlt (k + 1) (Nat.succ_lt_succ hk)) (by simpa using hn)]

end Terminal

lemma skipBlanks_eq_run (place : Nat) (cs : List Char) :
    skipBlanks place cs =
      (place + Terminal.run Text.isBlank cs, cs.drop (Terminal.run Text.isBlank cs)) := by
  induction cs generalizing place with
  | nil => rfl
  | cons c cs ih =>
    rw [skipBlanks, Terminal.run]
    split
    · rw [ih, List.drop_succ_cons, Nat.add_right_comm, Nat.add_assoc]
    · rfl

variable {text : List Char}

lemma blankRun_skipBlanks (place : Nat) :
    BlankRun text place (skipBlanks place (text.drop place)).1 := by
  rw [skipBlanks_eq_run]
  refine ⟨Nat.le_add_right _ _, fun k hk hlt => ?_⟩
  have h : k - place < Terminal.run Text.isBlank (text.drop place) := by omega
  simpa [List.getElem?_drop, Nat.add_sub_cancel' hk] using Terminal.any_getElem?_of_lt_run h

/-- Blanks are skipped up to the next character that is none. -/
lemma BlankRun.skipBlanks_eq {start stop : Nat} (h : BlankRun text start stop)
    (hstop : (text[stop]?).any Text.isBlank = false) :
    skipBlanks start (text.drop start) = (stop, text.drop stop) := by
  have hrun : Terminal.run Text.isBlank (text.drop start) = stop - start := by
    refine Terminal.run_eq_of_forall (fun k hk => ?_) ?_
    · rw [List.getElem?_drop]
      exact h.2 _ (Nat.le_add_right _ _) (by omega)
    · rw [List.getElem?_drop, Nat.add_sub_cancel' h.1]
      exact hstop
  rw [skipBlanks_eq_run, hrun, List.drop_drop, Nat.add_sub_cancel' h.1]

lemma BlankRun.skipBlanks_length {start : Nat} (h : BlankRun text start text.length) :
    (skipBlanks start (text.drop start)).1 = text.length := by
  rw [h.skipBlanks_eq (by simp)]

/-! ## Lexemes -/

variable {t : Terminal} {span : Span}

/-- A lexeme is found behind the blanks. -/
lemma lexemeAt?_eq_some_iff {place : Nat} :
    lexemeAt? t place (text.drop place) = some span ↔
      span.start = (skipBlanks place (text.drop place)).1 ∧
        ∃ n, t.pattern.match? text span.start = some n ∧ span.stop = span.start + n := by
  simp only [lexemeAt?, skipBlanks_eq_run, Terminal.match?_pattern, List.drop_drop,
    Option.map_eq_some_iff]
  constructor
  · rintro ⟨n, hn, rfl⟩
    exact ⟨rfl, n, hn, rfl⟩
  · rintro ⟨hstart, n, hn, hstop⟩
    refine ⟨n, hstart ▸ hn, ?_⟩
    cases span
    simp_all

lemma lexemeAt?_bounds (ht : t.isProper) {place : Nat}
    (h : lexemeAt? t place (text.drop place) = some span) :
    place < span.stop ∧ span.stop ≤ text.length := by
  obtain ⟨hstart, n, hn, hstop⟩ := lexemeAt?_eq_some_iff.1 h
  rw [Terminal.match?_pattern] at hn
  obtain ⟨hpos, hle, -⟩ := Terminal.lexeme?_fronts ht hn
  have hplace : place ≤ (skipBlanks place (text.drop place)).1 := (blankRun_skipBlanks place).1
  rw [List.length_drop] at hle
  omega

/-- A lexeme of the grammar is found from the beginning of the blanks before it on. -/
lemma lexemeAt?_of_blankRun (ht : t.isProper) {place n : Nat}
    (hblank : BlankRun text place span.start) (h : t.pattern.match? text span.start = some n)
    (hstop : span.stop = span.start + n) : lexemeAt? t place (text.drop place) = some span := by
  have hfront := (Terminal.lexeme?_fronts ht (Terminal.match?_pattern t text span.start ▸ h)).2.2
  rw [List.head?_drop] at hfront
  refine lexemeAt?_eq_some_iff.2 ⟨?_, n, h, hstop⟩
  rw [hblank.skipBlanks_eq]
  cases hc : text[span.start]? with
  | none => rfl
  | some c => simpa [hc] using hfront

/-! ## Parts -/

/-- Some parts of an alternative stand, one after the other, between two places of a text. -/
inductive Reads (text : List Char) : List Part → Nat → Nat → Prop
  | nil (place : Nat) : Reads text [] place place
  | lexeme {parts : List Part} {start place : Nat} {t : Terminal} {span : Span} :
    Reads text parts start place → lexemeAt? t place (text.drop place) = some span →
      place < span.stop → Reads text (parts ++ [.lexeme t]) start span.stop
  | category {parts : List Part} {start place stop : Nat} {c : Category} {k : Nat}
    {a : Alternative} : Reads text parts start place → (alternatives c)[k]? = some a →
      Reads text a.parts place stop → Reads text (parts ++ [.category c]) start stop

/-- Whether a part is no lexeme that may be empty. -/
def Part.isProper : Part → Bool
  | .lexeme t => t.isProper
  | .category _ => true

lemma isProper_of_mem {c : Category} {k : Nat} {a : Alternative}
    (ha : (alternatives c)[k]? = some a) (ht : .lexeme t ∈ a.parts) : t.isProper := by
  have hall : ∀ a ∈ alternatives c, ∀ part ∈ a.parts, part.isProper := by
    cases c <;> decide
  exact hall a (List.mem_of_getElem? ha) _ ht

/-- Whether a part may be empty. -/
def Part.nullable : Part → Bool
  | .lexeme _ => false
  | .category c => c.nullable

lemma nullable_of_forall {c : Category} {k : Nat} {a : Alternative}
    (ha : (alternatives c)[k]? = some a) (h : ∀ part ∈ a.parts, part.nullable) : c.nullable := by
  have hall : ∀ a ∈ alternatives c, (∀ part ∈ a.parts, part.nullable) → c.nullable := by
    cases c <;> decide
  exact hall a (List.mem_of_getElem? ha) h

namespace Reads

variable {parts rest : List Part} {start place stop : Nat}

lemma append (h : Reads text parts start place) (hrest : Reads text rest place stop) :
    Reads text (parts ++ rest) start stop := by
  induction hrest with
  | nil => simpa using h
  | lexeme _ hlexeme hlt ih =>
    rw [← List.append_assoc]
    exact (ih h).lexeme hlexeme hlt
  | category _ ha hparts ih _ =>
    rw [← List.append_assoc]
    exact (ih h).category ha hparts

lemma le (h : Reads text parts start stop) : start ≤ stop := by
  induction h with
  | nil => exact le_rfl
  | lexeme _ _ hlt ih => exact ih.trans hlt.le
  | category _ _ _ ih ihparts => exact ih.trans ihparts

/-- Only parts that may be empty stand between a place and itself. -/
lemma forall_nullable (h : Reads text parts start stop) (heq : start = stop) :
    ∀ part ∈ parts, part.nullable := by
  induction h with
  | nil => exact List.forall_mem_nil _
  | lexeme hparts _ hlt =>
    have := hparts.le
    omega
  | category hparts ha hcategory ih ihcategory =>
    have := hparts.le
    have := hcategory.le
    intro part hpart
    rcases List.mem_append.1 hpart with hpart | hpart
    · exact ih (by omega) part hpart
    · obtain rfl := List.mem_singleton.1 hpart
      exact nullable_of_forall ha (ihcategory (by omega))

lemma nullable {c : Category} {k : Nat} {a : Alternative} (ha : (alternatives c)[k]? = some a)
    (h : Reads text a.parts place place) : c.nullable :=
  nullable_of_forall ha (h.forall_nullable rfl)

lemma append_lexeme_iff : Reads text (parts ++ [.lexeme t]) start stop ↔
    ∃ place span, Reads text parts start place ∧
      lexemeAt? t place (text.drop place) = some span ∧ place < span.stop ∧ span.stop = stop := by
  constructor
  · intro h
    generalize hall : parts ++ [Part.lexeme t] = all at h
    cases h with
    | nil => simp at hall
    | lexeme hparts hlexeme hlt =>
      obtain ⟨rfl, heq⟩ := List.append_singleton_inj.1 hall
      cases heq
      exact ⟨_, _, hparts, hlexeme, hlt, rfl⟩
    | category => exact absurd (List.append_singleton_inj.1 hall).2 (by simp)
  · rintro ⟨place, span, hparts, hlexeme, hlt, rfl⟩
    exact hparts.lexeme hlexeme hlt

lemma append_category_iff {c : Category} : Reads text (parts ++ [.category c]) start stop ↔
    ∃ (place k : Nat) (a : Alternative), Reads text parts start place ∧
      (alternatives c)[k]? = some a ∧ Reads text a.parts place stop := by
  constructor
  · intro h
    generalize hall : parts ++ [Part.category c] = all at h
    cases h with
    | nil => simp at hall
    | lexeme => exact absurd (List.append_singleton_inj.1 hall).2 (by simp)
    | category hparts ha hcategory =>
      obtain ⟨rfl, heq⟩ := List.append_singleton_inj.1 hall
      cases heq
      exact ⟨_, _, _, hparts, ha, hcategory⟩
  · rintro ⟨place, k, a, hparts, ha, hcategory⟩
    exact hparts.category ha hcategory

/-- What is read up to the last part, and the last part. -/
lemma append_inv {part : Part} (h : Reads text (parts ++ [part]) start stop) :
    ∃ place, Reads text parts start place ∧ Reads text [part] place stop := by
  cases part with
  | lexeme t =>
    obtain ⟨place, span, hparts, hlexeme, hlt, rfl⟩ := append_lexeme_iff.1 h
    exact ⟨place, hparts, (nil place).lexeme hlexeme hlt⟩
  | category c =>
    obtain ⟨place, k, a, hparts, ha, hcategory⟩ := append_category_iff.1 h
    exact ⟨place, hparts, (nil place).category ha hcategory⟩

lemma nil_iff : Reads text [] start stop ↔ start = stop := by
  constructor
  · intro h
    generalize hall : ([] : List Part) = all at h
    cases h with
    | nil => rfl
    | lexeme | category => simp at hall
  · rintro rfl
    exact .nil start

end Reads

/-! ## From trees to parts -/

lemma MakeUp.append_inv {l₁ l₂ : List (Terminal × Span)} {start stop : Nat}
    (h : MakeUp text start (l₁ ++ l₂) stop) :
    ∃ place, MakeUp text start l₁ place ∧ MakeUp text place l₂ stop := by
  induction l₁ generalizing start with
  | nil => exact ⟨start, .nil start, h⟩
  | cons x l₁ ih =>
    cases h with
    | cons hblank hmatch hstop hrest =>
      obtain ⟨place, h₁, h₂⟩ := ih hrest
      exact ⟨place, .cons hblank hmatch hstop h₁, h₂⟩

lemma MakeUp.append {l₁ l₂ : List (Terminal × Span)} {start place stop : Nat}
    (h₁ : MakeUp text start l₁ place) (h₂ : MakeUp text place l₂ stop) :
    MakeUp text start (l₁ ++ l₂) stop := by
  induction h₁ with
  | nil => exact h₂
  | cons hblank hmatch hstop _ ih => exact .cons hblank hmatch hstop (ih h₂)

namespace Derivation

lemma reads_of_forall {ds : List Derivation} {start stop : Nat}
    (hds : ∀ d ∈ ds, ∀ start stop, MakeUp text start d.lexemes stop →
      Reads text [d.part] start stop)
    (h : MakeUp text start (lexemesList ds) stop) : Reads text (ds.map part) start stop := by
  induction ds generalizing start with
  | nil =>
    cases h
    exact .nil _
  | cons d ds ih =>
    obtain ⟨place, hd, hrest⟩ := h.append_inv
    exact (hds d List.mem_cons_self start place hd).append
      (ih (fun e he => hds e (List.mem_cons_of_mem _ he)) hrest)

/-- What a derivation that follows the grammar makes up can be read part by part. -/
theorem Follows.reads {d : Derivation} (h : d.Follows)
    (hproper : ∀ t, d.part = .lexeme t → t.isProper) {start stop : Nat}
    (hmake : MakeUp text start d.lexemes stop) : Reads text [d.part] start stop := by
  induction h generalizing start stop with
  | lexeme t span =>
    cases hmake with
    | cons hblank hmatch hstop hrest =>
      cases hrest
      have hlexeme := lexemeAt?_of_blankRun (hproper t rfl) hblank hmatch hstop
      exact (Reads.nil start).lexeme hlexeme (lexemeAt?_bounds (hproper t rfl) hlexeme).1
  | @node c k a ds ha hparts _ ih =>
    refine (Reads.nil start).category ha (hparts ▸ reads_of_forall (fun d hd => ?_) hmake)
    intro start stop
    refine ih d hd fun t ht => isProper_of_mem ha ?_
    rw [← hparts, ← ht]
    exact List.mem_map_of_mem hd

end Derivation

end LuaTyping
