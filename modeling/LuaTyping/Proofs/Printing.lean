import LuaTyping.Proofs.Agreement
import LuaTyping.Proofs.Spacing

set_option autoImplicit false

/-!
# Printing expressions

Expressions are printed as tokens with single spaces between them. Parentheses stand around an
operand exactly where the levels of the grammar ask for them: each place of an operand has a least
level, and an expression of a lower level is put into parentheses there. What is printed is read
back as the same expression, up to locations.

## Main definitions

* `Node.print` — an expression as a text.
* `Printable` — the expressions that can be printed.
* `Written` — tokens are read as an expression of a level, whatever follows them.

## Main results

* `Printable.written` — the tokens of an expression are read as it.
* `parse_print` — a program that returns a printed expression is read as such.
-/

namespace LuaTyping

/-! ## Printing -/

/-- The level of a binary operator. -/
def BinaryOp.level : BinaryOp → Nat
  | and | or | other _ => 0
  | equal | notEqual => 1
  | less | greater | lessEqual | greaterEqual => 2
  | concat | add | subtract => 3
  | multiply | divide | modulo => 4
  | power => 5

lemma BinaryOp.level_lt (op : BinaryOp) : op.level < 6 := by
  cases op <;> simp [level]

/-- The level of an expression. -/
def Node.level : Node → Nat
  | .binary _ _ op _ => op.level
  | .unary .. => 6
  | .string .. | .table .. => 7
  | _ => 8

lemma Node.level_le (n : Node) : n.level ≤ 8 := by
  cases n with
  | binary _ _ op _ => exact Nat.le_of_lt (Nat.lt_trans op.level_lt (by decide))
  | _ => simp [level]

/-- The tokens of an expression of a level at a place where another level is the least one. -/
def guarded (least level : Nat) (ts : List String) : List String :=
  if level < least then "(" :: (ts ++ [")"]) else ts

/-- Lists of tokens with a comma before each of them. -/
def behindCommas (tss : List (List String)) : List String := tss.flatMap fun ts => "," :: ts

/-- Lists of tokens with commas between them. -/
def commas : List (List String) → List String
  | [] => []
  | ts :: tss => ts ++ behindCommas tss

mutual

/-- The tokens of an expression. -/
def Node.tokens : Node → List String
  | .var _ x => [x]
  | .string _ s => [quoted s]
  | .unary _ op a => op.text :: guarded 6 a.level a.tokens
  | .binary _ a op b =>
    guarded op.level a.level a.tokens ++ op.text :: guarded (op.level + 1) b.level b.tokens
  | .index _ a k => guarded 8 a.level a.tokens ++ "[" :: (k.tokens ++ ["]"])
  | .call _ f args => guarded 8 f.level f.tokens ++ "(" :: (commas (Node.tokensList args) ++ [")"])
  | .table _ fields => "\x7b" :: (commas (Node.tokensPairs fields) ++ ["\x7d"])
  | _ => []

/-- The tokens of each of some expressions. -/
def Node.tokensList : List Node → List (List String)
  | [] => []
  | n :: ns => n.tokens :: Node.tokensList ns

/-- The tokens of each of some fields. -/
def Node.tokensPairs : List (Node × Node) → List (List String)
  | [] => []
  | (k, v) :: rest => ("[" :: (k.tokens ++ "]" :: "=" :: v.tokens)) :: Node.tokensPairs rest

end

/-- An expression as a text: its tokens with single spaces between them. -/
def Node.print (n : Node) : String := " ".intercalate n.tokens

/-- The expressions that are made of variables, strings, the operators of the language except for
`not`, index expressions, calls and table constructors. -/
inductive Printable : Node → Prop
  | var {l : Location} {x : String} : isPlainName x → Printable (.var l x)
  | string {l : Location} {s : String} : Quotable s.toList → Printable (.string l s)
  | unary {l : Location} {op : UnaryOp} {a : Node} : op = .negate ∨ op = .length →
    Printable a → Printable (.unary l op a)
  | binary {l : Location} {a b : Node} {op : BinaryOp} : (op.family?).isSome →
    Printable a → Printable b → Printable (.binary l a op b)
  | index {l : Location} {a k : Node} : Printable a → Printable k → Printable (.index l a k)
  | call {l : Location} {f : Node} {args : List Node} : Printable f →
    (∀ a ∈ args, Printable a) → Printable (.call l f args)
  | table {l : Location} {fields : List (Node × Node)} : (∀ q ∈ fields, Printable q.1) →
    (∀ q ∈ fields, Printable q.2) → Printable (.table l fields)

/-! ## Reading tokens -/

/-- The terminals that no expression of a level or of a higher one begins with. -/
def avoided (L : Nat) : List Terminal :=
  [Terminal.word "function", .ellipsis, .word ")"] ++ (if 7 ≤ L then [Terminal.unaryOp] else []) ++
    if 8 ≤ L then [Terminal.number, .string, .boolean, .nil, .word "\x7b"] else []

/-- How reading goes on behind an operand of a level. -/
def GoesOn (L : Nat) (a : Node) (cs : List Char) (n : Node) (rest : List Char) : Prop :=
  if L < 6 then Loop L a cs n rest else if L < 8 then n = a ∧ rest = cs else Suffixes a cs n rest

/-- Some tokens are read as an expression of a level, whatever follows them: up to what follows, if
no tighter operator does, and then on from there. -/
structure Written (L : Nat) (ts : List String) (n : Node) : Prop where
  avoids : ∀ more, Refuses (spaced (ts ++ more)) (avoided L)
  operand : ∀ more m rest, (L < 8 → Ends L (spaced more)) → GoesOn L n (spaced more) m rest →
    Operand L (spaced (ts ++ more)) m rest

variable {L : Nat} {ts us more : List String} {n a b : Node}

lemma refuses_of_rejects {token : String} {terminals : List Terminal}
    (h : terminals.all (·.rejects token)) : Refuses (spaced (token :: more)) terminals :=
  fun t ht => next?_of_rejects (List.all_eq_true.1 h t ht)

lemma Refuses.mono {cs : List Char} {terminals terminals' : List Terminal}
    (h : Refuses cs terminals') (hsub : terminals ⊆ terminals') : Refuses cs terminals :=
  fun t ht => h t (hsub ht)

lemma goesOn_stop {cs : List Char} (hends : Ends L cs) : GoesOn (L + 1) a cs a cs := by
  rw [GoesOn]
  split
  · rename_i hlt
    exact .stop (hends.1 (L + 1) (Nat.lt_succ_self L) hlt)
  · split
    · exact ⟨rfl, rfl⟩
    · exact .stop hends.2

namespace Written

lemma whole (h : Written (L + 1) ts n) (hends : Ends L (spaced more)) :
    Operand (L + 1) (spaced (ts ++ more)) n (spaced more) :=
  h.operand more n _ (fun _ => hends.succ) (goesOn_stop hends)

lemma closed (h : Written 0 ts n) (hclosed : Closed (spaced more)) :
    Operand 0 (spaced (ts ++ more)) n (spaced more) :=
  h.operand more n _ (fun _ => hclosed.ends 0) (.stop (hclosed.1 0))

lemma lower (h : Written (L + 1) ts n) (hL : L < 8) : Written L ts n where
  avoids more := (h.avoids more).mono (by
    interval_cases L <;> simp [avoided])
  operand more m rest hends hgoes := by
    have hwhole := h.whole (hends hL)
    rw [GoesOn] at hgoes
    split at hgoes
    · rename_i hlt
      exact .ladder hlt ((h.avoids more).mono (by simp [avoided])) hwhole hgoes
    · obtain ⟨rfl, rfl⟩ := hgoes
      obtain rfl | rfl : L = 6 ∨ L = 7 := by omega
      · exact .atom (h.avoids more .unaryOp (by simp [avoided])) hwhole
      · exact .primary ((h.avoids more).mono (by simp [avoided])) hwhole

lemma mono {L' : Nat} (h : Written L' ts n) (hle : L ≤ L') (hL' : L' ≤ 8) : Written L ts n := by
  induction L', hle using Nat.le_induction with
  | base => exact h
  | succ L' _ ih => exact ih (h.lower (Nat.lt_of_succ_le hL')) (Nat.le_of_succ_le hL')

/-- Parentheses make any expression a primary one. -/
lemma parens (h : Written 0 ts n) : Written 8 ("(" :: (ts ++ [")"])) n where
  avoids more := refuses_of_rejects (by decide)
  operand more m rest _ hgoes := by
    have hclose : next? (.word ")") (spaced (")" :: more)) = some (")".toList, spaced more) :=
      next?_of_takes (by decide)
    have hopen : next? (.word "(") (spaced ("(" :: (ts ++ ")" :: more))) =
      some ("(".toList, spaced (ts ++ ")" :: more)) := next?_of_takes (by decide)
    have hoperand := h.closed (closed_of_mark (by simp) hclose)
    simpa using Operand.parens hopen (refuses_of_rejects (by decide)) hoperand hclose hgoes

/-- With parentheses where they are needed, an expression is written at the level that is asked
for. -/
lemma guard {level : Nat} (h : Written level ts n) (hlevel : level ≤ 8) (hL : L ≤ 8) :
    Written L (guarded L level ts) n := by
  rw [guarded]
  split
  · exact (h.mono (Nat.zero_le level) hlevel).parens.mono hL le_rfl
  · rename_i hle
    exact h.mono (Nat.le_of_not_lt hle) hlevel

/-! ### Operators -/

lemma binary {op : BinaryOp} (hop : (op.family?).isSome) (ha : Written op.level ts a)
    (hb : Written (op.level + 1) us b) :
    Written op.level (ts ++ op.text :: us) (.binary default a op b) where
  avoids more := by
    simpa using ha.avoids (op.text :: (us ++ more))
  operand more m rest hends hgoes := by
    have hL := op.level_lt
    have htext : BinaryOp.ofText (String.ofList op.text.toList) = op := by
      rw [String.ofList_toList]
      cases op with
      | other s => cases hop
      | _ => rfl
    have hnext : next? (.ofLevel op.level) (spaced (op.text :: (us ++ more))) =
        some (op.text.toList, spaced (us ++ more)) := by
      refine next?_of_takes ?_
      cases op with
      | other s => cases hop
      | _ => decide
    rw [GoesOn, if_pos hL] at hgoes
    have hloop : Loop op.level a (spaced (op.text :: (us ++ more))) m rest :=
      .more hnext (hb.whole (hends (by omega))) (htext.symm ▸ hgoes)
    have h := ha.operand (op.text :: (us ++ more)) m rest (fun _ => ends_of_operator hL hnext)
      (by rwa [GoesOn, if_pos hL])
    simpa using h

lemma unary {op : UnaryOp} (hop : op = .negate ∨ op = .length) (ha : Written 6 ts a) :
    Written 6 (op.text :: ts) (.unary default op a) where
  avoids more := by
    rcases hop with rfl | rfl <;> exact refuses_of_rejects (by decide)
  operand more m rest hends hgoes := by
    obtain ⟨rfl, rfl⟩ : m = .unary default op a ∧ rest = spaced more := hgoes
    have hoperand := ha.operand more a (spaced more) hends ⟨rfl, rfl⟩
    rcases hop with rfl | rfl <;>
      exact .unary (next?_of_takes (by decide)) (refuses_of_rejects (by decide)) hoperand

/-! ### Variables and strings -/

lemma var {x : String} (hx : isPlainName x) : Written 8 [x] (.var default x) where
  avoids more t ht := next?_of_rejects (rejects_of_isPlainName hx (by
    revert t
    decide))
  operand more m rest _ hgoes := by
    have hname : next? .name (spaced (x :: more)) = some (x.toList, spaced more) :=
      next?_of_takes (takes_of_isPlainName hx)
    have hparen : Refuses (spaced (x :: more)) [.word "("] :=
      List.forall_mem_singleton.2 (next?_of_rejects (rejects_of_isPlainName hx (by simp)))
    have hrest : Suffixes (.var default (String.ofList x.toList)) (spaced more) m rest := by
      rwa [String.ofList_toList]
    exact .name hname hparen hrest

lemma string {s : String} (hs : Quotable s.toList) : Written 7 [quoted s] (.string default s) where
  avoids more t ht := by
    have h : ∀ t ∈ avoided 7, t.isProper ∧ t.heads '"' = false := by decide
    exact next?_quoted_eq_none (h t ht).1 (h t ht).2
  operand more m rest hends hgoes := by
    obtain ⟨rfl, rfl⟩ : m = .string default s ∧ rest = spaced more := hgoes
    have h : ∀ t ∈ [Terminal.number, .boolean, .nil, .word "\x7b", .name, .word "("],
        t.isProper ∧ t.heads '"' = false := by decide
    have hrefuses : Refuses (spaced (quoted s :: more))
        [.number, .boolean, .nil, .word "\x7b", .name, .word "("] :=
      fun t ht => next?_quoted_eq_none (h t ht).1 (h t ht).2
    have hstring := Operand.string hs.next?_quoted hrefuses
    simpa [toList_quoted] using hstring

/-! ### Index expressions and calls -/

lemma index (ha : Written 8 ts a) (hb : Written 0 us b) :
    Written 8 (ts ++ "[" :: (us ++ ["]"])) (.index default a b) where
  avoids more := by simpa using ha.avoids ("[" :: (us ++ "]" :: more))
  operand more m rest _ hgoes := by
    have hclose : next? (.word "]") (spaced ("]" :: more)) = some ("]".toList, spaced more) :=
      next?_of_takes (by decide)
    have hopen : next? (.word "[") (spaced ("[" :: (us ++ "]" :: more))) =
      some ("[".toList, spaced (us ++ "]" :: more)) := next?_of_takes (by decide)
    have hkey := hb.closed (closed_of_mark (by simp) hclose)
    have hrest : Suffixes a (spaced ("[" :: (us ++ "]" :: more))) m rest :=
      .index hopen (refuses_of_rejects (by decide)) hkey hclose hgoes
    simpa using ha.operand ("[" :: (us ++ "]" :: more)) m rest (by simp) hrest

end Written

/-! ### Arguments and fields -/

/-- A comma or a closing mark closes an expression. -/
lemma closed_behindCommas {s : String} (hs : s ∈ [")", "\x7d"]) (tss : List (List String)) :
    Closed (spaced (behindCommas tss ++ s :: more)) := by
  cases tss with
  | nil =>
    have htakes : ∀ s ∈ [")", "\x7d"], (Terminal.word s).takes s := by decide
    have hmem : s ∈ [")", "]", ",", "\x7d"] := by
      revert s
      decide
    exact closed_of_mark hmem (next?_of_takes (htakes s hs))
  | cons us tss => exact closed_of_mark (s := ",") (by simp) (next?_of_takes (by decide))

lemma behindCommas_cons (tss : List (List String)) :
    behindCommas (ts :: tss) ++ more = "," :: (ts ++ (behindCommas tss ++ more)) := by
  simp [behindCommas]

variable {tss : List (List String)}

variable {ns : List Node}

lemma moreArgs_of_written (h : List.Forall₂ (Written 0) tss ns) :
    MoreArgs (spaced (behindCommas tss ++ ")" :: more)) ns (spaced more) := by
  induction h with
  | nil => exact .stop (next?_of_takes (by decide)) (refuses_of_rejects (by decide))
  | cons hn _ ih =>
    rw [behindCommas_cons]
    exact .more (next?_of_takes (by decide)) (refuses_of_rejects (by decide))
      (hn.closed (closed_behindCommas (by simp) _)) ih

lemma args_of_written (h : List.Forall₂ (Written 0) tss ns) :
    Args (spaced (commas tss ++ ")" :: more)) ns (spaced more) := by
  cases h with
  | nil => exact .empty (next?_of_takes (by decide)) (refuses_of_rejects (by decide))
  | cons hn hns =>
    rw [commas, List.append_assoc]
    exact .first ((hn.avoids _).mono (by simp [avoided]))
      (hn.closed (closed_behindCommas (by simp) _)) (moreArgs_of_written hns)

lemma Written.call (ha : Written 8 ts a)
    (h : List.Forall₂ (Written 0) tss ns) :
    Written 8 (ts ++ "(" :: (commas tss ++ [")"])) (.call default a ns) where
  avoids more := by simpa using ha.avoids ("(" :: (commas tss ++ ")" :: more))
  operand more m rest _ hgoes := by
    have hopen : next? (.word "(") (spaced ("(" :: (commas tss ++ ")" :: more))) =
      some ("(".toList, spaced (commas tss ++ ")" :: more)) := next?_of_takes (by decide)
    have hrest : Suffixes a (spaced ("(" :: (commas tss ++ ")" :: more))) m rest :=
      .call hopen (refuses_of_rejects (by decide)) (args_of_written h) hgoes
    simpa using ha.operand ("(" :: (commas tss ++ ")" :: more)) m rest (by simp) hrest

/-- Some tokens are written as a field with a key. -/
def FieldWritten (ts : List String) (q : Node × Node) : Prop :=
  ∃ us vs, ts = "[" :: (us ++ "]" :: "=" :: vs) ∧ Written 0 us q.1 ∧ Written 0 vs q.2

lemma FieldWritten.field {q : Node × Node} (h : FieldWritten ts q)
    (hclosed : Closed (spaced more)) : Field (spaced (ts ++ more)) q.1 q.2 (spaced more) := by
  obtain ⟨us, vs, rfl, hk, hv⟩ := h
  have hopen : next? (.word "[") (spaced ("[" :: (us ++ "]" :: "=" :: (vs ++ more)))) =
    some ("[".toList, spaced (us ++ "]" :: "=" :: (vs ++ more))) := next?_of_takes (by decide)
  have hclose : next? (.word "]") (spaced ("]" :: "=" :: (vs ++ more))) =
    some ("]".toList, spaced ("=" :: (vs ++ more))) := next?_of_takes (by decide)
  have hequals : next? (.word "=") (spaced ("=" :: (vs ++ more))) =
    some ("=".toList, spaced (vs ++ more)) := next?_of_takes (by decide)
  simpa using Field.keyed hopen (refuses_of_rejects (by decide))
    (hk.closed (closed_of_mark (by simp) hclose)) hclose hequals (hv.closed hclosed)

lemma FieldWritten.refuses {q : Node × Node} (h : FieldWritten ts q) :
    Refuses (spaced (ts ++ more)) [.word "\x7d"] := by
  obtain ⟨us, vs, rfl, -⟩ := h
  exact refuses_of_rejects (by decide)

variable {fields : List (Node × Node)}

lemma moreFields_of_written
    (h : List.Forall₂ FieldWritten tss fields) :
    MoreFields (spaced (behindCommas tss ++ "\x7d" :: more)) fields (spaced more) := by
  induction h with
  | nil => exact .stop (next?_of_takes (by decide)) (refuses_of_rejects (by decide))
  | cons hq _ ih =>
    rw [behindCommas_cons]
    exact .more (next?_of_takes (by decide)) (refuses_of_rejects (by decide)) hq.refuses
      (hq.field (closed_behindCommas (by simp) _)) ih

lemma fields_of_written (h : List.Forall₂ FieldWritten tss fields) :
    Fields (spaced (commas tss ++ "\x7d" :: more)) fields (spaced more) := by
  cases h with
  | nil => exact .empty (next?_of_takes (by decide)) (refuses_of_rejects (by decide))
  | cons hq hqs =>
    rw [commas, List.append_assoc]
    exact .first hq.refuses (hq.field (closed_behindCommas (by simp) _))
      (moreFields_of_written hqs)

lemma Written.table
    (h : List.Forall₂ FieldWritten tss fields) :
    Written 7 ("\x7b" :: (commas tss ++ ["\x7d"])) (.table default fields) where
  avoids more := refuses_of_rejects (by decide)
  operand more m rest hends hgoes := by
    obtain ⟨rfl, rfl⟩ : m = .table default fields ∧ rest = spaced more := hgoes
    have hopen : next? (.word "\x7b") (spaced ("\x7b" :: (commas tss ++ "\x7d" :: more))) =
      some ("\x7b".toList, spaced (commas tss ++ "\x7d" :: more)) := next?_of_takes (by decide)
    simpa using Operand.table hopen (refuses_of_rejects (by decide)) (fields_of_written h)

/-! ## Printed expressions -/

lemma Node.tokensList_eq_map (ns : List Node) : Node.tokensList ns = ns.map Node.tokens := by
  induction ns with
  | nil => rfl
  | cons n ns ih => rw [tokensList, ih, List.map_cons]

lemma Node.tokensPairs_eq_map (fields : List (Node × Node)) : Node.tokensPairs fields =
    fields.map fun q => "[" :: (q.1.tokens ++ "]" :: "=" :: q.2.tokens) := by
  induction fields with
  | nil => rfl
  | cons q fields ih => rw [tokensPairs, ih, List.map_cons]

/-- The tokens of an expression are read as it. -/
theorem Printable.written (h : Printable n) : Written n.level n.tokens n.bare := by
  induction h with
  | var hx => exact .var hx
  | string hs => exact .string hs
  | @unary l op a hop _ ih => exact .unary hop (ih.guard a.level_le (by decide))
  | @binary l a b op hop _ _ iha ihb =>
    have hlt := op.level_lt
    exact .binary hop (iha.guard a.level_le (by omega)) (ihb.guard b.level_le (by omega))
  | @index l a k _ _ iha ihk =>
    exact .index (iha.guard a.level_le le_rfl) (ihk.mono (Nat.zero_le _) k.level_le)
  | @call l f args _ _ ihf ihargs =>
    rw [Node.bare_call, Node.tokens, Node.tokensList_eq_map]
    refine .call (ihf.guard f.level_le le_rfl) ?_
    rw [List.forall₂_map_left_iff, List.forall₂_map_right_iff, List.forall₂_same]
    exact fun a ha => (ihargs a ha).mono (Nat.zero_le _) a.level_le
  | @table l fields _ _ ihk ihv =>
    rw [Node.bare_table, Node.tokens, Node.tokensPairs_eq_map]
    refine .table ?_
    rw [List.forall₂_map_left_iff, List.forall₂_map_right_iff, List.forall₂_same]
    exact fun q hq => ⟨_, _, rfl, (ihk q hq).mono (Nat.zero_le _) q.1.level_le,
      (ihv q hq).mono (Nat.zero_le _) q.2.level_le⟩

lemma next?_space (t : Terminal) (cs : List Char) : next? t (' ' :: cs) = next? t cs := by
  rw [next?, next?, List.dropWhile_cons_of_pos (by decide)]

/-- Reading undoes printing: a program that returns a printed expression is read as a chunk without
statements whose return statement holds this expression, wherever it stands. -/
theorem parse_print (file : String) {e : Node} (he : Printable e) :
    ∃ n, parse file ("return " ++ e.print) = .ok n ∧
      n.bare = .chunk default [] (some (.returns default [e.bare])) := by
  have hwritten := he.written.mono (Nat.zero_le _) e.level_le
  have hoperand : Operand 0 (spaced (e.tokens ++ [])) e.bare (spaced []) :=
    hwritten.closed (closed_of_blanks rfl)
  rw [List.append_nil] at hoperand
  have htokens : e.tokens ≠ [] := by
    intro hnil
    obtain ⟨t, r, ht, hnext⟩ := hoperand.exists_next
    rw [hnil] at hnext
    exact nomatch (next?_of_blanks ht rfl).symm.trans hnext
  -- The text is that of the tokens `return` and those of the expression, without the first space.
  have htext : spaced ("return" :: e.tokens) = ' ' :: ("return " ++ e.print).toList := by
    rw [spaced_cons, ← cons_intercalate_toList htokens]
    simp [Node.print]
  have hnext : ∀ t, next? t ("return " ++ e.print).toList =
      next? t (spaced ("return" :: e.tokens)) := fun t => by rw [htext, next?_space]
  refine hoperand.exists_parse file (x := "return".toList) ?_ fun t ht => ?_
  · rw [hnext]
    exact next?_of_takes (by decide)
  · rw [hnext]
    exact refuses_of_rejects (by decide) t ht

/-- An expression with operators of several levels, an index expression, a call and a table. -/
def mixedExpression : Node :=
  .binary default
    (.binary default (.unary default .negate (.index default
        (.binary default (.var default "a") .concat (.string default "b, \\\"c"))
        (.var default "i")))
      .power (.call default (.var default "f") [.binary default (.var default "x") .subtract
          (.binary default (.var default "y") .add (.var default "z")),
        .table default [(.var default "k", .unary default .length (.var default "v"))]]))
    .and (.var default "order")

lemma printable_mixedExpression : Printable mixedExpression := by
  have hstring : Quotable "b, \\\"c".toList :=
    .plain (by decide) (by decide) (.plain (by decide) (by decide) (.plain (by decide) (by decide)
      (.escaped (by decide) (.plain (by decide) (by decide) .nil))))
  refine .binary rfl (.binary rfl (.unary (.inl rfl) (.index ?_ (.var (by decide))))
    (.call (.var (by decide)) (List.forall_mem_cons.2 ⟨?_, List.forall_mem_singleton.2 ?_⟩)))
    (.var (by decide))
  · exact .binary rfl (.var (by decide)) (.string hstring)
  · exact .binary rfl (.var (by decide)) (.binary rfl (.var (by decide)) (.var (by decide)))
  · exact .table (List.forall_mem_singleton.2 (.var (by decide)))
      (List.forall_mem_singleton.2 (.unary (.inr rfl) (.var (by decide))))

theorem parse_print_mixedExpression :
    mixedExpression.print =
      "- ( a .. \"b, \\\"c\" ) [ i ] ^ f ( x - ( y + z ) , \x7b [ k ] = # v \x7d ) and order" ∧
    ∃ n, parse "t.lua" ("return " ++ mixedExpression.print) = .ok n ∧
      n.bare = .chunk default [] (some (.returns default [mixedExpression.bare])) :=
  ⟨by decide, parse_print "t.lua" printable_mixedExpression⟩

end LuaTyping
