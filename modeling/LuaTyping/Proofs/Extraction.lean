import LuaTyping.Proofs.Charts

set_option autoImplicit false

/-!
# Derivations from a chart

Whatever category a text can be read as between two places, the chart of the text gives a derivation
of it that follows the grammar and makes up the stretch of text. The parts of an alternative are
looked for from the last one back, and each is found since all items stand in the chart. Going down
ends because a part either is shorter than the whole or, if all other parts are empty, is of a
category of a lower rank.

## Main definitions

* `Category.rank` — the rank of a category.

## Main results

* `Chart.exists_derivation?` — a category that can be read has a derivation.
-/

namespace LuaTyping

variable {text : List Char}

namespace Chart

variable {i : Item} {stop : Nat}

lemma has_iff {q : Nat} : has (ofText text).columns q i ↔ i.Valid text q := by
  rw [has, List.contains_iff_mem, mem_column_iff]

lemma reads_of_fitting? {c : Category} {start k : Nat}
    (h : fitting? (ofText text).columns c start stop = some k) :
    ∃ a, (alternatives c)[k]? = some a ∧ Predicted text c start ∧
      Reads text a.parts start stop := by
  obtain ⟨a, ha, -, hpredicted, hreads⟩ := has_iff.1 (by simpa using List.find?_some h)
  refine ⟨a, ha, hpredicted, ?_⟩
  simpa [ha] using hreads

/-- Where a category was read, an alternative fits. -/
lemma exists_fitting? {c : Category} {start : Nat} (hc : Predicted text c start)
    (h : Reads text [.category c] start stop) :
    ∃ k, fitting? (ofText text).columns c start stop = some k := by
  obtain ⟨place, k, a, hplace, ha, hreads⟩ := Reads.append_category_iff.1
    (show Reads text ([] ++ [.category c]) start stop from h)
  obtain rfl := Reads.nil_iff.1 hplace
  rw [← Option.isSome_iff_exists, fitting?, List.find?_isSome]
  refine ⟨k, List.mem_range.2 (List.getElem?_eq_some_iff.1 ha).1, has_iff.2 ?_⟩
  exact ⟨a, ha, by simp [ha], hc, by simpa [ha] using hreads⟩

/-! ## Parts -/

/-- Whether a part is found to fill a stretch of text. -/
def fills (text : List Char) (part : Part) (start stop : Nat) : Bool :=
  match part with
  | .lexeme t => (lexemeAt? t start (text.drop start)).any fun span => span.stop == stop
  | .category c => (fitting? (ofText text).columns c start stop).isSome

/-- A part that a valid item waits for is found to fill a stretch of text exactly if it was read
there. -/
lemma fills_iff {part : Part} {start : Nat} (hi : i.Valid text start)
    (hnext : i.next? = some part) : fills text part start stop ↔ Reads text [part] start stop := by
  cases part with
  | lexeme t =>
    rw [← List.nil_append [_], Reads.append_lexeme_iff]
    simp only [fills, Option.any_eq_true, beq_iff_eq]
    constructor
    · rintro ⟨span, hlexeme, hstop⟩
      exact ⟨start, span, .nil start, hlexeme,
        (lexemeAt?_bounds (hi.isProper hnext) hlexeme).1, hstop⟩
    · rintro ⟨place, span, hplace, hlexeme, -, hstop⟩
      obtain rfl := Reads.nil_iff.1 hplace
      exact ⟨span, hlexeme, hstop⟩
  | category c =>
    rw [fills, Option.isSome_iff_exists]
    constructor
    · rintro ⟨k, hk⟩
      obtain ⟨a, ha, -, hreads⟩ := reads_of_fitting? hk
      exact (Reads.nil start).category ha hreads
    · exact exists_fitting? (hi.predicted hnext)

/-- Where the last found part of an item begins, the item stands without it, and the part is read
from there. Such a place is found if the item is valid. -/
lemma partStart?_spec {count : Nat} {part : Part} (hpart : i.parts[count]? = some part)
    (hi : { i with found := count + 1 }.Valid text stop) :
    ∃ start, partStart? text.drop (ofText text).columns stop { i with found := count + 1 } part =
      some start ∧ { i with found := count }.Valid text start ∧ Reads text [part] start stop := by
  have hnext : { i with found := count }.next? = some part := hpart
  have hfind : partStart? text.drop (ofText text).columns stop { i with found := count + 1 } part =
      (if count + 1 = 1 then [i.origin] else placesBack i.origin stop).find? fun place =>
        has (ofText text).columns place { i with found := count } &&
          fills text part place stop := by
    cases part <;> rfl
  -- The item was read up to its last part, and the last part from there on.
  obtain ⟨a, ha, hle, hpredicted, hreads⟩ := hi
  have hpart' : a.parts[count]? = some part := Item.parts_eq ha ▸ hpart
  rw [List.take_add_one, hpart'] at hreads
  obtain ⟨place, hplace, hlast⟩ := hreads.append_inv
  have hvalid : { i with found := count }.Valid text place :=
    ⟨a, ha, Nat.le_of_succ_le hle, hpredicted, hplace⟩
  have hmem : place ∈ if count + 1 = 1 then [i.origin] else placesBack i.origin stop := by
    split
    · rename_i hcount
      obtain rfl : count = 0 := by omega
      exact List.mem_singleton.2 (Reads.nil_iff.1 hplace).symm
    · have hstart : i.origin ≤ place := hplace.le
      have hstop := hlast.le
      exact List.mem_map.2 ⟨stop - place, List.mem_range.2 (by omega), by omega⟩
  obtain ⟨start, hstart⟩ : ∃ start, partStart? text.drop (ofText text).columns stop
      { i with found := count + 1 } part = some start := by
    rw [hfind, ← Option.isSome_iff_exists, List.find?_isSome]
    exact ⟨place, hmem,
      Bool.and_eq_true_iff.2 ⟨has_iff.2 hvalid, (fills_iff hvalid hnext).2 hlast⟩⟩
  have hfound := List.find?_some (hfind.symm.trans hstart)
  simp only [Bool.and_eq_true, has_iff] at hfound
  exact ⟨start, hstart, hfound.1, (fills_iff hfound.1 hnext).1 hfound.2⟩

end Chart

/-- Some parts, each with the stretch of text that it fills, stand one after the other between two
places. -/
inductive Chain (text : List Char) : Nat → List (Part × Span) → Nat → Prop
  | nil (place : Nat) : Chain text place [] place
  | cons {start place stop : Nat} {part : Part} {rest : List (Part × Span)} :
    Reads text [part] start place → Chain text place rest stop →
      Chain text start ((part, ⟨start, place⟩) :: rest) stop

namespace Chain

variable {start place stop : Nat} {spans : List (Part × Span)}

lemma concat (h : Chain text start spans place) {part : Part}
    (hpart : Reads text [part] place stop) :
    Chain text start (spans ++ [(part, ⟨place, stop⟩)]) stop := by
  induction h with
  | nil place => exact .cons hpart (.nil stop)
  | cons hfirst _ ih => exact .cons hfirst (ih hpart)

lemma le (h : Chain text start spans stop) : start ≤ stop := by
  induction h with
  | nil => exact le_rfl
  | cons hfirst _ ih => exact hfirst.le.trans ih

lemma forall_nullable (h : Chain text start spans stop) (heq : start = stop) :
    ∀ part ∈ spans.map Prod.fst, part.nullable := by
  induction h with
  | nil => exact List.forall_mem_nil _
  | cons hfirst hrest ih =>
    have := hfirst.le
    have := hrest.le
    exact List.forall_mem_cons.2
      ⟨hfirst.forall_nullable (by omega) _ List.mem_cons_self, ih (by omega)⟩

end Chain

namespace Chart

/-- The parts of an alternative that was read are found, one after the other. -/
lemma partSpans?_chain {i : Item} {count stop : Nat}
    (hi : { i with found := count }.Valid text stop) :
    ∃ spans, partSpans? text.drop (ofText text).columns i count stop = some spans ∧
      Chain text i.origin spans stop := by
  induction count generalizing stop with
  | zero =>
    obtain ⟨a, -, -, -, hreads⟩ := hi
    obtain rfl := Reads.nil_iff.1 hreads
    exact ⟨[], rfl, .nil _⟩
  | succ count ih =>
    obtain ⟨a, ha, hle, -⟩ := id hi
    have hlt : count < a.parts.length := hle
    have hparts : i.parts = a.parts := Item.parts_eq ha
    have hpart : i.parts[count]? = some a.parts[count] := by
      rw [hparts, List.getElem?_eq_getElem hlt]
    obtain ⟨start, hstart, hvalid, hreads⟩ := partStart?_spec hpart hi
    obtain ⟨spans, hspans, hchain⟩ := ih hvalid
    refine ⟨spans ++ [(a.parts[count], ⟨start, stop⟩)], ?_, hchain.concat hreads⟩
    simp only [partSpans?, hpart, Option.bind_eq_bind, Option.bind_some, hstart, hspans,
      Option.pure_def]

end Chart

/-! ## Going down -/

/-- The rank of a category: it is greater than that of each category that can be all of it. -/
def Category.rank : Category → Nat
  | .type | .target | .primary | .statement | .last | .moreElseifs | .parameters | .resultNote => 1
  | .tupleType | .targets | .atom | .statements | .elseifs | .moreNotes => 2
  | .unary | .chunk | .resultNotes => 3
  | .power | .program => 4
  | .product => 5
  | .sum => 6
  | .relation => 7
  | .equality => 8
  | .logic => 9
  | .expr => 10
  | .exprs | .field => 11
  | _ => 0

lemma Category.rank_le (c : Category) : c.rank ≤ 11 := by cases c <;> decide

/-- Whether a part is no category, or one of a rank below a bound. -/
def Part.isBelow (bound : Nat) : Part → Bool
  | .lexeme _ => true
  | .category c => c.rank < bound

/-- A category that is part of an alternative whose other parts may be empty has a lower rank. -/
lemma Category.rank_lt {c d : Category} {k : Nat} {a : Alternative} {before after : List Part}
    (ha : (alternatives c)[k]? = some a) (hparts : a.parts = before ++ .category d :: after)
    (hbefore : ∀ part ∈ before, part.nullable) (hafter : ∀ part ∈ after, part.nullable) :
    d.rank < c.rank := by
  have hall : ∀ a ∈ alternatives c, ∀ n < a.parts.length,
      (∀ part ∈ a.parts.take n, part.nullable) → (∀ part ∈ a.parts.drop (n + 1), part.nullable) →
        (a.parts[n]?).all (Part.isBelow c.rank) := by
    cases c <;> decide
  have hdrop : a.parts.drop (before.length + 1) = after := by
    rw [hparts, ← List.drop_drop, List.drop_left, List.drop_succ_cons, List.drop_zero]
  have h := hall a (List.mem_of_getElem? ha) before.length (by simp [hparts])
    (by simpa [hparts] using hbefore) (hdrop ▸ hafter)
  simpa [hparts, Part.isBelow] using h

namespace Chart

variable {depth stop : Nat} {c : Category}

/-- A lexeme that was read is found again. -/
lemma exists_lexeme_derivation {t : Terminal} {start : Nat}
    (h : Reads text [.lexeme t] start stop) :
    ∃ span, lexemeAt? t start (text.drop start) = some span ∧
      MakeUp text start (Derivation.lexeme t span).lexemes stop := by
  rw [← List.nil_append [_], Reads.append_lexeme_iff] at h
  obtain ⟨place, span, hplace, hlexeme, -, rfl⟩ := h
  obtain rfl := Reads.nil_iff.1 hplace
  obtain ⟨hstart, n, hmatch, hstop⟩ := lexemeAt?_eq_some_iff.1 hlexeme
  exact ⟨span, hlexeme, .cons (hstart ▸ blankRun_skipBlanks start) hmatch hstop (.nil _)⟩

/-- The derivation of a part over the stretch that it fills, to a given depth. -/
def part? (text : List Char) (depth : Nat) : Part × Span → Option Derivation
  | (.lexeme t, span) => (lexemeAt? t span.start (text.drop span.start)).map (.lexeme t)
  | (.category c, span) =>
    derivation? text.drop (ofText text).columns depth c span.start span.stop

lemma derivation?_succ {start k : Nat} {spans : List (Part × Span)} {ds : List Derivation}
    (hk : fitting? (ofText text).columns c start stop = some k)
    (hspans : partSpans? text.drop (ofText text).columns ⟨c, k, 0, start⟩
      (Item.mk c k 0 start).parts.length stop = some spans)
    (hds : spans.mapM (part? text depth) = some ds) :
    derivation? text.drop (ofText text).columns (depth + 1) c start stop =
      some (.node c k ds) := by
  rw [derivation?]
  refine Option.bind_eq_some_iff.2 ⟨k, hk, Option.bind_eq_some_iff.2 ⟨spans, hspans,
    Option.bind_eq_some_iff.2 ⟨ds, ?_, rfl⟩⟩⟩
  rw [← hds]
  congr 1
  funext ⟨part, span⟩
  cases part <;> rfl

/-- Parts that are shorter than the whole, or no longer and of a lower rank, have derivations. -/
def PartsDerive (text : List Char) (depth : Nat) (c : Category) (start stop : Nat) : Prop :=
  ∀ d start' stop', Predicted text d start' → Reads text [.category d] start' stop' →
    stop' - start' < stop - start ∨ stop' - start' ≤ stop - start ∧ d.rank < c.rank →
    ∃ d', derivation? text.drop (ofText text).columns depth d start' stop' = some d' ∧
      d'.part = .category d ∧ d'.Follows ∧ MakeUp text start' d'.lexemes stop'

/-- The parts of an alternative that was read have derivations, if the categories among them do that
are shorter than the whole or of a lower rank.

**Proof sketch.** By induction on the parts that are left, which go on where the parts before them
end. A category among them begins where it is expected, so that it was predicted. If it is as long
as the whole, all other parts are empty, and its rank is lower. -/
lemma exists_mapM_part? {start place k : Nat} {a : Alternative}
    (hdepth : PartsDerive text depth c start stop) (hc : Predicted text c start)
    (ha : (alternatives c)[k]? = some a) {before : List Part} {spans : List (Part × Span)}
    (hparts : a.parts = before ++ spans.map Prod.fst) (hbefore : Reads text before start place)
    (hspans : Chain text place spans stop) :
    ∃ ds, spans.mapM (part? text depth) = some ds ∧
      ds.map Derivation.part = spans.map Prod.fst ∧ (∀ d ∈ ds, d.Follows) ∧
      MakeUp text place (Derivation.lexemesList ds) stop := by
  induction spans generalizing before place with
  | nil =>
    cases hspans
    exact ⟨[], rfl, rfl, by simp, .nil _⟩
  | cons first rest ih =>
    cases hspans with
    | @cons _ place' _ part _ hpart hrest =>
      rw [List.map_cons] at hparts
      obtain ⟨ds, hds, hmap, hfollows, hmake⟩ := ih
        (by rw [hparts, List.append_assoc, List.singleton_append]) (hbefore.append hpart) hrest
      obtain ⟨d, hd, hdpart, hdfollows, hdmake⟩ : ∃ d, part? text depth (part, ⟨place, place'⟩) =
          some d ∧ d.part = part ∧ d.Follows ∧ MakeUp text place d.lexemes place' := by
        cases part with
        | lexeme t =>
          obtain ⟨span, hlexeme, hmake⟩ := exists_lexeme_derivation hpart
          exact ⟨.lexeme t span, by simp [part?, hlexeme], rfl, .lexeme t span, hmake⟩
        | category e =>
          have hpredicted : Predicted text e place :=
            hc.next (n := before.length) ha (by simp [hparts]) (by simpa [hparts] using hbefore)
          have hle := hbefore.le
          have hle' := hpart.le
          have hle'' := hrest.le
          refine hdepth e place place' hpredicted hpart ?_
          rcases Nat.lt_or_ge (place' - place) (stop - start) with hlt | hge
          · exact .inl hlt
          · exact .inr ⟨by omega, Category.rank_lt ha hparts (hbefore.forall_nullable (by omega))
              (hrest.forall_nullable (by omega))⟩
      refine ⟨d :: ds, ?_, by rw [List.map_cons, hdpart, hmap]; rfl,
        List.forall_mem_cons.2 ⟨hdfollows, hfollows⟩, hdmake.append hmake⟩
      rw [List.mapM_cons, hd, hds]
      rfl

/-- The stretches of the first parts of an item are those of its first parts, in their order. -/
lemma partSpans?_parts {suffix : Nat → List Char} {chart : Array Column} {i : Item}
    {count stop : Nat} {spans : List (Part × Span)}
    (h : partSpans? suffix chart i count stop = some spans) :
    spans.map Prod.fst = i.parts.take count := by
  induction count generalizing stop spans with
  | zero =>
    obtain rfl : [] = spans := Option.some.inj h
    rfl
  | succ count ih =>
    simp only [partSpans?, Option.bind_eq_bind, Option.pure_def, Option.bind_eq_some_iff] at h
    obtain ⟨part, hpart, start, _, rest, hrest, heq⟩ := h
    cases heq
    rw [List.map_append, ih hrest, List.take_add_one, hpart]
    rfl

/-- A category that is read between two places has a derivation, which follows the grammar and makes
up the text between them. -/
theorem exists_derivation? {start : Nat} (hc : Predicted text c start)
    (h : Reads text [.category c] start stop) (hdepth : 60 * (stop - start) + c.rank < depth) :
    ∃ d, derivation? text.drop (ofText text).columns depth c start stop = some d ∧
      d.part = .category c ∧ d.Follows ∧ MakeUp text start d.lexemes stop := by
  induction depth generalizing c start stop with
  | zero => exact absurd hdepth (Nat.not_lt_zero _)
  | succ depth ih =>
    obtain ⟨k, hk⟩ := exists_fitting? hc h
    obtain ⟨a, ha, -, hreads⟩ := reads_of_fitting? hk
    have hparts : (Item.mk c k 0 start).parts = a.parts := Item.parts_eq ha
    have hvalid : (Item.mk c k a.parts.length start).Valid text stop :=
      ⟨a, ha, le_rfl, hc, by rwa [List.take_length]⟩
    obtain ⟨spans, hspans, hchain⟩ := partSpans?_chain (i := ⟨c, k, 0, start⟩) hvalid
    have hfst : a.parts = [] ++ spans.map Prod.fst := by
      rw [partSpans?_parts hspans, hparts, List.take_length, List.nil_append]
    have hsmaller : PartsDerive text depth c start stop := by
      intro d start' stop' hd hreads' hlt
      have := d.rank_le
      exact ih hd hreads' (by rcases hlt with hlt | hlt <;> omega)
    obtain ⟨ds, hds, hmap, hfollows, hmake⟩ :=
      exists_mapM_part? hsmaller hc ha hfst (.nil start) hchain
    exact ⟨.node c k ds, derivation?_succ hk (hparts ▸ hspans) hds, rfl,
      .node ha (hmap.trans hfst.symm) hfollows, hmake⟩

end Chart

end LuaTyping
