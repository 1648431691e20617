import LuaTyping.Proofs.Derivations

set_option autoImplicit false

/-!
# What a chart holds

The chart of a text holds at each place exactly the items that should stand there: an alternative of
a category that may begin at the item's origin, of which the parts that are marked as found stand
between the origin and the place. That no other items stand there is kept by every step of the
filling. That none is missing follows from the columns being closed when they are left, for which
the closing of a column must not run out of items: the bound on it counts the dotted alternatives of
the grammar, once for each origin.

## Main definitions

* `Predicted` — a category may begin at a place.
* `Item.Valid` — an item should stand at a place.
* `Chart.Progress.Filled` — what is kept while a chart is filled.

## Main results

* `Chart.close_spec` — a column is closed under its consequences.
* `Chart.filled_ofText` — the columns of a chart are valid, closed and scanned.
* `Chart.mem_column_iff` — the items of a chart are the valid ones.
-/

namespace LuaTyping

variable {text : List Char}

/-- A category may begin at a place: the text before it is that of a program in which a part of the
category comes next. -/
inductive Predicted (text : List Char) : Category → Nat → Prop
  | program : Predicted text .program 0
  | next {c d : Category} {k n start place : Nat} {a : Alternative} :
    Predicted text c start → (alternatives c)[k]? = some a → a.parts[n]? = some (.category d) →
      Reads text (a.parts.take n) start place → Predicted text d place

namespace Item

/-- An item should stand at a place: its category may begin at its origin, and the parts that are
found stand between the origin and the place. -/
def Valid (text : List Char) (place : Nat) (i : Item) : Prop :=
  ∃ a, (alternatives i.category)[i.alternative]? = some a ∧ i.found ≤ a.parts.length ∧
    Predicted text i.category i.origin ∧ Reads text (a.parts.take i.found) i.origin place

lemma parts_eq {i : Item} {a : Alternative}
    (ha : (alternatives i.category)[i.alternative]? = some a) : i.parts = a.parts := by
  simp [parts, ha]

lemma mem_starts {c : Category} {place : Nat} {i : Item} : i ∈ starts c place ↔
    i.category = c ∧ i.found = 0 ∧ i.origin = place ∧ i.alternative < (alternatives c).length := by
  cases i
  simp only [starts, List.mem_map, List.mem_range, mk.injEq]
  constructor
  · rintro ⟨k, hk, rfl, rfl, rfl, rfl⟩
    exact ⟨rfl, rfl, rfl, hk⟩
  · rintro ⟨rfl, rfl, rfl, hk⟩
    exact ⟨_, hk, rfl, rfl, rfl, rfl⟩

lemma valid_of_mem_starts {c : Category} {place : Nat} {i : Item} (hc : Predicted text c place)
    (h : i ∈ starts c place) : i.Valid text place := by
  obtain ⟨rfl, hfound, rfl, hlt⟩ := mem_starts.1 h
  refine ⟨_, List.getElem?_eq_getElem hlt, hfound ▸ Nat.zero_le _, hc, ?_⟩
  rw [hfound, List.take_zero]
  exact .nil _

namespace Valid

variable {i : Item} {place : Nat}

lemma predicted (h : i.Valid text place) {c : Category} (hnext : i.next? = some (.category c)) :
    Predicted text c place := by
  obtain ⟨a, ha, -, hpredicted, hreads⟩ := h
  rw [next?, parts_eq ha] at hnext
  exact hpredicted.next ha hnext hreads

lemma advance (h : i.Valid text place) {part : Part} (hnext : i.next? = some part) {stop : Nat}
    (hpart : Reads text [part] place stop) : i.advance.Valid text stop := by
  obtain ⟨a, ha, -, hpredicted, hreads⟩ := h
  rw [next?, parts_eq ha] at hnext
  obtain ⟨hlt, -⟩ := List.getElem?_eq_some_iff.1 hnext
  refine ⟨a, ha, hlt, hpredicted, ?_⟩
  rw [Item.advance, List.take_add_one, hnext]
  exact hreads.append hpart

lemma isProper (h : i.Valid text place) {t : Terminal} (hnext : i.next? = some (.lexeme t)) :
    t.isProper := by
  obtain ⟨a, ha, -⟩ := h
  rw [next?, parts_eq ha] at hnext
  exact isProper_of_mem ha (List.mem_of_getElem? hnext)

lemma reads_of_complete (h : i.Valid text place) (hnext : i.next? = none) :
    ∃ a, (alternatives i.category)[i.alternative]? = some a ∧
      Reads text a.parts i.origin place := by
  obtain ⟨a, ha, -, -, hreads⟩ := h
  rw [next?, parts_eq ha, List.getElem?_eq_none_iff] at hnext
  rw [List.take_of_length_le hnext] at hreads
  exact ⟨a, ha, hreads⟩

end Valid

end Item

/-- A nullable category stands between each place and itself. -/
lemma reads_of_nullable {c : Category} (h : c.nullable) (place : Nat) :
    Reads text [.category c] place place := by
  have hempty : ∀ {d : Category} {k : Nat} {a : Alternative}, (alternatives d)[k]? = some a →
      a.parts = [] → Reads text [.category d] place place := fun ha hparts =>
    (Reads.nil place).category ha (hparts ▸ .nil place)
  cases c with
  | program => exact (Reads.nil place).category (k := 0) rfl (hempty (k := 3) rfl rfl)
  | chunk => exact hempty (k := 3) rfl rfl
  | elseifs | resultNotes => exact hempty (k := 1) rfl rfl
  | _ => cases h

/-! ## Counting -/

/-- All categories. -/
def Category.all : List Category :=
  [.program, .type, .typeVariable, .tupleType, .chunk, .statement, .branch, .elseifs, .elseif,
    .otherwise, .last, .returns, .functionAssign, .functionDeclare, .function, .parameters,
    .resultNotes, .resultNote, .resultType, .assign, .targets, .target, .reveal, .typeNote,
    .declare, .exprs, .names, .property, .index, .call, .args, .table, .field, .expr, .logic,
    .equality, .relation, .sum, .product, .power, .unary, .atom, .primary, .moreTypes, .statements,
    .moreElseifs, .moreNotes, .moreTargets, .moreExprs, .moreNames, .moreFields]

lemma Category.mem_all (c : Category) : c ∈ all := by cases c <;> decide

/-- All items with an origin: the dotted alternatives of the grammar. -/
def Item.dotted (origin : Nat) : List Item :=
  Category.all.flatMap fun c => (alternatives c).zipIdx.flatMap fun (a, k) =>
    (List.range (a.parts.length + 1)).map fun n => ⟨c, k, n, origin⟩

lemma Item.length_dotted (origin : Nat) : (dotted origin).length ≤ 400 := by
  have h : (dotted origin).length = (Category.all.map fun c =>
      ((alternatives c).zipIdx.map fun (a, _) => a.parts.length + 1).sum).sum := by
    simp [dotted, List.length_flatMap]
  rw [h]
  decide

lemma Item.Valid.mem_dotted {i : Item} {place : Nat} (h : i.Valid text place) :
    i ∈ dotted i.origin := by
  obtain ⟨a, ha, hle, -⟩ := h
  simp only [dotted, List.mem_flatMap, List.mem_map, List.mem_range, Prod.exists]
  exact ⟨i.category, Category.mem_all _, a, i.alternative, List.mem_zipIdx_iff_getElem?.2 ha,
    i.found, Nat.lt_succ_of_le hle, rfl⟩

/-- There are no more valid items at a place than the bound on its column. -/
lemma Item.length_le_columnBound {place : Nat} {l : List Item} (hnodup : l.Nodup)
    (hvalid : ∀ i ∈ l, i.Valid text place) : l.length ≤ Chart.columnBound place := by
  have hsub : l ⊆ (List.range (place + 1)).flatMap dotted := by
    intro i hi
    obtain ⟨a, -, -, -, hreads⟩ := hvalid i hi
    exact List.mem_flatMap.2 ⟨i.origin, List.mem_range.2 (Nat.lt_succ_of_le hreads.le),
      (hvalid i hi).mem_dotted⟩
  calc l.length
      ≤ ((List.range (place + 1)).flatMap dotted).length :=
        (List.subperm_of_subset hnodup hsub).length_le
    _ = ((List.range (place + 1)).map fun origin => (dotted origin).length).sum :=
        List.length_flatMap
    _ ≤ ((List.range (place + 1)).map fun _ => 400).sum :=
        List.sum_le_sum fun origin _ => length_dotted origin
    _ = Chart.columnBound place := by simp [Chart.columnBound, Nat.mul_comm]

/-! ## Closing a column -/

namespace Chart

variable {chart : Array Column} {place : Nat}

/-- What follows from a valid item is valid. -/
lemma valid_of_mem_consequences
    (hchart : ∀ q < place, ∀ i ∈ column chart q, i.Valid text q) {i x : Item}
    (hi : i.Valid text place) (hx : x ∈ consequences chart place i) : x.Valid text place := by
  rw [consequences.eq_def] at hx
  split at hx
  · rename_i c hnext
    have hstarts : x ∈ Item.starts c place → x.Valid text place :=
      Item.valid_of_mem_starts (hi.predicted hnext)
    split at hx
    · rename_i hnullable
      rcases List.mem_cons.1 hx with rfl | hx
      · exact hi.advance hnext (reads_of_nullable hnullable place)
      · exact hstarts hx
    · exact hstarts hx
  · exact absurd hx List.not_mem_nil
  · rename_i hnext
    split at hx
    · rename_i hlt
      obtain ⟨w, hw, rfl⟩ := List.mem_map.1 hx
      obtain ⟨hw, hawaits⟩ := List.mem_filter.1 hw
      obtain ⟨a, ha, hreads⟩ := hi.reads_of_complete hnext
      have hwnext : w.next? = some (.category i.category) := by
        rw [Item.awaits.eq_def] at hawaits
        split at hawaits
        · rename_i hw
          rw [hw, eq_of_beq hawaits]
        · cases hawaits
      exact (hchart i.origin hlt w hw).advance hwnext ((Reads.nil i.origin).category ha hreads)
    · exact absurd hx List.not_mem_nil

/-- A column that is closed from valid items holds these and no others than valid ones, and with an
item all that follows from it.

**Proof sketch.** By induction on the number of items that may still be added. What follows from an
item of the column is in the column or still to be done. When no more items may be added, the column
has as many different valid items as there are, so that all that is still to be done is in it. -/
theorem close_spec (hchart : ∀ q < place, ∀ i ∈ column chart q, i.Valid text q) {fuel : Nat}
    {todo : List Item} {col : Column} (htodo : ∀ i ∈ todo, i.Valid text place)
    (hcol : ∀ i ∈ col, i.Valid text place) (hnodup : col.Nodup)
    (hfuel : columnBound place ≤ fuel + col.length)
    (hclosed : ∀ i ∈ col, ∀ x ∈ consequences chart place i, x ∈ col ∨ x ∈ todo) :
    (∀ i ∈ close chart place fuel todo col, i.Valid text place) ∧
    (∀ i ∈ close chart place fuel todo col, ∀ x ∈ consequences chart place i,
      x ∈ close chart place fuel todo col) ∧
    (∀ i, i ∈ col ∨ i ∈ todo → i ∈ close chart place fuel todo col) := by
  induction fuel generalizing todo col with
  | zero =>
    have hdone : ∀ i ∈ todo, i ∈ col := by
      intro i hi
      by_contra hnot
      have hmore := Item.length_le_columnBound (hnodup.cons hnot)
        (List.forall_mem_cons.2 ⟨htodo i hi, hcol⟩)
      rw [List.length_cons] at hmore
      omega
    exact ⟨hcol, fun i hi x hx => (hclosed i hi x hx).elim id (hdone x),
      fun i hi => hi.elim id (hdone i)⟩
  | succ fuel ih =>
    rw [close]
    split
    · rename_i hnone
      have hdone : ∀ i ∈ todo, i ∈ col := by
        simpa using List.dropWhile_eq_nil_iff.1 hnone
      exact ⟨hcol, fun i hi x hx => (hclosed i hi x hx).elim id (hdone x),
        fun i hi => hi.elim id (hdone i)⟩
    · rename_i i rest hsome
      have hsplit : todo.takeWhile (col.contains ·) ++ i :: rest = todo := by
        rw [← hsome, List.takeWhile_append_dropWhile]
      have hi : i.Valid text place := htodo i (hsplit ▸ by simp)
      have hnew : i ∉ col := by
        have hhead := List.head?_dropWhile_not (col.contains ·) todo
        rw [hsome] at hhead
        simpa using hhead
      -- What was in the column or to be done still is one or the other.
      have hkeep : ∀ x, x ∈ col ∨ x ∈ todo →
          x ∈ i :: col ∨ x ∈ consequences chart place i ++ rest := by
        rintro x (hx | hx)
        · exact .inl (List.mem_cons_of_mem i hx)
        · rw [← hsplit] at hx
          rcases List.mem_append.1 hx with hx | hx
          · exact .inl (List.mem_cons_of_mem i (by simpa using List.mem_takeWhile_imp hx))
          · rcases List.mem_cons.1 hx with rfl | hx
            · exact .inl List.mem_cons_self
            · exact .inr (List.mem_append_right _ hx)
      have hclosed' : ∀ y ∈ i :: col, ∀ x ∈ consequences chart place y,
          x ∈ i :: col ∨ x ∈ consequences chart place i ++ rest := by
        intro y hy x hx
        rcases List.mem_cons.1 hy with rfl | hy
        · exact .inr (List.mem_append_left _ hx)
        · exact hkeep x (hclosed y hy x hx)
      have htodo' : ∀ x ∈ consequences chart place i ++ rest, x.Valid text place := by
        intro x hx
        rcases List.mem_append.1 hx with hx | hx
        · exact valid_of_mem_consequences hchart hi hx
        · exact htodo x (hsplit ▸ by simp [hx])
      obtain ⟨hvalid, hall, hmem⟩ := ih htodo' (List.forall_mem_cons.2 ⟨hi, hcol⟩)
        (hnodup.cons hnew) (by rw [List.length_cons]; omega) hclosed'
      exact ⟨hvalid, hall, fun x hx => hmem x (hkeep x hx)⟩

/-! ## Looking for lexemes -/

/-- An item that stands at a place waits for a lexeme that is found there; with it, the item arrives
at the place behind the lexeme. -/
def Arrives (text : List Char) (place : Nat) (i x : Item) (stop : Nat) : Prop :=
  ∃ t span, i.next? = some (.lexeme t) ∧ lexemeAt? t place (text.drop place) = some span ∧
    span.stop = stop ∧ x = i.advance

lemma Arrives.valid {i x : Item} {stop : Nat} (h : Arrives text place i x stop)
    (hi : i.Valid text place) : x.Valid text stop ∧ place < stop ∧ stop ≤ text.length := by
  obtain ⟨t, span, hnext, hlexeme, rfl, rfl⟩ := h
  obtain ⟨hlt, hle⟩ := lexemeAt?_bounds (hi.isProper hnext) hlexeme
  exact ⟨hi.advance hnext ((Reads.nil place).lexeme hlexeme hlt), hlt, hle⟩

variable {columns : Array Column}

lemma mem_column_modify {n q : Nat} {i x : Item} (hn : n < columns.size) :
    x ∈ column (columns.modify n (i :: ·)) q ↔ q = n ∧ x = i ∨ x ∈ column columns q := by
  rw [column, column, Array.getElem?_modify]
  by_cases hq : n = q
  · subst hq
    simp [hn]
  · simp [hq, Ne.symm hq]

section Scan

variable {p : Progress} {col : Column}

lemma columns_foldl_scan (cs : List Char) : (col.foldl (scan place cs) p).columns = p.columns := by
  induction col generalizing p with
  | nil => rfl
  | cons i col ih =>
    rw [List.foldl_cons, ih, scan.eq_def]
    split
    · split <;> rfl
    · rfl

lemma size_scan (cs : List Char) (i : Item) :
    (scan place cs p i).arrivals.size = p.arrivals.size := by
  rw [scan.eq_def]
  split
  · split
    · exact Array.size_modify ..
    · rfl
  · rfl

lemma size_foldl_scan (cs : List Char) :
    (col.foldl (scan place cs) p).arrivals.size = p.arrivals.size := by
  induction col generalizing p with
  | nil => rfl
  | cons i col ih => rw [List.foldl_cons, ih, size_scan]

lemma reach_le_foldl_scan (cs : List Char) : p.reach ≤ (col.foldl (scan place cs) p).reach := by
  induction col generalizing p with
  | nil => exact le_rfl
  | cons i col ih =>
    refine le_trans ?_ ih
    rw [scan.eq_def]
    split
    · split
      · exact le_max_left ..
      · exact le_rfl
    · exact le_rfl

lemma mem_arrivals_scan {i x : Item} {q : Nat}
    (hsize : ∀ x stop, Arrives text place i x stop → stop < p.arrivals.size) :
    x ∈ column (scan place (text.drop place) p i).arrivals q ↔
      Arrives text place i x q ∨ x ∈ column p.arrivals q := by
  have hnone : (∀ y stop, ¬ Arrives text place i y stop) →
      (x ∈ column p.arrivals q ↔ Arrives text place i x q ∨ x ∈ column p.arrivals q) :=
    fun h => (or_iff_right (h x q)).symm
  rw [scan.eq_def]
  split
  · rename_i t hnext
    split
    · rename_i span hlexeme
      rw [mem_column_modify (hsize _ _ ⟨t, span, hnext, hlexeme, rfl, rfl⟩)]
      refine or_congr_left ⟨?_, ?_⟩
      · rintro ⟨rfl, rfl⟩
        exact ⟨t, span, hnext, hlexeme, rfl, rfl⟩
      · rintro ⟨t', span', hnext', hlexeme', rfl, rfl⟩
        obtain rfl := Part.lexeme.inj (Option.some.inj (hnext.symm.trans hnext'))
        cases hlexeme.symm.trans hlexeme'
        exact ⟨rfl, rfl⟩
    · rename_i hlexeme
      refine hnone ?_
      rintro y stop ⟨t', span', hnext', hlexeme', -⟩
      obtain rfl := Part.lexeme.inj (Option.some.inj (hnext.symm.trans hnext'))
      exact nomatch hlexeme.symm.trans hlexeme'
  · rename_i hnext
    refine hnone ?_
    rintro y stop ⟨t', -, hnext', -⟩
    exact hnext t' hnext'

lemma mem_arrivals_foldl_scan {x : Item} {q : Nat}
    (hsize : ∀ i ∈ col, ∀ x stop, Arrives text place i x stop → stop < p.arrivals.size) :
    x ∈ column (col.foldl (scan place (text.drop place)) p).arrivals q ↔
      (∃ i ∈ col, Arrives text place i x q) ∨ x ∈ column p.arrivals q := by
  induction col generalizing p with
  | nil => simp
  | cons i col ih =>
    rw [List.foldl_cons, ih, mem_arrivals_scan (hsize i List.mem_cons_self), ← or_assoc]
    · simp only [List.mem_cons, exists_eq_or_imp]
      rw [or_comm (a := ∃ _, _)]
    · rw [size_scan]
      exact fun j hj => hsize j (List.mem_cons_of_mem i hj)

end Scan

/-! ## Filling the chart -/

/-- What is kept while the chart of a text is filled. -/
structure Progress.Filled (text : List Char) (p : Progress) : Prop where
  size_arrivals : p.arrivals.size = text.length + 1
  /-- Only valid items stand in the columns. -/
  valid : ∀ q, ∀ i ∈ column p.columns q, i.Valid text q
  /-- Only valid items arrive. -/
  valid_arrivals : ∀ q, ∀ i ∈ column p.arrivals q, i.Valid text q
  /-- With an item, all that follows from it stands in a column. -/
  closed : ∀ q, ∀ i ∈ column p.columns q, ∀ x ∈ consequences p.columns q i,
    x ∈ column p.columns q
  /-- What arrives at a place stands in its column. -/
  arrived : ∀ q < p.columns.size, ∀ i ∈ column p.arrivals q, i ∈ column p.columns q
  /-- Where the lexeme is found that an item waits for, the item arrives behind it. -/
  scanned : ∀ q, ∀ i ∈ column p.columns q, ∀ x stop, Arrives text q i x stop →
    x ∈ column p.arrivals stop
  /-- A program begins at the beginning. -/
  started : ∀ i ∈ Item.starts .program 0, i ∈ column p.arrivals 0
  /-- The text can be read as far as the blanks behind a place go at which something stands. -/
  reached : ∀ q, column p.columns q ≠ [] → (skipBlanks q (text.drop q)).1 ≤ p.reach

lemma column_push_lt {col : Column} {q : Nat} (h : q < columns.size) :
    column (columns.push col) q = column columns q := by
  rw [column, column, Array.getElem?_push_lt h, Array.getElem?_eq_getElem h]

lemma column_push_eq {col : Column} : column (columns.push col) columns.size = col := by
  rw [column, Array.getElem?_push_size, Option.getD_some]

lemma column_push_gt {col : Column} {q : Nat} (h : columns.size < q) :
    column (columns.push col) q = [] := by
  rw [column, Array.getElem?_eq_none (by simpa using h), Option.getD_none]

lemma consequences_push {col : Column} {q : Nat} (h : q ≤ columns.size) (i : Item) :
    consequences (columns.push col) q i = consequences columns q i := by
  rw [consequences.eq_def, consequences.eq_def]
  split
  · rfl
  · rfl
  · split
    · rename_i hlt
      rw [column_push_lt (hlt.trans_le h)]
    · rfl

/-- A property of the items of all columns holds after one more column if it holds of the items of
this column. -/
lemma forall_push {col : Column} {P : Nat → Column → Prop} (hempty : ∀ q, P q [])
    (h : ∀ q, P q (column columns q)) (hcol : P columns.size col) (q : Nat) :
    P q (column (columns.push col) q) := by
  rcases lt_trichotomy q columns.size with hq | rfl | hq
  · rw [column_push_lt hq]
    exact h q
  · rw [column_push_eq]
    exact hcol
  · rw [column_push_gt hq]
    exact hempty q

/-- One more column of valid items that is closed and holds what arrives there, together with the
arrivals from it, keeps what is kept. -/
lemma Progress.Filled.push {p p' : Progress} {col : Column} (h : p.Filled text)
    (hcolumns : p'.columns = p.columns.push col) (hsize : p'.arrivals.size = p.arrivals.size)
    (hvalid : ∀ i ∈ col, i.Valid text p.columns.size)
    (hclosed : ∀ i ∈ col, ∀ x ∈ consequences p.columns p.columns.size i, x ∈ col)
    (harrived : ∀ i ∈ column p.arrivals p.columns.size, i ∈ col)
    (harrivals : ∀ x q, x ∈ column p'.arrivals q ↔
      (∃ i ∈ col, Arrives text p.columns.size i x q) ∨ x ∈ column p.arrivals q)
    (hreach : p.reach ≤ p'.reach)
    (hreached : col ≠ [] → (skipBlanks p.columns.size (text.drop p.columns.size)).1 ≤ p'.reach) :
    p'.Filled text where
  size_arrivals := hsize.trans h.size_arrivals
  valid := by
    rw [hcolumns]
    exact forall_push (P := fun q col => ∀ i ∈ col, i.Valid text q) (by simp) h.valid hvalid
  valid_arrivals q x hx := by
    rcases (harrivals x q).1 hx with ⟨i, hi, hx⟩ | hx
    · exact (hx.valid (hvalid i hi)).1
    · exact h.valid_arrivals q x hx
  closed q i hi x hx := by
    rw [hcolumns] at hi hx ⊢
    rcases lt_trichotomy q p.columns.size with hq | rfl | hq
    · rw [consequences_push hq.le] at hx
      rw [column_push_lt hq] at hi ⊢
      exact h.closed q i hi x hx
    · rw [consequences_push le_rfl] at hx
      rw [column_push_eq] at hi ⊢
      exact hclosed i hi x hx
    · rw [column_push_gt hq] at hi
      exact absurd hi List.not_mem_nil
  arrived q hq x hx := by
    rw [hcolumns, Array.size_push] at hq
    rw [hcolumns]
    -- What arrives from the new column arrives behind it.
    have hx : x ∈ column p.arrivals q := by
      rcases (harrivals x q).1 hx with ⟨i, hi, hx⟩ | hx
      · have := (hx.valid (hvalid i hi)).2.1
        omega
      · exact hx
    rcases Nat.lt_succ_iff_lt_or_eq.1 hq with hq | rfl
    · rw [column_push_lt hq]
      exact h.arrived q hq x hx
    · rw [column_push_eq]
      exact harrived x hx
  scanned q i hi x stop hx := by
    rw [hcolumns] at hi
    rw [harrivals]
    rcases lt_trichotomy q p.columns.size with hq | rfl | hq
    · rw [column_push_lt hq] at hi
      exact .inr (h.scanned q i hi x stop hx)
    · rw [column_push_eq] at hi
      exact .inl ⟨i, hi, hx⟩
    · rw [column_push_gt hq] at hi
      exact absurd hi List.not_mem_nil
  started i hi := (harrivals i 0).2 (.inr (h.started i hi))
  reached := by
    rw [hcolumns]
    exact forall_push (P := fun q col => col ≠ [] → (skipBlanks q (text.drop q)).1 ≤ p'.reach)
      (by simp) (fun q hq => (h.reached q hq).trans hreach) hreached

lemma size_step (cs : List Char) (p : Progress) :
    (step cs p).columns.size = p.columns.size + 1 := by
  rw [step]
  split
  · exact Array.size_push _
  · rw [columns_foldl_scan]
    exact Array.size_push _

/-- Filling the next column keeps what is kept. -/
lemma Progress.Filled.step {p : Progress} (h : p.Filled text) :
    (step (text.drop p.columns.size) p).Filled text := by
  rw [Chart.step]
  split
  · rename_i hseeds
    have hnone : column p.arrivals p.columns.size = [] := hseeds
    exact h.push rfl rfl (by simp) (by simp) (by simp [hnone]) (by simp) le_rfl (by simp)
  · rename_i seeds hseeds
    have hcolumn : column p.arrivals p.columns.size = (p.arrivals[p.columns.size]?).getD [] := rfl
    have hchart : ∀ q < p.columns.size, ∀ i ∈ column p.columns q, i.Valid text q :=
      fun q _ => h.valid q
    obtain ⟨hvalid, hclosed, hmem⟩ := close_spec hchart
      (h.valid_arrivals p.columns.size) (by simp) List.nodup_nil
      (Nat.le_add_right (columnBound p.columns.size) _) (by simp)
    have hsize : ∀ i ∈ close p.columns p.columns.size (columnBound p.columns.size)
        (column p.arrivals p.columns.size) [], ∀ x stop,
        Arrives text p.columns.size i x stop → stop < p.arrivals.size := by
      intro i hi x stop hx
      have := (hx.valid (hvalid i hi)).2.2
      rw [h.size_arrivals]
      omega
    refine h.push (columns_foldl_scan _) (size_foldl_scan _) hvalid hclosed
      (fun i hi => hmem i (.inr hi)) (fun x q => mem_arrivals_foldl_scan hsize) ?_ fun _ => ?_
    · refine le_trans ?_ (reach_le_foldl_scan _)
      exact le_max_left ..
    · refine le_trans ?_ (reach_le_foldl_scan _)
      exact le_max_right ..

lemma Progress.Filled.fill {p : Progress} (h : p.Filled text) {cs : List Char}
    (hcs : text.drop p.columns.size = cs) :
    (Chart.fill p cs).Filled text ∧
      (Chart.fill p cs).columns.size = p.columns.size + cs.length + 1 := by
  induction cs generalizing p with
  | nil =>
    have hstep := h.step
    rw [hcs] at hstep
    exact ⟨hstep, size_step [] p⟩
  | cons c cs ih =>
    have hrest : text.drop (Chart.step (c :: cs) p).columns.size = cs := by
      rw [size_step, ← List.drop_drop, hcs, List.drop_succ_cons, List.drop_zero]
    obtain ⟨hfilled, hsize⟩ := ih (hcs ▸ h.step) hrest
    refine ⟨hfilled, ?_⟩
    rw [Chart.fill, hsize, size_step, List.length_cons]
    omega

lemma mem_start_arrivals {n q : Nat} {i : Item} :
    i ∈ column ((Array.replicate (n + 1) []).modify 0 fun _ => Item.starts .program 0) q ↔
      q = 0 ∧ i ∈ Item.starts .program 0 := by
  rw [column, Array.getElem?_modify]
  by_cases hq : q = 0
  · simp [hq]
  · simp only [Ne.symm hq, if_false, hq, false_and, iff_false]
    rw [Array.getElem?_replicate]
    split <;> simp

lemma filled_start : Progress.Filled text
    ⟨#[], (Array.replicate (text.length + 1) []).modify 0 fun _ => Item.starts .program 0, 0⟩ where
  size_arrivals := by simp
  valid q i hi := absurd hi (by simp [column])
  valid_arrivals q i hi := by
    obtain ⟨rfl, hi⟩ := mem_start_arrivals.1 hi
    exact Item.valid_of_mem_starts .program hi
  closed q i hi := absurd hi (by simp [column])
  arrived q hq := absurd hq (Nat.not_lt_zero q)
  scanned q i hi := absurd hi (by simp [column])
  started i hi := mem_start_arrivals.2 ⟨rfl, hi⟩
  reached q hq := absurd (by simp [column]) hq

/-- The chart of a text has a column for each place, and it is filled. -/
theorem filled_ofText (text : List Char) : ∃ p : Progress, p.Filled text ∧
    p.columns.size = text.length + 1 ∧ p.columns = (ofText text).columns ∧
    p.reach = (ofText text).reach := by
  obtain ⟨hfilled, hsize⟩ := filled_start.fill (List.drop_zero : text.drop 0 = text)
  exact ⟨_, hfilled, by simpa using hsize, rfl, rfl⟩

/-! ## All valid items stand in a chart -/

namespace Progress.Filled

variable {p : Progress} {i w x : Item} {q : Nat} {c : Category}

lemma mem_of_mem_starts (h : p.Filled text) (hi : i ∈ column p.columns q)
    (hnext : i.next? = some (.category c)) (hx : x ∈ Item.starts c q) : x ∈ column p.columns q := by
  refine h.closed q i hi x ?_
  rw [consequences, hnext]
  dsimp only
  split
  · exact List.mem_cons_of_mem _ hx
  · exact hx

lemma advance_of_nullable (h : p.Filled text) (hi : i ∈ column p.columns q)
    (hnext : i.next? = some (.category c)) (hc : c.nullable) : i.advance ∈ column p.columns q := by
  refine h.closed q i hi _ ?_
  rw [consequences, hnext]
  dsimp only
  rw [if_pos hc]
  exact List.mem_cons_self

lemma advance_of_complete (h : p.Filled text) (hi : i ∈ column p.columns q) (hnext : i.next? = none)
    (hlt : i.origin < q) (hw : w ∈ column p.columns i.origin)
    (hwnext : w.next? = some (.category i.category)) : w.advance ∈ column p.columns q := by
  refine h.closed q i hi _ ?_
  rw [consequences, hnext]
  dsimp only
  rw [if_pos hlt]
  exact List.mem_map_of_mem (List.mem_filter.2 ⟨hw, by simp [Item.awaits, hwnext]⟩)

/-- An item is advanced over a lexeme that it waits for. -/
lemma advance_of_lexeme (h : p.Filled text) (hsize : p.columns.size = text.length + 1)
    (hi : i ∈ column p.columns q) {t : Terminal} (hnext : i.next? = some (.lexeme t)) {span : Span}
    (hlexeme : lexemeAt? t q (text.drop q) = some span) :
    i.advance ∈ column p.columns span.stop := by
  have harrives : Arrives text q i i.advance span.stop := ⟨t, span, hnext, hlexeme, rfl, rfl⟩
  have hle := (harrives.valid (h.valid q i hi)).2.2
  exact h.arrived _ (by omega) _ (h.scanned q i hi _ _ harrives)

/-- With the beginning of an alternative, a chart holds each item whose found parts are read.

**Proof sketch.** By induction on the parts that are read. A lexeme has let the item before it
arrive behind it. A category is predicted where the item before it stands, so that its own
alternative is complete at the end of it, by the second induction hypothesis; this advances the
item, unless the category is empty, in which case the item was advanced over it at once. -/
lemma mem_of_reads (h : p.Filled text) (hsize : p.columns.size = text.length + 1)
    {parts : List Part} {start stop : Nat} (hreads : Reads text parts start stop) {k : Nat}
    {a : Alternative} (ha : (alternatives c)[k]? = some a) (hparts : parts <+: a.parts)
    (hstart : ⟨c, k, 0, start⟩ ∈ column p.columns start) :
    ⟨c, k, parts.length, start⟩ ∈ column p.columns stop := by
  -- The item before the last part that is read waits for this part.
  have hwaits : ∀ {c k a start} {parts : List Part} {part : Part},
      (alternatives c)[k]? = some a → parts ++ [part] <+: a.parts →
      (Item.mk c k parts.length start).next? = some part := by
    intro c k a start parts part ha hparts
    obtain ⟨rest, hrest⟩ := hparts
    rw [Item.next?, Item.parts_eq ha, ← hrest]
    simp
  induction hreads generalizing c k a with
  | nil => exact hstart
  | @lexeme parts start place t span _ hlexeme hlt ih =>
    have hitem := ih ha ((List.prefix_append parts _).trans hparts) hstart
    rw [List.length_append]
    exact h.advance_of_lexeme hsize hitem (hwaits ha hparts) hlexeme
  | @category parts start place stop d j b _ hb hcategory ih ihcategory =>
    have hitem := ih ha ((List.prefix_append parts _).trans hparts) hstart
    rw [List.length_append]
    rcases hcategory.le.lt_or_eq with hlt | rfl
    · have hbegin := h.mem_of_mem_starts hitem (hwaits ha hparts) (x := ⟨d, j, 0, place⟩)
        (Item.mem_starts.2 ⟨rfl, rfl, rfl, (List.getElem?_eq_some_iff.1 hb).1⟩)
      have hend := ihcategory hb List.prefix_rfl hbegin
      have hcomplete : (Item.mk d j b.parts.length place).next? = none := by
        rw [Item.next?, Item.parts_eq hb, List.getElem?_eq_none_iff]
      exact h.advance_of_complete hend hcomplete hlt hitem (hwaits ha hparts)
    · exact h.advance_of_nullable hitem (hwaits ha hparts) (Reads.nullable hb hcategory)

/-- The alternatives of a category that may begin at a place stand there. -/
lemma mem_of_predicted (h : p.Filled text) (hsize : p.columns.size = text.length + 1)
    (hc : Predicted text c q) : ∀ x ∈ Item.starts c q, x ∈ column p.columns q := by
  induction hc with
  | program => exact fun x hx => h.arrived 0 (by omega) x (h.started x hx)
  | @next c d k n start place a _ ha hnext hreads ih =>
    intro x hx
    obtain ⟨hlt, -⟩ := List.getElem?_eq_some_iff.1 hnext
    have hbegin := ih ⟨c, k, 0, start⟩
      (Item.mem_starts.2 ⟨rfl, rfl, rfl, (List.getElem?_eq_some_iff.1 ha).1⟩)
    have hitem := h.mem_of_reads hsize hreads ha (List.take_prefix n a.parts) hbegin
    rw [List.length_take, Nat.min_eq_left hlt.le] at hitem
    refine h.mem_of_mem_starts hitem ?_ hx
    rw [Item.next?, Item.parts_eq ha, hnext]

end Progress.Filled

/-- The items that stand at a place in the chart of a text are the valid ones. -/
theorem mem_column_iff {q : Nat} {i : Item} :
    i ∈ column (ofText text).columns q ↔ i.Valid text q := by
  obtain ⟨p, h, hsize, hcolumns, -⟩ := filled_ofText text
  rw [← hcolumns]
  refine ⟨h.valid q i, ?_⟩
  rintro ⟨a, ha, hle, hpredicted, hreads⟩
  have hbegin := h.mem_of_predicted hsize hpredicted ⟨i.category, i.alternative, 0, i.origin⟩
    (Item.mem_starts.2 ⟨rfl, rfl, rfl, (List.getElem?_eq_some_iff.1 ha).1⟩)
  have hitem := h.mem_of_reads hsize hreads ha (List.take_prefix _ _) hbegin
  rwa [List.length_take, Nat.min_eq_left hle] at hitem

/-- Where something stands in the chart of a text, the text can be read as far as the blanks there
go. -/
theorem skipBlanks_le_reach {q : Nat} {i : Item} (hi : i.Valid text q) :
    (skipBlanks q (text.drop q)).1 ≤ (ofText text).reach := by
  obtain ⟨p, h, -, hcolumns, hreach⟩ := filled_ofText text
  have hmem : i ∈ column p.columns q := hcolumns ▸ mem_column_iff.2 hi
  rw [← hreach]
  exact h.reached q (List.ne_nil_of_mem hmem)

end Chart

end LuaTyping
