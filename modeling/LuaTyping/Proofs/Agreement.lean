import LuaTyping.Proofs.Operands

set_option autoImplicit false

/-!
# All derivations of an expression agree

Where an expression is read without choice, every meaning of the text as an expression is the tree
that is read, however it is derived: this is shown for all categories at once, alternative by
alternative. A meaning of a category may end before what is read does, namely where an operator or a
bracket goes on with it; then reading goes on from the meaning.

## Main results

* `Means.agreed` — all meanings agree with what is read.
-/

namespace LuaTyping

variable {cs rest : List Char}

lemma Means.not_refuses {file : String} {c : Category} {p : Piece}
    (h : Means file c cs rest p) (hc : c.nullable = false) {ts : List Terminal}
    (hts : ∀ t ∈ c.firsts, t ∈ ts) (hrefuses : Refuses cs ts) : False := by
  obtain ⟨t, ht, r, hnext⟩ := h.first hc
  exact nomatch (hrefuses t (hts t ht)).symm.trans hnext

lemma next?_inj {t : Terminal} {x y rest' : List Char} (h : next? t cs = some (x, rest))
    (h' : next? t cs = some (y, rest')) : x = y ∧ rest = rest' :=
  Prod.mk.inj (Option.some.inj (h.symm.trans h'))

section Alone

variable {P : Category → List Char → List Char → Piece → Prop} {cs rest : List Char}
  {ps : List Piece}

lemma Parts.only_inv {c : Category} {file : String} {p : Piece}
    (h : Parts P [.category c] cs rest ps) (hbuild : Builder.only file ps = some p) :
    P c cs rest p := by
  obtain ⟨cs₁, q, qs, hq, rfl, h₁⟩ := h.category_inv
  obtain ⟨rfl, rfl⟩ := h₁.nil_inv
  cases hbuild
  exact hq

/-- An alternative of one lexeme. -/
lemma Parts.lexeme_only_inv {t : Terminal} (ht : t.isMark = false)
    (h : Parts P [.lexeme t] cs rest ps) :
    ∃ x l q, next? t cs = some (x, rest) ∧ Piece.ofLexeme t ⟨String.ofList x, l⟩ = some q ∧
      ps = [q] := by
  obtain ⟨x, cs₁, l, q, qs, hnext, hq, rfl, h₁⟩ := h.lexeme_inv ht
  obtain ⟨rfl, rfl⟩ := h₁.nil_inv
  exact ⟨x, l, q, hnext, hq, rfl⟩

end Alone

lemma Means.yields {file : String} {c : Category} {p : Piece}
    (h : Means file c cs rest p) : c.Yields p := by
  obtain ⟨text, start, stop, d, hpart, hfollows, hmake, hp, -⟩ := h
  obtain ⟨q, hq, hyields⟩ := hfollows.exists_piece? file hmake
  cases hp.symm.trans hq
  rwa [hpart] at hyields

/-! ## Agreement -/

/-- A meaning agrees with the operands that are read at a level: whatever is read, is read from the
meaning on by going on with the operators of the level. -/
def AgreesAt (L : Nat) (cs rest : List Char) (p : Piece) : Prop :=
  ∃ n, p = .node n ∧
    (Ends L rest → ∀ m cs', Operand L cs m cs' → Loop L n.bare rest m cs')

/-- A meaning is what is read at a level above those of binary operators, if no brackets follow. -/
def AgreesWhole (L : Nat) (cs rest : List Char) (p : Piece) : Prop :=
  ∃ n, p = .node n ∧ (NoSuffix rest → ∀ m cs', Operand L cs m cs' → m = n.bare ∧ cs' = rest)

/-- Whatever is read as a primary expression, is read from the meaning on by going on with
brackets. -/
def AgreesStem (cs rest : List Char) (p : Piece) : Prop :=
  ∃ n, p = .node n ∧ ∀ m cs', Operand 8 cs m cs' → Suffixes n.bare rest m cs'

/-- What a meaning of a category has in common with what is read. -/
def Agreed : Category → List Char → List Char → Piece → Prop
  | .expr, cs, rest, p | .logic, cs, rest, p => AgreesAt 0 cs rest p
  | .equality, cs, rest, p => AgreesAt 1 cs rest p
  | .relation, cs, rest, p => AgreesAt 2 cs rest p
  | .sum, cs, rest, p => AgreesAt 3 cs rest p
  | .product, cs, rest, p => AgreesAt 4 cs rest p
  | .power, cs, rest, p => AgreesAt 5 cs rest p
  | .unary, cs, rest, p => AgreesWhole 6 cs rest p
  | .atom, cs, rest, p => AgreesWhole 7 cs rest p
  | .primary, cs, rest, p | .property, cs, rest, p | .index, cs, rest, p | .call, cs, rest, p =>
    AgreesStem cs rest p
  | .args, cs, rest, p => ∃ ns : List Node, p = .many (ns.map .node) ∧
      ∀ r, next? (.word "(") cs = some r → ∀ ms cs', Args r.2 ms cs' →
        ms = ns.map Node.bare ∧ cs' = rest
  | .moreExprs, cs, rest, p => ∃ ns : List Node, p = .many (ns.map .node) ∧
      (Closed rest → ∀ ms cs', MoreArgs cs ms cs' →
        ∃ ms', ms = ns.map Node.bare ++ ms' ∧ MoreArgs rest ms' cs')
  | .table, cs, rest, p => ∃ n, p = .node n ∧
      ∀ r, next? (.word "\x7b") cs = some r → ∀ fields cs', Fields r.2 fields cs' →
        n.bare = .table default fields ∧ cs' = rest
  | .field, cs, rest, p => ∃ f, p = .field f ∧ (Closed rest → ∀ k v cs', Field cs k v cs' →
      ∃ k' v', f = .keyed k' v' ∧ k = k'.bare ∧ v = v'.bare ∧ cs' = rest)
  | .moreFields, cs, rest, p => ∃ fs : List TableField, p = .many (fs.map .field) ∧
      (Closed rest → ∀ fields cs', MoreFields cs fields cs' →
        ∃ (pairs : List (Node × Node)) (fields' : List (Node × Node)),
          fs = pairs.map (fun q => .keyed q.1 q.2) ∧
          fields = pairs.map (Prod.map Node.bare Node.bare) ++ fields' ∧
          MoreFields rest fields' cs')
  | _, _, _, _ => True

lemma mapM_node? (ns : List Node) : (ns.map Piece.node).mapM Piece.node? = some ns := by
  induction ns with
  | nil => rfl
  | cons n ns ih => rw [List.map_cons, List.mapM_cons, ih]; rfl

lemma mapM_field? (fs : List TableField) : (fs.map Piece.field).mapM Piece.field? = some fs := by
  induction fs with
  | nil => rfl
  | cons f fs ih => rw [List.map_cons, List.mapM_cons, ih]; rfl

section Steps

variable {file : String} {a : Alternative} {cs rest : List Char} {ps : List Piece} {p : Piece}

/-- The parts of an alternative, with categories that have meanings which agree with what is
read. -/
abbrev AgreedParts (file : String) : List Part → List Char → List Char → List Piece → Prop :=
  Parts fun c cs rest p => Means file c cs rest p ∧ Agreed c cs rest p

variable (h : AgreedParts file a.parts cs rest ps) (hbuild : a.build file ps = some p)

/-! ### Binary operators -/

variable {L : Nat} {cs₁ : List Char}

lemma agreed_ofLevel (hL : L < 6) : Agreed (.ofLevel L) = AgreesAt L := by
  interval_cases L <;> rfl

lemma ofLexeme_ofLevel (token : Token) :
    Piece.ofLexeme (.ofLevel L) token = some (.token token) := by
  rcases L with _ | _ | _ | _ | _ | L <;> rfl

lemma isMark_ofLevel : (Terminal.ofLevel L).isMark = false := by
  rcases L with _ | _ | _ | _ | _ | L <;> rfl

/-- Where no tighter operator follows, the operand of an operator is what is read as such. -/
lemma eq_of_agreed_operand (hL : L < 6) (h : Agreed (.ofLevel (L + 1)) cs rest p) :
    ∃ n, p = .node n ∧
      (Ends L rest → ∀ m cs', Operand (L + 1) cs m cs' → m = n.bare ∧ cs' = rest) := by
  by_cases hlast : L + 1 < 6
  · rw [agreed_ofLevel hlast] at h
    obtain ⟨n, rfl, hn⟩ := h
    exact ⟨n, rfl, fun hends m cs' hm =>
      (hn hends.succ m cs' hm).stop_inv (hends.1 (L + 1) (Nat.lt_succ_self L) hlast)⟩
  · obtain rfl : L = 5 := by omega
    obtain ⟨n, rfl, hn⟩ := h
    exact ⟨n, rfl, fun hends => hn hends.2⟩

include h hbuild in
/-- The alternatives of the levels of binary operators keep agreement. -/
lemma agreesAt_step (hL : L < 6) (ha : a ∈ alternatives (.ofLevel L)) : AgreesAt L cs rest p := by
  simp only [alternatives_ofLevel hL, List.mem_cons, List.not_mem_nil, or_false] at ha
  rcases ha with rfl | rfl
  · obtain ⟨cs₁, q₁, qs, ⟨-, hleft⟩, rfl, h₁⟩ := h.category_inv
    obtain ⟨x, cs₂, l, q₂, qs, hop, hq₂, rfl, h₂⟩ := h₁.lexeme_inv isMark_ofLevel
    obtain ⟨cs₃, q₃, qs, ⟨-, hright⟩, rfl, h₃⟩ := h₂.category_inv
    obtain ⟨rfl, rfl⟩ := h₃.nil_inv
    rw [agreed_ofLevel hL] at hleft
    obtain ⟨n₁, rfl, hleft⟩ := hleft
    obtain ⟨n₂, rfl, hoperand⟩ := eq_of_agreed_operand hL hright
    cases (ofLexeme_ofLevel _).symm.trans hq₂
    cases hbuild
    refine ⟨_, rfl, fun hends m cs' hm => ?_⟩
    obtain ⟨b, cs₄, hb, hloop⟩ := (hleft (ends_of_operator hL hop) m cs' hm).more_inv hop
    obtain ⟨rfl, rfl⟩ := hoperand hends b cs₄ hb
    exact hloop
  · obtain ⟨n, rfl, hn⟩ := eq_of_agreed_operand hL (h.only_inv hbuild).2
    refine ⟨n, rfl, fun hends m cs' hm => ?_⟩
    obtain ⟨-, b, cs₂, hb, hloop⟩ := hm.ladder_inv hL
    obtain ⟨rfl, rfl⟩ := hn hends b cs₂ hb
    exact hloop

variable {r : List Char × List Char}

lemma agreesAt_of_next {t : Terminal} (hp : ∃ n, p = .node n)
    (ht : t ∈ [.word "function", .ellipsis]) (hnext : next? t cs = some r) :
    AgreesAt 0 cs rest p := by
  obtain ⟨n, rfl⟩ := hp
  refine ⟨n, rfl, fun _ m cs' hm => ?_⟩
  exact nomatch ((hm.ladder_inv (by decide)).1 t ht).symm.trans hnext

include h hbuild in
lemma agreesAt_expr (ha : a ∈ alternatives .expr) : AgreesAt 0 cs rest p := by
  simp only [alternatives, List.mem_cons, List.not_mem_nil, or_false] at ha
  rcases ha with rfl | rfl | rfl
  · exact (h.only_inv hbuild).2
  · have hmeans := (h.only_inv hbuild).1
    obtain ⟨t, ht, r, hnext⟩ := hmeans.first rfl
    obtain rfl := List.mem_singleton.1 ht
    exact agreesAt_of_next (hmeans.yields.imp fun _ => And.left) (by simp) hnext
  · obtain ⟨x, l, q, hnext, hq, rfl⟩ := h.lexeme_only_inv rfl
    cases hbuild
    cases hq
    exact agreesAt_of_next ⟨_, rfl⟩ (by simp) hnext

lemma AgreesAt.eq_of_closed {n : Node} (h : AgreesAt 0 cs rest (.node n)) (hclosed : Closed rest)
    {m : Node} {cs' : List Char} (hm : Operand 0 cs m cs') : m = n.bare ∧ cs' = rest := by
  obtain ⟨n', heq, hn⟩ := h
  cases heq
  exact (hn (hclosed.ends 0) m cs' hm).stop_inv (hclosed.1 0)

/-! ### Unary operators and atoms -/

include h hbuild in
lemma agreesWhole_unary (ha : a ∈ alternatives .unary) : AgreesWhole 6 cs rest p := by
  simp only [alternatives, List.mem_cons, List.not_mem_nil, or_false] at ha
  rcases ha with rfl | rfl
  · obtain ⟨x, cs₁, l, q₁, qs, hnext, hq₁, rfl, h₁⟩ := h.lexeme_inv rfl
    obtain ⟨cs₂, q₂, qs, ⟨-, hunary⟩, rfl, h₂⟩ := h₁.category_inv
    obtain ⟨rfl, rfl⟩ := h₂.nil_inv
    obtain ⟨n, rfl, hn⟩ := hunary
    cases hq₁
    cases hbuild
    refine ⟨_, rfl, fun hstop m cs' hm => ?_⟩
    cases hm with
    | ladder hlt => exact absurd hlt (by decide)
    | unary hnext' _ hoperand =>
      obtain ⟨rfl, rfl⟩ := next?_inj hnext' hnext
      obtain ⟨rfl, rfl⟩ := hn hstop _ _ hoperand
      exact ⟨rfl, rfl⟩
    | atom hnone => cases hnone.symm.trans hnext
  · obtain ⟨hmeans, n, rfl, hn⟩ := h.only_inv hbuild
    refine ⟨n, rfl, fun hstop m cs' hm => ?_⟩
    cases hm with
    | ladder hlt => exact absurd hlt (by decide)
    | unary _ hrefuses => exact (hmeans.not_refuses rfl (fun _ ht => ht) hrefuses).elim
    | atom _ hoperand => exact hn hstop m cs' hoperand

/-- A lexeme of another kind than a string, a name or a bracket is not read as an atom. -/
lemma agreesWhole_of_next {t : Terminal} (hp : ∃ n, p = .node n)
    (ht : t ∈ [.number, .boolean, .nil]) (hnext : next? t cs = some r) :
    AgreesWhole 7 cs rest p := by
  obtain ⟨n, rfl⟩ := hp
  have hrefuses : ∀ ts, (∀ t ∈ [Terminal.number, .boolean, .nil], t ∈ ts) → ¬ Refuses cs ts :=
    fun ts hts hrefuses => nomatch (hrefuses t (hts t ht)).symm.trans hnext
  refine ⟨n, rfl, fun _ m cs' hm => ?_⟩
  cases hm with
  | ladder hlt => exact absurd hlt (by decide)
  | string _ h => exact absurd h (hrefuses _ (by simp))
  | table _ h => exact absurd h (hrefuses _ (by simp))
  | primary h => exact absurd h (hrefuses _ (by simp))

include h hbuild in
lemma agreesWhole_atom (ha : a ∈ alternatives .atom) : AgreesWhole 7 cs rest p := by
  simp only [alternatives, List.mem_cons, List.not_mem_nil, or_false] at ha
  rcases ha with rfl | rfl | rfl | rfl | rfl | rfl
  · obtain ⟨x, l, q, hnext, hq, rfl⟩ := h.lexeme_only_inv rfl
    cases hbuild
    obtain ⟨d, -, rfl⟩ := Option.map_eq_some_iff.1 hq
    exact agreesWhole_of_next ⟨_, rfl⟩ (by simp) hnext
  · obtain ⟨x, l, q, hnext, hq, rfl⟩ := h.lexeme_only_inv rfl
    cases hbuild
    cases hq
    refine ⟨_, rfl, fun _ m cs' hm => ?_⟩
    cases hm with
    | ladder hlt => exact absurd hlt (by decide)
    | string hnext' =>
      obtain ⟨rfl, rfl⟩ := next?_inj hnext' hnext
      exact ⟨by simp [Node.bare], rfl⟩
    | table _ hrefuses => exact nomatch (hrefuses .string (by simp)).symm.trans hnext
    | primary hrefuses => exact nomatch (hrefuses .string (by simp)).symm.trans hnext
  · obtain ⟨x, l, q, hnext, hq, rfl⟩ := h.lexeme_only_inv rfl
    cases hbuild
    cases hq
    exact agreesWhole_of_next ⟨_, rfl⟩ (by simp) hnext
  · obtain ⟨x, l, q, hnext, hq, rfl⟩ := h.lexeme_only_inv rfl
    cases hbuild
    cases hq
    exact agreesWhole_of_next ⟨_, rfl⟩ (by simp) hnext
  · obtain ⟨hmeans, n, rfl, hn⟩ := h.only_inv hbuild
    refine ⟨n, rfl, fun _ m cs' hm => ?_⟩
    cases hm with
    | ladder hlt => exact absurd hlt (by decide)
    | string _ hrefuses => exact (hmeans.not_refuses rfl (by simp [Category.firsts]) hrefuses).elim
    | table hnext _ hfields =>
      obtain ⟨hbare, rfl⟩ := hn _ hnext _ _ hfields
      exact ⟨hbare.symm, rfl⟩
    | primary hrefuses => exact (hmeans.not_refuses rfl (by simp [Category.firsts]) hrefuses).elim
  · obtain ⟨hmeans, n, rfl, hn⟩ := h.only_inv hbuild
    refine ⟨n, rfl, fun hstop m cs' hm => ?_⟩
    cases hm with
    | ladder hlt => exact absurd hlt (by decide)
    | string _ hrefuses => exact (hmeans.not_refuses rfl (by simp [Category.firsts]) hrefuses).elim
    | table _ hrefuses => exact (hmeans.not_refuses rfl (by simp [Category.firsts]) hrefuses).elim
    | primary _ hoperand => exact (hn m cs' hoperand).stop_inv hstop

section Lists

include h hbuild

/-! ### Primary expressions -/

lemma agreesStem_primary (ha : a ∈ alternatives .primary) : AgreesStem cs rest p := by
  simp only [alternatives, List.mem_cons, List.not_mem_nil, or_false] at ha
  rcases ha with rfl | rfl | rfl | rfl | rfl
  · obtain ⟨x, l, q, hnext, hq, rfl⟩ := h.lexeme_only_inv rfl
    cases hq
    cases hbuild
    refine ⟨_, rfl, fun m cs' hm => ?_⟩
    cases hm with
    | ladder hlt => exact absurd hlt (by decide)
    | name hnext' _ hrest =>
      obtain ⟨rfl, rfl⟩ := next?_inj hnext' hnext
      simpa [Node.bare] using hrest
    | parens _ hrefuses => exact nomatch (hrefuses .name (by simp)).symm.trans hnext
  · exact (h.only_inv hbuild).2
  · exact (h.only_inv hbuild).2
  · exact (h.only_inv hbuild).2
  · obtain ⟨x, cs₁, hopen, h₁⟩ := h.mark_inv
    obtain ⟨cs₂, q, qs, ⟨-, hexpr⟩, rfl, h₂⟩ := h₁.category_inv
    obtain ⟨y, cs₃, hclose, h₃⟩ := h₂.mark_inv
    obtain ⟨rfl, rfl⟩ := h₃.nil_inv
    obtain ⟨n, rfl, -⟩ := id hexpr
    cases hbuild
    refine ⟨n, rfl, fun m cs' hm => ?_⟩
    cases hm with
    | ladder hlt => exact absurd hlt (by decide)
    | name _ hrefuses => exact nomatch (hrefuses (.word "(") (by simp)).symm.trans hopen
    | parens hopen' _ hoperand hclose' hrest =>
      obtain ⟨-, rfl⟩ := next?_inj hopen' hopen
      obtain ⟨rfl, rfl⟩ := AgreesAt.eq_of_closed hexpr (closed_of_mark (by simp) hclose) hoperand
      obtain ⟨-, rfl⟩ := next?_inj hclose' hclose
      exact hrest

lemma agreesStem_property (ha : a ∈ alternatives .property) : AgreesStem cs rest p := by
  obtain rfl := List.mem_singleton.1 ha
  obtain ⟨cs₁, q₁, qs, ⟨-, hprimary⟩, rfl, h₁⟩ := h.category_inv
  obtain ⟨x, cs₂, hpoint, h₂⟩ := h₁.mark_inv
  obtain ⟨y, cs₃, l, q₂, qs, hname, hq₂, rfl, h₃⟩ := h₂.lexeme_inv rfl
  obtain ⟨rfl, rfl⟩ := h₃.nil_inv
  obtain ⟨n, rfl, hn⟩ := hprimary
  cases hq₂
  cases hbuild
  exact ⟨_, rfl, fun m cs' hm => ((hn m cs' hm).not_property hpoint hname).elim⟩

lemma agreesStem_index (ha : a ∈ alternatives .index) : AgreesStem cs rest p := by
  obtain rfl := List.mem_singleton.1 ha
  obtain ⟨cs₁, q₁, qs, ⟨-, hprimary⟩, rfl, h₁⟩ := h.category_inv
  obtain ⟨x, cs₂, hopen, h₂⟩ := h₁.mark_inv
  obtain ⟨cs₃, q₂, qs, ⟨-, hexpr⟩, rfl, h₃⟩ := h₂.category_inv
  obtain ⟨y, cs₄, hclose, h₄⟩ := h₃.mark_inv
  obtain ⟨rfl, rfl⟩ := h₄.nil_inv
  obtain ⟨n, rfl, hn⟩ := hprimary
  obtain ⟨k, rfl, -⟩ := id hexpr
  cases hbuild
  refine ⟨_, rfl, fun m cs' hm => ?_⟩
  obtain ⟨k', cs₂', y', cs₃', hkey, hclose', hrest⟩ := (hn m cs' hm).index_inv hopen
  obtain ⟨rfl, rfl⟩ := AgreesAt.eq_of_closed hexpr (closed_of_mark (by simp) hclose) hkey
  obtain ⟨-, rfl⟩ := next?_inj hclose' hclose
  exact hrest

lemma agreesStem_call (ha : a ∈ alternatives .call) : AgreesStem cs rest p := by
  obtain rfl := List.mem_singleton.1 ha
  obtain ⟨cs₁, q₁, qs, ⟨-, hprimary⟩, rfl, h₁⟩ := h.category_inv
  obtain ⟨cs₂, q₂, qs, ⟨hmeans, hargs⟩, rfl, h₂⟩ := h₁.category_inv
  obtain ⟨rfl, rfl⟩ := h₂.nil_inv
  obtain ⟨n, rfl, hn⟩ := hprimary
  obtain ⟨ns, rfl, hns⟩ := hargs
  simp only [Builder.call, mapM_node?, Option.map_some] at hbuild
  cases hbuild
  obtain ⟨t, ht, r, hopen⟩ := hmeans.first rfl
  obtain rfl := List.mem_singleton.1 ht
  refine ⟨_, rfl, fun m cs' hm => ?_⟩
  obtain ⟨args, cs₃, hargs, hrest⟩ := (hn m cs' hm).call_inv hopen
  obtain ⟨rfl, rfl⟩ := hns r hopen args cs₃ hargs
  rwa [Node.bare_call]

/-! ### Arguments -/

lemma agreed_args (ha : a ∈ alternatives .args) : Agreed .args cs rest p := by
  simp only [alternatives, List.mem_cons, List.not_mem_nil, or_false] at ha
  rcases ha with rfl | rfl | rfl
  · obtain ⟨x, cs₁, hopen, h₁⟩ := h.mark_inv
    obtain ⟨cs₂, q₁, qs, ⟨hmeans, hexpr⟩, rfl, h₂⟩ := h₁.category_inv
    obtain ⟨cs₃, q₂, qs, ⟨hcommas, hmore⟩, rfl, h₃⟩ := h₂.category_inv
    obtain ⟨y, cs₄, hclose, h₄⟩ := h₃.mark_inv
    obtain ⟨rfl, rfl⟩ := h₄.nil_inv
    obtain ⟨n, rfl, -⟩ := id hexpr
    obtain ⟨ns, rfl, hns⟩ := hmore
    cases hbuild
    refine ⟨n :: ns, rfl, fun r hr ms cs' hms => ?_⟩
    cases hr.symm.trans hopen
    obtain ⟨m, ms', cs₁', rfl, hm, hms'⟩ := hms.first_inv (hmeans.not_refuses rfl fun _ ht => ht)
    obtain ⟨t, ht, r, hcomma⟩ := hcommas.first rfl
    obtain rfl := List.mem_singleton.1 ht
    obtain ⟨rfl, rfl⟩ := AgreesAt.eq_of_closed hexpr (closed_of_mark (by simp) hcomma) hm
    obtain ⟨ms', rfl, hlast⟩ := hns (closed_of_mark (by simp) hclose) ms' cs' hms'
    obtain ⟨rfl, rfl⟩ := hlast.stop_inv hclose
    exact ⟨by simp, rfl⟩
  · obtain ⟨x, cs₁, hopen, h₁⟩ := h.mark_inv
    obtain ⟨cs₂, q₁, qs, ⟨hmeans, hexpr⟩, rfl, h₂⟩ := h₁.category_inv
    obtain ⟨y, cs₃, hclose, h₃⟩ := h₂.mark_inv
    obtain ⟨rfl, rfl⟩ := h₃.nil_inv
    obtain ⟨n, rfl, -⟩ := id hexpr
    cases hbuild
    refine ⟨[n], rfl, fun r hr ms cs' hms => ?_⟩
    cases hr.symm.trans hopen
    obtain ⟨m, ms', cs₁', rfl, hm, hms'⟩ := hms.first_inv (hmeans.not_refuses rfl fun _ ht => ht)
    obtain ⟨rfl, rfl⟩ := AgreesAt.eq_of_closed hexpr (closed_of_mark (by simp) hclose) hm
    obtain ⟨rfl, rfl⟩ := hms'.stop_inv hclose
    exact ⟨rfl, rfl⟩
  · obtain ⟨x, cs₁, hopen, h₁⟩ := h.mark_inv
    obtain ⟨y, cs₂, hclose, h₂⟩ := h₁.mark_inv
    obtain ⟨rfl, rfl⟩ := h₂.nil_inv
    cases hbuild
    refine ⟨[], rfl, fun r hr ms cs' hms => ?_⟩
    cases hr.symm.trans hopen
    obtain ⟨rfl, rfl⟩ := hms.empty_inv hclose
    exact ⟨rfl, rfl⟩

lemma agreed_moreExprs (ha : a ∈ alternatives .moreExprs) : Agreed .moreExprs cs rest p := by
  simp only [alternatives, List.mem_cons, List.not_mem_nil, or_false] at ha
  rcases ha with rfl | rfl
  · obtain ⟨x, cs₁, hcomma, h₁⟩ := h.mark_inv
    obtain ⟨cs₂, q, qs, ⟨-, hexpr⟩, rfl, h₂⟩ := h₁.category_inv
    obtain ⟨rfl, rfl⟩ := h₂.nil_inv
    obtain ⟨n, rfl, -⟩ := id hexpr
    cases hbuild
    refine ⟨[n], rfl, fun hclosed ms cs' hms => ?_⟩
    obtain ⟨m, ms', cs₁', rfl, hm, hms'⟩ := hms.more_inv hcomma
    obtain ⟨rfl, rfl⟩ := AgreesAt.eq_of_closed hexpr hclosed hm
    exact ⟨ms', rfl, hms'⟩
  · obtain ⟨cs₁, q₁, qs, ⟨-, hmore⟩, rfl, h₁⟩ := h.category_inv
    obtain ⟨x, cs₂, hcomma, h₂⟩ := h₁.mark_inv
    obtain ⟨cs₃, q₂, qs, ⟨-, hexpr⟩, rfl, h₃⟩ := h₂.category_inv
    obtain ⟨rfl, rfl⟩ := h₃.nil_inv
    obtain ⟨ns, rfl, hns⟩ := hmore
    obtain ⟨n, rfl, -⟩ := id hexpr
    cases hbuild
    refine ⟨ns ++ [n], by simp, fun hclosed ms cs' hms => ?_⟩
    obtain ⟨ms', rfl, hms'⟩ := hns (closed_of_mark (by simp) hcomma) ms cs' hms
    obtain ⟨m, ms'', cs₁', rfl, hm, hms''⟩ := hms'.more_inv hcomma
    obtain ⟨rfl, rfl⟩ := AgreesAt.eq_of_closed hexpr hclosed hm
    exact ⟨ms'', by simp, hms''⟩

/-! ### Table constructors -/

lemma agreed_field (ha : a ∈ alternatives .field) : Agreed .field cs rest p := by
  simp only [alternatives, List.mem_cons, List.not_mem_nil, or_false] at ha
  rcases ha with rfl | rfl | rfl
  · obtain ⟨cs₁, q, qs, ⟨hmeans, hexpr⟩, rfl, h₁⟩ := h.category_inv
    obtain ⟨rfl, rfl⟩ := h₁.nil_inv
    obtain ⟨n, rfl, -⟩ := hexpr
    cases hbuild
    refine ⟨_, rfl, fun _ k v cs' hfield => ?_⟩
    cases hfield with
    | keyed _ hrefuses => exact (hmeans.not_refuses rfl (fun _ ht => ht) hrefuses).elim
  · obtain ⟨x, cs₁, l, q₁, qs, hname, hq₁, rfl, h₁⟩ := h.lexeme_inv rfl
    obtain ⟨y, cs₂, -, h₂⟩ := h₁.mark_inv
    obtain ⟨cs₃, q₂, qs, ⟨-, hexpr⟩, rfl, h₃⟩ := h₂.category_inv
    obtain ⟨rfl, rfl⟩ := h₃.nil_inv
    obtain ⟨n, rfl, -⟩ := hexpr
    cases hq₁
    cases hbuild
    refine ⟨_, rfl, fun _ k v cs' hfield => ?_⟩
    cases hfield with
    | keyed _ hrefuses =>
      cases (hrefuses .name (by simp [Category.firsts])).symm.trans hname
  · obtain ⟨x, cs₁, hopen, h₁⟩ := h.mark_inv
    obtain ⟨cs₂, q₁, qs, ⟨-, hkey⟩, rfl, h₂⟩ := h₁.category_inv
    obtain ⟨y, cs₃, hclose, h₃⟩ := h₂.mark_inv
    obtain ⟨z, cs₄, hequals, h₄⟩ := h₃.mark_inv
    obtain ⟨cs₅, q₂, qs, ⟨-, hvalue⟩, rfl, h₅⟩ := h₄.category_inv
    obtain ⟨rfl, rfl⟩ := h₅.nil_inv
    obtain ⟨k', rfl, -⟩ := id hkey
    obtain ⟨v', rfl, -⟩ := id hvalue
    cases hbuild
    refine ⟨_, rfl, fun hclosed k v cs' hfield => ⟨k', v', rfl, ?_⟩⟩
    cases hfield with
    | keyed hopen' _ hk hclose' hequals' hv =>
      obtain ⟨-, rfl⟩ := next?_inj hopen' hopen
      obtain ⟨rfl, rfl⟩ := AgreesAt.eq_of_closed hkey (closed_of_mark (by simp) hclose) hk
      obtain ⟨-, rfl⟩ := next?_inj hclose' hclose
      obtain ⟨-, rfl⟩ := next?_inj hequals' hequals
      obtain ⟨rfl, rfl⟩ := AgreesAt.eq_of_closed hvalue hclosed hv
      exact ⟨rfl, rfl, rfl⟩

lemma agreed_moreFields (ha : a ∈ alternatives .moreFields) : Agreed .moreFields cs rest p := by
  simp only [alternatives, List.mem_cons, List.not_mem_nil, or_false] at ha
  rcases ha with rfl | rfl
  · obtain ⟨x, cs₁, hcomma, h₁⟩ := h.mark_inv
    obtain ⟨cs₂, q, qs, ⟨-, hfield⟩, rfl, h₂⟩ := h₁.category_inv
    obtain ⟨rfl, rfl⟩ := h₂.nil_inv
    obtain ⟨f, rfl, hf⟩ := hfield
    cases hbuild
    refine ⟨[f], rfl, fun hclosed fields cs' hfields => ?_⟩
    obtain ⟨-, k, v, fields', cs₁', rfl, hkv, hfields'⟩ := hfields.more_inv hcomma
    obtain ⟨k', v', rfl, rfl, rfl, rfl⟩ := hf hclosed k v cs₁' hkv
    exact ⟨[(k', v')], fields', rfl, rfl, hfields'⟩
  · obtain ⟨cs₁, q₁, qs, ⟨-, hmore⟩, rfl, h₁⟩ := h.category_inv
    obtain ⟨x, cs₂, hcomma, h₂⟩ := h₁.mark_inv
    obtain ⟨cs₃, q₂, qs, ⟨-, hfield⟩, rfl, h₃⟩ := h₂.category_inv
    obtain ⟨rfl, rfl⟩ := h₃.nil_inv
    obtain ⟨fs, rfl, hfs⟩ := hmore
    obtain ⟨f, rfl, hf⟩ := hfield
    cases hbuild
    refine ⟨fs ++ [f], by simp, fun hclosed fields cs' hfields => ?_⟩
    obtain ⟨pairs, fields', rfl, rfl, hfields'⟩ :=
      hfs (closed_of_mark (by simp) hcomma) fields cs' hfields
    obtain ⟨-, k, v, fields'', cs₁', rfl, hkv, hfields''⟩ := hfields'.more_inv hcomma
    obtain ⟨k', v', rfl, rfl, rfl, rfl⟩ := hf hclosed k v cs₁' hkv
    exact ⟨pairs ++ [(k', v')], fields'', by simp, by simp, hfields''⟩

end Lists

/-- Fields with keys keep them, whatever their numbers. -/
lemma bare_tableOf_keyed (file : String) (pairs : List (Node × Node)) :
    (Builder.tableOf file (pairs.map fun q => .keyed q.1 q.2)).bare =
      .table default (pairs.map (Prod.map Node.bare Node.bare)) := by
  have hpairs : ∀ number,
      Builder.fieldPairs number (pairs.map fun q => .keyed q.1 q.2) = pairs := by
    induction pairs with
    | nil => exact fun _ => rfl
    | cons q pairs ih =>
      intro number
      rw [List.map_cons, Builder.fieldPairs, ih]
      rfl
  rw [Builder.tableOf, hpairs, Node.bare_table]

lemma MoreFields.not_trailing {fields : List (Node × Node)} {r' : List Char × List Char}
    (h : MoreFields cs fields rest) (hcomma : next? (.word ",") cs = some r)
    (hbrace : next? (.word "\x7d") r.2 = some r') : False :=
  nomatch ((h.more_inv hcomma).1 (.word "\x7d") (by simp)).symm.trans hbrace

/-- Fields agree with what is read after an opening brace: where they are closed, they are the first
fields that are read. -/
def AgreesFields (cs rest : List Char) (fs : List TableField) : Prop :=
  Closed rest → ∀ fields cs', Fields cs fields cs' →
    ∃ (pairs : List (Node × Node)) (fields' : List (Node × Node)),
      fs = pairs.map (fun q => .keyed q.1 q.2) ∧
      fields = pairs.map (Prod.map Node.bare Node.bare) ++ fields' ∧ MoreFields rest fields' cs'

lemma agreesFields_one {f : TableField} (hmeans : Means file .field cs rest (.field f))
    (h : Agreed .field cs rest (.field f)) : AgreesFields cs rest [f] := by
  intro hclosed fields cs' hfields
  obtain ⟨f', heq, hf⟩ := h
  cases heq
  obtain ⟨k, v, fields', cs₁, rfl, hkv, hfields'⟩ :=
    hfields.first_inv (hmeans.not_refuses rfl fun _ ht => ht)
  obtain ⟨k', v', rfl, rfl, rfl, rfl⟩ := hf hclosed k v cs₁ hkv
  exact ⟨[(k', v')], fields', rfl, rfl, hfields'⟩

lemma agreesFields_more {f : TableField} {q : Piece} (hf : AgreesFields cs cs₁ [f])
    (hcommas : Means file .moreFields cs₁ rest q) (h : Agreed .moreFields cs₁ rest q) :
    ∃ fs : List TableField, q = .many (fs.map .field) ∧ AgreesFields cs rest (f :: fs) := by
  obtain ⟨fs, rfl, hfs⟩ := h
  refine ⟨fs, rfl, fun hclosed fields cs' hfields => ?_⟩
  obtain ⟨t, ht, r, hcomma⟩ := hcommas.first rfl
  obtain rfl := List.mem_singleton.1 ht
  obtain ⟨first, fields₁, hfirst, rfl, hfields₁⟩ :=
    hf (closed_of_mark (by simp) hcomma) fields cs' hfields
  obtain ⟨pairs, fields', rfl, rfl, hfields'⟩ := hfs hclosed fields₁ cs' hfields₁
  refine ⟨first ++ pairs, fields', ?_, by simp, hfields'⟩
  rw [List.map_append, ← hfirst]
  rfl

/-- A table constructor whose fields agree with what is read, without a comma after them, -/
lemma agreed_table_closed {x y cs₂ : List Char} {fs : List TableField}
    (hopen : next? (.word "\x7b") cs = some (x, cs₁)) (hfs : AgreesFields cs₁ cs₂ fs)
    (hbrace : next? (.word "\x7d") cs₂ = some (y, rest)) :
    Agreed .table cs rest (.node (Builder.tableOf file fs)) := by
  refine ⟨_, rfl, fun r hr fields cs' hfields => ?_⟩
  cases hr.symm.trans hopen
  obtain ⟨pairs, fields', rfl, rfl, hlast⟩ :=
    hfs (closed_of_mark (by simp) hbrace) fields cs' hfields
  obtain ⟨rfl, rfl⟩ := hlast.stop_inv hbrace
  rw [List.append_nil]
  exact ⟨bare_tableOf_keyed file pairs, rfl⟩

/-- or with one. -/
lemma agreed_table_trailing {x y z cs₂ cs₃ : List Char} {fs : List TableField}
    (hopen : next? (.word "\x7b") cs = some (x, cs₁)) (hfs : AgreesFields cs₁ cs₂ fs)
    (hcomma : next? (.word ",") cs₂ = some (y, cs₃))
    (hbrace : next? (.word "\x7d") cs₃ = some (z, rest)) :
    Agreed .table cs rest (.node (Builder.tableOf file fs)) := by
  refine ⟨_, rfl, fun r hr fields cs' hfields => ?_⟩
  cases hr.symm.trans hopen
  obtain ⟨pairs, fields', rfl, rfl, hlast⟩ :=
    hfs (closed_of_mark (by simp) hcomma) fields cs' hfields
  exact (hlast.not_trailing hcomma hbrace).elim

include h hbuild in
lemma agreed_table (ha : a ∈ alternatives .table) : Agreed .table cs rest p := by
  simp only [alternatives, List.mem_cons, List.not_mem_nil, or_false] at ha
  rcases ha with rfl | rfl | rfl | rfl | rfl
  · obtain ⟨x, cs₁, hopen, h₁⟩ := h.mark_inv
    obtain ⟨cs₂, q₁, qs, ⟨hmeans, hfield⟩, rfl, h₂⟩ := h₁.category_inv
    obtain ⟨cs₃, q₂, qs, ⟨hcommas, hmore⟩, rfl, h₃⟩ := h₂.category_inv
    obtain ⟨y, cs₄, hcomma, h₄⟩ := h₃.mark_inv
    obtain ⟨z, cs₅, hbrace, h₅⟩ := h₄.mark_inv
    obtain ⟨rfl, rfl⟩ := h₅.nil_inv
    obtain ⟨f, rfl, -⟩ := id hfield
    obtain ⟨fs, rfl, hfs⟩ := agreesFields_more (agreesFields_one hmeans hfield) hcommas hmore
    simp only [Builder.table, mapM_field?, Option.map_some] at hbuild
    cases hbuild
    exact agreed_table_trailing hopen hfs hcomma hbrace
  · obtain ⟨x, cs₁, hopen, h₁⟩ := h.mark_inv
    obtain ⟨cs₂, q₁, qs, ⟨hmeans, hfield⟩, rfl, h₂⟩ := h₁.category_inv
    obtain ⟨cs₃, q₂, qs, ⟨hcommas, hmore⟩, rfl, h₃⟩ := h₂.category_inv
    obtain ⟨z, cs₄, hbrace, h₄⟩ := h₃.mark_inv
    obtain ⟨rfl, rfl⟩ := h₄.nil_inv
    obtain ⟨f, rfl, -⟩ := id hfield
    obtain ⟨fs, rfl, hfs⟩ := agreesFields_more (agreesFields_one hmeans hfield) hcommas hmore
    simp only [Builder.table, mapM_field?, Option.map_some] at hbuild
    cases hbuild
    exact agreed_table_closed hopen hfs hbrace
  · obtain ⟨x, cs₁, hopen, h₁⟩ := h.mark_inv
    obtain ⟨cs₂, q, qs, ⟨hmeans, hfield⟩, rfl, h₂⟩ := h₁.category_inv
    obtain ⟨y, cs₃, hcomma, h₃⟩ := h₂.mark_inv
    obtain ⟨z, cs₄, hbrace, h₄⟩ := h₃.mark_inv
    obtain ⟨rfl, rfl⟩ := h₄.nil_inv
    obtain ⟨f, rfl, -⟩ := id hfield
    cases hbuild
    exact agreed_table_trailing hopen (agreesFields_one hmeans hfield) hcomma hbrace
  · obtain ⟨x, cs₁, hopen, h₁⟩ := h.mark_inv
    obtain ⟨cs₂, q, qs, ⟨hmeans, hfield⟩, rfl, h₂⟩ := h₁.category_inv
    obtain ⟨z, cs₃, hbrace, h₃⟩ := h₂.mark_inv
    obtain ⟨rfl, rfl⟩ := h₃.nil_inv
    obtain ⟨f, rfl, -⟩ := id hfield
    cases hbuild
    exact agreed_table_closed hopen (agreesFields_one hmeans hfield) hbrace
  · obtain ⟨x, cs₁, hopen, h₁⟩ := h.mark_inv
    obtain ⟨z, cs₂, hbrace, h₂⟩ := h₁.mark_inv
    obtain ⟨rfl, rfl⟩ := h₂.nil_inv
    cases hbuild
    refine ⟨_, rfl, fun r hr fields cs' hfields => ?_⟩
    cases hr.symm.trans hopen
    obtain ⟨rfl, rfl⟩ := hfields.empty_inv hbrace
    exact ⟨bare_tableOf_keyed file [], rfl⟩

/-! ### All meanings -/

/-- Every meaning of a category agrees with what is read. -/
theorem Means.agreed {c : Category} (h : Means file c cs rest p) : Agreed c cs rest p := by
  refine Means.induction ?_ h
  intro c k a cs rest ps p ha hparts hbuild
  replace ha := List.mem_of_getElem? ha
  cases c with
  | expr => exact agreesAt_expr hparts hbuild ha
  | logic => exact agreesAt_step hparts hbuild (L := 0) (by decide) ha
  | equality => exact agreesAt_step hparts hbuild (L := 1) (by decide) ha
  | relation => exact agreesAt_step hparts hbuild (L := 2) (by decide) ha
  | sum => exact agreesAt_step hparts hbuild (L := 3) (by decide) ha
  | product => exact agreesAt_step hparts hbuild (L := 4) (by decide) ha
  | power => exact agreesAt_step hparts hbuild (L := 5) (by decide) ha
  | unary => exact agreesWhole_unary hparts hbuild ha
  | atom => exact agreesWhole_atom hparts hbuild ha
  | primary => exact agreesStem_primary hparts hbuild ha
  | property => exact agreesStem_property hparts hbuild ha
  | index => exact agreesStem_index hparts hbuild ha
  | call => exact agreesStem_call hparts hbuild ha
  | args => exact agreed_args hparts hbuild ha
  | moreExprs => exact agreed_moreExprs hparts hbuild ha
  | table => exact agreed_table hparts hbuild ha
  | field => exact agreed_field hparts hbuild ha
  | moreFields => exact agreed_moreFields hparts hbuild ha
  | _ => trivial

end Steps

/-! ## Programs that return an expression -/

/-- What is read begins with a lexeme. -/
lemma Operand.exists_next {L : Nat} {n : Node} (h : Operand L cs n rest) :
    ∃ t r, Terminal.isProper t ∧ next? t cs = some r := by
  induction hk : 8 - L using Nat.strong_induction_on generalizing L n rest with
  | _ k ih =>
    cases h with
    | ladder hL _ h _ => exact ih _ (by omega) h rfl
    | atom _ h | primary _ h => exact ih _ (by omega) h rfl
    | unary h _ _ | string h _ | name h _ _ => exact ⟨_, _, rfl, h⟩
    | table h _ _ | parens h _ _ _ _ => exact ⟨_, _, by decide, h⟩

lemma BlankRun.dropWhile_eq_nil {text : List Char} {stop : Nat}
    (h : BlankRun text stop text.length) : (text.drop stop).dropWhile Text.isBlank = [] := by
  refine List.dropWhile_eq_nil_iff.2 fun c hc => ?_
  obtain ⟨k, hk⟩ := List.getElem?_of_mem hc
  rw [List.getElem?_drop] at hk
  have hlt : stop + k < text.length := (List.getElem?_eq_some_iff.1 hk).1
  simpa [hk] using h.2 (stop + k) (Nat.le_add_right _ _) hlt

section Programs

variable {file : String} {cs rest : List Char} {p : Piece} {m : Node}
variable {cs' cs₁ x : List Char}

/-- Expressions of which one is read up to the end of the text are only this one. -/
lemma Means.exprs_eq (h : Means file .exprs cs rest p) (hrest : rest.dropWhile Text.isBlank = [])
    (hcs' : cs'.dropWhile Text.isBlank = []) (hm : Operand 0 cs m cs') :
    ∃ n, p = .many [.node n] ∧ n.bare = m := by
  obtain ⟨a, ha, ps, hparts, hbuild⟩ := h.inv
  simp only [alternatives, List.mem_cons, List.not_mem_nil, or_false] at ha
  rcases ha with rfl | rfl
  · obtain ⟨cs₁, q₁, qs, hexpr, rfl, h₁⟩ := hparts.category_inv
    obtain ⟨cs₂, q₂, qs, hcommas, rfl, h₂⟩ := h₁.category_inv
    obtain ⟨t, ht, r, hcomma⟩ := hcommas.first rfl
    obtain rfl := List.mem_singleton.1 ht
    obtain ⟨n, rfl, -⟩ := id hexpr.agreed
    obtain ⟨rfl, rfl⟩ := AgreesAt.eq_of_closed hexpr.agreed (closed_of_mark (by simp) hcomma) hm
    cases (next?_of_blanks (by decide) hcs').symm.trans hcomma
  · obtain ⟨cs₁, q, qs, hexpr, rfl, h₁⟩ := hparts.category_inv
    obtain ⟨rfl, rfl⟩ := h₁.nil_inv
    obtain ⟨n, rfl, -⟩ := id hexpr.agreed
    cases hbuild
    exact ⟨n, rfl, (AgreesAt.eq_of_closed hexpr.agreed (closed_of_blanks hrest) hm).1.symm⟩

lemma Means.returns_eq (h : Means file .returns cs rest p)
    (hrest : rest.dropWhile Text.isBlank = [])
    (hreturn : next? (.word "return") cs = some (x, cs₁)) (hcs' : cs'.dropWhile Text.isBlank = [])
    (hm : Operand 0 cs₁ m cs') : ∃ n, p = .node n ∧ n.bare = .returns default [m] := by
  obtain ⟨a, ha, ps, hparts, hbuild⟩ := h.inv
  simp only [alternatives, List.mem_cons, List.not_mem_nil, or_false] at ha
  rcases ha with rfl | rfl
  · obtain ⟨y, cs₂, hreturn', h₁⟩ := hparts.mark_inv
    obtain ⟨-, rfl⟩ := next?_inj hreturn' hreturn
    obtain ⟨cs₂, q, qs, hexprs, rfl, h₂⟩ := h₁.category_inv
    obtain ⟨rfl, rfl⟩ := h₂.nil_inv
    obtain ⟨n, rfl, rfl⟩ := hexprs.exprs_eq hrest hcs' hm
    cases hbuild
    exact ⟨_, rfl, rfl⟩
  · obtain ⟨y, cs₂, hreturn', h₁⟩ := hparts.mark_inv
    obtain ⟨-, rfl⟩ := next?_inj hreturn' hreturn
    obtain ⟨rfl, rfl⟩ := h₁.nil_inv
    obtain ⟨t, r, ht, hnext⟩ := hm.exists_next
    cases (next?_of_blanks ht hrest).symm.trans hnext

/-- A program that begins with `return` and no statement is a chunk of this one return statement. -/
lemma Means.program_eq (h : Means file .program cs rest p)
    (hrest : rest.dropWhile Text.isBlank = [])
    (hreturn : next? (.word "return") cs = some (x, cs₁))
    (hrefuses : Refuses cs (Category.firsts .statement)) (hcs' : cs'.dropWhile Text.isBlank = [])
    (hm : Operand 0 cs₁ m cs') :
    ∃ n, p = .node n ∧ n.bare = .chunk default [] (some (.returns default [m])) := by
  obtain ⟨a, ha, ps, hparts, hbuild⟩ := h.inv
  obtain rfl := List.mem_singleton.1 ha
  obtain ⟨a, ha, ps, hparts, hbuild⟩ := (hparts.only_inv hbuild).inv
  simp only [alternatives, List.mem_cons, List.not_mem_nil, or_false] at ha
  rcases ha with rfl | rfl | rfl | rfl
  · obtain ⟨cs₂, q, qs, hstatements, rfl, h₁⟩ := hparts.category_inv
    exact (hstatements.not_refuses rfl (fun _ ht => ht) hrefuses).elim
  · obtain ⟨cs₂, q, qs, hstatements, rfl, h₁⟩ := hparts.category_inv
    exact (hstatements.not_refuses rfl (fun _ ht => ht) hrefuses).elim
  · obtain ⟨cs₂, q, qs, hlast, rfl, h₁⟩ := hparts.category_inv
    obtain ⟨rfl, rfl⟩ := h₁.nil_inv
    obtain ⟨a, ha, ps, hparts, hlast⟩ := hlast.inv
    obtain rfl := List.mem_singleton.1 ha
    obtain ⟨n, rfl, hn⟩ := (hparts.only_inv hlast).returns_eq hrest hreturn hcs' hm
    cases hbuild
    exact ⟨_, rfl, congrArg (fun n => Node.chunk default [] (some n)) hn⟩
  · obtain ⟨rfl, rfl⟩ := hparts.nil_inv
    cases (next?_of_blanks (by decide) hrest).symm.trans hreturn

/-- A program that returns what is read is derived. -/
lemma Operand.readable_program (hm : Operand 0 cs₁ m rest)
    (hreturn : next? (.word "return") cs = some (x, cs₁)) : Readable [.category .program] cs rest :=
  .category (List.mem_singleton_self _)
    (.category (a := ⟨[.category .last], Builder.chunk⟩) (by simp [alternatives])
      (.category (List.mem_singleton_self _)
        (.category (a := ⟨[mark "return", .category .exprs], Builder.returns⟩)
          (by simp [alternatives])
          (.lexeme (by decide) hreturn
            (.category (a := ⟨[.category .expr], Builder.start⟩) (by simp [alternatives])
              hm.readable.expr)))))

/-- A text that begins with `return` and no statement, and goes on with an expression up to its end,
is read as a chunk of this one return statement. -/
theorem Operand.exists_parse (file : String) {source : String}
    (hreturn : next? (.word "return") source.toList = some (x, cs₁))
    (hrefuses : Refuses source.toList (Category.firsts .statement)) (hm : Operand 0 cs₁ m []) :
    ∃ n, parse file source = .ok n ∧
      n.bare = .chunk default [] (some (.returns default [m])) := by
  obtain ⟨stop, hreads, hstop, hle⟩ :=
    hm.readable_program hreturn source.toList 0 rfl (Nat.zero_le _)
  have hend : source.toList.length ≤ stop := List.drop_eq_nil_iff.1 hstop
  obtain ⟨n, hn⟩ := exists_parse_of_reads file hreads ⟨hle, fun place hplace hlt => by omega⟩
  obtain ⟨d, ⟨hpart, hfollows, stop', hmake, hblank⟩, hpiece⟩ := isProgram_of_parse hn
  have hmeans : Means file .program source.toList (source.toList.drop stop') (.node n) :=
    ⟨source.toList, 0, stop', d, hpart, hfollows, hmake, hpiece, rfl, rfl⟩
  obtain ⟨n', heq, hbare⟩ := hmeans.program_eq hblank.dropWhile_eq_nil hreturn hrefuses rfl hm
  cases heq
  exact ⟨n, hn, hbare⟩

end Programs

end LuaTyping
