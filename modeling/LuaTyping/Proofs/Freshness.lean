import LuaTyping.Proofs.StatementRules

set_option autoImplicit false

/-!
# Which variables occur

Drawn variables are called `t1`, `t2` and so on. A variable is still to be drawn, after `n` of them,
if it is one of these with a number above `n`; all others may occur. A session is *fresh* if no
variable occurs in it that is still to be drawn. Inference leads from fresh sessions to fresh ones,
and what it infers holds no such variable either; the same is true if some variables, drawn already,
are forbidden in addition.

## Main definitions

* `Ty.names`, `Node.names` — all variables that occur in a type, checks
  included, and in the annotations of a tree.
* `Drawn` — a variable is not still to be drawn.
* `Regime.avoiding` — one variable, drawn already, does not occur.
* `Session.Fresh` — only drawn variables occur in a session.

## Main results

* `Check.inferTo_drawing` — inference keeps to drawn variables.
-/

namespace LuaTyping

/-! ## Names -/

mutual

/-- All variables that occur in a type, those of keys, quantifiers and checks included. -/
def Ty.names : Ty → List String
  | .var x => [x]
  | .con _ args _ checks => Ty.namesList args ++ Ty.namesChecks checks
  | .table fields => Ty.namesFields fields
  | .union left right => left.names ++ right.names
  | .all x body => x :: body.names

/-- The variables that occur in some types. -/
def Ty.namesList : List Ty → List String
  | [] => []
  | t :: ts => t.names ++ Ty.namesList ts

/-- The variables that occur in some fields. -/
def Ty.namesFields : List (Ty × Ty) → List String
  | [] => []
  | (k, v) :: rest => k.names ++ v.names ++ Ty.namesFields rest

/-- The variables that occur in some checks. -/
def Ty.namesChecks : List (Node × Ty) → List String
  | [] => []
  | (p, t) :: rest => p.names ++ t.names ++ Ty.namesChecks rest

/-- All variables that occur in the annotations of a tree. -/
def Node.names : Node → List String
  | .table _ fields => Node.namesPairs fields
  | .unary _ _ value => value.names
  | .binary _ left _ right => left.names ++ right.names
  | .call _ callee args => callee.names ++ Node.namesList args
  | .index _ object key => object.names ++ key.names
  | .function _ _ _ body _ note => body.names ++ note.names
  | .declare _ _ exprs note => Node.namesList exprs ++ Node.namesOption note
  | .assign _ targets exprs => Node.namesList targets ++ Node.namesList exprs
  | .returns _ exprs => Node.namesList exprs
  | .branch _ condition body elseifs otherwise =>
    condition.names ++ body.names ++ Node.namesList elseifs ++ Node.namesOption otherwise
  | .elseif _ condition body => condition.names ++ body.names
  | .chunk _ statements last => Node.namesList statements ++ Node.namesOption last
  | .reveal _ expr => expr.names
  | .typeNote _ t => t.names
  | .resultNote _ t => Node.namesResult t
  | _ => []

/-- The variables that occur in some trees. -/
def Node.namesList : List Node → List String
  | [] => []
  | n :: ns => n.names ++ Node.namesList ns

/-- The variables that occur in some pairs of trees. -/
def Node.namesPairs : List (Node × Node) → List String
  | [] => []
  | (k, v) :: rest => k.names ++ v.names ++ Node.namesPairs rest

/-- The variables that occur in a tree that may be absent. -/
def Node.namesOption : Option Node → List String
  | none => []
  | some n => n.names

/-- The variables that occur in an annotation that may be absent. -/
def Node.namesResult : Option Ty → List String
  | none => []
  | some t => t.names

end

lemma Node.namesList_eq (ns : List Node) : namesList ns = ns.flatMap names := by
  induction ns with
  | nil => rfl
  | cons n ns ih => simp [namesList, ih]

lemma Node.namesPairs_eq (fields : List (Node × Node)) :
    namesPairs fields = (fields.flatMap fun f => [f.1, f.2]).flatMap names := by
  induction fields with
  | nil => rfl
  | cons f fields ih => simp [namesPairs, ih]

/-- The variables that occur in the annotation of a tree itself. -/
def Node.annotationNames : Node → List String
  | function _ _ _ _ _ note => note.names
  | declare _ _ _ note => namesOption note
  | typeNote _ t => t.names
  | resultNote _ t => namesResult t
  | _ => []

lemma Node.names_eq (n : Node) : n.names = n.children.flatMap names ++ n.annotationNames := by
  cases n with
  | branch l condition body elseifs otherwise =>
    cases otherwise <;> simp [names, children, namesList_eq, namesOption, annotationNames]
  | chunk l statements last =>
    cases last <;> simp [names, children, namesList_eq, namesOption, annotationNames]
  | _ => simp [names, children, namesList_eq, namesPairs_eq, annotationNames]

lemma Node.names_subset_of_mem_children (n : Node) : ∀ m ∈ n.children, m.names ⊆ n.names := by
  intro m hm x hx
  rw [names_eq n]
  exact List.mem_append_left _ (List.mem_flatMap.2 ⟨m, hm, hx⟩)

lemma Node.names_subset_of_mem_parts {n : Node} : ∀ m ∈ n.parts, m.names ⊆ n.names :=
  rel_of_mem_parts (r := (·.names ⊆ ·.names)) (fun _ _ _ => List.Subset.trans)
    names_subset_of_mem_children

/-! ## Drawn variables -/

/-- A variable is not still to be drawn, after `n` have been. -/
def Drawn (n : Nat) (x : String) : Prop := ∀ k : Nat, x = s!"t{k}" → k ≤ n

lemma drawn_name_inj {j k : Nat} (h : s!"t{j}" = s!"t{k}") : j = k := by
  have hdigits : Nat.toDigits 10 j = Nat.toDigits 10 k :=
    String.ofList_inj.1 (by simpa [Nat.repr_eq_ofList_toDigits] using h)
  rw [← Nat.ofDigitChars_ten_toDigits (n := j), hdigits, Nat.ofDigitChars_ten_toDigits]

lemma Drawn.mono {m n : Nat} (hmn : m ≤ n) {x : String} (h : Drawn m x) : Drawn n x :=
  fun k hk => Nat.le_trans (h k hk) hmn

lemma drawn_name (k : Nat) : Drawn k s!"t{k}" := fun _ hj => Nat.le_of_eq (drawn_name_inj hj).symm

lemma drawn_of_head {n : Nat} {x : String} (h : x.toList.head? ≠ some 't') : Drawn n x := by
  rintro k rfl
  exact absurd (by simp [toString]) h

/-- Of the drawn variables only those that `may` occur. -/
def Permit.drawn (may : String → Prop) (n : Nat) : Permit where
  var x := Drawn n x ∧ may x
  literal _ _ := True
  key _ := True
  checked := True
  place p := ∀ x ∈ p.names, Drawn n x ∧ may x
  quantified := True

lemma Permit.drawn_le {may : String → Prop} {m n : Nat} (hmn : m ≤ n) :
    (Permit.drawn may m).Le (.drawn may n) where
  var _ h := ⟨h.1.mono hmn, h.2⟩
  literal _ _ _ := trivial
  key _ _ := trivial
  checked _ := trivial
  place _ h x hx := ⟨(h x hx).1.mono hmn, (h x hx).2⟩
  quantified _ := trivial

/-- Of the drawn variables only those that `may` occur, which those drawn after the first `start`
may; any fault is allowed. -/
def Regime.drawing (start : Nat) (may : String → Prop) (hrest : may "...")
    (hmay : ∀ k, start < k → may s!"t{k}") : Regime where
  permit := Permit.drawn may
  fault _ := True
  start := start
  le := Permit.drawn_le
  fresh n hn := ⟨drawn_name (n + 1), hmay (n + 1) (Nat.lt_succ_of_le hn)⟩
  rest n := ⟨drawn_of_head (by decide), hrest⟩
  flag _ _ := trivial
  key _ _ := trivial
  checked _ := trivial
  allows _ _ _ := trivial
  unbound _ := trivial

section Drawing

variable {may : String → Prop} {n : Nat}

mutual

/-- A type in which only permitted variables occur is within the permit. -/
lemma Ty.within_drawn : ∀ {t : Ty}, (∀ x ∈ t.names, Drawn n x ∧ may x) →
    t.Within (.drawn may n)
  | .var x, h => .var (h x (by simp [Ty.names]))
  | .con c args v checks, h => by
    simp only [Ty.names, List.mem_append] at h
    refine Ty.within_con_iff.2 ⟨fun _ _ => trivial, ?_, ?_⟩
    · exact Ty.within_drawn_list fun x hx => h x (.inl hx)
    · exact fun _ => Ty.within_drawn_checks fun x hx => h x (.inr hx)
  | .table fields, h => Ty.within_table_iff.2 (Ty.within_drawn_fields h)
  | .union left right, h => by
    simp only [Ty.names, List.mem_append] at h
    exact .union (Ty.within_drawn fun x hx => h x (.inl hx))
      (Ty.within_drawn fun x hx => h x (.inr hx))
  | .all x body, h => by
    simp only [Ty.names, List.mem_cons] at h
    exact .all trivial (h x (.inl rfl)) (Ty.within_drawn fun y hy => h y (.inr hy))

lemma Ty.within_drawn_list : ∀ {ts : List Ty}, (∀ x ∈ Ty.namesList ts, Drawn n x ∧ may x) →
    ∀ t ∈ ts, t.Within (.drawn may n)
  | [], _ => List.forall_mem_nil _
  | u :: us, h => by
    simp only [Ty.namesList, List.mem_append] at h
    intro t ht
    rcases List.mem_cons.1 ht with heq | ht
    · exact heq ▸ Ty.within_drawn fun x hx => h x (.inl hx)
    · exact Ty.within_drawn_list (fun x hx => h x (.inr hx)) t ht

lemma Ty.within_drawn_fields : ∀ {fields : List (Ty × Ty)},
    (∀ x ∈ Ty.namesFields fields, Drawn n x ∧ may x) → Ty.FieldsWithin (.drawn may n) fields
  | [], _ => List.forall_mem_nil _
  | (k, v) :: rest, h => by
    simp only [Ty.namesFields, List.mem_append] at h
    intro f hf
    rcases List.mem_cons.1 hf with heq | hf
    · exact heq ▸ ⟨trivial, Ty.within_drawn fun x hx => h x (.inl (.inl hx)),
        Ty.within_drawn fun x hx => h x (.inl (.inr hx))⟩
    · exact Ty.within_drawn_fields (fun x hx => h x (.inr hx)) f hf

lemma Ty.within_drawn_checks : ∀ {checks : List (Node × Ty)},
    (∀ x ∈ Ty.namesChecks checks, Drawn n x ∧ may x) →
      ∀ k ∈ checks, (Permit.drawn may n).place k.1 ∧ k.2.Within (.drawn may n)
  | [], _ => List.forall_mem_nil _
  | (p, t) :: rest, h => by
    simp only [Ty.namesChecks, List.mem_append] at h
    intro k hk
    rcases List.mem_cons.1 hk with heq | hk
    · exact heq ▸ ⟨fun x hx => h x (.inl (.inl hx)),
        Ty.within_drawn fun x hx => h x (.inl (.inr hx))⟩
    · exact Ty.within_drawn_checks (fun x hx => h x (.inr hx)) k hk

end

lemma Node.names_subset_of_mem_comparedPlaces {left right p : Node}
    (h : p ∈ comparedPlaces left right) : p.names ⊆ left.names ++ right.names := by
  rcases mem_of_mem_comparedPlaces h with rfl | rfl | hp
  · exact List.subset_append_left _ _
  · exact List.subset_append_right _ _
  · exact List.subset_append_of_subset_left _ (names_subset_of_mem_parts p hp)

variable {start : Nat} {hrest : may "..."} {hmay : ∀ k, start < k → may s!"t{k}"}

/-- A tree in which only permitted variables occur suits the regime. -/
lemma Node.suits_drawing {t : Node} (h : ∀ x ∈ t.names, Drawn n x ∧ may x) :
    t.Suits (.drawing start may hrest hmay) n := by
  cases t with
  | binary l left op right =>
    exact fun _ p hp x hx => h x (names_subset_of_mem_comparedPlaces hp hx)
  | function l params isVararg body name note =>
    intro l' t hnote
    refine Ty.within_drawn fun x hx => h x (List.mem_append_right _ ?_)
    rw [hnote]
    exact hx
  | declare l names exprs note =>
    refine ⟨fun _ _ _ => trivial, fun l' t hnote => ?_⟩
    refine Ty.within_drawn fun x hx => h x (List.mem_append_right _ ?_)
    rw [hnote]
    exact hx
  | _ => trivial

lemma Node.everywhere_suits_drawing {t : Node} (h : ∀ x ∈ t.names, Drawn n x ∧ may x) :
    t.Everywhere (Suits (.drawing start may hrest hmay) n) :=
  everywhere_of (q := fun t => ∀ x ∈ t.names, Drawn n x ∧ may x) (fun _ => suits_drawing)
    (fun _ ht m hm x hx => ht x (names_subset_of_mem_parts m hm hx)) h

/-- Inference keeps to the drawn variables that may occur. -/
theorem Check.inferTo_drawing (depth : Nat) {t : Node} (h : ∀ x ∈ t.names, Drawn n x ∧ may x) :
    Infers (.drawing start may hrest hmay) .any n (inferTo depth) t :=
  inferTo_keeps trivial (fun _ _ hp => Node.everywhere_suits_drawing hp) depth
    (Node.everywhere_suits_drawing h)

end Drawing

/-! ## Fresh sessions -/

/-- All drawn variables may occur, and no others. -/
def Regime.drawnOnly : Regime := .drawing 0 (fun _ => True) trivial fun _ _ => trivial

/-- Only drawn variables occur in the scopes and the register of a session. -/
def Session.Fresh (σ : Session) : Prop := σ.Within .drawnOnly

lemma Drawn.ne_next {n : Nat} {x : String} (h : Drawn n x) : x ≠ s!"t{n + 1}" := by
  intro hx
  have := h (n + 1) hx
  omega

/-- All that has been drawn may occur, but not the next variable, which has just been drawn. -/
def Regime.avoiding (n : Nat) : Regime :=
  .drawing (n + 1) (· ≠ s!"t{n + 1}") (Drawn.ne_next (drawn_of_head (by decide))) fun k hk h => by
    have := drawn_name_inj h
    omega

lemma drawn_le_avoiding (n : Nat) :
    (Regime.drawnOnly.permit n).Le ((Regime.avoiding n).permit (n + 1)) where
  var _ h := ⟨h.1.mono (Nat.le_succ n), h.1.ne_next⟩
  literal _ _ _ := trivial
  key _ _ := trivial
  checked _ := trivial
  place _ h x hx := ⟨(h x hx).1.mono (Nat.le_succ n), (h x hx).1.ne_next⟩
  quantified _ := trivial

lemma Session.fresh_initial : Session.initial.Fresh := by
  refine Session.within_initial (Nat.zero_le _) fun x hx => ⟨?_, trivial⟩
  simp only [List.mem_cons, List.not_mem_nil, or_false] at hx
  rcases hx with rfl | rfl | rfl
  · exact (drawn_name 1).mono (by decide)
  · exact (drawn_name 2).mono (by decide)
  · exact drawn_name 3

end LuaTyping
