import LuaTyping.Proofs.Acceptance
import LuaTyping.Proofs.Deepening

set_option autoImplicit false

/-!
# When inference comes to an end

Inference goes down into the parts of a tree, and narrowing sends it to the places that a condition
has compared. Only conditional statements narrow, so a place without one is inferred within its own
size. If no compared place holds a conditional statement, then inference goes no deeper than twice
the size of the tree, and it can be endless in one way only: it applies a substitution to a type
from which the bindings lead into a circle.

## Main definitions

* `Node.ComparesFlat` — a comparison is between places without conditional statements.
* `Check.Endless`, `Check.MeetsCircle` — inference comes to no end at any depth;
  it meets a circle among bindings.

## Main results

* `Check.not_cutOff_inferTo` — inference goes no deeper than twice the size of the tree,
  if no compared place holds a conditional statement.
* `Check.circular_of_inferTo` — a circle that inference says it met is one.
* `Check.infer_endless_iff` — the ways in which inference can be endless.
-/

namespace LuaTyping

namespace Node

/-- Whether a tree is a conditional statement. -/
def isBranch : Node → Bool
  | branch .. => true
  | _ => false

/-- A tree without conditional statements. -/
def Flat (n : Node) : Prop := n.Everywhere fun m => m.isBranch = false

/-- If the tree is a comparison, the places that it may remember hold no conditional statements. -/
def ComparesFlat : Node → Prop
  | binary _ left _ right => ∀ p ∈ comparedPlaces left right, p.Flat
  | _ => True

/-- Whether a tree, its parts, their parts and so on pass a test, to a given depth. -/
def everywhereTo (test : Node → Bool) : Nat → Node → Bool
  | 0, _ => false
  | depth + 1, n => test n && n.parts.all (everywhereTo test depth)

variable {n : Node}

lemma everywhere_of_everywhereTo {test : Node → Bool} {p : Node → Prop}
    (hp : ∀ n, test n = true → p n) {depth : Nat} (h : n.everywhereTo test depth = true) :
    n.Everywhere p := by
  induction depth generalizing n with
  | zero => cases h
  | succ depth ih =>
    rw [everywhereTo, Bool.and_eq_true, List.all_eq_true] at h
    exact .intro (hp n h.1) fun m hm => ih (h.2 m hm)

/-- Whether the places that a comparison may remember hold no conditional statements. -/
def comparesFlat : Node → Bool
  | binary _ left _ right =>
    (comparedPlaces left right).all fun p => p.everywhereTo (!·.isBranch) p.size
  | _ => true

lemma everywhere_comparesFlat {depth : Nat} (h : n.everywhereTo comparesFlat depth = true) :
    n.Everywhere ComparesFlat := by
  refine everywhere_of_everywhereTo (fun m hm => ?_) h
  cases m with
  | binary l left op right =>
    rw [comparesFlat, List.all_eq_true] at hm
    exact fun p hp => everywhere_of_everywhereTo (fun _ hbranch => by simpa using hbranch) (hm p hp)
  | _ => trivial

lemma size_pos (n : Node) : 0 < n.size := by
  cases n <;> simp [size]

lemma size_lt_of_mem_comparedPlaces (l : Location) (op : BinaryOp) {left right p : Node}
    (h : p ∈ comparedPlaces left right) : p.size < (binary l left op right).size := by
  have hleft : left.size < (binary l left op right).size :=
    size_lt_of_mem_parts left (by simp [parts])
  rcases mem_of_mem_comparedPlaces h with rfl | rfl | hp
  · exact hleft
  · exact size_lt_of_mem_parts p (by simp [parts])
  · exact Nat.lt_trans (size_lt_of_mem_parts p hp) hleft

lemma Flat.comparesFlat (h : n.Flat) : n.ComparesFlat := by
  cases n with
  | binary => exact h.comparedPlaces
  | _ => trivial

end Node

/-- If the fault says that a check is endless, then the check applied a substitution to a type from
which the bindings lead into a circle, or it was cut off, which is to be counted with if `deep`. -/
def Fault.Explained (deep : Prop) (f : Fault) : Prop :=
  ∀ c, f = .endless (c := c) → (c = .depth ∧ deep) ∨
    ∃ bindings t, c = .bindings bindings t ∧ (Subst.mk bindings false).Circular t

/-- Only certain places are compared. -/
def Permit.comparing (place : Node → Prop) : Permit where
  var _ := True
  literal _ _ := True
  key _ := True
  checked := True
  place := place
  quantified := True

variable {place : Node → Prop} {deep : Prop}

lemma Permit.comparing_allows {f : Fault}
    (h : (Permit.comparing place).Allows f) : f.Explained deep := by
  rintro c rfl
  cases c with
  | depth => exact absurd h id
  | bindings bindings t => exact .inr ⟨bindings, t, rfl, h⟩

/-- What occurs in the types of a check that compares only certain places. -/
def Regime.comparing (place : Node → Prop) (deep : Prop) : Regime where
  permit _ := .comparing place
  fault := Fault.Explained deep
  start := 0
  le _ := .refl _
  fresh _ _ := trivial
  rest _ := trivial
  flag _ _ := trivial
  key _ _ := trivial
  checked _ := trivial
  allows _ _ := Permit.comparing_allows
  unbound _ _ h := nomatch h

/-- Places that are as they can be written, without conditional statements, and up to a size. -/
def Node.Shallow (bound : Nat) (p : Node) : Prop :=
  p.Everywhere Node.Written ∧ p.Flat ∧ p.size ≤ bound

lemma Session.comparing_initial :
    Session.initial.Within (.comparing place deep) :=
  Session.within_initial (Nat.zero_le _) fun _ _ => trivial

variable {t : Node}

variable {n : Nat}

/-- A tree that is as it can be written suits the regime if the places that it compares do. -/
lemma Node.suits_comparing (hw : t.Written)
    (hplaces : ∀ l left op right, t = .binary l left op right →
      ∀ p ∈ comparedPlaces left right, place p) : t.Suits (.comparing place deep) n := by
  cases t with
  | binary l left op right => exact fun _ => hplaces l left op right rfl
  | function => exact fun l t hnote => (hw l t hnote).within fun _ => trivial
  | declare =>
    exact ⟨fun l x hx => absurd hx (hw.1 l x),
      fun l t hnote => (hw.2 l t hnote).within fun _ => trivial⟩
  | elseif | typeNote | resultNote => exact hw.elim
  | _ => trivial

lemma Node.suits_shallow {bound : Nat} (hw : t.Everywhere Node.Written) (hc : t.ComparesFlat)
    (hsize : t.size ≤ bound) : t.Suits (.comparing (Node.Shallow bound) False) n := by
  refine suits_comparing hw.here ?_
  rintro l left op right rfl p hp
  have := size_lt_of_mem_comparedPlaces l op hp
  exact ⟨hw.comparedPlaces p hp, hc p hp, by omega⟩

lemma Node.everywhere_suits_written (h : t.Everywhere Node.Written) :
    t.Everywhere (Node.Suits (.comparing (·.Everywhere Node.Written) True) n) := by
  refine everywhere_of (fun t ht => suits_comparing ht.here ?_) (fun t ht m hm => ht.part hm) h
  rintro l left op right rfl
  exact ht.comparedPlaces

namespace Check

variable {bound depth : Nat} {n : Node}

/-- A tree without conditional statements is inferred within its own size. -/
lemma inferTo_flat {m : Nat} (hw : t.Everywhere Node.Written) (hflat : t.Flat)
    (hsize : t.size ≤ bound) (hdepth : t.size ≤ depth) :
    Infers (.comparing (Node.Shallow bound) False) .any m (inferTo depth) t := by
  induction depth generalizing m t with
  | zero =>
    have := t.size_pos
    omega
  | succ depth ih =>
    refine inferStep_keeps_any (Node.suits_shallow hw hflat.comparesFlat hsize) (fun u hu => ?_) ?_
    · have := Node.size_lt_of_mem_parts u hu
      exact ih (hw.part hu) (hflat.part hu) (by omega) (by omega)
    · rintro l c b e o rfl
      exact nomatch hflat.here

/-- Inference goes no deeper than the size of the tree and of the largest place that is compared.

**Proof sketch.** By induction on the depth. The parts of a tree are smaller than the tree. A
conditional statement also infers places; these hold no conditional statements, so that each is
inferred within its own size, and that much depth is left. -/
lemma inferTo_shallow {m : Nat} (hw : t.Everywhere Node.Written)
    (hc : t.Everywhere Node.ComparesFlat) (hsize : t.size ≤ bound)
    (hdepth : t.size + bound ≤ depth) :
    Infers (.comparing (Node.Shallow bound) False) .any m (inferTo depth) t := by
  have hpos := t.size_pos
  induction depth generalizing m t with
  | zero => omega
  | succ depth ih =>
    refine inferStep_keeps_any (Node.suits_shallow hw hc.here hsize) (fun u hu => ?_) ?_
    · have := Node.size_lt_of_mem_parts u hu
      exact ih (hw.part hu) (hc.part hu) (by omega) (by omega) u.size_pos
    · rintro _ _ _ _ _ _ _ p _ ⟨hwritten, hflat, hbound⟩
      refine ⟨inferTo_flat hwritten hflat hbound (by omega), fun k hk => ?_, fun _ _ _ _ => trivial⟩
      have := Node.size_lt_of_mem_pathKeys k hk
      exact inferTo_flat (hwritten.pathKeys k hk) (hflat.pathKeys k hk) (by omega) (by omega)

/-- If no compared place holds a conditional statement, inference is not cut off at a depth of twice
the size of the tree. -/
theorem not_cutOff_inferTo (hw : n.Everywhere Node.Written) (hc : n.Everywhere Node.ComparesFlat)
    (hdepth : 2 * n.size ≤ depth) : ¬ CutOff (inferTo depth n) .initial := by
  rintro ⟨σ, h⟩
  have hkeeps : Infers (.comparing (Node.Shallow n.size) False) .any 0 (inferTo depth) n :=
    inferTo_shallow hw hc le_rfl (by omega)
  have hexplained := ((hkeeps _ Session.comparing_initial (Nat.zero_le _)).of_eq_error h).2 _ rfl
  rcases hexplained .depth rfl with ⟨_, hdeep⟩ | ⟨bindings, t, hcircle, _⟩
  · exact hdeep
  · cases hcircle

/-- An inference that says that it went round among bindings did so. -/
theorem circular_of_inferTo (hw : n.Everywhere Node.Written) {bindings : List (String × Ty)}
    {t : Ty} {σ : Session} (h : outcome (inferTo depth n) .initial =
      (.error (.fault (.endless (c := .bindings bindings t))), σ)) :
    (Subst.mk bindings false).Circular t := by
  have hdeep : (Regime.comparing (·.Everywhere Node.Written) True).fault
      (.endless (c := .depth)) := by
    intro c hc
    exact .inl ⟨by injection hc with hc; exact hc.symm, trivial⟩
  have hkeeps : Infers (.comparing (·.Everywhere Node.Written) True) .any 0 (inferTo depth) n :=
    inferTo_keeps hdeep (fun _ _ hp => Node.everywhere_suits_written hp) depth
      (Node.everywhere_suits_written hw)
  have hexplained := ((hkeeps _ Session.comparing_initial (Nat.zero_le _)).of_eq_error h).2 _ rfl
  rcases hexplained _ rfl with ⟨hcircle, _⟩ | ⟨bindings', t', hcircle, hcircular⟩
  · cases hcircle
  · cases hcircle
    exact hcircular

/-- At no depth does the inference of a tree come to an end. -/
def Endless (n : Node) : Prop :=
  ∀ depth, ∃ c σ, outcome (inferTo depth n) .initial = (.error (.fault (.endless (c := c))), σ)

/-- At some depth, the inference of a tree applies a substitution to a type from which the bindings
lead into a circle. -/
def MeetsCircle (n : Node) : Prop :=
  ∃ depth bindings t σ, (Subst.mk bindings false).Circular t ∧
    outcome (inferTo depth n) .initial =
      (.error (.fault (.endless (c := .bindings bindings t))), σ)

lemma outcome_eq_of_le {depth' : Nat} (hle : depth ≤ depth')
    (h : ¬ CutOff (inferTo depth n) .initial) :
    outcome (inferTo depth' n) .initial = outcome (inferTo depth n) .initial :=
  ((inferTo_refines hle n .initial).resolve_left h).symm

/-- A circle that is met at some depth is met at every depth that is great enough. -/
lemma endless_of_meetsCircle (h : MeetsCircle n) : Endless n := by
  obtain ⟨depth, bindings, t, σ, _, h⟩ := h
  have hdeep : ¬ CutOff (inferTo depth n) .initial := by
    rintro ⟨σ', hcut⟩
    rw [h] at hcut
    cases hcut
  intro depth'
  by_cases hcut : CutOff (inferTo depth' n) .initial
  · obtain ⟨σ', hcut⟩ := hcut
    exact ⟨_, σ', hcut⟩
  · refine ⟨.bindings bindings t, σ, ?_⟩
    rcases Nat.le_total depth depth' with hle | hle
    · rw [outcome_eq_of_le hle hdeep, h]
    · rw [← outcome_eq_of_le hle hcut, h]

/-- The inference of a text's tree is endless in one of two ways: it meets a circle among bindings,
or it goes ever deeper. It does not go deeper than twice the size of the tree if no place that is
compared holds a conditional statement. -/
theorem infer_endless_iff {file text : String} (h : parse file text = .ok n) :
    (Endless n ↔ MeetsCircle n ∨ ∀ depth, CutOff (inferTo depth n) .initial) ∧
    (n.Everywhere Node.ComparesFlat → ∀ depth, 2 * n.size ≤ depth →
      ¬ CutOff (inferTo depth n) .initial ∧
        outcome (inferTo depth n) .initial = outcome (Check.infer n) .initial) := by
  have hw := parse_written h
  refine ⟨⟨fun hendless => ?_, ?_⟩, fun hc depth hdepth => ⟨not_cutOff_inferTo hw hc hdepth, ?_⟩⟩
  · by_cases hcut : ∀ depth, CutOff (inferTo depth n) .initial
    · exact .inr hcut
    · push Not at hcut
      obtain ⟨depth, hdepth⟩ := hcut
      obtain ⟨c, σ, hc⟩ := hendless depth
      cases c with
      | depth => exact absurd ⟨σ, hc⟩ hdepth
      | bindings bindings t =>
        exact .inl ⟨depth, bindings, t, σ, circular_of_inferTo hw hc, hc⟩
  · rintro (hcircle | hcut)
    · exact endless_of_meetsCircle hcircle
    · intro depth
      obtain ⟨σ, hσ⟩ := hcut depth
      exact ⟨_, σ, hσ⟩
  · have hinfer : 2 * n.size ≤ Check.depthFor n := Nat.le_add_right _ _
    rcases Nat.le_total depth (Check.depthFor n) with hle | hle
    · exact (outcome_eq_of_le hle (not_cutOff_inferTo hw hc hdepth)).symm
    · exact outcome_eq_of_le hle (not_cutOff_inferTo hw hc hinfer)

/-- Whether a text can be read, with comparisons only between places without conditional
statements. -/
def comparesFlat (file text : String) : Bool :=
  match parse file text with
  | .error _ => false
  | .ok n => n.everywhereTo Node.comparesFlat n.size

set_option maxRecDepth 100000 in
lemma comparesFlat_test : comparesFlat "main.lua" "x=1if x==1then end" = true := by
  decide +kernel

theorem infer_endless_iff_test : ∃ n, parse "main.lua" "x=1if x==1then end" = .ok n ∧
    n.Everywhere Node.ComparesFlat ∧
    (Endless n ↔ MeetsCircle n ∨ ∀ depth, CutOff (inferTo depth n) .initial) ∧
    ∀ depth, 2 * n.size ≤ depth → ¬ CutOff (inferTo depth n) .initial ∧
      outcome (inferTo depth n) .initial = outcome (Check.infer n) .initial := by
  have htest := comparesFlat_test
  unfold comparesFlat at htest
  split at htest
  · cases htest
  · rename_i n hn
    have hflat := Node.everywhere_comparesFlat htest
    exact ⟨n, hn, hflat, (infer_endless_iff hn).1, (infer_endless_iff hn).2 hflat⟩

/-- Whether the inference of a text goes round among bindings. -/
def goesRound (file text : String) : Bool :=
  match parse file text with
  | .error _ => false
  | .ok n =>
    match (outcome (Check.infer n) .initial).1 with
    | .error (.fault (.endless (c := .bindings _ _))) => true
    | _ => false

lemma exists_of_goesRound {file text : String} (h : goesRound file text = true) :
    ∃ n, parse file text = .ok n ∧ MeetsCircle n := by
  unfold goesRound at h
  split at h
  · cases h
  · rename_i n hn
    split at h
    · rename_i bindings t hcircle
      have hinfer : outcome (inferTo (Check.depthFor n) n) .initial =
          (.error (.fault (.endless (c := .bindings bindings t))),
            (outcome (Check.infer n) .initial).2) := Prod.ext hcircle rfl
      exact ⟨n, hn, _, bindings, t, _, circular_of_inferTo (parse_written hn) hinfer, hinfer⟩
    · cases h

set_option maxRecDepth 100000 in
/-- A function is given itself. -/
lemma goesRound_selfCall : goesRound "main.lua" "function f(x)x(x)end" = true := by
  decide +kernel

/-- The inference of a function that is given itself is endless. -/
theorem endless_selfCall : ∃ n, parse "main.lua" "function f(x)x(x)end" = .ok n ∧ Endless n := by
  obtain ⟨n, hn, hcircle⟩ := exists_of_goesRound goesRound_selfCall
  exact ⟨n, hn, endless_of_meetsCircle hcircle⟩

/-- A program whose last statement narrows `t[1 + f()]`, where `f` has a conditional statement with
the same condition: `t = {}`, `t[1 + 1] = 1`, `b = 1 == 1`, `b = t[1 + f()] == 1` and
`if b then end`. -/
def narrowsItself : Node :=
  let one : Node := .number default (.ofNat 1)
  let plus (n : Node) : Node := .binary default one .add n
  let t : Node := .var default "t"
  let b : Node := .var default "b"
  let returnOne : Option Node := some (.returns default [one])
  let body : Node :=
    .chunk default [.branch default b (.chunk default [] returnOne) [] none] returnOne
  let f : Node := .function default [] false body none (.resultNote default none)
  .chunk default
    [.assign default [t] [.table default []],
      .assign default [.index default t (plus one)] [one],
      .assign default [b] [.binary default one .equal one],
      .assign default [b]
        [.binary default (.index default t (plus (.call default f []))) .equal one],
      .branch default b (.chunk default [] none) [] none]
    none

/-- Whether the inference of a tree is cut off. -/
def isCutOff (n : Node) : Bool :=
  match (outcome (Check.infer n) .initial).1 with
  | .error (.fault (.endless (c := .depth))) => true
  | _ => false

lemma cutOff_of_isCutOff (h : isCutOff n = true) : CutOff (Check.infer n) .initial := by
  unfold isCutOff at h
  split at h
  · rename_i hcut
    exact ⟨_, Prod.ext hcut rfl⟩
  · cases h

set_option maxRecDepth 100000 in
/-- To narrow a place that holds a conditional statement, the same place may have to be narrowed. -/
theorem cutOff_narrowsItself : CutOff (Check.infer narrowsItself) .initial :=
  cutOff_of_isCutOff (by decide +kernel)

end Check

end LuaTyping
