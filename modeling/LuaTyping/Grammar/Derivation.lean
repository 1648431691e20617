import LuaTyping.Grammar.Chart

/-!
# Derivations

A derivation says how a text is made up of parts: which alternative stands for each part, down to
the lexemes. A chart holds all derivations of its text. The one that is taken has at each part the
first alternative that fits it.

## Main definitions

* `Derivation` — derivations.
* `Chart.derivation?` — the preferred derivation of a category over a stretch of text.
* `Derivation.piece?` — the meaning of a derivation.
-/

set_option autoImplicit false

namespace LuaTyping

/-- How a stretch of text is made up. -/
inductive Derivation where
  | lexeme (t : Terminal) (span : Span)
  | node (c : Category) (alternative : Nat) (parts : List Derivation)

namespace Chart

/-- The first alternative of a category that fits the stretch of text between two places. -/
def fitting? (chart : Array Column) (c : Category) (start stop : Nat) : Option Nat :=
  (List.range (alternatives c).length).find? fun k =>
    has chart stop ⟨c, k, (((alternatives c)[k]?).map (·.parts.length)).getD 0, start⟩

/-- The places, from the last one back, between two places. -/
def placesBack (start stop : Nat) : List Nat :=
  (List.range (stop - start + 1)).map fun k => stop - k

/-- Where the last found part of an item that stands at `stop` begins: the item without it stands
there, and the part fills the stretch in between. -/
def partStart? (suffix : Nat → List Char) (chart : Array Column) (stop : Nat) (i : Item)
    (part : Part) : Option Nat :=
  let places := if i.found = 1 then [i.origin] else placesBack i.origin stop
  places.find? fun place =>
    has chart place { i with found := i.found - 1 } &&
      match part with
      | .lexeme t => (lexemeAt? t place (suffix place)).any fun span => span.stop == stop
      | .category c => (fitting? chart c place stop).isSome

/-- The stretches of the first `count` parts of an item that stands at a place, with their parts. -/
def partSpans? (suffix : Nat → List Char) (chart : Array Column) (i : Item) :
    Nat → Nat → Option (List (Part × Span))
  | 0, _ => some []
  | count + 1, stop => do
    let part ← i.parts[count]?
    let start ← partStart? suffix chart stop { i with found := count + 1 } part
    let rest ← partSpans? suffix chart i count start
    return rest ++ [(part, ⟨start, stop⟩)]

/-- The preferred derivation of a category over the stretch between two places, to a given depth. -/
def derivation? (suffix : Nat → List Char) (chart : Array Column) :
    Nat → Category → Nat → Nat → Option Derivation
  | 0, _, _, _ => none
  | depth + 1, c, start, stop => do
    let k ← fitting? chart c start stop
    let item : Item := ⟨c, k, 0, start⟩
    let spans ← partSpans? suffix chart item item.parts.length stop
    let parts ← spans.mapM fun (part, span) =>
      match part with
      | .lexeme t => (lexemeAt? t span.start (suffix span.start)).map (.lexeme t)
      | .category d => derivation? suffix chart depth d span.start span.stop
    return .node c k parts

end Chart

/-! ## Meaning -/

/-- The line and the column of a place in a text, both counted from one. -/
def lineColumn (line column : Nat) : List Char → Nat → Nat × Nat
  | _, 0 => (line, column)
  | [], _ => (line, column)
  | c :: cs, n + 1 =>
    if c = '\n' then lineColumn (line + 1) 1 cs n else lineColumn line (column + 1) cs n

namespace Derivation

mutual

/-- The meaning of a derivation in a text. -/
def piece? (file : String) (text : List Char) : Derivation → Option Piece
  | .lexeme t span =>
    let (line, column) := lineColumn 1 1 text span.start
    let lexeme := String.ofList ((text.drop span.start).take (span.stop - span.start))
    Piece.ofLexeme t ⟨lexeme, ⟨file, line, column⟩⟩
  | .node c k parts => do
    let alternative ← (alternatives c)[k]?
    let pieces ← pieces? file text parts
    alternative.build file pieces

/-- The meanings of some derivations, without those of mere marks. -/
def pieces? (file : String) (text : List Char) : List Derivation → Option (List Piece)
  | [] => some []
  | d :: ds => do
    let rest ← pieces? file text ds
    match d with
    | .lexeme (.word _) _ => return rest
    | d => return (← d.piece? file text) :: rest

end

end Derivation

end LuaTyping
