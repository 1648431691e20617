import LuaTyping.Grammar.Rules

/-!
# Charts

A chart records, for each place of a text, the alternatives that are under way there: where each of
them began and how many of its parts have been found. It is filled from left to right. At each place
the alternatives that may begin there are entered, finished ones advance those that waited for them,
and the lexemes that are wanted are looked for; blanks before a lexeme are skipped.

## Main definitions

* `Item` — an alternative under way.
* `Chart` — a chart.
* `lexemeAt?` — the lexeme of a terminal at a place, after blanks.
* `Chart.ofText` — the chart of a text.
* `Chart.reach` — how far the text can be read at all.
-/

set_option autoImplicit false

namespace LuaTyping

/-- An alternative of a category under way: where it began and how many of its parts have been
found. -/
structure Item where
  category : Category
  alternative : Nat
  found : Nat
  origin : Nat
  deriving DecidableEq, Repr

namespace Item

/-- The parts of the alternative of an item. -/
def parts (i : Item) : List Part :=
  (((alternatives i.category)[i.alternative]?).map (·.parts)).getD []

/-- The part that an item waits for. -/
def next? (i : Item) : Option Part := i.parts[i.found]?

/-- An item with one more part found. -/
def advance (i : Item) : Item := { i with found := i.found + 1 }

/-- Whether all parts of an item have been found. -/
def isComplete (i : Item) : Bool := i.next?.isNone

/-- Whether an item waits for a category. -/
def awaits (c : Category) (i : Item) : Bool :=
  match i.next? with
  | some (.category d) => c == d
  | _ => false

/-- The items of all alternatives of a category that begin at a place. -/
def starts (c : Category) (place : Nat) : List Item :=
  (List.range (alternatives c).length).map fun k => ⟨c, k, 0, place⟩

end Item

/-- The items at one place. -/
abbrev Column := List Item

/-- A chart: the columns of the places from the beginning of a text on, and how far the text can be
read at all. -/
structure Chart where
  columns : Array Column
  reach : Nat

/-- Where a lexeme stands. -/
structure Span where
  start : Nat
  stop : Nat
  deriving DecidableEq, Repr

/-- The place after the blanks at the front of a text that begins at a place, and the text there. -/
def skipBlanks (place : Nat) : List Char → Nat × List Char
  | [] => (place, [])
  | c :: cs => if Text.isBlank c then skipBlanks (place + 1) cs else (place, c :: cs)

/-- The lexeme of a terminal in a text that begins at a place, blanks before it being skipped. -/
def lexemeAt? (t : Terminal) (place : Nat) (cs : List Char) : Option Span :=
  let (start, rest) := skipBlanks place cs
  (t.lexeme? rest).map fun n => ⟨start, start + n⟩

namespace Chart

/-- The column of a place. -/
def column (chart : Array Column) (place : Nat) : Column := (chart[place]?).getD []

/-- The items that follow from one at a place: the beginnings of the category that it waits for,
which it passes over where that may be empty, or those that a finished item advances. -/
def consequences (chart : Array Column) (place : Nat) (i : Item) : List Item :=
  match i.next? with
  | some (.category c) =>
    if c.nullable then i.advance :: Item.starts c place else Item.starts c place
  | some (.lexeme _) => []
  | none =>
    if i.origin < place then
      ((column chart i.origin).filter (Item.awaits i.category)).map Item.advance
    else []

/-- Closes a column under its consequences, with at most `fuel` more items. -/
def close (chart : Array Column) (place : Nat) : Nat → List Item → Column → Column
  | 0, _, col => col
  | fuel + 1, todo, col =>
    match todo.dropWhile (col.contains ·) with
    | [] => col
    | i :: rest => close chart place fuel (consequences chart place i ++ rest) (i :: col)

/-- The number of items that can stand in the column of a place. -/
def columnBound (place : Nat) : Nat := 400 * (place + 1)

/-- A chart being filled: its columns so far, the items that arrive at each later place, and how far
the text can be read. -/
structure Progress where
  columns : Array Column
  arrivals : Array (List Item)
  reach : Nat

/-- Looks for the lexeme that an item waits for, and lets the item arrive behind it. -/
def scan (place : Nat) (cs : List Char) (p : Progress) (i : Item) : Progress :=
  match i.next? with
  | some (.lexeme t) =>
    match lexemeAt? t place cs with
    | some span =>
      { p with
        arrivals := p.arrivals.modify span.stop (i.advance :: ·)
        reach := max p.reach span.stop }
    | none => p
  | _ => p

/-- Fills the column of the next place. Blanks at a place that is reached can be read over. -/
def step (cs : List Char) (p : Progress) : Progress :=
  let place := p.columns.size
  match (p.arrivals[place]?).getD [] with
  | [] => { p with columns := p.columns.push [] }
  | seeds =>
    let col := close p.columns place (columnBound place) seeds []
    let p := { p with
      columns := p.columns.push col
      reach := max p.reach (skipBlanks place cs).1 }
    col.foldl (scan place cs) p

/-- Fills the columns of all places of a text from the next one on. -/
def fill (p : Progress) : List Char → Progress
  | [] => step [] p
  | c :: cs => fill (step (c :: cs) p) cs

/-- The chart of a text. -/
def ofText (cs : List Char) : Chart :=
  let arrivals := (Array.replicate (cs.length + 1) []).modify 0 fun _ => Item.starts .program 0
  let p := fill ⟨#[], arrivals, 0⟩ cs
  ⟨p.columns, p.reach⟩

/-- Whether an item stands in the column of a place. -/
def has (chart : Array Column) (place : Nat) (i : Item) : Bool := (column chart place).contains i

end Chart

end LuaTyping
