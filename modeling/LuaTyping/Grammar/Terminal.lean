import LuaTyping.Text.CharClass

/-!
# Terminals

The kinds of lexemes of the language. A terminal has at most one lexeme at a place of the text, the
longest there. Lexemes need not be set apart: a keyword may be followed directly by a letter, and
whether a text is a keyword or a name is for the grammar to say. Only a name may not begin with
`return`.

## Main definitions

* `Terminal` — the terminals.
* `Terminal.lexeme?` — the length of a terminal's lexeme at the front of a text.
-/

set_option autoImplicit false

namespace LuaTyping

/-- A kind of lexeme. -/
inductive Terminal where
  /-- A keyword or a punctuation mark. -/
  | word (spelling : String)
  | primitiveType
  | typeVariable
  | ellipsis
  | logicOp
  | equalityOp
  | relationOp
  | additiveOp
  | multiplicativeOp
  | powerOp
  | unaryOp
  | nil
  | boolean
  | string
  | number
  | name
  deriving DecidableEq, Repr

namespace Terminal

/-- The length of the first of some spellings that a text begins with. -/
def spelled (cs : List Char) : List String → Option Nat
  | [] => none
  | s :: rest => if s.toList.isPrefixOf cs then some s.length else spelled cs rest

/-- The number of characters at the front of a text that pass a test. -/
def run (test : Char → Bool) : List Char → Nat
  | [] => 0
  | c :: cs => if test c then run test cs + 1 else 0

/-- The length of the rest of a quoted string, the closing quote included. A backslash takes the
next character with it, which is not the end of a line. -/
def quotedRest : List Char → Option Nat
  | [] => none
  | '"' :: _ => some 1
  | '\\' :: c :: cs => if c = '\n' then none else (quotedRest cs).map (· + 2)
  | '\\' :: [] => none
  | _ :: cs => (quotedRest cs).map (· + 1)

/-- The length of the digits of a number: some digits, and a point with more digits if there are
any. -/
def digits (cs : List Char) : Option Nat :=
  let whole := run Text.isDigit cs
  if whole = 0 then none
  else
    match cs.drop whole with
    | '.' :: rest =>
      let fraction := run Text.isDigit rest
      some (if fraction = 0 then whole else whole + 1 + fraction)
    | _ => some whole

/-- The length of a name at the front of a text. -/
def nameLength : List Char → Option Nat
  | [] => none
  | c :: cs => if Text.startsName c then some (run Text.isWord cs + 1) else none

/-- The length of a terminal's lexeme at the front of a text. -/
def lexeme? (t : Terminal) (cs : List Char) : Option Nat :=
  match t with
  | word s => spelled cs [s]
  | primitiveType => spelled cs ["boolean", "number", "string", "nil"]
  | typeVariable =>
    match cs with
    | '\'' :: rest => (nameLength rest).map (· + 1)
    | _ => none
  | ellipsis => spelled cs ["..."]
  | logicOp => spelled cs ["and", "or"]
  | equalityOp => spelled cs ["==", "~="]
  | relationOp => spelled cs ["<=", ">=", "<", ">"]
  | additiveOp => spelled cs ["..", "+", "-"]
  | multiplicativeOp => spelled cs ["*", "/", "%"]
  | powerOp => spelled cs ["^"]
  | unaryOp => spelled cs ["not", "-", "#"]
  | nil => spelled cs ["nil"]
  | boolean => spelled cs ["true", "false"]
  | string =>
    match cs with
    | '"' :: rest => (quotedRest rest).map (· + 1)
    | _ => none
  | number =>
    match cs with
    | '-' :: rest => (digits rest).map (· + 1)
    | _ => digits cs
  | name => if (spelled cs ["return"]).isSome then none else nameLength cs

/-- Whether the lexeme of a terminal is only a mark: it has no part in the tree. -/
def isMark : Terminal → Bool
  | word _ => true
  | _ => false

end Terminal

end LuaTyping
