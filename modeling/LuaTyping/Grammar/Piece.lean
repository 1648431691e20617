import LuaTyping.Grammar.Terminal
import LuaTyping.Syntax.Tree

/-!
# What the parts of a text mean

The meaning of a part of a program text is a *piece*: a lexeme, a syntax tree, a type, or something
that only a larger part makes a tree of. Each alternative of the grammar has a builder that makes
one piece of the pieces of its parts.

## Main definitions

* `Piece` — the meanings of parts.
* `Builder` — what makes a piece of the pieces of its parts.
* `Piece.ofLexeme` — the piece of a lexeme.
-/

set_option autoImplicit false

namespace LuaTyping

/-- A lexeme and where it stands. -/
structure Token where
  text : String
  location : Location

/-- A field of a table constructor. -/
inductive TableField where
  /-- A value that is counted. -/
  | item (value : Node)
  /-- A value with a name. -/
  | named (name : Token) (value : Node)
  /-- A value with a key. -/
  | keyed (key value : Node)

/-- The parameters of a function. -/
structure Parameters where
  names : List Token
  isVararg : Bool

/-- The meaning of a part of a program text. -/
inductive Piece where
  | token (t : Token)
  | node (n : Node)
  | type (t : Ty)
  | field (f : TableField)
  | parameters (p : Parameters)
  | many (ps : List Piece)

namespace Piece

/-- The tree that a piece is. -/
def node? : Piece → Option Node
  | node n => some n
  | _ => none

/-- The lexeme that a piece is. -/
def token? : Piece → Option Token
  | token t => some t
  | _ => none

/-- The type that a piece is. -/
def type? : Piece → Option Ty
  | type t => some t
  | _ => none

/-- The table field that a piece is. -/
def field? : Piece → Option TableField
  | field f => some f
  | _ => none

/-- The piece of a lexeme. -/
def ofLexeme (t : Terminal) (token : Token) : Option Piece :=
  let l := token.location
  match t with
  | .ellipsis => some (.node (.vararg l))
  | .nil => some (.node (.nil l))
  | .boolean => some (.node (.boolean l (token.text == "true")))
  | .string =>
    let inner := (token.text.toList.drop 1).dropLast
    some (.node (.string l (String.ofList inner)))
  | .number => (Binary64.readWith? Text.digit? token.text).map fun d => .node (.number l d)
  | .primitiveType => some (.type (.con token.text [] none []))
  | .typeVariable => some (.type (.var token.text))
  | _ => some (.token token)

end Piece

/-- Makes one piece of the pieces of the parts, in a file of the given name. -/
abbrev Builder := String → List Piece → Option Piece

namespace Builder

/-! ## Lists -/

/-- The only part. -/
def only : Builder
  | _, [p] => some p
  | _, _ => none

/-- A list of one part. -/
def start : Builder
  | _, [p] => some (.many [p])
  | _, _ => none

/-- A list with one more part. -/
def add : Builder
  | _, [.many ps, p] => some (.many (ps ++ [p]))
  | _, _ => none

/-- A part before a list of parts. -/
def before : Builder
  | _, [p, .many ps] => some (.many (p :: ps))
  | _, _ => none

/-- The empty list. -/
def empty : Builder
  | _, [] => some (.many [])
  | _, _ => none

/-! ## Types and annotations -/

/-- A union of two types. -/
def unionType : Builder
  | _, [.type a, .type b] => some (.type (.union a b))
  | _, _ => none

/-- A tuple of types. -/
def tupleType : Builder
  | _, [.type t] => some (.type (.con "tuple" [t] none []))
  | _, [.type t, .many ps] =>
    (ps.mapM Piece.type?).map fun ts => .type (.con "tuple" (t :: ts) none [])
  | _, _ => none

/-- The annotation of a declaration. -/
def typeNote : Builder
  | file, [.type t] => some (.node (.typeNote (.nowhere file) t))
  | _, _ => none

/-- The annotations of a function, of which the last one counts. -/
def resultNotes : Builder
  | file, [.many ps] =>
    (ps.mapM Piece.type?).map fun ts => .node (.resultNote (.nowhere file) ts.getLast?)
  | file, [] => some (.node (.resultNote (.nowhere file) none))
  | _, _ => none

/-- A request to show a type. -/
def reveal : Builder
  | _, [.node e] => some (.node (.reveal e.location e))
  | _, _ => none

/-! ## Statements -/

/-- A chunk, which stands where its first statement does. -/
def chunkOf (file : String) (statements : List Node) (last : Option Node) : Node :=
  .chunk ((statements.head?.map Node.location).getD (.nowhere file)) statements last

/-- A chunk of statements and a return statement, either of which may be absent. -/
def chunk : Builder
  | file, [] => some (.node (chunkOf file [] none))
  | file, [.node r] => some (.node (chunkOf file [] (some r)))
  | file, [.many ps] => (ps.mapM Piece.node?).map fun ns => .node (chunkOf file ns none)
  | file, [.many ps, .node r] =>
    (ps.mapM Piece.node?).map fun ns => .node (chunkOf file ns (some r))
  | _, _ => none

/-- A conditional statement, which stands where its condition does. -/
def branch : Builder
  | _, [.node c, .node body, .many es] =>
    (es.mapM Piece.node?).map fun es => .node (.branch c.location c body es none)
  | _, [.node c, .node body, .many es, .node o] =>
    (es.mapM Piece.node?).map fun es => .node (.branch c.location c body es (some o))
  | _, _ => none

/-- A further condition of a conditional statement. -/
def elseif : Builder
  | _, [.node c, .node body] => some (.node (.elseif c.location c body))
  | _, _ => none

/-- A return statement, which stands where its first expression does. -/
def returns : Builder
  | file, [] => some (.node (.returns (.nowhere file) []))
  | _, [.many ps] => do
    let es ← ps.mapM Piece.node?
    let first ← es.head?
    return .node (.returns first.location es)
  | _, _ => none

/-- A function, which stands where its first parameter does. -/
def functionOf (file : String) (params : Parameters) (body : Node) (name : Option String)
    (note : Node) : Node :=
  .function ((params.names.head?.map Token.location).getD (.nowhere file))
    (params.names.map Token.text) params.isVararg body name note

/-- A function without a name. -/
def function : Builder
  | file, [.node note, .node body] => some (.node (functionOf file ⟨[], false⟩ body none note))
  | file, [.parameters ps, .node note, .node body] =>
    some (.node (functionOf file ps body none note))
  | _, _ => none

/-- The definition of a function by name, as an assignment. -/
def functionAssign : Builder
  | file, [.token x, .node note, .node body] =>
    some (.node (.assign x.location [.var x.location x.text]
      [functionOf file ⟨[], false⟩ body (some x.text) note]))
  | file, [.token x, .parameters ps, .node note, .node body] =>
    some (.node (.assign x.location [.var x.location x.text]
      [functionOf file ps body (some x.text) note]))
  | _, _ => none

/-- The declaration of a local function. -/
def functionDeclare : Builder
  | file, [.token x, .node note, .node body] =>
    some (.node (.declare x.location [.bare x.text]
      [functionOf file ⟨[], false⟩ body (some x.text) note] none))
  | file, [.token x, .parameters ps, .node note, .node body] =>
    some (.node (.declare x.location [.bare x.text]
      [functionOf file ps body (some x.text) note] none))
  | _, _ => none

/-- Parameters: names, the ellipsis, or both. -/
def parameters : Builder
  | _, [.many ps] => (ps.mapM Piece.token?).map fun ts => .parameters ⟨ts, false⟩
  | _, [.many ps, .node _] => (ps.mapM Piece.token?).map fun ts => .parameters ⟨ts, true⟩
  | _, [.node _] => some (.parameters ⟨[], true⟩)
  | _, _ => none

/-- A plain name that is assigned to. It stands nowhere. -/
def targetName : Builder
  | file, [.token x] => some (.node (.var (.nowhere file) x.text))
  | _, _ => none

/-- An assignment, which stands where its first expression does. -/
def assign : Builder
  | _, [.many ts, .many ps] => do
    let targets ← ts.mapM Piece.node?
    let es ← ps.mapM Piece.node?
    let first ← es.head?
    return .node (.assign first.location targets es)
  | _, _ => none

/-- A local declaration, which stands where its first expression does. -/
def declareOf (names : List Piece) (exprs : List Piece) (note : Option Node) : Option Piece := do
  let xs ← names.mapM Piece.token?
  let es ← exprs.mapM Piece.node?
  let first ← es.head?
  return .node (.declare first.location (xs.map fun x => .bare x.text) es note)

/-- A local declaration with or without an annotation. -/
def declare : Builder
  | _, [.node note, .many xs, .many es] => declareOf xs es (some note)
  | _, [.many xs, .many es] => declareOf xs es none
  | _, _ => none

/-! ## Expressions -/

/-- A property, which is an index expression with a string. -/
def property : Builder
  | _, [.node o, .token x] =>
    some (.node (.index o.location o (.string o.location x.text)))
  | _, _ => none

/-- An index expression. -/
def index : Builder
  | _, [.node o, .node k] => some (.node (.index o.location o k))
  | _, _ => none

/-- A call. -/
def call : Builder
  | _, [.node f, .many ps] => (ps.mapM Piece.node?).map fun args => .node (.call f.location f args)
  | _, _ => none

/-- A field that is counted. -/
def itemField : Builder
  | _, [.node e] => some (.field (.item e))
  | _, _ => none

/-- A field with a name. -/
def namedField : Builder
  | _, [.token x, .node e] => some (.field (.named x e))
  | _, _ => none

/-- A field with a key. -/
def keyedField : Builder
  | _, [.node k, .node e] => some (.field (.keyed k e))
  | _, _ => none

/-- The key and the value of the field with the given number. All fields are numbered, those with a
key of their own too. -/
def fieldPair (number : Nat) : TableField → Node × Node
  | .item e => (.number e.location (Binary64.ofNat number), e)
  | .named x e => (.string x.location x.text, e)
  | .keyed k e => (k, e)

/-- The keys and values of some fields, numbered from the given number on. -/
def fieldPairs (number : Nat) : List TableField → List (Node × Node)
  | [] => []
  | f :: fs => fieldPair number f :: fieldPairs (number + 1) fs

/-- A table constructor, which stands where its first field does. -/
def tableOf (file : String) (fields : List TableField) : Node :=
  let pairs := fieldPairs 1 fields
  .table ((pairs.head?.map fun (k, _) => k.location).getD (.nowhere file)) pairs

/-- A table constructor. -/
def table : Builder
  | file, [] => some (.node (tableOf file []))
  | file, [.field f] => some (.node (tableOf file [f]))
  | file, [.field f, .many ps] =>
    (ps.mapM Piece.field?).map fun fs => .node (tableOf file (f :: fs))
  | _, _ => none

/-- An expression with a binary operator, which stands where its left operand does. -/
def binary : Builder
  | _, [.node a, .token op, .node b] =>
    some (.node (.binary a.location a (.ofText op.text) b))
  | _, _ => none

/-- An expression with a unary operator, which stands where the operator does. -/
def unary : Builder
  | _, [.token op, .node a] => some (.node (.unary op.location (.ofText op.text) a))
  | _, _ => none

/-- A variable. -/
def reference : Builder
  | _, [.token x] => some (.node (.var x.location x.text))
  | _, _ => none

end Builder

end LuaTyping
