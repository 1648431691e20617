import LuaTyping.Syntax.Literal
import LuaTyping.Syntax.Location
import LuaTyping.Syntax.Operator

/-!
# Types and syntax trees

Types and syntax trees are defined together, since each may hold the other: an annotation in a
program is a type, and a boolean type remembers, as *checks*, the expressions that were compared and
the types they were compared with. A condition narrows its variables by these checks.

## Main definitions

* `Ty` — the types.
* `Node` — the syntax trees.
* `Node.location` — where a tree stands in its text.
-/

set_option autoImplicit false

namespace LuaTyping

/-- A name in a local declaration. A declaration made by hand may give a variable in place of a bare
name; such a variable can be waited for but not bound. -/
inductive DeclaredName where
  | bare (name : String)
  | variable (location : Location) (name : String)
  deriving DecidableEq, Repr

mutual

/-- A type. -/
inductive Ty where
  /-- A type variable. -/
  | var (name : String)
  /-- A constructor applied to types. A function has three arguments: the tuple of its parameters,
  its result, and the type of its variable arguments. -/
  | con (name : String) (args : List Ty) (value : Option Literal) (checks : List (Node × Ty))
  /-- A table with the types of its keys and values. -/
  | table (fields : List (Ty × Ty))
  /-- A value of one of two types. -/
  | union (left right : Ty)
  /-- A type that holds for every type in place of a variable. -/
  | all (name : String) (body : Ty)

/-- A syntax tree. -/
inductive Node where
  | var (location : Location) (name : String)
  | nil (location : Location)
  | vararg (location : Location)
  | number (location : Location) (value : Binary64)
  | boolean (location : Location) (value : Bool)
  | string (location : Location) (value : String)
  | table (location : Location) (fields : List (Node × Node))
  | unary (location : Location) (op : UnaryOp) (value : Node)
  | binary (location : Location) (left : Node) (op : BinaryOp) (right : Node)
  | call (location : Location) (callee : Node) (args : List Node)
  | index (location : Location) (object key : Node)
  | function (location : Location) (params : List String) (isVararg : Bool) (body : Node)
      (name : Option String) (note : Node)
  | declare (location : Location) (names : List DeclaredName) (exprs : List Node)
      (note : Option Node)
  | assign (location : Location) (targets exprs : List Node)
  | returns (location : Location) (exprs : List Node)
  | branch (location : Location) (condition body : Node) (elseifs : List Node)
      (otherwise : Option Node)
  | elseif (location : Location) (condition body : Node)
  | chunk (location : Location) (statements : List Node) (last : Option Node)
  | reveal (location : Location) (expr : Node)
  | typeNote (location : Location) (types : Ty)
  | resultNote (location : Location) (type : Option Ty)

end

/-- An expression that was compared, with the type that it was compared with. -/
abbrev Checked := Node × Ty

instance : Inhabited Ty := ⟨.table []⟩
instance : Inhabited Node := ⟨.nil default⟩

namespace Node

/-- Where a tree stands in its text. -/
def location : Node → Location
  | var l _ | nil l | vararg l | number l _ | boolean l _ | string l _ | table l _ | unary l _ _
  | binary l _ _ _ | call l _ _ | index l _ _ | function l _ _ _ _ _ | declare l _ _ _
  | assign l _ _ | returns l _ | branch l _ _ _ _ | elseif l _ _ | chunk l _ _ | reveal l _
  | typeNote l _ | resultNote l _ => l

/-- The name of the kind of a tree. -/
def kind : Node → String
  | var .. => "Var"
  | nil .. => "Nil"
  | vararg .. => "Vararg"
  | number .. => "Number"
  | boolean .. => "Boolean"
  | string .. => "String"
  | table .. => "Table"
  | unary .. => "UnaryExpr"
  | binary .. => "BinaryExpr"
  | call .. => "FuncCall"
  | index .. => "IndexExpr"
  | function .. => "FuncExpr"
  | declare .. => "VarDecl"
  | assign .. => "VarAssign"
  | returns .. => "ReturnStmt"
  | branch .. => "IfStmt"
  | elseif .. => "ElseifStmt"
  | chunk .. => "Chunk"
  | reveal .. => "RevealAnnotation"
  | typeNote .. => "VarAnnotation"
  | resultNote .. => "FuncAnnotation"

/-- Whether a tree is a variable or an index expression, the forms whose type a condition can
narrow. -/
def isPlace : Node → Bool
  | var .. | index .. => true
  | _ => false

end Node

/-! ## Sizes -/

mutual

/-- The number of nodes of a syntax tree. -/
def Node.size : Node → Nat
  | .table _ fields => Node.sizePairs fields + 1
  | .unary _ _ value => value.size + 1
  | .binary _ left _ right => left.size + right.size + 1
  | .call _ callee args => callee.size + Node.sizeList args + 1
  | .index _ object key => object.size + key.size + 1
  | .function _ _ _ body _ _ => body.size + 1
  | .declare _ _ exprs _ => Node.sizeList exprs + 1
  | .assign _ targets exprs => Node.sizeList targets + Node.sizeList exprs + 1
  | .returns _ exprs => Node.sizeList exprs + 1
  | .branch _ condition body elseifs otherwise =>
    condition.size + body.size + Node.sizeList elseifs + Node.sizeOption otherwise + 1
  | .elseif _ condition body => condition.size + body.size + 1
  | .chunk _ statements last => Node.sizeList statements + Node.sizeOption last + 1
  | .reveal _ expr => expr.size + 1
  | _ => 1

/-- The number of nodes of some trees. -/
def Node.sizeList : List Node → Nat
  | [] => 0
  | n :: ns => n.size + Node.sizeList ns

/-- The number of nodes of some pairs of trees. -/
def Node.sizePairs : List (Node × Node) → Nat
  | [] => 0
  | (k, v) :: rest => k.size + v.size + Node.sizePairs rest

/-- The number of nodes of a tree that may be absent. -/
def Node.sizeOption : Option Node → Nat
  | none => 0
  | some n => n.size

end

end LuaTyping
