/-!
# Operators

The unary and binary operators of the language. A tree that was not read from a text may hold an
operator that the language does not have; it is kept as its spelling.

## Main definitions

* `UnaryOp`, `BinaryOp` — the operators.
* `BinaryOp.Family` — what an operator asks of its operands.
-/

set_option autoImplicit false

namespace LuaTyping

/-- An operator with one operand. -/
inductive UnaryOp where
  | negate
  | length
  | not
  | other (spelling : String)
  deriving DecidableEq, Repr

namespace UnaryOp

/-- The spelling of an operator. -/
def text : UnaryOp → String
  | negate => "-"
  | length => "#"
  | not => "not"
  | other s => s

/-- The operator with a given spelling. -/
def ofText (s : String) : UnaryOp :=
  match s with
  | "-" => negate
  | "#" => length
  | "not" => not
  | _ => other s

end UnaryOp

/-- An operator with two operands. -/
inductive BinaryOp where
  | add | subtract | multiply | divide | modulo | power
  | less | greater | lessEqual | greaterEqual
  | concat
  | equal | notEqual
  | and | or
  | other (spelling : String)
  deriving DecidableEq, Repr

namespace BinaryOp

/-- The spelling of an operator. -/
def text : BinaryOp → String
  | add => "+"
  | subtract => "-"
  | multiply => "*"
  | divide => "/"
  | modulo => "%"
  | power => "^"
  | less => "<"
  | greater => ">"
  | lessEqual => "<="
  | greaterEqual => ">="
  | concat => ".."
  | equal => "=="
  | notEqual => "~="
  | and => "and"
  | or => "or"
  | other s => s

/-- The operator with a given spelling. -/
def ofText (s : String) : BinaryOp :=
  match s with
  | "+" => add
  | "-" => subtract
  | "*" => multiply
  | "/" => divide
  | "%" => modulo
  | "^" => power
  | "<" => less
  | ">" => greater
  | "<=" => lessEqual
  | ">=" => greaterEqual
  | ".." => concat
  | "==" => equal
  | "~=" => notEqual
  | "and" => and
  | "or" => or
  | _ => other s

/-- What a binary operator asks of its operands and gives back. -/
inductive Family where
  /-- Two numbers to a number. -/
  | arithmetic
  /-- Two numbers to a boolean. -/
  | ordering
  /-- Two strings to a string. -/
  | joining
  /-- Any two values to a boolean that remembers what was compared. -/
  | comparison
  /-- Two booleans to a boolean that remembers what both compared. -/
  | connective
  deriving DecidableEq, Repr

/-- The family of an operator; an operator that the language does not have is in none. -/
def family? : BinaryOp → Option Family
  | add | subtract | multiply | divide | modulo | power => some .arithmetic
  | less | greater | lessEqual | greaterEqual => some .ordering
  | concat => some .joining
  | equal | notEqual => some .comparison
  | and | or => some .connective
  | other _ => none

end BinaryOp

end LuaTyping
