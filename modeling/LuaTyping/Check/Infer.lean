import LuaTyping.Check.Statement

/-!
# Inference

The type of a syntax tree. The inference goes down into the tree; narrowing may send it to an
expression that stands elsewhere in the program, so the recursion is bounded by a depth, which is
higher than any tree of the given size and the paths in it ask for. Where it is used up, the
inference goes round in a circle.

## Main definitions

* `Check.inferStep` — the rule for each kind of tree, given the inference of its parts.
* `Check.infer` — the inference.
* `Check.narrowCondition` — narrowing by the condition of a conditional statement alone.
-/

set_option autoImplicit false

namespace LuaTyping.Check

/-- The rule for each kind of syntax tree. -/
def inferStep (infer : Inference) : Inference
  | .var l x => inferVar l x
  | .nil _ => pure (ofType .nil)
  | .number _ v => pure (ofType (.literal "number" (.number v)))
  | .string _ v => pure (ofType (.literal "string" (.text v)))
  | .boolean _ v => pure (ofType (.literal "boolean" (.flag v)))
  | .table _ fields => inferFields infer .empty [] fields
  | .index l object key => inferIndex infer l object key
  | .vararg l => inferVararg l
  | .unary l op value => inferUnary infer l op value
  | .binary _ left op right => inferBinary infer left op right
  | .function l params isVararg body name note =>
    inferFunction infer l params isVararg body name note
  | .call l callee args => inferCall infer l callee args
  | .declare l names exprs note => inferDeclare infer l names exprs note
  | .assign l targets exprs => inferAssign infer l targets exprs
  | .returns _ exprs => inferReturn infer exprs
  | .branch l condition body _ otherwise => inferBranch infer l condition body otherwise
  | .reveal l expr => inferReveal infer l expr
  | .chunk l statements last => inferChunk infer l statements last
  | n => fault (.notImplemented n.kind)

/-- Inference by recursion to a given depth. -/
def inferTo : Nat → Inference
  | 0, _ => fault (.endless (c := .depth))
  | depth + 1, n => inferStep (inferTo depth) n

/-- A depth that no inference of a tree needs, unless it goes round in a circle. -/
def depthFor (n : Node) : Nat := 2 * n.size + 1000

/-- Infers the type of a syntax tree. -/
def infer (n : Node) : Check Inferred := inferTo (depthFor n) n

/-- Assigns a type to an index expression. -/
def setPath (target : Node) (value : Ty) : Check Unit :=
  assignPath (inferTo (depthFor target)) target value

/-- Narrows by the condition of a conditional statement alone, in the scope at hand. -/
def narrowCondition (l : Location) (condition : Node) : Check Unit :=
  narrowByTest (inferTo (depthFor condition)) l condition

end LuaTyping.Check
