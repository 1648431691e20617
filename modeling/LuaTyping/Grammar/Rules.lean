import LuaTyping.Grammar.Piece

/-!
# The grammar

The categories of program parts and the alternatives of each. The order of alternatives matters:
where a text can be read in several ways, the first alternative of a category that fits the whole
stretch of text is taken, from the outermost part inwards. So `-1` is a minus sign before a number,
and `true` is a truth value and no variable.

## Main definitions

* `Category` — the categories.
* `alternatives` — the alternatives of a category.
* `Category.nullable` — the categories that the empty text belongs to.
-/

set_option autoImplicit false

namespace LuaTyping

/-- A category of parts of a program text. -/
inductive Category where
  | program | type | typeVariable | tupleType
  | chunk | statement | branch | elseifs | elseif | otherwise | last | returns
  | functionAssign | functionDeclare | function | parameters | resultNotes | resultNote | resultType
  | assign | targets | target | reveal | typeNote | declare
  | exprs | names | property | index | call | args | table | field
  | expr | logic | equality | relation | sum | product | power | unary | atom | primary
  | moreTypes | statements | moreElseifs | moreNotes | moreTargets | moreExprs | moreNames
  | moreFields
  deriving DecidableEq, Repr

/-- A part of an alternative. -/
inductive Part where
  | lexeme (t : Terminal)
  | category (c : Category)
  deriving DecidableEq, Repr

/-- One way to make up a part of a category. -/
structure Alternative where
  parts : List Part
  build : Builder

open Builder

/-- A keyword or punctuation mark as a part. -/
def mark (s : String) : Part := .lexeme (.word s)

/-- The alternatives of a category, in the order of preference. -/
def alternatives : Category → List Alternative
  | .program => [⟨[.category .chunk], only⟩]
  | .type =>
    [⟨[.lexeme .primitiveType], only⟩,
     ⟨[.category .typeVariable], only⟩,
     ⟨[.category .type, mark "|", .category .type], unionType⟩]
  | .typeVariable => [⟨[.lexeme .typeVariable], only⟩]
  | .tupleType =>
    [⟨[.category .type, .category .moreTypes], tupleType⟩,
     ⟨[.category .type], tupleType⟩]
  | .chunk =>
    [⟨[.category .statements, .category .last], chunk⟩,
     ⟨[.category .statements], chunk⟩,
     ⟨[.category .last], chunk⟩,
     ⟨[], chunk⟩]
  | .statement =>
    [⟨[.category .declare], only⟩,
     ⟨[.category .functionDeclare], only⟩,
     ⟨[.category .assign], only⟩,
     ⟨[.category .functionAssign], only⟩,
     ⟨[.category .branch], only⟩,
     ⟨[.category .call], only⟩,
     ⟨[.category .reveal], only⟩]
  | .branch =>
    [⟨[mark "if", .category .expr, mark "then", .category .chunk, .category .elseifs,
       .category .otherwise, mark "end"], branch⟩,
     ⟨[mark "if", .category .expr, mark "then", .category .chunk, .category .elseifs,
       mark "end"], branch⟩]
  | .elseifs =>
    [⟨[.category .moreElseifs], only⟩,
     ⟨[], empty⟩]
  | .elseif => [⟨[mark "elseif", .category .expr, mark "then", .category .chunk], elseif⟩]
  | .otherwise => [⟨[mark "else", .category .chunk], only⟩]
  | .last => [⟨[.category .returns], only⟩]
  | .returns =>
    [⟨[mark "return", .category .exprs], returns⟩,
     ⟨[mark "return"], returns⟩]
  | .functionAssign =>
    [⟨[mark "function", .lexeme .name, mark "(", .category .parameters, mark ")",
       .category .resultNotes, .category .chunk, mark "end"], functionAssign⟩,
     ⟨[mark "function", .lexeme .name, mark "(", mark ")",
       .category .resultNotes, .category .chunk, mark "end"], functionAssign⟩]
  | .functionDeclare =>
    [⟨[mark "local", mark "function", .lexeme .name, mark "(", .category .parameters, mark ")",
       .category .resultNotes, .category .chunk, mark "end"], functionDeclare⟩,
     ⟨[mark "local", mark "function", .lexeme .name, mark "(", mark ")",
       .category .resultNotes, .category .chunk, mark "end"], functionDeclare⟩]
  | .function =>
    [⟨[mark "function", mark "(", .category .parameters, mark ")",
       .category .resultNotes, .category .chunk, mark "end"], function⟩,
     ⟨[mark "function", mark "(", mark ")",
       .category .resultNotes, .category .chunk, mark "end"], function⟩]
  | .parameters =>
    [⟨[.category .names, mark ",", .lexeme .ellipsis], parameters⟩,
     ⟨[.category .names], parameters⟩,
     ⟨[.lexeme .ellipsis], parameters⟩]
  | .resultNotes =>
    [⟨[.category .moreNotes], resultNotes⟩,
     ⟨[], resultNotes⟩]
  | .resultNote => [⟨[.category .resultType], only⟩]
  | .resultType => [⟨[mark "--", mark "@return", .category .tupleType], only⟩]
  | .assign => [⟨[.category .targets, mark "=", .category .exprs], assign⟩]
  | .targets =>
    [⟨[.category .target, .category .moreTargets], before⟩,
     ⟨[.category .target], start⟩]
  | .target =>
    [⟨[.lexeme .name], targetName⟩,
     ⟨[.category .property], only⟩,
     ⟨[.category .index], only⟩]
  | .reveal => [⟨[mark "--", mark "@reveal", .category .expr], reveal⟩]
  | .typeNote => [⟨[mark "--", mark "@type", .category .tupleType], typeNote⟩]
  | .declare =>
    [⟨[.category .typeNote, mark "local", .category .names, mark "=", .category .exprs],
      declare⟩,
     ⟨[mark "local", .category .names, mark "=", .category .exprs], declare⟩]
  | .exprs =>
    [⟨[.category .expr, .category .moreExprs], before⟩,
     ⟨[.category .expr], start⟩]
  | .names =>
    [⟨[.lexeme .name, .category .moreNames], before⟩,
     ⟨[.lexeme .name], start⟩]
  | .property => [⟨[.category .primary, mark ".", .lexeme .name], property⟩]
  | .index => [⟨[.category .primary, mark "[", .category .expr, mark "]"], index⟩]
  | .call => [⟨[.category .primary, .category .args], call⟩]
  | .args =>
    [⟨[mark "(", .category .expr, .category .moreExprs, mark ")"], before⟩,
     ⟨[mark "(", .category .expr, mark ")"], start⟩,
     ⟨[mark "(", mark ")"], empty⟩]
  | .table =>
    [⟨[mark "\x7b", .category .field, .category .moreFields, mark ",", mark "\x7d"], table⟩,
     ⟨[mark "\x7b", .category .field, .category .moreFields, mark "\x7d"], table⟩,
     ⟨[mark "\x7b", .category .field, mark ",", mark "\x7d"], table⟩,
     ⟨[mark "\x7b", .category .field, mark "\x7d"], table⟩,
     ⟨[mark "\x7b", mark "\x7d"], table⟩]
  | .field =>
    [⟨[.category .expr], itemField⟩,
     ⟨[.lexeme .name, mark "=", .category .expr], namedField⟩,
     ⟨[mark "[", .category .expr, mark "]", mark "=", .category .expr], keyedField⟩]
  | .expr =>
    [⟨[.category .logic], only⟩,
     ⟨[.category .function], only⟩,
     ⟨[.lexeme .ellipsis], only⟩]
  | .logic =>
    [⟨[.category .logic, .lexeme .logicOp, .category .equality], binary⟩,
     ⟨[.category .equality], only⟩]
  | .equality =>
    [⟨[.category .equality, .lexeme .equalityOp, .category .relation], binary⟩,
     ⟨[.category .relation], only⟩]
  | .relation =>
    [⟨[.category .relation, .lexeme .relationOp, .category .sum], binary⟩,
     ⟨[.category .sum], only⟩]
  | .sum =>
    [⟨[.category .sum, .lexeme .additiveOp, .category .product], binary⟩,
     ⟨[.category .product], only⟩]
  | .product =>
    [⟨[.category .product, .lexeme .multiplicativeOp, .category .power], binary⟩,
     ⟨[.category .power], only⟩]
  | .power =>
    [⟨[.category .power, .lexeme .powerOp, .category .unary], binary⟩,
     ⟨[.category .unary], only⟩]
  | .unary =>
    [⟨[.lexeme .unaryOp, .category .unary], unary⟩,
     ⟨[.category .atom], only⟩]
  | .atom =>
    [⟨[.lexeme .number], only⟩,
     ⟨[.lexeme .string], only⟩,
     ⟨[.lexeme .boolean], only⟩,
     ⟨[.lexeme .nil], only⟩,
     ⟨[.category .table], only⟩,
     ⟨[.category .primary], only⟩]
  | .primary =>
    [⟨[.lexeme .name], reference⟩,
     ⟨[.category .property], only⟩,
     ⟨[.category .index], only⟩,
     ⟨[.category .call], only⟩,
     ⟨[mark "(", .category .expr, mark ")"], only⟩]
  | .moreTypes =>
    [⟨[mark ",", .category .type], start⟩,
     ⟨[.category .moreTypes, mark ",", .category .type], add⟩]
  | .statements =>
    [⟨[.category .statement], start⟩,
     ⟨[.category .statements, .category .statement], add⟩]
  | .moreElseifs =>
    [⟨[.category .elseif], start⟩,
     ⟨[.category .moreElseifs, .category .elseif], add⟩]
  | .moreNotes =>
    [⟨[.category .resultNote], start⟩,
     ⟨[.category .moreNotes, .category .resultNote], add⟩]
  | .moreTargets =>
    [⟨[mark ",", .category .target], start⟩,
     ⟨[.category .moreTargets, mark ",", .category .target], add⟩]
  | .moreExprs =>
    [⟨[mark ",", .category .expr], start⟩,
     ⟨[.category .moreExprs, mark ",", .category .expr], add⟩]
  | .moreNames =>
    [⟨[mark ",", .lexeme .name], start⟩,
     ⟨[.category .moreNames, mark ",", .lexeme .name], add⟩]
  | .moreFields =>
    [⟨[mark ",", .category .field], start⟩,
     ⟨[.category .moreFields, mark ",", .category .field], add⟩]

/-- The categories that the empty text belongs to. -/
def Category.nullable : Category → Bool
  | .program | .chunk | .elseifs | .resultNotes => true
  | _ => false

end LuaTyping
