import L20n.Tree

/-!
Nodes: any part of a tree, with its kind and its children.  The outline of a
node keeps only the kinds, nested as the parts are.
-/

namespace L20n

inductive Kind where
  | resource
  | plain
  | complex
  | macroDef
  | string
  | parts
  | text
  | placeholder
  | array
  | object
  | number
  | value
  | name
  | paren
  | attr
  | attrAt
  | prop
  | propAt
  | call
  | unary
  | binary
  | logical
  | conditional
  deriving DecidableEq, Repr

def Kind.label : Kind → String
  | resource => "Resource"
  | plain => "PlainValue"
  | complex => "ComplexEntity"
  | macroDef => "Macro"
  | string => "StringValue"
  | parts => "StringParts"
  | text => "TextSegment"
  | placeholder => "Placeholder"
  | array => "ArrayValue"
  | object => "ObjectValue"
  | number => "NumberLiteral"
  | value => "ValueLiteral"
  | name => "Identifier"
  | paren => "ParenthesizedExpression"
  | attr => "AttributeAccess"
  | attrAt => "IndexAttributeAccess"
  | prop => "PropertyAccess"
  | propAt => "IndexPropertyAccess"
  | call => "CallExpression"
  | unary => "UnaryExpression"
  | binary => "BinaryExpression"
  | logical => "LogicalExpression"
  | conditional => "ConditionalExpression"

inductive Node where
  | resource (r : Resource)
  | entry (e : Entry)
  | value (v : Value)
  | segment (s : Segment)
  | expr (e : Expr)

def Segment.kind : Segment → Kind
  | text _ => .text
  | placeholder _ => .placeholder

def Value.kind : Value → Kind
  | string _ => .string
  | parts _ => .parts
  | array _ => .array
  | object _ => .object

def Expr.kind : Expr → Kind
  | number _ => .number
  | value _ => .value
  | name _ => .name
  | paren _ => .paren
  | attr .. => .attr
  | attrAt .. => .attrAt
  | prop .. => .prop
  | propAt .. => .propAt
  | call .. => .call
  | unary .. => .unary
  | binary .. => .binary
  | logical .. => .logical
  | conditional .. => .conditional

def Entry.kind : Entry → Kind
  | plain _ => .plain
  | complex .. => .complex
  | macroDef .. => .macroDef

namespace Node

def kind : Node → Kind
  | resource _ => .resource
  | entry e => e.kind
  | value v => v.kind
  | segment s => s.kind
  | expr e => e.kind

def ofMembers (table : List (String × Value)) : List Node :=
  table.map fun (_, v) => value v

def ofValue : Value → List Node
  | .string _ => []
  | .parts segments => segments.map segment
  | .array items => items.map value
  | .object members => ofMembers members

def ofExpr : Expr → List Node
  | .number _ | .name _ => []
  | .value v => [value v]
  | .paren e => [expr e]
  | .attr base _ | .prop base _ => [expr base]
  | .attrAt base index | .propAt base index => [expr base, expr index]
  | .call base arguments => expr base :: arguments.map expr
  | .unary _ operand => [expr operand]
  | .binary _ left right | .logical _ left right => [expr left, expr right]
  | .conditional test consequent alternate =>
    [expr test, expr consequent, expr alternate]

def ofEntry : Entry → List Node
  | .plain v => v.toList.map value
  | .complex index v attributes =>
    (index.getD []).map expr ++ v.toList.map value
      ++ ofMembers (attributes.getD [])
  | .macroDef params body => params.map expr ++ [expr body]

/-- The direct parts of a node, in the order of the source. -/
def children : Node → List Node
  | resource r => r.entries.map fun (_, e) => entry e
  | entry e => ofEntry e
  | value v => ofValue v
  | segment _ => []
  | expr e => ofExpr e

end Node

/-- A kind with the outlines of the parts below it. -/
inductive Outline where
  | node (kind : Kind) (children : List Outline)

def Segment.outline (segment : Segment) : Outline :=
  .node segment.kind []

mutual

def Value.outline : Value → Outline
  | .string _ => .node .string []
  | .parts segments => .node .parts (segments.map Segment.outline)
  | .array items => .node .array (valueOutlines items)
  | .object members => .node .object (memberOutlines members)

def valueOutlines : List Value → List Outline
  | [] => []
  | v :: rest => v.outline :: valueOutlines rest

def memberOutlines : List (String × Value) → List Outline
  | [] => []
  | (_, v) :: rest => v.outline :: memberOutlines rest

end

mutual

def Expr.outline : Expr → Outline
  | .number _ => .node .number []
  | .value v => .node .value [v.outline]
  | .name _ => .node .name []
  | .paren e => .node .paren [e.outline]
  | .attr base _ => .node .attr [base.outline]
  | .attrAt base index => .node .attrAt [base.outline, index.outline]
  | .prop base _ => .node .prop [base.outline]
  | .propAt base index => .node .propAt [base.outline, index.outline]
  | .call base arguments => .node .call (base.outline :: exprOutlines arguments)
  | .unary _ operand => .node .unary [operand.outline]
  | .binary _ left right => .node .binary [left.outline, right.outline]
  | .logical _ left right => .node .logical [left.outline, right.outline]
  | .conditional test consequent alternate =>
    .node .conditional [test.outline, consequent.outline, alternate.outline]

def exprOutlines : List Expr → List Outline
  | [] => []
  | e :: rest => e.outline :: exprOutlines rest

end

def Entry.outline : Entry → Outline
  | .plain v => .node .plain (v.toList.map Value.outline)
  | .complex index v attributes =>
    .node .complex ((index.getD []).map Expr.outline
      ++ v.toList.map Value.outline
      ++ (attributes.getD []).map fun (_, v) => v.outline)
  | .macroDef params body =>
    .node .macroDef (params.map Expr.outline ++ [body.outline])

def Node.outline : Node → Outline
  | resource r => .node .resource (r.entries.map fun (_, e) => e.outline)
  | entry e => e.outline
  | value v => v.outline
  | segment s => s.outline
  | expr e => e.outline

theorem valueOutlines_eq_map (items : List Value) :
    valueOutlines items = items.map Value.outline := by
  induction items with
  | nil => rfl
  | cons v rest ih => simp [valueOutlines, ih]

theorem memberOutlines_eq_map (members : List (String × Value)) :
    memberOutlines members = members.map fun (_, v) => v.outline := by
  induction members with
  | nil => rfl
  | cons pair rest ih => simp [memberOutlines, ih]

theorem exprOutlines_eq_map (exprs : List Expr) :
    exprOutlines exprs = exprs.map Expr.outline := by
  induction exprs with
  | nil => rfl
  | cons e rest ih => simp [exprOutlines, ih]

/-- The outline of a node is its kind over the outlines of its children. -/
theorem Node.outline_eq (node : Node) :
    node.outline = .node node.kind (node.children.map Node.outline) := by
  cases node with
  | resource r =>
      simp [outline, kind, children, Function.comp_def]
  | entry e =>
      cases e <;>
        simp [outline, kind, children, Entry.outline, Entry.kind, ofEntry,
          ofMembers, Function.comp_def]
  | value v =>
      cases v <;>
        simp [outline, kind, children, Value.outline, Value.kind, ofValue,
          ofMembers, Function.comp_def, valueOutlines_eq_map,
          memberOutlines_eq_map]
  | segment s => rfl
  | expr e =>
      cases e <;>
        simp [outline, kind, children, Expr.outline, Expr.kind, ofExpr,
          Function.comp_def, exprOutlines_eq_map]

theorem Node.outline_lt {node child : Node} (h : child ∈ node.children) :
    sizeOf child.outline < sizeOf node.outline := by
  rw [node.outline_eq, Outline.node.sizeOf_spec]
  have hlt := List.sizeOf_lt_of_mem (List.mem_map_of_mem (f := Node.outline) h)
  omega

/-- What holds of a node when it holds of its children holds of all nodes. -/
theorem Node.induct {P : Node → Prop}
    (h : ∀ node : Node, (∀ child ∈ node.children, P child) → P node) (node : Node) :
    P node := by
  induction hsize : sizeOf node.outline using Nat.strongRecOn generalizing node with
  | ind n ih =>
      apply h
      intro child hchild
      exact ih _ (hsize ▸ outline_lt hchild) child rfl

end L20n
