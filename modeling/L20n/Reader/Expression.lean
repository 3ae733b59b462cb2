import L20n.Reader.Value

/-!
Expressions, from the loosest binding to the tightest.

    expression  := conditional
    conditional := logical ( '?' conditional ':' conditional )?
    logical     := binary ( ('&&' | '||') logical )?
    binary      := unary ( operator binary )?
    unary       := ('+' | '-' | '!')? member
    member      := primary suffix*
    primary     := '(' expression ')' | NUMBER | value | NAME

Chains nest to the right.  An expression opens a level, and so does each right
operand and each branch.
-/

namespace L20n

/-- What a member chain adds to the expression before it. -/
inductive Suffix where
  | attr (name : String)
  | attrAt (index : Expr)
  | prop (name : String)
  | propAt (index : Expr)
  | call (arguments : List Expr)

def Expr.extend (base : Expr) : Suffix → Expr
  | .attr key => .attr base key
  | .attrAt index => .attrAt base index
  | .prop key => .prop base key
  | .propAt index => .propAt base index
  | .call arguments => .call base arguments

namespace Reader

variable (mode : StringMode) (inner : Inner)

def expression? : Reader (Option Expr) :=
  nested inner.conditional

def expression : Reader Expr :=
  required .expectedExpression (expression? inner)

/-- Reads the operand after an operator, one level further in. -/
def operand (reader : Reader (Option Expr)) : Reader Expr :=
  nested (required .expectedExpression reader)

/-- Reads expressions up to a closing bracket; at least one of them. -/
def expressions (close : Token) (what : String) : Reader (List Expr) := do
  let items ← commaSeparated (expression inner)
  let _ ← expect close what
  return items

/-- Reads expressions, or none, up to a closing parenthesis. -/
def arguments : Reader (List Expr) := do
  match ← token? .parenClose with
  | some _ => return []
  | none => expressions inner .parenClose "')'"

def index : Reader Expr := do
  let expr ← expression inner
  let _ ← expect .arrayClose "']'"
  return expr

/-- Reads what a member chain starts with. -/
def primary : Reader (Option Expr) := do
  match ← token? .parenOpen with
  | some _ =>
    let expr ← expression inner
    let _ ← expect .parenClose "')'"
    return some (.paren expr)
  | none =>
    match ← number? with
    | some n => return some (.number n)
    | none =>
      match ← value? mode inner with
      | some v => return some (.value v)
      | none => return (← name?).map .name

/-- Reads one suffix of a member chain.  Two dots win over one, and a bracket
with a dot over a bracket. -/
def suffix? : Reader (Option Suffix) := do
  if (← token? .attributeDot).isSome then
    return some (.attr (← name "an attribute name"))
  else if (← token? .attributeIndexOpen).isSome then
    return some (.attrAt (← index inner))
  else if (← token? .propertyDot).isSome then
    return some (.prop (← name "a property name"))
  else if (← token? .propertyIndexOpen).isSome then
    return some (.propAt (← index inner))
  else if (← token? .callOpen).isSome then
    return some (.call (← arguments inner))
  else
    return none

def chain : Reader (Option Expr) := do
  match ← primary mode inner with
  | none => return none
  | some base => return some ((← many (suffix? inner)).foldl Expr.extend base)

/-- Reads a member chain with at most one operator in front. -/
def unary : Reader (Option Expr) := do
  match (← token? .unaryOp).bind UnaryOp.ofSymbol? with
  | none => chain mode inner
  | some op =>
    let operand ← required .expectedExpression (chain mode inner)
    return some (.unary op operand)

def binary : Reader (Option Expr) := do
  match ← unary mode inner with
  | none => return none
  | some left =>
    match (← token? .binaryOp).bind BinaryOp.ofSymbol? with
    | none => return some left
    | some op => return some (.binary op left (← operand inner.binary))

def logical : Reader (Option Expr) := do
  match ← binary mode inner with
  | none => return none
  | some left =>
    match (← token? .logicalOp).bind LogicalOp.ofSymbol? with
    | none => return some left
    | some op => return some (.logical op left (← operand inner.logical))

/-- Reads a conditional, or what stands for its test alone. -/
def conditional : Reader (Option Expr) := do
  match ← logical mode inner with
  | none => return none
  | some test =>
    match ← token? .question with
    | none => return some test
    | some _ =>
      let consequent ← operand inner.conditional
      let _ ← expect .colon "':'"
      let alternate ← operand inner.conditional
      return some (.conditional test consequent alternate)

end Reader

/-- What a rule with `n` levels left can read one level further in. -/
def Inner.ofLevels (mode : StringMode) : Nat → Inner
  | 0 => .closed
  | n + 1 =>
    let inner := ofLevels mode n
    { array := Reader.array mode inner
      object := Reader.object mode inner
      conditional := Reader.conditional mode inner
      logical := Reader.logical mode inner
      binary := Reader.binary mode inner }

/-- Runs a rule of the grammar with as many levels as the guard has left. -/
def Reader.withLevels {α : Type} (mode : StringMode)
    (rule : Inner → Reader α) : Reader α := do
  rule (Inner.ofLevels mode (← get).guard.levels)

end L20n
