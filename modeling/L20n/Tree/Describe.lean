import L20n.Node
import L20n.Text.Numeral

/-!
One-line descriptions of nodes: the kind with its parts in parentheses.
-/

namespace L20n

namespace Describe

def record (kind : Kind) (parts : List (String × String)) : String :=
  let texts := parts.map fun (key, text) => key ++ "=" ++ text
  kind.label ++ "(" ++ ", ".intercalate texts ++ ")"

/-- A row in parentheses.  A single item keeps a comma after it. -/
def row : List String → String
  | [item] => "(" ++ item ++ ",)"
  | items => "(" ++ ", ".intercalate items ++ ")"

def table (pairs : List (String × String)) : String :=
  let texts := pairs.map fun (key, text) => Text.quoted key ++ ": " ++ text
  "\x7b" ++ ", ".intercalate texts ++ "\x7d"

def innerTable (pairs : List (String × String)) : String :=
  "mappingproxy(" ++ table pairs ++ ")"

def optional : Option String → String
  | none => "None"
  | some text => text

def operator (family : Vocabulary) (label : String) (symbol : List Char) :
    String :=
  let shown := Text.quoted (String.ofList symbol)
  "<" ++ family.title ++ "." ++ label ++ ": " ++ shown ++ ">"

def segment : Segment → String
  | .text value => record .text [("value", Text.quoted value)]
  | .placeholder source => record .placeholder [("source", Text.quoted source)]

mutual

def value : Value → String
  | .string text => record .string [("value", Text.quoted text)]
  | .parts segments => record .parts [("parts", row (segments.map segment))]
  | .array items => record .array [("items", row (values items))]
  | .object pairs => record .object [("members", innerTable (members pairs))]

def values : List Value → List String
  | [] => []
  | v :: rest => value v :: values rest

def members : List (String × Value) → List (String × String)
  | [] => []
  | (key, v) :: rest => (key, value v) :: members rest

end

mutual

def expr : Expr → String
  | .number n => record .number [("value", Text.integer n)]
  | .value v => record .value [("value", value v)]
  | .name key => record .name [("name", Text.quoted key)]
  | .paren e => record .paren [("expression", expr e)]
  | .attr base key =>
    record .attr [("base", expr base), ("name", Text.quoted key)]
  | .attrAt base index =>
    record .attrAt [("base", expr base), ("index", expr index)]
  | .prop base key =>
    record .prop [("base", expr base), ("name", Text.quoted key)]
  | .propAt base index =>
    record .propAt [("base", expr base), ("index", expr index)]
  | .call base arguments =>
    record .call [("base", expr base), ("arguments", row (exprs arguments))]
  | .unary op e =>
    record .unary [("operator", operator .unary op.label op.symbol),
      ("operand", expr e)]
  | .binary op left right =>
    record .binary [("operator", operator .binary op.label op.symbol),
      ("left", expr left), ("right", expr right)]
  | .logical op left right =>
    record .logical [("operator", operator .logical op.label op.symbol),
      ("left", expr left), ("right", expr right)]
  | .conditional test consequent alternate =>
    record .conditional [("test", expr test), ("consequent", expr consequent),
      ("alternate", expr alternate)]

def exprs : List Expr → List String
  | [] => []
  | e :: rest => expr e :: exprs rest

end

def entry : Entry → String
  | .plain v => record .plain [("value", optional (v.map value))]
  | .complex index v attributes =>
    let rowOf items := row (exprs items)
    let tableOf pairs := innerTable (members pairs)
    record .complex [("index", optional (index.map rowOf)),
      ("value", optional (v.map value)),
      ("attributes", optional (attributes.map tableOf))]
  | .macroDef params body =>
    record .macroDef [("params", row (exprs params)), ("body", expr body)]

def resource (r : Resource) : String :=
  let pairs := r.entries.map fun (key, e) => (key, entry e)
  Kind.resource.label ++ "(" ++ table pairs ++ ")"

end Describe

def Node.describe : Node → String
  | resource r => Describe.resource r
  | entry e => Describe.entry e
  | value v => Describe.value v
  | segment s => Describe.segment s
  | expr e => Describe.expr e

end L20n
