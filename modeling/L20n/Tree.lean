import L20n.Operator
import L20n.Table
import L20n.Text.Blank

/-!
L20n resources as trees: segments of strings, values, expressions, entries and
the resource that holds them.  A resource is a file of localized texts; each of
its keys stands for an entity or for a macro.
-/

namespace L20n

/-- A part of a string with placeholders: text, or a placeholder with its
braces. -/
inductive Segment where
  | text (value : String)
  | placeholder (source : String)
  deriving DecidableEq, Repr

/-- Values are strings, arrays and objects.  A string is one text, or the
segments around its placeholders. -/
inductive Value where
  | string (text : String)
  | parts (segments : List Segment)
  | array (items : List Value)
  | object (members : List (String × Value))

inductive Expr where
  | number (value : Int)
  | value (value : Value)
  | name (name : String)
  | paren (expr : Expr)
  | attr (base : Expr) (name : String)
  | attrAt (base index : Expr)
  | prop (base : Expr) (name : String)
  | propAt (base index : Expr)
  | call (base : Expr) (arguments : List Expr)
  | unary (op : UnaryOp) (operand : Expr)
  | binary (op : BinaryOp) (left right : Expr)
  | logical (op : LogicalOp) (left right : Expr)
  | conditional (test consequent alternate : Expr)

inductive Entry where
  /-- An entity with at most a value. -/
  | plain (value : Option Value)
  /-- An entity with an index, attributes or both. -/
  | complex (index : Option (List Expr)) (value : Option Value)
      (attributes : Option (List (String × Value)))
  /-- An expression with parameters. -/
  | macroDef (params : List Expr) (body : Expr)

def Entry.isMacro : Entry → Bool
  | .macroDef .. => true
  | _ => false

/-- A resource maps keys to entries, in an order of its own. -/
structure Resource where
  entries : List (String × Entry)

namespace Segment

/-- The text of a segment, a placeholder standing for itself. -/
def source : Segment → String
  | text value => value
  | placeholder source => source

def isPlaceholder : Segment → Bool
  | text _ => false
  | placeholder _ => true

/-- What stands between the braces of a placeholder, without the blanks around
it. -/
def content (segment : Segment) : String :=
  let inner := (segment.source.toList.drop 2).dropLast.dropLast
  String.ofList (Text.trim inner)

end Segment

/-- The text of a string with its placeholders left as they are. -/
def partsText (segments : List Segment) : String :=
  String.ofList (segments.flatMap fun segment => segment.source.toList)

namespace Resource

def keys (resource : Resource) : List String :=
  Table.names resource.entries

def get? (resource : Resource) (key : String) : Option Entry :=
  Table.get? resource.entries key

def entityKeys (resource : Resource) : List String :=
  Table.names (resource.entries.filter fun (_, entry) => !entry.isMacro)

def macroKeys (resource : Resource) : List String :=
  Table.names (resource.entries.filter fun (_, entry) => entry.isMacro)

end Resource

/-- How tightly an expression binds, from the member chain outwards. -/
inductive Level where
  | member
  | unary
  | binary
  | logical
  | conditional
  deriving DecidableEq, Repr

def Level.rank : Level → Nat
  | member => 0
  | unary => 1
  | binary => 2
  | logical => 3
  | conditional => 4

instance : LE Level := ⟨fun a b => a.rank ≤ b.rank⟩

instance (a b : Level) : Decidable (a ≤ b) :=
  inferInstanceAs (Decidable (a.rank ≤ b.rank))

def Expr.level : Expr → Level
  | unary .. => .unary
  | binary .. => .binary
  | logical .. => .logical
  | conditional .. => .conditional
  | _ => .member

end L20n
