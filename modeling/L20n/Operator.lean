import L20n.Text.Quoted

/-!
The operators of expressions, each with the symbol that is written and the
label that descriptions show.
-/

namespace L20n

inductive UnaryOp where
  | plus
  | minus
  | not
  deriving DecidableEq, Repr

/-- Comparison and arithmetic. -/
inductive BinaryOp where
  | equal
  | notEqual
  | lessEqual
  | greaterEqual
  | add
  | subtract
  | multiply
  | divide
  | modulo
  deriving DecidableEq, Repr

inductive LogicalOp where
  | and
  | or
  deriving DecidableEq, Repr

namespace UnaryOp

def all : List UnaryOp := [plus, minus, not]

def symbol : UnaryOp → List Char
  | plus => ['+']
  | minus => ['-']
  | not => ['!']

def label : UnaryOp → String
  | plus => "PLUS"
  | minus => "MINUS"
  | not => "NOT"

def ofSymbol? (text : List Char) : Option UnaryOp :=
  all.find? fun op => op.symbol = text

theorem ofSymbol?_symbol (op : UnaryOp) : ofSymbol? op.symbol = some op := by
  cases op <;> rfl

end UnaryOp

namespace BinaryOp

def all : List BinaryOp :=
  [equal, notEqual, lessEqual, greaterEqual, add, subtract, multiply, divide,
    modulo]

def symbol : BinaryOp → List Char
  | equal => ['=', '=']
  | notEqual => ['!', '=']
  | lessEqual => ['<', '=']
  | greaterEqual => ['>', '=']
  | add => ['+']
  | subtract => ['-']
  | multiply => ['*']
  | divide => ['/']
  | modulo => ['%']

def label : BinaryOp → String
  | equal => "EQUAL"
  | notEqual => "NOT_EQUAL"
  | lessEqual => "LESS_EQUAL"
  | greaterEqual => "GREATER_EQUAL"
  | add => "ADD"
  | subtract => "SUBTRACT"
  | multiply => "MULTIPLY"
  | divide => "DIVIDE"
  | modulo => "MODULO"

def ofSymbol? (text : List Char) : Option BinaryOp :=
  all.find? fun op => op.symbol = text

theorem ofSymbol?_symbol (op : BinaryOp) : ofSymbol? op.symbol = some op := by
  cases op <;> rfl

end BinaryOp

namespace LogicalOp

def all : List LogicalOp := [or, and]

def symbol : LogicalOp → List Char
  | and => ['&', '&']
  | or => ['|', '|']

def label : LogicalOp → String
  | and => "AND"
  | or => "OR"

def ofSymbol? (text : List Char) : Option LogicalOp :=
  all.find? fun op => op.symbol = text

theorem ofSymbol?_symbol (op : LogicalOp) : ofSymbol? op.symbol = some op := by
  cases op <;> rfl

end LogicalOp

/-- The closed families of words that a caller names by their text. -/
inductive Vocabulary where
  | unary
  | binary
  | logical
  | style

def Vocabulary.title : Vocabulary → String
  | .unary => "UnaryOperator"
  | .binary => "BinaryOperator"
  | .logical => "LogicalOperator"
  | .style => "OutputFormat"

/-- A text that is no word of the vocabulary it was looked up in. -/
structure UnknownWord where
  text : String
  vocabulary : Vocabulary

def UnknownWord.message (e : UnknownWord) : String :=
  Text.quoted e.text ++ " is not a valid " ++ e.vocabulary.title

end L20n
