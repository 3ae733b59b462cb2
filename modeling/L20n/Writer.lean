import L20n.Depth
import L20n.Diagnostic.Layout
import L20n.Monitor
import L20n.Text.Escape
import L20n.Text.Find
import L20n.Text.Name
import L20n.Tree

/-!
Writing a resource back, one entry a line.  Parentheses are added only where an
operand binds less tightly than its place allows.  What has no written form is
refused.  The parts of a tree are written inside calls of their own, which the stack has
to have room for.
-/

namespace L20n

inductive NameRole where
  | entity
  | attribute
  | key
  | identifier
  | property
  deriving DecidableEq, Repr

def NameRole.word : NameRole → String
  | .entity => "entity"
  | .attribute => "attribute"
  | .key => "key"
  | .identifier => "identifier"
  | .property => "property"

inductive WriteError where
  | invalidName (role : NameRole) (name : String)
  | ambiguousText (text : String)
  | invalidPlaceholder (source : String)
  | emptyIndex (key : String)
  | negativeNumber (value : Int)
  | numberTooLong
  | tooDeep (refusal : Refusal Window)
  | stackFull

namespace WriteError

def diagnostic? : WriteError → Option Diagnostic
  | tooDeep refusal =>
    some ((Cause.tooDeep refusal.limit).diagnostic refusal.place)
  | _ => none

def message : WriteError → String
  | invalidName role name =>
    "Invalid " ++ role.word ++ " name " ++ Text.quoted name
      ++ " (must match [a-zA-Z][a-zA-Z0-9_]*)"
  | ambiguousText text =>
    "String text " ++ Text.quoted text
      ++ " has a backslash that would be read as an escape"
  | invalidPlaceholder source =>
    "Invalid placeholder " ++ Text.quoted source
      ++ " (must be '\x7b\x7b ... \x7d\x7d')"
  | emptyIndex key => "Entity " ++ Text.quoted key ++ " has an empty index list"
  | negativeNumber value =>
    "NumberLiteral value " ++ Text.integer value ++ " is negative"
  | numberTooLong =>
    "Exceeds the limit (4300 digits) for integer string conversion; "
      ++ "use sys.set_int_max_str_digits() to increase the limit"
  | tooDeep refusal =>
    ((Cause.tooDeep refusal.limit).diagnostic refusal.place).text
  | stackFull => Monitor.message

end WriteError

/-- A writer gives a text, under a depth guard and on a stack. -/
abbrev Writer := Monitored WriteError Unit Window

/-- A placeholder is one pair of double braces: it starts with two opening
ones, and the first two closing ones after them end it. -/
def isPlaceholderSource (source : List Char) : Bool :=
  match source with
  | '\x7b' :: '\x7b' :: inner =>
    match Text.through? ['\x7d', '\x7d'] inner with
    | some (_, []) => true
    | _ => false
  | _ => false

namespace Writer

def calls {α : Type} (n : Nat) (writer : Writer α) : Writer α :=
  inCalls .stackFull n writer

/-- Writes one nesting level further in.  What is there is written by a call, and so is
the level left again. -/
def deeper {α : Type} (writer : Writer α) : Writer α :=
  inLevel .stackFull .tooDeep (fun _ => none) (calls 1 writer)

def nested {α : Type} (writer : Writer α) : Writer α :=
  calls 1 (deeper writer)

def name (role : NameRole) (name : String) : Writer (List Char) :=
  if Text.isName name.toList then return name.toList
  else throw (.invalidName role name)

def text (text : String) : Writer (List Char) :=
  if Text.hasAmbiguousBackslash text.toList then throw (.ambiguousText text)
  else return Text.encode text.toList

def segment : Segment → Writer (List Char)
  | .text value => text value
  | .placeholder source =>
    if isPlaceholderSource source.toList then return source.toList
    else throw (.invalidPlaceholder source)

def segments : List Segment → Writer (List Char)
  | [] => return []
  | part :: rest => return (← segment part) ++ (← segments rest)

/-- A number that is not negative, within the digit limit. -/
def number (value : Int) : Writer (List Char) :=
  let digits := Text.decimal value.natAbs
  if Text.maxDigits < digits.length then throw .numberTooLong
  else if value < 0 then throw (.negativeNumber value)
  else return digits

def commas (texts : List (List Char)) : List Char :=
  [',', ' '].intercalate texts

mutual

def value : Value → Writer (List Char)
  | .string content => return '"' :: (← text content) ++ ['"']
  | .parts parts => return '"' :: (← segments parts) ++ ['"']
  | .array items => deeper do
    return '[' :: commas (← values items) ++ [']']
  | .object pairs => deeper do
    return '\x7b' :: commas (← members .key pairs) ++ ['\x7d']

def values : List Value → Writer (List (List Char))
  | [] => return []
  | item :: items => return (← value item) :: (← values items)

def members (role : NameRole) :
    List (String × Value) → Writer (List (List Char))
  | [] => return []
  | (key, item) :: rest => do
    let key ← name role key
    let item ← value item
    return (key ++ ':' :: ' ' :: item) :: (← members role rest)

end

/-- Puts parentheses around an operand that binds less tightly than its place
allows. -/
def operand (allowed : Level) (expr : Expr) (writer : Writer (List Char)) :
    Writer (List Char) :=
  calls 1 do
    if expr.level ≤ allowed then calls 1 writer
    else return '(' :: (← nested writer) ++ [')']

/-- Like `operand`, for a place that is one level further in anyway. -/
def innerOperand (allowed : Level) (expr : Expr) (writer : Writer (List Char)) :
    Writer (List Char) :=
  calls 1 do
    if expr.level ≤ allowed then nested writer
    else return '(' :: (← nested writer) ++ [')']

mutual

def expr : Expr → Writer (List Char)
  | .number n => number n
  | .value v => calls 1 (value v)
  | .name key => name .identifier key
  | .paren e => return '(' :: (← nested (expr e)) ++ [')']
  | .attr base key => do
    let base ← operand .member base (expr base)
    return base ++ '.' :: '.' :: (← name .attribute key)
  | .attrAt base index => do
    let base ← operand .member base (expr base)
    return base ++ '[' :: '.' :: (← nested (expr index)) ++ [']']
  | .prop base key => do
    let base ← operand .member base (expr base)
    return base ++ '.' :: (← name .property key)
  | .propAt base index => do
    let base ← operand .member base (expr base)
    return base ++ '[' :: (← nested (expr index)) ++ [']']
  | .call base arguments => do
    let base ← operand .member base (expr base)
    return base ++ '(' :: commas (← exprs arguments) ++ [')']
  | .unary op e => return op.symbol ++ (← operand .member e (expr e))
  | .binary op left right => do
    let left ← operand .unary left (expr left)
    let right ← innerOperand .binary right (expr right)
    return left ++ ' ' :: op.symbol ++ ' ' :: right
  | .logical op left right => do
    let left ← operand .binary left (expr left)
    let right ← innerOperand .logical right (expr right)
    return left ++ ' ' :: op.symbol ++ ' ' :: right
  | .conditional test consequent alternate => do
    let test ← operand .logical test (expr test)
    let consequent ← nested (expr consequent)
    let alternate ← nested (expr alternate)
    return test ++ [' ', '?', ' '] ++ consequent ++ [' ', ':', ' '] ++ alternate

/-- Writes the expressions of a list, each one level further in. -/
def exprs : List Expr → Writer (List (List Char))
  | [] => return []
  | e :: rest => return (← calls 1 (nested (expr e))) :: (← exprs rest)

end

def spacedValue : Option Value → Writer (List Char)
  | none => return []
  | some v => return ' ' :: (← calls 1 (value v))

def entryBody (key : String) : Entry → Writer (List Char)
  | .macroDef params body =>
    return '(' :: commas (← exprs params) ++ [')', ' ', '\x7b', ' ']
      ++ (← nested (expr body)) ++ [' ', '\x7d']
  | .complex index item attributes => do
    let index ← match index with
      | none => pure []
      | some [] => throw (.emptyIndex key)
      | some items => pure ('[' :: commas (← exprs items) ++ [']'])
    let item ← spacedValue item
    let attributes ← calls 1 (members .attribute (attributes.getD []))
    return index ++ item ++ attributes.flatMap (' ' :: ·)
  | .plain item => spacedValue item

def entry (key : String) (entry : Entry) : Writer (List Char) := do
  let keyText ← name .entity key
  return '<' :: keyText ++ (← entryBody key entry) ++ ['>', '\n']

def entries : List (String × Entry) → Writer (List Char)
  | [] => return []
  | (key, first) :: rest => return (← calls 1 (entry key first)) ++ (← entries rest)

/-- Writes a whole resource.  Levels left over from before are forgotten. -/
def resource (resource : Resource) : Writer (List Char) := do
  modify fun s => { s with guard := s.guard.reset }
  entries resource.entries

end Writer

def writeGuard (maxDepth : Int) : DepthGuard Window :=
  (DepthGuard.ofRequest maxDepth).1

/-- Writes a resource under a guard that was used before, and gives the guard
back. -/
def Resource.writeUnder (monitor : Option Monitor) (guard : DepthGuard Window)
    (resource : Resource) : Except WriteError String × DepthGuard Window :=
  match Writer.resource resource monitor ⟨(), guard⟩ with
  | .ok text s => (.ok (String.ofList text), s.guard)
  | .error e s => (.error e, s.guard)

/-- Writes a resource under such a guard, on a stack without end. -/
def Resource.writeWith (guard : DepthGuard Window) (resource : Resource) :
    Except WriteError String × DepthGuard Window :=
  resource.writeUnder none guard

def Resource.write (resource : Resource) (maxDepth : Int) :
    Except WriteError String :=
  (resource.writeWith (writeGuard maxDepth)).1

end L20n
