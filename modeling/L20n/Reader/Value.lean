import L20n.Reader.Inner

/-!
Values: string literals, arrays and objects.

    value  := literal | array | object
    array  := '[' ( value (',' value)* )? ']'
    object := '{' ( member (',' member)* )? '}'
    member := NAME ':' value
-/

namespace L20n.Reader

variable (mode : StringMode) (inner : Inner)

/-- Reads a value, if one starts here.  The bracket of an array or object opens
a level. -/
def value? : Reader (Option Value) := do
  match ← peek? .valueOpen with
  | none => return none
  | some ['['] => return some (← nested inner.array)
  | some ['\x7b'] => return some (← nested inner.object)
  | some _ => return some (← literal mode)

def value : Reader Value :=
  required .expectedValue (value? mode inner)

def member (what : String) : Reader (String × Value) := do
  let key ← name what
  let _ ← expect .colon "':'"
  return (key, ← value mode inner)

def array : Reader Value := do
  let _ ← expect .arrayOpen "'['"
  match ← token? .arrayClose with
  | some _ => return .array []
  | none =>
    let items ← commaSeparated (value mode inner)
    let _ ← expect .arrayClose "']'"
    return .array items

/-- Reads an object.  A key that comes twice keeps its first place and its last
value. -/
def object : Reader Value := do
  let _ ← expect .objectOpen "'\x7b'"
  match ← token? .objectClose with
  | some _ => return .object []
  | none =>
    let members ← commaSeparated (member mode inner "a key name")
    let _ ← expect .objectClose "'\x7d'"
    return .object (Table.ofPairs members)

end L20n.Reader
