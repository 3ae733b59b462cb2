import L20n.Reader.Expression

/-!
Entries and what stands between them.

    entry   := header ( '{' expression '}' | value? member* ) '>'
    header  := NAME ( '[' expression (',' expression)* ']'
                    | '(' ( expression (',' expression)* )? ')' )?
    comment := '/*' … '*/'

The entry rule starts after the `<` of an entry.
-/

namespace L20n

/-- The head of an entry: its key, and the index or the parameters. -/
structure Header where
  key : String
  index : Option (List Expr) := none
  params : Option (List Expr) := none

namespace Reader

variable (mode : StringMode) (inner : Inner)

/-- Reads the head of an entry.  Only the character right after the key
decides what follows. -/
def header : Reader Header := do
  let key ← name "an entity name"
  if (← token? .propertyIndexOpen).isSome then
    return { key, index := some (← expressions inner .arrayClose "']'") }
  else if (← token? .callOpen).isSome then
    return { key, params := some (← arguments inner) }
  else
    return { key }

/-- Reads attributes up to the first token that is not a name. -/
def attributes? : Reader (Option (List (String × Value))) := do
  let pairs ← many do
    match ← name? with
    | none => return none
    | some key =>
      let _ ← expect .colon "':'"
      return some (key, ← value mode inner)
  return if pairs.isEmpty then none else some (Table.ofPairs pairs)

def entryBody (head : Header) : Reader Entry := do
  match head.params with
  | some params =>
    let _ ← expect .objectOpen "'\x7b'"
    let body ← expression inner
    let _ ← expect .objectClose "'\x7d'"
    return .macroDef params body
  | none =>
    let value ← value? mode inner
    let attributes ← attributes? mode inner
    if attributes.isNone && head.index.isNone then return .plain value
    else return .complex head.index value attributes

/-- Reads an entry after its `<`, with its key. -/
def entry : Reader (String × Entry) := do
  let head ← header inner
  let entry ← entryBody mode inner head
  let _ ← expect .entryClose "'>'"
  return (head.key, entry)

def comment? : Reader (Option Unit) := do
  match ← token? .commentOpen with
  | none => return none
  | some _ =>
    match ← seek? .commentClose with
    | none => fail .unterminatedComment
    | some _ => return some ()

def comments : Reader Unit := do
  let _ ← many comment?

def entryOpen : Reader Bool := do
  comments
  return (← token? .entryOpen).isSome

/-- Reads the next entry, if there is one. -/
def entryAhead? : Reader (Option (String × Entry)) := do
  if ← entryOpen then
    return some (← withLevels mode (entry mode))
  else
    return none

end Reader

end L20n
