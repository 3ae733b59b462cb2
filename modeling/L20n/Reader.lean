import L20n.Depth
import L20n.Diagnostic
import L20n.Token

/-!
Readers take text from the front of what lies ahead, under a depth guard, and
stop at the first error.  A reader that fails leaves its state where it
stopped.
-/

namespace L20n

/-- Why reading stopped: a fault of the source, at a place given by the text
ahead of it, or a number that is too long. -/
inductive ReadError where
  | fault (cause : Cause) (place : Option (List Char))
  | numberTooLong (e : Text.TooManyDigits)

/-- A reader works on the text ahead.  Its guard remembers places by the text
ahead of them. -/
abbrev Reader := EStateM ReadError (Guarded (List Char) (List Char))

namespace Reader

variable {α : Type}

def ahead : Reader (List Char) := do
  return (← get).data

def fail (cause : Cause) : Reader α := do
  throw (.fault cause (some (← ahead)))

def token? (token : Token) : Reader (Option (List Char)) := fun s =>
  match token.match? s.data with
  | none => .ok none s
  | some found => .ok (some found.lexeme) { s with data := found.rest }

def peek? (token : Token) : Reader (Option (List Char)) := do
  return (token.match? (← ahead)).map Token.Match.lexeme

/-- Takes everything up to the end of the next such token. -/
def seek? (token : Token) : Reader (Option (List Char)) := fun s =>
  match token.find? s.data with
  | none => .ok none s
  | some found => .ok (some found.source) { s with data := found.rest }

def expect (token : Token) (what : String) : Reader (List Char) := do
  match ← token? token with
  | some lexeme => return lexeme
  | none => fail (.expectedToken what)

/-- Makes an optional construct mandatory. -/
def required (cause : Cause) (reader : Reader (Option α)) : Reader α := do
  match ← reader with
  | some a => return a
  | none => fail cause

def nested (reader : Reader α) : Reader α :=
  atLevel (fun refusal => .fault (.tooDeep refusal.limit) refusal.place) some
    reader

/-- Collects what `step` reads until it reads nothing, at most `n` times. -/
def manyUpTo : Nat → Reader (Option α) → Reader (List α)
  | 0, _ => return []
  | n + 1, step => do
    match ← step with
    | none => return []
    | some a => return a :: (← manyUpTo n step)

/-- Collects what `step` reads until it reads nothing.  Each thing read takes
some text and nothing can be read where no text is left, so the length of the
text ahead bounds the number of rounds. -/
def many (step : Reader (Option α)) : Reader (List α) := do
  manyUpTo (← ahead).length step

def commaSeparated (item : Reader α) : Reader (List α) := do
  let first ← item
  let more ← many do
    match ← token? .comma with
    | none => return none
    | some _ => return some (← item)
  return first :: more

def name? : Reader (Option String) := do
  return (← token? .name).map String.ofList

def name (what : String) : Reader String := do
  return String.ofList (← expect .name what)

def number? : Reader (Option Nat) := do
  match ← token? .number with
  | none => return none
  | some token =>
    match Text.numberValue token with
    | .ok n => return some n
    | .error e => throw (.numberTooLong e)

end Reader

end L20n
