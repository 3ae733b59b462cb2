import L20n.Diagnostic.Layout
import L20n.Resource.Run

/-!
Reading a resource from a source: limits, outcome and notices.
-/

namespace L20n

/-- The limits and the string mode of reading.  A size limit that is not
positive sets no limit. -/
structure ReadOptions where
  maxSize : Int := 10 * 1024 * 1024
  maxDepth : Int := defaultDepth
  mode : StringMode := .whole

inductive ReadFailure where
  | tooLarge (size : Nat) (limit : Int)
  | fault (cause : Cause) (window : Option Window)
  | numberTooLong (e : Text.TooManyDigits)

namespace ReadFailure

def diagnostic? : ReadFailure → Option Diagnostic
  | fault cause window => some (cause.diagnostic window)
  | _ => none

def message : ReadFailure → String
  | tooLarge size limit =>
    "Source size (" ++ Text.grouped size ++ " characters) exceeds maximum ("
      ++ Text.grouped limit ++ " characters). "
      ++ "Configure max_source_size in L20nParser constructor "
      ++ "to increase limit."
  | fault cause window => (cause.diagnostic window).text
  | numberTooLong e => e.message

end ReadFailure

def ReadError.failure (window : List Char → Window) :
    ReadError → ReadFailure
  | fault cause place => .fault cause (place.map window)
  | numberTooLong e => .numberTooLong e

/-- What is worth telling while a source is read. -/
inductive Notice where
  | clamped (c : Clamping)
  | replaced (key : String)
  | registered (key : String) (isMacro : Bool)
  | failed (origin : String) (message : String)
  | trailing (origin : String) (offset : Nat) (excerpt : String)
  | finished (origin : String) (entities macros : Nat)

namespace Notice

inductive Severity where
  | debug
  | info
  | warning
  deriving DecidableEq, Repr

def severity : Notice → Severity
  | clamped _ | trailing .. => .warning
  | finished .. => .info
  | _ => .debug

def message : Notice → String
  | clamped c => c.message
  | replaced key => "Replaced duplicate key: " ++ key
  | registered key true => "Registered macro: " ++ key
  | registered key false => "Registered entity: " ++ key
  | failed origin message =>
    "Failed to parse resource " ++ origin ++ ": " ++ message
  | trailing origin offset excerpt =>
    "Ignoring trailing content in " ++ origin ++ " at offset "
      ++ Text.integer offset ++ ": " ++ Text.quoted excerpt
  | finished origin entities macros =>
    "Parsed resource " ++ origin ++ ": " ++ Text.integer entities
      ++ " entities, " ++ Text.integer macros ++ " macros"

/-- The notices for entries as they come, given the keys that came before. -/
def ofRegistered (seen : List String) : List (String × Entry) → List Notice
  | [] => []
  | (key, entry) :: rest =>
    (if seen.contains key then [replaced key] else [])
      ++ registered key entry.isMacro :: ofRegistered (key :: seen) rest

end Notice

/-- The outcome of reading a source, and the notices on the way. -/
structure Reading where
  outcome : Except ReadFailure Resource
  notices : List Notice

def excerptWidth : Nat := 50

def trailingNotice (origin : String) (offset : Nat) (rest : List Char) :
    List Notice :=
  match Text.trim rest with
  | [] => []
  | text => [.trailing origin offset (String.ofList (text.take excerptWidth))]

def originName : Option String → String
  | none | some "" => "<string>"
  | some path => path

/-- Reads a resource.  Text after the last entry is ignored, with a notice. -/
def Resource.read (options : ReadOptions) (source : String)
    (path : Option String) : Reading :=
  let text := source.toList
  let size := text.length
  let origin := originName path
  if 0 < options.maxSize ∧ options.maxSize < size then
    ⟨.error (.tooLarge size options.maxSize), []⟩
  else
    let (limit, clampings) := StackBudget.reading.clamp options.maxDepth
    let run := Run.ofSource options.mode limit text
    let before :=
      clampings.map .clamped ++ Notice.ofRegistered [] run.registered
    match run.error with
    | some e =>
      let failure := e.failure fun place =>
        Window.around text (size - place.length)
      let failed := match failure.diagnostic? with
        | some d => [Notice.failed origin d.message]
        | none => []
      ⟨.error failure, before ++ failed⟩
    | none =>
      let rest := run.state.data
      let resource := run.resource
      let trailing := trailingNotice origin (size - rest.length) rest
      let finished := Notice.finished origin resource.entityKeys.length
        resource.macroKeys.length
      ⟨.ok resource, before ++ trailing ++ [finished]⟩

end L20n
