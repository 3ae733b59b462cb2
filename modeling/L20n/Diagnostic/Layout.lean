import L20n.Diagnostic
import L20n.Operator
import L20n.Text.Clip
import L20n.Text.Json

/-!
Layouts of diagnostics: as a bare window, as a report of several lines, as one
line, or as JSON.
-/

namespace L20n

inductive Style where
  | window
  | report
  | line
  | json
  deriving DecidableEq, Repr

namespace Style

def all : List Style := [window, report, line, json]

def word : Style → String
  | window => "legacy"
  | report => "rust"
  | line => "simple"
  | json => "json"

def label : Style → String
  | window => "LEGACY"
  | report => "RUST"
  | line => "SIMPLE"
  | json => "JSON"

def ofWord? (text : String) : Option Style :=
  all.find? fun style => style.word = text

end Style

/-- How diagnostics are shown.  Sanitizing clips what comes from the source or
from a caller to a length. -/
structure Layout where
  style : Style := .window
  sanitize : Bool := false
  color : Bool := false
  maxLength : Int := 100

def windowHeading : String := "l10n parsing error: \n"

def windowDivider : String := " ### "

/-- Line breaks and tabs as escapes, so that a window stays on one line. -/
def escapeControl (text : String) : String :=
  String.ofList (text.toList.flatMap fun c =>
    if c = '\r' then ['\\', 'r']
    else if c = '\n' then ['\\', 'n']
    else if c = '\t' then ['\\', 't']
    else [c])

namespace Layout

/-- A text as this layout may show it. -/
def shown (layout : Layout) (text : String) : String :=
  if layout.sanitize then Text.clip layout.maxLength text else text

def halves (layout : Layout) (window : Window) : String :=
  layout.shown window.consumed ++ windowDivider ++ layout.shown window.remaining

def severity (layout : Layout) : String :=
  if layout.color then "\x1b[1;31merror\x1b[0m" else "error"

/-- The hint of a diagnostic, unless it says nothing. -/
def hint? (d : Diagnostic) : Option String :=
  d.hint.filter fun hint => hint ≠ ""

def report (layout : Layout) (d : Diagnostic) : String :=
  let title := layout.severity ++ "[" ++ d.code.label ++ "]: " ++ d.message
  let place := match d.window with
    | none => []
    | some window =>
      ["  --> offset " ++ Text.integer window.position,
        "  = near: " ++ escapeControl (layout.halves window)]
  let help := match hint? d with
    | none => []
    | some hint => ["  = help: " ++ layout.shown hint]
  "\n".intercalate (title :: place ++ help)

def fields (layout : Layout) (d : Diagnostic) :
    List (String × Text.JsonField) :=
  let place := match d.window with
    | none => []
    | some window =>
      [("position", .number window.position),
        ("consumed", .text (layout.shown window.consumed)),
        ("remaining", .text (layout.shown window.remaining))]
  let expected := match d.expected with
    | [] => []
    | tokens => [("expected", .texts tokens)]
  let help := match hint? d with
    | none => []
    | some hint => [("hint", .text (layout.shown hint))]
  [("code", .text d.code.label), ("code_value", .number d.code.number),
    ("message", .text (layout.shown d.message))] ++ place ++ expected ++ help

/-- Lays out a diagnostic.  One without a window has no bare form and gets the
report instead. -/
def render (layout : Layout) (d : Diagnostic) : String :=
  match layout.style with
  | .window =>
    match d.window with
    | none => layout.report d
    | some window => windowHeading ++ layout.halves window
  | .report => layout.report d
  | .line => d.code.label ++ ": " ++ layout.shown d.message
  | .json => Text.jsonObject (layout.fields d)

/-- Lays out several diagnostics with an empty line between two of them. -/
def renderAll (layout : Layout) (ds : List Diagnostic) : String :=
  "\n\n".intercalate (ds.map layout.render)

end Layout

def Diagnostic.text (d : Diagnostic) : String :=
  ({} : Layout).render d

/-- A problem to report: a diagnostic, or a message without one. -/
inductive Problem where
  | message (text : String)
  | diagnostic (d : Diagnostic)

namespace Problem

def text : Problem → String
  | message text => text
  | diagnostic d => d.text

def diagnostic? : Problem → Option Diagnostic
  | message _ => none
  | diagnostic d => some d

def window? (problem : Problem) : Option Window :=
  problem.diagnostic?.bind Diagnostic.window

def consumed (problem : Problem) : String :=
  (problem.window?.map Window.consumed).getD ""

def remaining (problem : Problem) : String :=
  (problem.window?.map Window.remaining).getD ""

end Problem

end L20n
