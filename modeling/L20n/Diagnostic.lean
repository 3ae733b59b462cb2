import L20n.Text.Numeral

/-!
Diagnostics: what went wrong, where in the source, and what would have been
accepted.
-/

namespace L20n

/-- The kinds of diagnostic: a missing token (30xx), a construct without end
(31xx), a limit (32xx). -/
inductive Code where
  | expectedToken
  | expectedValue
  | expectedExpression
  | unterminatedString
  | unterminatedPlaceholder
  | unterminatedComment
  | nestingDepthExceeded
  deriving DecidableEq, Repr

namespace Code

def all : List Code :=
  [expectedToken, expectedValue, expectedExpression, unterminatedString,
    unterminatedPlaceholder, unterminatedComment, nestingDepthExceeded]

def label : Code → String
  | expectedToken => "EXPECTED_TOKEN"
  | expectedValue => "EXPECTED_VALUE"
  | expectedExpression => "EXPECTED_EXPRESSION"
  | unterminatedString => "UNTERMINATED_STRING"
  | unterminatedPlaceholder => "UNTERMINATED_PLACEHOLDER"
  | unterminatedComment => "UNTERMINATED_COMMENT"
  | nestingDepthExceeded => "NESTING_DEPTH_EXCEEDED"

def number : Code → Nat
  | expectedToken => 3001
  | expectedValue => 3002
  | expectedExpression => 3003
  | unterminatedString => 3101
  | unterminatedPlaceholder => 3102
  | unterminatedComment => 3103
  | nestingDepthExceeded => 3201

def ofLabel? (text : String) : Option Code :=
  all.find? fun code => code.label = text

end Code

/-- The source around a position: the end of what comes before it and the
beginning of what follows. -/
structure Window where
  position : Nat
  consumed : String
  remaining : String
  deriving DecidableEq, Repr

def windowWidth : Nat := 128

namespace Window

/-- The window of a source around an offset.  An offset past the end is kept as
it is. -/
def around (source : List Char) (offset : Nat) : Window where
  position := offset
  consumed := String.ofList ((source.take offset).drop (offset - windowWidth))
  remaining := String.ofList ((source.drop offset).take windowWidth)

/-- A window can only be made for a position that is not negative. -/
structure NegativePosition where
  position : Int

def NegativePosition.message (e : NegativePosition) : String :=
  "SourceContext.position must be >= 0, got " ++ Text.integer e.position

def ofParts (position : Int) (consumed remaining : String) :
    Except NegativePosition Window :=
  if position < 0 then .error ⟨position⟩
  else .ok ⟨position.toNat, consumed, remaining⟩

end Window

structure Diagnostic where
  code : Code
  message : String
  window : Option Window := none
  expected : List String := []
  hint : Option String := none
  deriving DecidableEq, Repr

inductive Cause where
  | expectedToken (what : String)
  | expectedValue
  | expectedExpression
  | unterminatedString (delimiter : String)
  | unterminatedPlaceholder
  | unterminatedComment
  | tooDeep (limit : Int)
  deriving DecidableEq, Repr

namespace Cause

def diagnostic (window : Option Window) : Cause → Diagnostic
  | expectedToken what =>
    { code := .expectedToken
      message := "Expected " ++ what
      window, expected := [what] }
  | expectedValue =>
    { code := .expectedValue
      message := "Expected a value (string, array or object)"
      window, expected := ["'", "\"", "[", "\x7b"]
      hint := "Values start with a quote, '[' or '\x7b'" }
  | expectedExpression =>
    { code := .expectedExpression
      message := "Expected an expression"
      window
      hint := "Expressions start with '(', a number, a value or a name" }
  | unterminatedString delimiter =>
    { code := .unterminatedString
      message :=
        "Unterminated string literal (missing closing " ++ delimiter ++ ")"
      window, expected := [delimiter] }
  | unterminatedPlaceholder =>
    { code := .unterminatedPlaceholder
      message := "Unterminated placeholder (missing closing '\x7d\x7d')"
      window, expected := ["\x7d\x7d"]
      hint := "Escape literal braces as \\\x7b and \\\x7d" }
  | unterminatedComment =>
    { code := .unterminatedComment
      message := "Unterminated comment (missing closing '*/')"
      window, expected := ["*/"] }
  | tooDeep limit =>
    { code := .nestingDepthExceeded
      message := "Maximum nesting depth (" ++ Text.integer limit ++ ") exceeded"
      window
      hint := "Reduce nesting or raise max_nesting_depth" }

end Cause

end L20n
