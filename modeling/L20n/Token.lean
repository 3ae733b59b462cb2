import L20n.Operator
import L20n.Text.Blank
import L20n.Text.Find
import L20n.Text.Name

/-!
Tokens: how each one is recognised at the front of a text, and where blanks may
stand around it.
-/

namespace L20n

inductive Token where
  | name
  | number
  | digits
  | colon
  | comma
  | question
  | valueOpen
  | delimiter
  | arrayOpen
  | arrayClose
  | objectOpen
  | objectClose
  | parenOpen
  | parenClose
  | commentOpen
  | commentClose
  | entryOpen
  | entryClose
  | attributeDot
  | attributeIndexOpen
  | propertyDot
  | propertyIndexOpen
  | callOpen
  | unaryOp
  | binaryOp
  | logicalOp
  deriving DecidableEq, Repr

/-- What a token is made of: a first character and word characters after it, a
row of digits, or the first of some fixed texts that fits. -/
inductive Token.Shape where
  | word (first : Char → Bool)
  | digits
  | oneOf (texts : List (List Char))

namespace Token

open Text

def shape : Token → Shape
  | name => .word Char.isAlpha
  | number => .word Char.isDigit
  | digits => .digits
  | colon => .oneOf [[':']]
  | comma => .oneOf [[',']]
  | question => .oneOf [['?']]
  | valueOpen => .oneOf [['\x27'], ['"'], ['['], ['\x7b']]
  | delimiter =>
    .oneOf [['\x27', '\x27', '\x27'], ['"', '"', '"'], ['\x27'], ['"']]
  | arrayOpen => .oneOf [['[']]
  | arrayClose => .oneOf [[']']]
  | objectOpen => .oneOf [['\x7b']]
  | objectClose => .oneOf [['\x7d']]
  | parenOpen => .oneOf [['(']]
  | parenClose => .oneOf [[')']]
  | commentOpen => .oneOf [['/', '*']]
  | commentClose => .oneOf [['*', '/']]
  | entryOpen => .oneOf [['<']]
  | entryClose => .oneOf [['>']]
  | attributeDot => .oneOf [['.', '.']]
  | attributeIndexOpen => .oneOf [['[', '.']]
  | propertyDot => .oneOf [['.']]
  | propertyIndexOpen => .oneOf [['[']]
  | callOpen => .oneOf [['(']]
  | unaryOp => .oneOf (UnaryOp.all.map UnaryOp.symbol)
  | binaryOp => .oneOf (BinaryOp.all.map BinaryOp.symbol)
  | logicalOp => .oneOf (LogicalOp.all.map LogicalOp.symbol)

/-- Blanks may stand in front of a token, except where it has to follow
directly: the openers of a member chain, the end of a comment and the digits
inside a numeral. -/
def blankBefore : Token → Bool
  | digits | commentClose | attributeDot | attributeIndexOpen | propertyDot
  | propertyIndexOpen | callOpen => false
  | _ => true

/-- The separators take the blanks after them along. -/
def blankAfter : Token → Bool
  | colon | comma | question => true
  | _ => false

def firstOf? :
    List (List Char) → List Char → Option (List Char × List Char)
  | [], _ => none
  | choice :: choices, text =>
    match after? choice text with
    | some rest => some (choice, rest)
    | none => firstOf? choices text

/-- The longest piece of this shape at the front of a text, and what follows. -/
def Shape.split? : Shape → List Char → Option (List Char × List Char)
  | .word _, [] => none
  | .word first, c :: text =>
    if first c then
      some (c :: text.takeWhile isWordChar, text.dropWhile isWordChar)
    else none
  | .digits, text =>
    match text.takeWhile Char.isDigit with
    | [] => none
    | row => some (row, text.dropWhile Char.isDigit)
  | .oneOf texts, text => firstOf? texts text

/-- A token found at the front of a text: the blanks before it, the token with
the blanks it takes along, and what follows. -/
structure Match where
  blank : List Char
  lexeme : List Char
  rest : List Char

def match? (token : Token) (text : List Char) : Option Match :=
  let blank := if token.blankBefore then text.takeWhile isBlank else []
  let body := if token.blankBefore then trimStart text else text
  match token.shape.split? body with
  | none => none
  | some (lexeme, rest) =>
    if token.blankAfter then
      some ⟨blank, lexeme ++ rest.takeWhile isBlank, trimStart rest⟩
    else some ⟨blank, lexeme, rest⟩

/-- Finds the first place of the text where the token is, and what follows it
there. -/
def find? (token : Token) : List Char → Option Match
  | [] => token.match? []
  | c :: text =>
    match token.match? (c :: text) with
    | some found => some found
    | none => find? token text

def Match.source (found : Match) : List Char :=
  found.blank ++ found.lexeme

theorem append_of_firstOf? {choices : List (List Char)}
    {text lexeme rest : List Char}
    (h : firstOf? choices text = some (lexeme, rest)) :
    lexeme ∈ choices ∧ lexeme ++ rest = text := by
  induction choices with
  | nil => simp [firstOf?] at h
  | cons choice choices ih =>
      cases hat : after? choice text with
      | some found =>
          simp only [firstOf?, hat, Option.some.injEq, Prod.mk.injEq] at h
          obtain ⟨rfl, rfl⟩ := h
          exact ⟨List.mem_cons_self, after?_eq_some_iff.1 hat⟩
      | none =>
          simp only [firstOf?, hat] at h
          obtain ⟨hmem, happend⟩ := ih h
          exact ⟨List.mem_cons_of_mem choice hmem, happend⟩

theorem append_of_split? {shape : Shape} {text lexeme rest : List Char}
    (h : shape.split? text = some (lexeme, rest)) : lexeme ++ rest = text := by
  cases shape with
  | word first =>
      cases text with
      | nil => simp [Shape.split?] at h
      | cons c text =>
          by_cases hc : first c = true
          · simp only [Shape.split?, hc, if_true, Option.some.injEq,
              Prod.mk.injEq] at h
            obtain ⟨rfl, rfl⟩ := h
            simp
          · simp [Shape.split?, hc] at h
  | digits =>
      cases hrow : text.takeWhile Char.isDigit with
      | nil => simp [Shape.split?, hrow] at h
      | cons d row =>
          simp only [Shape.split?, hrow, Option.some.injEq, Prod.mk.injEq] at h
          obtain ⟨rfl, rfl⟩ := h
          rw [← hrow]
          exact List.takeWhile_append_dropWhile
  | oneOf texts => exact (append_of_firstOf? h).2

/-- A match and what follows it make up the text. -/
theorem append_of_match? {token : Token} {text : List Char} {found : Match}
    (h : token.match? text = some found) :
    found.source ++ found.rest = text := by
  simp only [match?] at h
  split at h
  · simp at h
  next lexeme rest hsplit =>
    have hbody := append_of_split? hsplit
    have htext : (if token.blankBefore then text.takeWhile isBlank else []) ++
        (lexeme ++ rest) = text := by
      rw [hbody]
      split
      · exact takeWhile_append_trimStart text
      · rfl
    split at h <;> cases h
    · simp only [Match.source, List.append_assoc, takeWhile_append_trimStart]
      exact htext
    · simpa [Match.source] using htext

end Token

end L20n
