import L20n.Reader
import L20n.Text.Escape
import L20n.Tree

/-!
String literals.  The body of a literal is a row of pieces up to the first
delimiter that is neither escaped nor inside a placeholder.
-/

namespace L20n

/-- Whether a string with placeholders is read as one text or as segments. -/
inductive StringMode where
  | whole
  | split
  deriving DecidableEq, Repr

inductive Piece where
  | plain (c : Char)
  | escaped (c : Char)
  | placeholder (source : List Char)
  deriving DecidableEq, Repr

namespace Piece

def raw : Piece → List Char
  | plain c => [c]
  | escaped c => ['\\', c]
  | placeholder source => source

def isPlaceholder : Piece → Bool
  | placeholder _ => true
  | _ => false

end Piece

/-- The body of a literal: closed by its delimiter, or stopped by a placeholder
or by a literal without end. -/
inductive Body where
  | closed (pieces : List Piece) (rest : List Char)
  | openPlaceholder (place : List Char)
  | openLiteral

def Body.push (piece : Piece) : Body → Body
  | closed pieces rest => closed (piece :: pieces) rest
  | other => other

/-- Splits the text after an opening delimiter into pieces.  A delimiter ends
the body, a backslash takes the next character along, two opening braces start
a placeholder that ends with the next two closing ones. -/
def Body.scan (delimiter text : List Char) : Body :=
  match Text.after? delimiter text with
  | some rest => closed [] rest
  | none =>
    match text with
    | [] => openLiteral
    | ['\\'] => openLiteral
    | '\\' :: c :: rest => (scan delimiter rest).push (.escaped c)
    | '\x7b' :: '\x7b' :: rest =>
      match _h : Text.through? ['\x7d', '\x7d'] rest with
      | none => openPlaceholder ('\x7b' :: '\x7b' :: rest)
      | some (inner, after) =>
        (scan delimiter after).push (.placeholder ('\x7b' :: '\x7b' :: inner))
    | c :: rest => (scan delimiter rest).push (.plain c)
termination_by text.length
decreasing_by
  · simp only [List.length_cons]; omega
  · have := Text.length_le_of_through? ‹_›
    simp only [List.length_cons]; omega
  · simp only [List.length_cons]; omega

theorem Body.push_eq_closed_iff {piece : Piece} {body : Body}
    {pieces : List Piece} {rest : List Char} :
    body.push piece = closed pieces rest ↔
      ∃ tail, pieces = piece :: tail ∧ body = closed tail rest := by
  cases body <;> simp [push, eq_comm, and_left_comm]

/-- The pieces of a closed body, its delimiter and what follows make up the
text. -/
theorem Body.append_of_scan {delimiter text rest : List Char}
    {pieces : List Piece} (h : scan delimiter text = closed pieces rest) :
    pieces.flatMap Piece.raw ++ delimiter ++ rest = text := by
  fun_induction scan delimiter text generalizing pieces with
  | case1 text after hafter =>
      cases h
      simpa using Text.after?_eq_some_iff.1 hafter
  | case2 | case3 | case5 => cases h
  | case4 c tail _ ih =>
      obtain ⟨more, rfl, hscan⟩ := push_eq_closed_iff.1 h
      simpa [Piece.raw] using ih hscan
  | case6 tail inner after hthrough _ ih =>
      obtain ⟨more, rfl, hscan⟩ := push_eq_closed_iff.1 h
      have hinner := Text.append_of_through? hthrough
      simpa [Piece.raw, ← hinner] using ih hscan
  | case7 c tail _ _ _ _ ih =>
      obtain ⟨more, rfl, hscan⟩ := push_eq_closed_iff.1 h
      simpa [Piece.raw] using ih hscan

/-- The raw text before the first placeholder, and each placeholder with the
raw text after it. -/
def runs : List Piece → List Char × List (List Char × List Char)
  | [] => ([], [])
  | .placeholder source :: pieces =>
    let (run, more) := runs pieces
    ([], (source, run) :: more)
  | piece :: pieces =>
    let (run, more) := runs pieces
    (piece.raw ++ run, more)

def textSegment : List Char → List Segment
  | [] => []
  | run => [.text (String.ofList (Text.decode run))]

/-- The segments of a body: the decoded text between the placeholders, and the
placeholders as they stand. -/
def segments (pieces : List Piece) : List Segment :=
  let (run, more) := runs pieces
  textSegment run ++ more.flatMap fun (source, run) =>
    .placeholder (String.ofList source) :: textSegment run

/-- The string that a literal with this body stands for. -/
def Value.ofPieces (mode : StringMode) (pieces : List Piece) : Value :=
  if mode = .split ∧ pieces.any Piece.isPlaceholder then
    .parts (segments pieces)
  else
    .string (String.ofList (Text.decode (pieces.flatMap Piece.raw)))

def Reader.literal (mode : StringMode) : Reader Value := do
  let delimiter ← expect .delimiter "a string delimiter"
  match Body.scan delimiter (← ahead) with
  | .closed pieces rest =>
    modify fun s => { s with data := rest }
    return Value.ofPieces mode pieces
  | .openPlaceholder place =>
    modify fun s => { s with data := place }
    fail .unterminatedPlaceholder
  | .openLiteral => fail (.unterminatedString (String.ofList delimiter))

end L20n
