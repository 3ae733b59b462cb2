/-!
Backslash escapes of string literals: decoding what was read, and encoding
what is written.

Decoding replaces one escape after another in the whole text, the escaped
backslash first.  A backslash that comes out of the first replacement can
therefore form an escape with the character after it.
-/

namespace L20n.Text

/-- The characters that may follow a backslash in an escape, each with what
the escape stands for, in the order in which they are decoded. -/
def escapes : List (Char × Char) :=
  [('\\', '\\'), ('n', '\n'), ('r', '\r'), ('t', '\t'), ('b', '\x08'),
    ('f', '\x0c'), ('\x7b', '\x7b'), ('\x7d', '\x7d'), ('"', '"'),
    ('\x27', '\x27')]

/-- Replaces every backslash with `letter` after it by `meaning`, from left to
right and without overlaps. -/
def replaceEscape (letter meaning : Char) : List Char → List Char
  | [] => []
  | [c] => [c]
  | c :: d :: rest =>
    if c = '\\' ∧ d = letter then meaning :: replaceEscape letter meaning rest
    else c :: replaceEscape letter meaning (d :: rest)

/-- Decodes the escapes of a text, one kind after the other. -/
def decode (text : List Char) : List Char :=
  escapes.foldl
    (fun text (letter, meaning) => replaceEscape letter meaning text) text

def encodeChar (c : Char) : List Char :=
  if c = '\\' ∨ c = '"' ∨ c = '\x7b' ∨ c = '\x7d' then ['\\', c]
  else if c = '\n' then ['\\', 'n']
  else if c = '\r' then ['\\', 'r']
  else if c = '\t' then ['\\', 't']
  else if c = '\x08' then ['\\', 'b']
  else if c = '\x0c' then ['\\', 'f']
  else [c]

/-- How a text is written inside a double-quoted literal. -/
def encode (text : List Char) : List Char :=
  text.flatMap encodeChar

/-- The characters that, after a backslash in the text itself, would be read
back as an escape. -/
def isEscapeLetter (c : Char) : Bool :=
  ['n', 'r', 't', 'b', 'f', '\x7b', '\x7d', '"', '\x27'].contains c

/-- Some backslash of the text stands right before an escape letter. -/
def hasAmbiguousBackslash : List Char → Bool
  | c :: d :: rest =>
    (c == '\\' && isEscapeLetter d) || hasAmbiguousBackslash (d :: rest)
  | _ => false

example : decode ['\\', '\\', 'n'] = ['\n'] := by decide
example : decode ['\\', 'q'] = ['\\', 'q'] := by decide
example : decode (encode ['"', '\n', '\x7b']) = ['"', '\n', '\x7b'] := by decide

end L20n.Text
