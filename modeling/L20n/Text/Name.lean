/-!
Names: a letter, then letters, digits and underscores.  Only the letters and
digits of ASCII count.
-/

namespace L20n.Text

def isWordChar (c : Char) : Bool :=
  c.isAlphanum || c == '_'

/-- The names of entries, attributes, object members and identifiers. -/
def isName : List Char → Bool
  | [] => false
  | c :: rest => c.isAlpha && rest.all isWordChar

example : isName ['a', '_', '1'] = true := by decide
example : isName ['1', 'a'] = false := by decide
example : isName [] = false := by decide

end L20n.Text
