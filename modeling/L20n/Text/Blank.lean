/-!
Blank characters: what may stand between two tokens, and what trimming takes
away from a text.
-/

namespace L20n.Text

/-- The blank characters.  The zero-width ones are not among them. -/
def isBlank (c : Char) : Bool :=
  (0x09 ≤ c.toNat && c.toNat ≤ 0x0D) ||
    (0x1C ≤ c.toNat && c.toNat ≤ 0x20) ||
    (0x2000 ≤ c.toNat && c.toNat ≤ 0x200A) ||
    [0x85, 0xA0, 0x1680, 0x2028, 0x2029, 0x202F, 0x205F, 0x3000].contains
      c.toNat

def trimStart (text : List Char) : List Char :=
  text.dropWhile isBlank

def trimEnd (text : List Char) : List Char :=
  (trimStart text.reverse).reverse

def trim (text : List Char) : List Char :=
  trimEnd (trimStart text)

/-- Skipping blanks loses nothing but blanks. -/
theorem takeWhile_append_trimStart (text : List Char) :
    text.takeWhile isBlank ++ trimStart text = text :=
  List.takeWhile_append_dropWhile

theorem length_trimStart_le (text : List Char) :
    (trimStart text).length ≤ text.length := by
  have h := congrArg List.length (takeWhile_append_trimStart text)
  simp only [List.length_append] at h
  omega

end L20n.Text
