/-!
Clipping: keeping only the beginning of a text.
-/

namespace L20n.Text

/-- The first `limit` characters, or all but the last `-limit` when the limit
is negative. -/
def takeSigned (limit : Int) (text : List Char) : List Char :=
  if limit < 0 then text.take (text.length - limit.natAbs)
  else text.take limit.natAbs

/-- A text longer than the limit is cut there and marked with three dots. -/
def clip (limit : Int) (text : String) : String :=
  if (text.toList.length : Int) > limit then
    String.ofList (takeSigned limit text.toList) ++ "..."
  else text

end L20n.Text
