import L20n.Reader.Literal

/-!
The constructs that open a nesting level.  The rules of the grammar are written
over an `Inner`, which reads these constructs once their level is entered; the
rules themselves then give the `Inner` of the next level outwards.
-/

namespace L20n

/-- Readers for what stands inside a level that has just been entered. -/
structure Inner where
  array : Reader Value
  object : Reader Value
  conditional : Reader (Option Expr)
  logical : Reader (Option Expr)
  binary : Reader (Option Expr)

/-- Where no further level can be entered, nothing is read. -/
def Inner.closed : Inner :=
  let refused {α : Type} : Reader α := do
    Reader.fail (.tooDeep (← get).guard.limit)
  ⟨refused, refused, refused, refused, refused⟩

end L20n
