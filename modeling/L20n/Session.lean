import L20n.Resource.Read

/-!
Sessions read a source rule by rule.  A session keeps its position and its
guard from one rule to the next, also when a rule fails.
-/

namespace L20n

/-- A source, the position in it, and the guard.  The position may lie past the
end, where nothing is ahead. -/
structure Session where
  source : List Char
  offset : Nat
  mode : StringMode
  guard : DepthGuard (List Char)

namespace Session

def start (source : String) (offset : Nat) (mode : StringMode)
    (maxDepth : Int) : Session :=
  let limit := (StackBudget.reading.clamp maxDepth).1
  ⟨source.toList, offset, mode, { limit }⟩

def ahead (session : Session) : List Char :=
  session.source.drop session.offset

def window (session : Session) : Window :=
  Window.around session.source session.offset

/-- The offset of a place, given by the text ahead of it. -/
def offsetOf (session : Session) (place : List Char) : Nat :=
  session.offset + (session.ahead.length - place.length)

/-- Moves forward to an offset, and never past the end of the source. -/
def advanceTo (session : Session) (offset : Int) : Session :=
  { session with
    offset := min (max offset.toNat session.offset) session.source.length }

def moved (session : Session) (s : Guarded (List Char) (List Char)) : Session :=
  { session with offset := session.offsetOf s.data, guard := s.guard }

/-- Runs a reader from the position and moves on to where it stops. -/
def run {α : Type} (session : Session) (reader : Reader α) :
    Except ReadFailure α × Session :=
  match reader ⟨session.ahead, session.guard⟩ with
  | .ok a s => (.ok a, session.moved s)
  | .error e s =>
    (.error (e.failure fun place =>
        Window.around session.source (session.offsetOf place)),
      session.moved s)

def runRule {α : Type} (session : Session) (rule : Inner → Reader α) :
    Except ReadFailure α × Session :=
  session.run (Reader.withLevels session.mode rule)

end Session

end L20n
