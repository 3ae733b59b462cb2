import L20n.Reader.Entry

/-!
A run reads entry after entry until none follows or one is at fault.
-/

namespace L20n

/-- The entries read, in order and with repeated keys, and how the run ended:
with an error, or at a text where no entry starts. -/
structure Run where
  registered : List (String × Entry)
  error : Option ReadError
  state : Guarded (List Char) (List Char)

namespace Run

def upTo (mode : StringMode) : Nat → Guarded (List Char) (List Char) → Run
  | 0, s => ⟨[], none, s⟩
  | n + 1, s =>
    match Reader.entryAhead? mode s with
    | .error e s' => ⟨[], some e, s'⟩
    | .ok none s' => ⟨[], none, s'⟩
    | .ok (some pair) s' =>
      let run := upTo mode n s'
      { run with registered := pair :: run.registered }

/-- Reads all entries of a source.  There are at most as many of them as
characters. -/
def ofSource (mode : StringMode) (limit : Int) (source : List Char) : Run :=
  upTo mode source.length ⟨source, { limit }⟩

/-- The resource of the entries read.  A later entry takes the place of an
earlier one with its key. -/
def resource (run : Run) : Resource :=
  ⟨Table.ofRegistered run.registered⟩

end Run

end L20n
