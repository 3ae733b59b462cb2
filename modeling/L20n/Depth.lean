import L20n.Text.Numeral

/-!
Nesting limits.  A guard counts the levels that are entered and refuses to go
past its limit; every recursive action runs its inner part through `atLevel`,
which leaves the level again however the inner part ends.
-/

namespace L20n

/-- Counts entered levels.  A place can be left pending for the next level to
be entered; a refusal then carries it. -/
structure DepthGuard (Place : Type) where
  limit : Int
  depth : Int := 0
  pending : Option Place := none

/-- A level that was not entered, with the place that was pending. -/
structure Refusal (Place : Type) where
  limit : Int
  place : Option Place

namespace DepthGuard

variable {Place : Type}

/-- Leaves a place pending for the next level. -/
def entering (guard : DepthGuard Place) (place : Option Place) :
    DepthGuard Place :=
  { guard with pending := place }

/-- Enters one level, unless the limit is reached.  Either way the pending
place is used up. -/
def enter : EStateM (Refusal Place) (DepthGuard Place) Unit := fun guard =>
  if guard.limit ≤ guard.depth then
    .error ⟨guard.limit, guard.pending⟩ { guard with pending := none }
  else
    .ok () { guard with depth := guard.depth + 1, pending := none }

def exit (guard : DepthGuard Place) : DepthGuard Place :=
  { guard with depth := guard.depth - 1 }

def reset (guard : DepthGuard Place) : DepthGuard Place :=
  { guard with depth := 0 }

/-- How many levels can still be entered. -/
def levels (guard : DepthGuard Place) : Nat :=
  (guard.limit - guard.depth).toNat

end DepthGuard

structure Guarded (σ Place : Type) where
  data : σ
  guard : DepthGuard Place

/-- Runs `body` one level further in and leaves that level afterwards, also
when `body` fails.  A refused level leaves `body` out and fails. -/
def atLevel {σ Place ε α : Type} (refuse : Refusal Place → ε)
    (place : σ → Option Place) (body : EStateM ε (Guarded σ Place) α) :
    EStateM ε (Guarded σ Place) α := fun s =>
  match (s.guard.entering (place s.data)).enter with
  | .error refusal guard => .error (refuse refusal) { s with guard }
  | .ok () guard =>
    match body { s with guard } with
    | .ok a s' => .ok a { s' with guard := s'.guard.exit }
    | .error e s' => .error e { s' with guard := s'.guard.exit }

/-- The stack that nesting has to fit in: some frames are kept free, and each
level takes a number of them. -/
structure StackBudget where
  reserved : Int := 50
  perLevel : Int := 1

def stackFrames : Int := 1000

/-- A requested depth that was lowered to what the stack allows. -/
structure Clamping where
  requested : Int
  ceiling : Int
  budget : StackBudget

def Clamping.message (c : Clamping) : String :=
  "Clamping requested depth " ++ Text.integer c.requested
    ++ " to " ++ Text.integer c.ceiling
    ++ " (recursion limit " ++ Text.integer stackFrames
    ++ ", " ++ Text.integer c.budget.reserved ++ " frames reserved, "
    ++ Text.integer c.budget.perLevel ++ " frames per level)"

namespace StackBudget

/-- The greatest depth that fits, rounded down. -/
def ceiling (budget : StackBudget) : Int :=
  Int.fdiv (stackFrames - budget.reserved) budget.perLevel

/-- Lowers a depth that does not fit, and tells so. -/
def clamp (budget : StackBudget) (requested : Int) : Int × List Clamping :=
  if requested ≤ budget.ceiling then (requested, [])
  else (budget.ceiling, [⟨requested, budget.ceiling, budget⟩])

/-- Like `clamp`, for a budget that comes from a caller: levels that take no
frames set no ceiling. -/
def clamp? (budget : StackBudget) (requested : Int) :
    Option (Int × List Clamping) :=
  if budget.perLevel = 0 then none else some (budget.clamp requested)

def noFramesMessage : String := "integer division or modulo by zero"

/-- The budget of walking and writing a tree.  It reckons with one frame a level, and two
or more are taken. -/
def walking : StackBudget := {}

/-- The budget of reading, with nine frames a level. -/
def reading : StackBudget := { perLevel := 9 }

theorem ceiling_walking : walking.ceiling = 950 := by decide

theorem ceiling_reading : reading.ceiling = 105 := by decide

end StackBudget

def defaultDepth : Int := 100

/-- A guard for a depth that a caller asks for. -/
def DepthGuard.ofRequest {Place : Type} (requested : Int) :
    DepthGuard Place × List Clamping :=
  let (limit, notes) := StackBudget.walking.clamp requested
  ({ limit }, notes)

end L20n
