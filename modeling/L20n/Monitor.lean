import L20n.Depth

/-!
Calls.  What recurses over a tree takes frames of the interpreter's stack, and the
call for which there is no frame left is broken off, wherever the action stands and
whatever its guard allows.  A monitor stands for this: it looks on at the calls that
lead from one part of a tree to the next and breaks some of them off.  Calls that come
back before the next part is taken up are left out, but for two by which the parts of a
node are found and those that build the error of a refused level: what is left out takes
a few frames at the end of the stack, and none that add up with the height of a tree.
-/

namespace L20n

/-- What looks on at the calls of an action: the frames in use, and whether a call is
broken off that would bring them to this number with so many levels entered. -/
structure Monitor where
  frames : Nat := 0
  breaks : Nat → Int → Bool

namespace Monitor

/-- The stack of an interpreter, with room for this many frames besides the few at its end
that calls which are left out take. -/
def stack (room : Nat) : Monitor :=
  { breaks := fun frames _ => decide (room < frames) }

/-- The calls that build the error of a refused level. -/
def refusing : Nat := 8

def withFrames (monitor : Monitor) (frames : Nat) : Monitor :=
  { monitor with frames }

/-- What is reported of an action that was broken off. -/
def message : String := "maximum recursion depth exceeded"

def inUse (monitor : Option Monitor) : Nat :=
  (monitor.map frames).getD 0

def atFrames (monitor : Option Monitor) (frames : Nat) : Option Monitor :=
  monitor.map fun monitor => monitor.withFrames frames

/-- The monitor, if there is one, breaks off the call. -/
def breaksOff (monitor : Option Monitor) (frames : Nat) (depth : Int) : Bool :=
  monitor.any fun monitor => monitor.breaks frames depth

/-- The monitor breaks off no call up to these frames and this depth. -/
def Quiet (monitor : Option Monitor) (frames : Nat) (depth : Int) : Prop :=
  ∀ f ≤ frames, ∀ d ≤ depth, breaksOff monitor f d = false

theorem atFrames_inUse (monitor : Option Monitor) :
    atFrames monitor (inUse monitor) = monitor := by
  cases monitor <;> rfl

theorem Quiet.mono {monitor : Option Monitor} {frames frames' : Nat} {depth depth' : Int}
    (h : Quiet monitor frames depth) (hframes : frames' ≤ frames)
    (hdepth : depth' ≤ depth) : Quiet monitor frames' depth' :=
  fun f hf d hd => h f (Nat.le_trans hf hframes) d (Int.le_trans hd hdepth)

theorem quiet_stack {room frames : Nat} {depth : Int} (h : frames ≤ room) :
    Quiet (some (stack room)) frames depth := by
  intro f hf d _
  simp only [breaksOff, stack, Option.any_some, decide_eq_false_iff_not]
  omega

end Monitor

/-- Actions under a depth guard that may have a monitor.  Without one, the stack has
no end. -/
abbrev Monitored (ε σ Place : Type) :=
  ReaderT (Option Monitor) (EStateM ε (Guarded σ Place))

section Monitored

variable {ε σ Place α : Type}

/-- Runs `body` inside `n` calls, unless they are broken off. -/
def inCalls (broken : ε) (n : Nat) (body : Monitored ε σ Place α) :
    Monitored ε σ Place α := fun monitor s =>
  match monitor with
  | none => body none s
  | some monitor =>
    if monitor.breaks (monitor.frames + n) s.guard.depth then .error broken s
    else body (some (monitor.withFrames (monitor.frames + n))) s

/-- Runs `body` one level further in, as `atLevel` does.  The error of a refused level is
built inside calls that may be broken off. -/
def inLevel (broken : ε) (refuse : Refusal Place → ε) (place : σ → Option Place)
    (body : Monitored ε σ Place α) : Monitored ε σ Place α := fun monitor s =>
  match monitor with
  | none => atLevel refuse place (body none) s
  | some monitor =>
    if s.guard.limit ≤ s.guard.depth ∧
        monitor.breaks (monitor.frames + Monitor.refusing) s.guard.depth then
      .error broken s
    else atLevel refuse place (body (some monitor)) s

section InLevel

variable {broken : ε} {refuse : Refusal Place → ε} {place : σ → Option Place}
  {body : Monitored ε σ Place α} {monitor : Option Monitor} {data : σ} {limit depth : Int}
  {pending : Option Place}

theorem inLevel_of_le (h : limit ≤ depth) :
    inLevel broken refuse place body monitor ⟨data, limit, depth, pending⟩ =
      if Monitor.breaksOff monitor (Monitor.inUse monitor + Monitor.refusing) depth then
        .error broken ⟨data, limit, depth, pending⟩
      else .error (refuse ⟨limit, place data⟩) ⟨data, limit, depth, none⟩ := by
  have hrefused (x : EStateM ε (Guarded σ Place) α) :
      atLevel refuse place x ⟨data, limit, depth, pending⟩ =
        .error (refuse ⟨limit, place data⟩) ⟨data, limit, depth, none⟩ := by
    simp [atLevel, DepthGuard.entering, DepthGuard.enter, h]
  cases monitor with
  | none => exact hrefused _
  | some monitor =>
      rw [inLevel, hrefused]
      exact ite_congr (propext (and_iff_right h)) (fun _ => rfl) (fun _ => rfl)

theorem inLevel_of_lt (h : depth < limit) :
    inLevel broken refuse place body monitor ⟨data, limit, depth, pending⟩ =
      match body monitor ⟨data, limit, depth + 1, none⟩ with
      | .ok a s => .ok a { s with guard := s.guard.exit }
      | .error e s => .error e { s with guard := s.guard.exit } := by
  have hentered (x : EStateM ε (Guarded σ Place) α) :
      atLevel refuse place x ⟨data, limit, depth, pending⟩ =
        match x ⟨data, limit, depth + 1, none⟩ with
        | .ok a s => .ok a { s with guard := s.guard.exit }
        | .error e s => .error e { s with guard := s.guard.exit } := by
    simp only [atLevel, DepthGuard.entering, DepthGuard.enter, Int.not_le.2 h, if_false]
    cases x ⟨data, limit, depth + 1, none⟩ <;> rfl
  cases monitor with
  | none => exact hentered _
  | some monitor =>
      simp only [inLevel, hentered, Int.not_le.2 h, false_and, if_false]

end InLevel

end Monitored

end L20n
