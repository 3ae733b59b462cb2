import L20n.Proofs.Outcome

/-!
What a writer takes of the stack.  A monitor can only break a writer off: where it does
not, the writer does what it does on a stack without end.  The frames that a tree takes
tell which monitors make no difference, and a stack on which a text is given has room for
them.
-/

namespace L20n

namespace Writer

variable {α β : Type} {k m n : Nat} {limit depth : Int}

/-- How a run under a monitor stands to the run on a stack without end, if the writer
takes `k` frames: it is the same, and the last of the frames was there if an answer is
given, or it is broken off, at a call or where the error of a refused level is built. -/
inductive Tracks (monitor : Monitor) (limit depth : Int) (k : Nat) :
    EStateM.Result WriteError (Guarded Unit Window) α →
    EStateM.Result WriteError (Guarded Unit Window) α → Prop
  | same {free} (h : ∀ a s, free = .ok a s →
      k = 0 ∨ ∃ d, monitor.breaks (monitor.frames + k) d = false) :
      Tracks monitor limit depth k free free
  | broken {free} (h : ¬ Monitor.Quiet (some monitor) (monitor.frames + k)
      (max limit depth)) :
      Tracks monitor limit depth k free (.error .stackFull ⟨(), guardAt limit depth⟩)
  | refused {refusal s} (h : ¬ Monitor.Quiet (some monitor)
      (monitor.frames + k + Monitor.refusing) (max limit depth)) :
      Tracks monitor limit depth k (.error (.tooDeep refusal) s)
        (.error .stackFull ⟨(), guardAt limit depth⟩)

/-- The writer takes `k` frames. -/
def Uses (k : Nat) (x : Writer α) : Prop :=
  ∀ monitor limit depth, Tracks monitor limit depth k
    (x none ⟨(), guardAt limit depth⟩) (x (some monitor) ⟨(), guardAt limit depth⟩)

theorem uses_pure (a : α) : Uses 0 (pure a : Writer α) :=
  fun _ _ _ => .same fun _ _ _ => .inl rfl

theorem uses_throw (e : WriteError) : Uses 0 (throw e : Writer α) :=
  fun _ _ _ => .same fun _ _ _ => .inl rfl

theorem Uses.bind {x : Writer α} {f : α → Writer β} (hsteady : Steady x)
    (hx : Uses k x) (hf : ∀ a, Uses m (f a)) : Uses (max k m) (x >>= f) := by
  intro monitor limit depth
  have hguard := hsteady none limit depth
  have hrun := hx monitor limit depth
  simp only [Bind.bind, ReaderT.bind, EStateM.bind]
  simp only [final] at hguard
  generalize x none _ = free, x (some monitor) _ = run at hguard hrun ⊢
  cases hrun with
  | broken h =>
      exact .broken fun hquiet => h (hquiet.mono (by omega) (Int.le_refl _))
  | refused h =>
      exact .refused fun hquiet => h (hquiet.mono (by omega) (Int.le_refl _))
  | same hfirst =>
      cases free with
      | error e s =>
          refine .same fun a s h => ?_
          cases h
      | ok a s =>
          obtain ⟨⟨⟩, guard⟩ := s
          simp only at hguard
          subst hguard
          have hmore := hf a monitor limit depth
          change Tracks monitor limit depth (max k m)
            (f a none ⟨(), guardAt limit depth⟩)
            (f a (some monitor) ⟨(), guardAt limit depth⟩)
          generalize f a none _ = free, f a (some monitor) _ = run at hmore ⊢
          cases hmore with
          | broken h =>
              exact .broken fun hquiet => h (hquiet.mono (by omega) (Int.le_refl _))
          | refused h =>
              exact .refused fun hquiet => h (hquiet.mono (by omega) (Int.le_refl _))
          | same hsecond =>
              refine .same fun b s hb => ?_
              -- The frames of the one that takes more were there.
              rcases Nat.le_total k m with hle | hle
              · rw [Nat.max_eq_right hle]
                exact hsecond b s hb
              · rw [Nat.max_eq_left hle]
                exact hfirst a _ rfl

theorem Uses.pass {x : Writer α} {f : α → Writer β} (hsteady : Steady x) (hx : Uses 0 x)
    (hf : ∀ a, Uses m (f a)) : Uses m (x >>= f) :=
  Nat.zero_max m ▸ hx.bind hsteady hf

theorem Uses.last {x : Writer α} {f : α → Writer β} (hsteady : Steady x) (hx : Uses k x)
    (hf : ∀ a, Uses 0 (f a)) : Uses k (x >>= f) :=
  Nat.max_zero k ▸ hx.bind hsteady hf

theorem Uses.answer {x : Writer α} {f : α → β} (hsteady : Steady x) (hx : Uses k x) :
    Uses k (x >>= fun a => pure (f a)) :=
  hx.last hsteady fun _ => uses_pure _

theorem Uses.calls {x : Writer α} (hx : Uses k x) : Uses (n + k) (calls n x) := by
  intro monitor limit depth
  rw [calls_some, calls_none]
  by_cases hbroken : monitor.breaks (monitor.frames + n) depth = true
  · rw [if_pos hbroken]
    refine .broken fun hquiet => ?_
    have hfine := hquiet (monitor.frames + n) (by omega) depth (by omega)
    simp [Monitor.breaksOff, hbroken] at hfine
  · rw [if_neg hbroken]
    have hrun := hx (monitor.withFrames (monitor.frames + n)) limit depth
    generalize x none _ = free, x (some (monitor.withFrames _)) _ = run at hrun ⊢
    have hframes : (monitor.withFrames (monitor.frames + n)).frames + k =
        monitor.frames + (n + k) := Nat.add_assoc _ _ _
    cases hrun with
    | broken h =>
        rw [hframes] at h
        exact .broken h
    | refused h =>
        rw [hframes] at h
        exact .refused h
    | same h =>
        refine .same fun a s ha => .inr ?_
        rcases h a s ha with rfl | hlast
        · exact ⟨depth, Bool.eq_false_iff.2 hbroken⟩
        · rw [hframes] at hlast
          exact hlast

theorem Uses.deeper {x : Writer α} (hx : Uses k x) : Uses (1 + k) (deeper x) := by
  intro monitor limit depth
  by_cases hlimit : limit ≤ depth
  · have hfree : Writer.deeper x none ⟨(), guardAt limit depth⟩ =
        .error (.tooDeep ⟨limit, none⟩) ⟨(), guardAt limit depth⟩ := deeper_of_le hlimit
    rw [hfree, deeper_of_le hlimit]
    by_cases hbroken : Monitor.breaksOff (some monitor)
        (Monitor.inUse (some monitor) + Monitor.refusing) depth = true
    · rw [if_pos hbroken]
      refine .refused fun hquiet => ?_
      have hfine := hquiet (monitor.frames + Monitor.refusing) (by omega) depth (by omega)
      exact absurd hbroken (Bool.eq_false_iff.1 hfine)
    · rw [if_neg hbroken]
      exact .same fun a s h => nomatch h
  · have hrun := (hx.calls (n := 1)) monitor limit (depth + 1)
    have hdepth : max limit (depth + 1) ≤ max limit depth := by omega
    rw [deeper_of_lt (Int.not_le.1 hlimit), deeper_of_lt (Int.not_le.1 hlimit)]
    generalize Writer.calls 1 x none _ = free, Writer.calls 1 x (some monitor) _ = run
      at hrun ⊢
    cases hrun with
    | broken h =>
        simp only [exit_guardAt]
        exact .broken fun hquiet => h (hquiet.mono (Nat.le_refl _) hdepth)
    | refused h =>
        simp only [exit_guardAt]
        exact .refused fun hquiet => h (hquiet.mono (Nat.le_refl _) hdepth)
    | same h =>
        refine .same fun a s ha => ?_
        cases free with
        | error e s' => cases ha
        | ok a' s' => exact h a' s' rfl

theorem Uses.nested {x : Writer α} (hx : Uses k x) : Uses (2 + k) (nested x) := by
  have huses := hx.deeper.calls (n := 1)
  rwa [← Nat.add_assoc] at huses

end Writer

mutual

/-- The frames that writing a value takes, one for what is inside of each level. -/
def Value.frames : Value → Nat
  | .string _ | .parts _ => 0
  | .array items => 1 + valuesFrames items
  | .object members => 1 + membersFrames members

def valuesFrames : List Value → Nat
  | [] => 0
  | v :: rest => max v.frames (valuesFrames rest)

def membersFrames : List (String × Value) → Nat
  | [] => 0
  | (_, v) :: rest => max v.frames (membersFrames rest)

end

/-- The frames that an operand takes that takes so many itself, with those that ask
whether it fits. -/
def Expr.fittedFrames (allowed : Level) (e : Expr) (n : Nat) : Nat :=
  if e.level ≤ allowed then 2 + n else 3 + n

mutual

def Expr.frames : Expr → Nat
  | .number _ | .name _ => 0
  | .value v => 1 + v.frames
  | .paren e => 2 + e.frames
  | .attr base _ | .prop base _ => base.fittedFrames .member base.frames
  | .attrAt base index | .propAt base index =>
    max (base.fittedFrames .member base.frames) (2 + index.frames)
  | .call base arguments =>
    max (base.fittedFrames .member base.frames) (exprsFrames arguments)
  | .unary _ operand => operand.fittedFrames .member operand.frames
  | .binary _ left right => max (left.fittedFrames .unary left.frames) (3 + right.frames)
  | .logical _ left right => max (left.fittedFrames .binary left.frames) (3 + right.frames)
  | .conditional test consequent alternate =>
    max (test.fittedFrames .logical test.frames)
      (max (2 + consequent.frames) (2 + alternate.frames))

def exprsFrames : List Expr → Nat
  | [] => 0
  | e :: rest => max (3 + e.frames) (exprsFrames rest)

end

def Entry.frames : Entry → Nat
  | .macroDef params body => max (exprsFrames params) (2 + body.frames)
  | .complex index v attributes =>
    max (exprsFrames (index.getD []))
      (max (v.elim 0 fun v => 1 + v.frames) (1 + membersFrames (attributes.getD [])))
  | .plain v => v.elim 0 fun v => 1 + v.frames

def entriesFrames : List (String × Entry) → Nat
  | [] => 0
  | (_, entry) :: rest => max (1 + entry.frames) (entriesFrames rest)

def Resource.frames (r : Resource) : Nat :=
  entriesFrames r.entries

namespace Writer

theorem uses_name (role : NameRole) (key : String) : Uses 0 (name role key) := by
  rw [name]
  split
  · exact uses_pure _
  · exact uses_throw _

theorem uses_text (content : String) : Uses 0 (text content) := by
  rw [text]
  split
  · exact uses_throw _
  · exact uses_pure _

theorem uses_segments (parts : List Segment) : Uses 0 (segments parts) := by
  induction parts with
  | nil => exact uses_pure _
  | cons part parts ih =>
      have hpart : Uses 0 (segment part) := by
        cases part with
        | text content => exact uses_text content
        | placeholder source =>
            rw [segment]
            split
            · exact uses_pure _
            · exact uses_throw _
      exact hpart.pass (steady_segment part) fun _ => ih.answer (steady_segments parts)

theorem uses_number (k : Int) : Uses 0 (number k) := by
  rw [number]
  split
  · exact uses_throw _
  split
  · exact uses_throw _
  · exact uses_pure _

mutual

theorem uses_value : ∀ v : Value, Uses v.frames (value v)
  | .string content => by
      rw [value, Value.frames]
      exact (uses_text content).answer (steady_text content)
  | .parts parts => by
      rw [value, Value.frames]
      exact (uses_segments parts).answer (steady_segments parts)
  | .array items => by
      rw [value, Value.frames]
      exact ((uses_values items).answer (steady_values items)).deeper
  | .object pairs => by
      rw [value, Value.frames]
      exact ((uses_members .key pairs).answer (steady_members .key pairs)).deeper

theorem uses_values : ∀ items : List Value, Uses (valuesFrames items) (values items)
  | [] => by
      rw [values]
      exact uses_pure _
  | item :: items => by
      rw [values, valuesFrames]
      exact (uses_value item).bind (steady_value item) fun _ =>
        (uses_values items).answer (steady_values items)

theorem uses_members (role : NameRole) : ∀ pairs : List (String × Value),
    Uses (membersFrames pairs) (members role pairs)
  | [] => by
      rw [members]
      exact uses_pure _
  | (key, item) :: rest => by
      rw [members, membersFrames]
      exact (uses_name role key).pass (steady_name role key) fun _ =>
        (uses_value item).bind (steady_value item) fun _ =>
          (uses_members role rest).answer (steady_members role rest)

end

theorem Uses.operand {allowed : Level} {e : Expr} {x : Writer (List Char)}
    (hsteady : Steady x) (hx : Uses k x) :
    Uses (e.fittedFrames allowed k) (operand allowed e x) := by
  rw [Expr.fittedFrames, Writer.operand]
  by_cases hfits : e.level ≤ allowed
  · rw [if_pos hfits, if_pos hfits, Nat.add_assoc 1 1 k]
    exact hx.calls.calls
  · rw [if_neg hfits, if_neg hfits, Nat.add_assoc 1 2 k]
    exact (hx.nested.answer hsteady.nested).calls

theorem Uses.innerOperand {allowed : Level} {e : Expr} {x : Writer (List Char)}
    (hsteady : Steady x) (hx : Uses k x) : Uses (3 + k) (innerOperand allowed e x) := by
  rw [Writer.innerOperand, Nat.add_assoc 1 2 k]
  refine Uses.calls ?_
  split
  · exact hx.nested
  · exact hx.nested.answer hsteady.nested

mutual

theorem uses_expr : ∀ e : Expr, Uses e.frames (expr e)
  | .number k => by
      rw [expr, Expr.frames]
      exact uses_number k
  | .value v => by
      rw [expr, Expr.frames]
      exact (uses_value v).calls
  | .name key => by
      rw [expr, Expr.frames]
      exact uses_name .identifier key
  | .paren e => by
      rw [expr, Expr.frames]
      exact (uses_expr e).nested.answer (steady_expr e).nested
  | .attr base key => by
      rw [expr, Expr.frames]
      exact ((uses_expr base).operand (steady_expr base)).last (steady_expr base).operand
        fun _ => (uses_name .attribute key).answer (steady_name .attribute key)
  | .attrAt base index => by
      rw [expr, Expr.frames]
      exact ((uses_expr base).operand (steady_expr base)).bind (steady_expr base).operand
        fun _ => (uses_expr index).nested.answer (steady_expr index).nested
  | .prop base key => by
      rw [expr, Expr.frames]
      exact ((uses_expr base).operand (steady_expr base)).last (steady_expr base).operand
        fun _ => (uses_name .property key).answer (steady_name .property key)
  | .propAt base index => by
      rw [expr, Expr.frames]
      exact ((uses_expr base).operand (steady_expr base)).bind (steady_expr base).operand
        fun _ => (uses_expr index).nested.answer (steady_expr index).nested
  | .call base arguments => by
      rw [expr, Expr.frames]
      exact ((uses_expr base).operand (steady_expr base)).bind (steady_expr base).operand
        fun _ => (uses_exprs arguments).answer (steady_exprs arguments)
  | .unary op e => by
      rw [expr, Expr.frames]
      exact ((uses_expr e).operand (steady_expr e)).answer (steady_expr e).operand
  | .binary op left right => by
      rw [expr, Expr.frames]
      exact ((uses_expr left).operand (steady_expr left)).bind (steady_expr left).operand
        fun _ => ((uses_expr right).innerOperand (steady_expr right)).answer
          (steady_expr right).innerOperand
  | .logical op left right => by
      rw [expr, Expr.frames]
      exact ((uses_expr left).operand (steady_expr left)).bind (steady_expr left).operand
        fun _ => ((uses_expr right).innerOperand (steady_expr right)).answer
          (steady_expr right).innerOperand
  | .conditional test consequent alternate => by
      rw [expr, Expr.frames]
      exact ((uses_expr test).operand (steady_expr test)).bind (steady_expr test).operand
        fun _ => (uses_expr consequent).nested.bind (steady_expr consequent).nested
          fun _ => (uses_expr alternate).nested.answer (steady_expr alternate).nested

theorem uses_exprs : ∀ es : List Expr, Uses (exprsFrames es) (exprs es)
  | [] => by
      rw [exprs]
      exact uses_pure _
  | e :: rest => by
      have hfirst := (uses_expr e).nested.calls (n := 1)
      rw [← Nat.add_assoc] at hfirst
      rw [exprs, exprsFrames]
      exact hfirst.bind (steady_expr e).nested.calls fun _ =>
        (uses_exprs rest).answer (steady_exprs rest)

end

theorem uses_spacedValue (v : Option Value) :
    Uses (v.elim 0 fun v => 1 + v.frames) (spacedValue v) := by
  cases v with
  | none => exact uses_pure _
  | some v => exact (uses_value v).calls.answer (steady_value v).calls

theorem uses_entryBody (key : String) (e : Entry) : Uses e.frames (entryBody key e) := by
  cases e with
  | plain v => exact uses_spacedValue v
  | complex index v attributes =>
      have hrest : ∀ front : List Char, Uses (max (v.elim 0 fun v => 1 + v.frames)
            (1 + membersFrames (attributes.getD []))) (do
          let item ← spacedValue v
          let attributes ← calls 1 (members .attribute (attributes.getD []))
          return front ++ item ++ attributes.flatMap (' ' :: ·)) := fun _ =>
        (uses_spacedValue v).bind (steady_spacedValue v) fun _ =>
          (uses_members .attribute _).calls.answer (steady_members .attribute _).calls
      match index with
      | none => exact hrest []
      | some [] => exact (uses_throw _).bind (steady_throw _) hrest
      | some (e :: es) =>
          exact (uses_exprs (e :: es)).bind (steady_exprs (e :: es)) fun _ => hrest _
  | macroDef params body =>
      exact (uses_exprs params).bind (steady_exprs params) fun _ =>
        (uses_expr body).nested.answer (steady_expr body).nested

theorem uses_entry (key : String) (e : Entry) : Uses e.frames (entry key e) :=
  (uses_name .entity key).pass (steady_name .entity key) fun _ =>
    (uses_entryBody key e).answer (steady_entryBody key e)

theorem uses_entries (pairs : List (String × Entry)) :
    Uses (entriesFrames pairs) (entries pairs) := by
  induction pairs with
  | nil => exact uses_pure _
  | cons pair pairs ih =>
      exact (uses_entry pair.1 pair.2).calls.bind (steady_entry pair.1 pair.2).calls
        fun _ => ih.answer (steady_entries pairs)

end Writer

namespace Resource

variable {r : Resource} {limit depth : Int}

/-- Writing forgets the levels that were entered before, and leaves none. -/
theorem writeUnder_guardAt (r : Resource) (monitor : Option Monitor) (limit depth : Int) :
    r.writeUnder monitor (guardAt limit depth) = r.writeUnder monitor (guardAt limit 0) ∧
      (r.writeUnder monitor (guardAt limit depth)).2 = guardAt limit 0 := by
  refine ⟨rfl, ?_⟩
  have hguard := Writer.steady_entries r.entries monitor limit 0
  have hrun : Writer.resource r monitor ⟨(), guardAt limit depth⟩ =
      Writer.entries r.entries monitor ⟨(), guardAt limit 0⟩ := rfl
  rw [writeUnder, hrun]
  rw [Writer.final] at hguard
  cases hentries : Writer.entries r.entries monitor ⟨(), guardAt limit 0⟩ with
  | ok text s => simpa [hentries] using hguard
  | error e s => simpa [hentries] using hguard

/-- Under a monitor a resource is written as on a stack without end, or it is broken off
at a call, or where it is refused a level. -/
theorem writeUnder_cases (r : Resource) (monitor : Monitor) (limit depth : Int) :
    (r.writeUnder (some monitor) (guardAt limit depth) = r.writeWith (guardAt limit depth) ∧
      ∀ text, (r.writeWith (guardAt limit depth)).1 = .ok text →
        r.frames = 0 ∨ ∃ d, monitor.breaks (monitor.frames + r.frames) d = false) ∨
    (r.writeUnder (some monitor) (guardAt limit depth)).1 = .error .stackFull ∧
      (¬ Monitor.Quiet (some monitor) (monitor.frames + r.frames) (max limit 0) ∨
        (∃ refusal, (r.writeWith (guardAt limit depth)).1 = .error (.tooDeep refusal)) ∧
        ¬ Monitor.Quiet (some monitor) (monitor.frames + r.frames + Monitor.refusing)
          (max limit 0)) := by
  have huses := Writer.uses_entries r.entries monitor limit 0
  have hrun (monitor : Option Monitor) :
      Writer.resource r monitor ⟨(), guardAt limit depth⟩ =
        Writer.entries r.entries monitor ⟨(), guardAt limit 0⟩ := rfl
  rw [writeWith, writeUnder, writeUnder, hrun, hrun]
  generalize Writer.entries r.entries none _ = free,
    Writer.entries r.entries (some monitor) _ = run at huses ⊢
  cases huses with
  | broken h => exact .inr ⟨rfl, .inl h⟩
  | refused h => exact .inr ⟨rfl, .inr ⟨⟨_, rfl⟩, h⟩⟩
  | same h =>
      refine .inl ⟨rfl, fun text htext => ?_⟩
      cases free with
      | error e s => cases htext
      | ok text' s => exact h text' s rfl

/-- A monitor that is quiet for as long as a resource takes frames, with those of the
error if it is refused a level, makes no difference. -/
theorem writeUnder_of_quiet {monitor : Monitor}
    (h : Monitor.Quiet (some monitor) (monitor.frames + r.frames + Monitor.refusing)
      (max limit 0)) :
    r.writeUnder (some monitor) (guardAt limit depth) =
      r.writeWith (guardAt limit depth) := by
  rcases r.writeUnder_cases monitor limit depth with ⟨hsame, -⟩ | ⟨-, hbroken⟩
  · exact hsame
  · rcases hbroken with hbroken | ⟨-, hbroken⟩
    · exact absurd (h.mono (Nat.le_add_right _ _) (Int.le_refl _)) hbroken
    · exact absurd h hbroken

/-- A resource that is not refused a level is written as on a stack without end if there is
room for it, and no text is given if there is none. -/
theorem writeUnder_stack (r : Resource) (limit depth : Int) (room : Nat) :
    (r.frames ≤ room →
      (∀ refusal, (r.writeWith (guardAt limit depth)).1 ≠ .error (.tooDeep refusal)) →
      r.writeUnder (some (.stack room)) (guardAt limit depth) =
        r.writeWith (guardAt limit depth)) ∧
    (room < r.frames → ∀ text, (r.writeWith (guardAt limit depth)).1 = .ok text →
      (r.writeUnder (some (.stack room)) (guardAt limit depth)).1 = .error .stackFull) := by
  have hframes : (Monitor.stack room).frames + r.frames = r.frames := Nat.zero_add _
  have hcases := r.writeUnder_cases (.stack room) limit depth
  rw [hframes] at hcases
  refine ⟨fun hroom hopen => ?_, fun hroom text htext => ?_⟩
  · rcases hcases with ⟨hsame, -⟩ | ⟨-, hbroken | ⟨⟨refusal, hrefusal⟩, -⟩⟩
    · exact hsame
    · exact absurd (Monitor.quiet_stack hroom) hbroken
    · exact absurd hrefusal (hopen refusal)
  · rcases hcases with ⟨-, hlast⟩ | ⟨hbroken, -⟩
    · rcases hlast text htext with hzero | ⟨d, hd⟩
      · omega
      · simp only [Monitor.stack, decide_eq_false_iff_not] at hd
        exact absurd hroom hd
    · exact hbroken

end Resource

end L20n
