import L20n.Proofs.Steady
import L20n.Writer

/-!
The outcome of a writer.  A writer leaves its guard as it was, however it ends and
whatever looks on, so what it does is told by its outcome at a number of entered levels.
On a stack without end, the outcome of a writer made of others is made of their
outcomes.
-/

namespace L20n

namespace Writer

variable {α β : Type} {limit depth : Int}

/-- The guard that a writer leaves, with a result or at an error. -/
def final (x : Writer α) (monitor : Option Monitor) (guard : DepthGuard Window) :
    DepthGuard Window :=
  match x monitor ⟨(), guard⟩ with
  | .ok _ s => s.guard
  | .error _ s => s.guard

/-- The writer leaves its guard as it was. -/
def Steady (x : Writer α) : Prop :=
  ∀ monitor limit depth, x.final monitor (guardAt limit depth) = guardAt limit depth

/-- The outcome of a writer with `depth` of `limit` levels entered, on a stack without
end. -/
def outcome (limit depth : Int) (x : Writer α) : Except WriteError α :=
  match x none ⟨(), guardAt limit depth⟩ with
  | .ok a _ => .ok a
  | .error e _ => .error e

theorem steady_pure (a : α) : Steady (pure a) :=
  fun _ _ _ => rfl

theorem steady_throw (e : WriteError) : Steady (throw e : Writer α) :=
  fun _ _ _ => rfl

theorem Steady.bind {x : Writer α} {f : α → Writer β} (hx : Steady x)
    (hf : ∀ a, Steady (f a)) : Steady (x >>= f) := by
  intro monitor limit depth
  have hguard := hx monitor limit depth
  cases hrun : x monitor ⟨(), guardAt limit depth⟩ with
  | error e s =>
      simp only [final, hrun] at hguard
      simp [final, Bind.bind, ReaderT.bind, EStateM.bind, hrun, hguard]
  | ok a s =>
      obtain ⟨⟨⟩, guard⟩ := s
      simp only [final, hrun] at hguard
      subst hguard
      simpa [final, Bind.bind, ReaderT.bind, EStateM.bind, hrun] using
        hf a monitor limit depth

theorem calls_some (monitor : Monitor) (n : Nat) (x : Writer α) :
    calls n x (some monitor) ⟨(), guardAt limit depth⟩ =
      if monitor.breaks (monitor.frames + n) depth then
        .error .stackFull ⟨(), guardAt limit depth⟩
      else x (some (monitor.withFrames (monitor.frames + n))) ⟨(), guardAt limit depth⟩ :=
  rfl

/-- On a stack without end no call is broken off. -/
theorem calls_none (n : Nat) (x : Writer α) : calls n x none = x none :=
  rfl

theorem Steady.calls {x : Writer α} {n : Nat} (hx : Steady x) : Steady (calls n x) := by
  intro monitor limit depth
  cases monitor with
  | none => exact hx none limit depth
  | some monitor =>
      have hguard := hx (some (monitor.withFrames (monitor.frames + n))) limit depth
      simp only [final, calls_some] at hguard ⊢
      by_cases hbroken : monitor.breaks (monitor.frames + n) depth = true
      · simp only [if_pos hbroken]
      · simp only [if_neg hbroken]
        exact hguard

theorem deeper_of_le {x : Writer α} {monitor : Option Monitor} (h : limit ≤ depth) :
    deeper x monitor ⟨(), guardAt limit depth⟩ =
      if Monitor.breaksOff monitor (Monitor.inUse monitor + Monitor.refusing) depth then
        .error .stackFull ⟨(), guardAt limit depth⟩
      else .error (.tooDeep ⟨limit, none⟩) ⟨(), guardAt limit depth⟩ :=
  inLevel_of_le h

theorem deeper_of_lt {x : Writer α} {monitor : Option Monitor} (h : depth < limit) :
    deeper x monitor ⟨(), guardAt limit depth⟩ =
      match calls 1 x monitor ⟨(), guardAt limit (depth + 1)⟩ with
      | .ok a s => .ok a { s with guard := s.guard.exit }
      | .error e s => .error e { s with guard := s.guard.exit } := by
  rw [deeper, guardAt, guardAt, inLevel_of_lt h]
  cases calls 1 x monitor ⟨(), limit, depth + 1, none⟩ <;> rfl

theorem exit_guardAt :
    (guardAt limit (depth + 1) : DepthGuard Window).exit = guardAt limit depth := by
  rw [guardAt, DepthGuard.exit, Int.add_sub_cancel]
  rfl

theorem Steady.deeper {x : Writer α} (hx : Steady x) : Steady (deeper x) := by
  intro monitor limit depth
  by_cases hlimit : limit ≤ depth
  · rw [final, deeper_of_le hlimit]
    by_cases hbroken : Monitor.breaksOff monitor
        (Monitor.inUse monitor + Monitor.refusing) depth = true
    · rw [if_pos hbroken]
    · rw [if_neg hbroken]
  · have hguard := (hx.calls (n := 1)) monitor limit (depth + 1)
    rw [final] at hguard
    rw [final, deeper_of_lt (Int.not_le.1 hlimit)]
    cases hrun : Writer.calls 1 x monitor ⟨(), guardAt limit (depth + 1)⟩ with
    | error e s =>
        simp only [hrun] at hguard
        simp only [hguard, exit_guardAt]
    | ok a s =>
        simp only [hrun] at hguard
        simp only [hguard, exit_guardAt]

theorem Steady.nested {x : Writer α} (hx : Steady x) : Steady (nested x) :=
  hx.deeper.calls

theorem outcome_bind {x : Writer α} {f : α → Writer β} (hx : Steady x) :
    outcome limit depth (x >>= f) =
      outcome limit depth x >>= fun a => outcome limit depth (f a) := by
  have hguard := hx none limit depth
  cases hrun : x none ⟨(), guardAt limit depth⟩ with
  | error e s =>
      simp [outcome, Bind.bind, ReaderT.bind, EStateM.bind, Except.bind, hrun]
  | ok a s =>
      obtain ⟨⟨⟩, guard⟩ := s
      simp only [final, hrun] at hguard
      subst hguard
      simp [outcome, Bind.bind, ReaderT.bind, EStateM.bind, Except.bind, hrun]

theorem outcome_deeper {x : Writer α} :
    outcome limit depth (deeper x) =
      if limit ≤ depth then .error (.tooDeep ⟨limit, none⟩)
      else outcome limit (depth + 1) x := by
  by_cases hlimit : limit ≤ depth
  · rw [if_pos hlimit, outcome, deeper_of_le hlimit]
    rfl
  · rw [if_neg hlimit, outcome, deeper_of_lt (Int.not_le.1 hlimit), calls_none, outcome]
    cases x none ⟨(), guardAt limit (depth + 1)⟩ <;> rfl

theorem outcome_nested {x : Writer α} :
    outcome limit depth (nested x) =
      if limit ≤ depth then .error (.tooDeep ⟨limit, none⟩)
      else outcome limit (depth + 1) x :=
  outcome_deeper

theorem outcome_bind_eq_ok {x : Writer α} {f : α → Writer β} (hx : Steady x) {b : β} :
    outcome limit depth (x >>= f) = .ok b ↔
      ∃ a, outcome limit depth x = .ok a ∧ outcome limit depth (f a) = .ok b := by
  rw [outcome_bind hx]
  cases outcome limit depth x with
  | error e => simp [Bind.bind, Except.bind]
  | ok a => simp [Bind.bind, Except.bind]

theorem outcome_deeper_eq_ok {x : Writer α} {a : α} :
    outcome limit depth (deeper x) = .ok a ↔
      depth < limit ∧ outcome limit (depth + 1) x = .ok a := by
  rw [outcome_deeper]
  by_cases hlimit : limit ≤ depth
  · simp only [hlimit, if_true, reduceCtorEq, false_iff]
    omega
  · rw [if_neg hlimit, and_iff_right (by omega)]

theorem outcome_nested_eq_ok {x : Writer α} {a : α} :
    outcome limit depth (nested x) = .ok a ↔
      depth < limit ∧ outcome limit (depth + 1) x = .ok a :=
  outcome_deeper_eq_ok

theorem steady_name (role : NameRole) (key : String) : Steady (name role key) := by
  rw [name]
  split
  · exact steady_pure _
  · exact steady_throw _

theorem steady_text (content : String) : Steady (text content) := by
  rw [text]
  split
  · exact steady_throw _
  · exact steady_pure _

theorem steady_segment (part : Segment) : Steady (segment part) := by
  cases part with
  | text content => exact steady_text content
  | placeholder source =>
      rw [segment]
      split
      · exact steady_pure _
      · exact steady_throw _

theorem steady_segments (parts : List Segment) : Steady (segments parts) := by
  induction parts with
  | nil => exact steady_pure _
  | cons part parts ih =>
      exact (steady_segment part).bind fun _ => ih.bind fun _ => steady_pure _

theorem steady_number (k : Int) : Steady (number k) := by
  rw [number]
  split
  · exact steady_throw _
  split
  · exact steady_throw _
  · exact steady_pure _

mutual

theorem steady_value : ∀ v : Value, Steady (value v)
  | .string content => by
      rw [value]
      exact (steady_text content).bind fun _ => steady_pure _
  | .parts parts => by
      rw [value]
      exact (steady_segments parts).bind fun _ => steady_pure _
  | .array items => by
      rw [value]
      exact Steady.deeper ((steady_values items).bind fun _ => steady_pure _)
  | .object pairs => by
      rw [value]
      exact Steady.deeper ((steady_members .key pairs).bind fun _ => steady_pure _)

theorem steady_values : ∀ items : List Value, Steady (values items)
  | [] => by
      rw [values]
      exact steady_pure _
  | item :: items => by
      rw [values]
      exact (steady_value item).bind fun _ =>
        (steady_values items).bind fun _ => steady_pure _

theorem steady_members (role : NameRole) :
    ∀ pairs : List (String × Value), Steady (members role pairs)
  | [] => by
      rw [members]
      exact steady_pure _
  | (key, item) :: rest => by
      rw [members]
      exact (steady_name role key).bind fun _ => (steady_value item).bind fun _ =>
        (steady_members role rest).bind fun _ => steady_pure _

end

theorem Steady.operand {allowed : Level} {e : Expr} {x : Writer (List Char)}
    (hx : Steady x) : Steady (operand allowed e x) := by
  refine Steady.calls ?_
  split
  · exact hx.calls
  · exact hx.nested.bind fun _ => steady_pure _

theorem Steady.innerOperand {allowed : Level} {e : Expr} {x : Writer (List Char)}
    (hx : Steady x) : Steady (innerOperand allowed e x) := by
  refine Steady.calls ?_
  split
  · exact hx.nested
  · exact hx.nested.bind fun _ => steady_pure _

mutual

theorem steady_expr : ∀ e : Expr, Steady (expr e)
  | .number k => by
      rw [expr]
      exact steady_number k
  | .value v => by
      rw [expr]
      exact (steady_value v).calls
  | .name key => by
      rw [expr]
      exact steady_name .identifier key
  | .paren e => by
      rw [expr]
      exact (steady_expr e).nested.bind fun _ => steady_pure _
  | .attr base key => by
      rw [expr]
      exact (steady_expr base).operand.bind fun _ =>
        (steady_name .attribute key).bind fun _ => steady_pure _
  | .attrAt base index => by
      rw [expr]
      exact (steady_expr base).operand.bind fun _ =>
        (steady_expr index).nested.bind fun _ => steady_pure _
  | .prop base key => by
      rw [expr]
      exact (steady_expr base).operand.bind fun _ =>
        (steady_name .property key).bind fun _ => steady_pure _
  | .propAt base index => by
      rw [expr]
      exact (steady_expr base).operand.bind fun _ =>
        (steady_expr index).nested.bind fun _ => steady_pure _
  | .call base arguments => by
      rw [expr]
      exact (steady_expr base).operand.bind fun _ =>
        (steady_exprs arguments).bind fun _ => steady_pure _
  | .unary op e => by
      rw [expr]
      exact (steady_expr e).operand.bind fun _ => steady_pure _
  | .binary op left right => by
      rw [expr]
      exact (steady_expr left).operand.bind fun _ =>
        (steady_expr right).innerOperand.bind fun _ => steady_pure _
  | .logical op left right => by
      rw [expr]
      exact (steady_expr left).operand.bind fun _ =>
        (steady_expr right).innerOperand.bind fun _ => steady_pure _
  | .conditional test consequent alternate => by
      rw [expr]
      exact (steady_expr test).operand.bind fun _ =>
        (steady_expr consequent).nested.bind fun _ =>
          (steady_expr alternate).nested.bind fun _ => steady_pure _

theorem steady_exprs : ∀ es : List Expr, Steady (exprs es)
  | [] => by
      rw [exprs]
      exact steady_pure _
  | e :: rest => by
      rw [exprs]
      exact (steady_expr e).nested.calls.bind fun _ =>
        (steady_exprs rest).bind fun _ => steady_pure _

end

theorem operand_eq {allowed : Level} {e : Expr} {x : Writer (List Char)}
    (h : e.level ≤ allowed) : operand allowed e x = calls 1 (calls 1 x) :=
  congrArg (calls 1) (if_pos h)

theorem innerOperand_eq {allowed : Level} {e : Expr} {x : Writer (List Char)}
    (h : e.level ≤ allowed) : innerOperand allowed e x = calls 1 (nested x) :=
  congrArg (calls 1) (if_pos h)

theorem steady_spacedValue (v : Option Value) : Steady (spacedValue v) := by
  cases v with
  | none => exact steady_pure _
  | some v => exact (steady_value v).calls.bind fun _ => steady_pure _

theorem steady_entryBody (key : String) (e : Entry) : Steady (entryBody key e) := by
  cases e with
  | plain v => exact steady_spacedValue v
  | complex index v attributes =>
      have hrest : ∀ front : List Char, Steady (do
          let item ← spacedValue v
          let attributes ← calls 1 (members .attribute (attributes.getD []))
          return front ++ item ++ attributes.flatMap (' ' :: ·)) := fun _ =>
        (steady_spacedValue v).bind fun _ =>
          (steady_members .attribute _).calls.bind fun _ => steady_pure _
      match index with
      | none => exact hrest []
      | some [] => exact (steady_throw _).bind hrest
      | some (e :: es) =>
          exact (steady_exprs (e :: es)).bind fun _ => hrest _
  | macroDef params body =>
      exact (steady_exprs params).bind fun _ =>
        (steady_expr body).nested.bind fun _ => steady_pure _

theorem steady_entry (key : String) (e : Entry) : Steady (entry key e) :=
  (steady_name .entity key).bind fun _ =>
    (steady_entryBody key e).bind fun _ => steady_pure _

theorem steady_entries (pairs : List (String × Entry)) :
    Steady (entries pairs) := by
  induction pairs with
  | nil => exact steady_pure _
  | cons pair pairs ih =>
      exact (steady_entry pair.1 pair.2).calls.bind fun _ => ih.bind fun _ => steady_pure _

end Writer

/-- A depth that the stack has room for in reading is not lowered, neither there
nor in writing. -/
theorem StackBudget.clamp_of_le {requested : Int} (h : requested ≤ 105) :
    (reading.clamp requested).1 = requested ∧
      (walking.clamp requested).1 = requested := by
  constructor
  · rw [clamp, ceiling_reading, if_pos h]
  · rw [clamp, ceiling_walking, if_pos (by omega)]

/-- A resource is written from a guard in which no level is entered. -/
theorem Resource.writeWith_fst (r : Resource) (limit depth : Int) :
    (r.writeWith (guardAt limit depth)).1 =
      (Writer.outcome limit 0 (Writer.entries r.entries)).map String.ofList := by
  have hrun : Writer.resource r none ⟨(), guardAt limit depth⟩ =
      Writer.entries r.entries none ⟨(), guardAt limit 0⟩ := rfl
  rw [Resource.writeWith, Resource.writeUnder, hrun, Writer.outcome]
  cases Writer.entries r.entries none ⟨(), guardAt limit 0⟩ <;> rfl

theorem Resource.write_eq (r : Resource) (maxDepth : Int) :
    r.write maxDepth =
      (Writer.outcome (StackBudget.walking.clamp maxDepth).1 0
        (Writer.entries r.entries)).map String.ofList :=
  r.writeWith_fst (StackBudget.walking.clamp maxDepth).1 0

end L20n
