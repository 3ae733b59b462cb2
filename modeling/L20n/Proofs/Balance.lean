import L20n.Proofs.Flaws
import L20n.Proofs.Lockstep
import L20n.Proofs.Traversal
import L20n.Session

/-!
Guards are left as they are found.  Whatever a rule, a walk or a writer does and
however it ends, the levels it has entered are left again and no place stays
pending, and at no time are more levels entered than the limit allows.  So a
guard can be used any number of times, after failures too, and each use is like
the first.
-/

namespace L20n

-- An alarm is put in front of an action and goes off where more levels are entered
-- than the limit allows.  That it never does is to say that it makes no
-- difference, whatever it would do.

/-- Runs the alarm in place of the body past the limit. -/
def alarmed {ε σ Place α : Type} (alarm body : EStateM ε (Guarded σ Place) α) :
    EStateM ε (Guarded σ Place) α := fun s =>
  if s.guard.limit < s.guard.depth then alarm s else body s

inductive Rule : Type → Type
  | name? : Rule (Option String)
  | number? : Rule (Option Nat)
  | literal : Rule Value
  | value? : Rule (Option Value)
  | value : Rule Value
  | expression? : Rule (Option Expr)
  | expression : Rule Expr
  | header : Rule Header
  | attributes? : Rule (Option (List (String × Value)))
  | entry : Rule (String × Entry)

namespace Rule

variable {α : Type}

/-- The reader of a rule, over what is read one level further in. -/
def reader (mode : StringMode) : Rule α → Inner → Reader α
  | name?, _ => Reader.name?
  | number?, _ => Reader.number?
  | literal, _ => Reader.literal mode
  | value?, inner => Reader.value? mode inner
  | value, inner => Reader.value mode inner
  | expression?, inner => Reader.expression? inner
  | expression, inner => Reader.expression inner
  | header, inner => Reader.header inner
  | attributes?, inner => Reader.attributes? mode inner
  | entry, inner => Reader.entry mode inner

theorem steady_reader {mode : StringMode} {inner : Inner} (h : inner.Steady)
    (rule : Rule α) : Reader.Steady (rule.reader mode inner) := by
  cases rule with
  | name? => exact Reader.steady_name?
  | number? => exact Reader.steady_number?
  | literal => exact Reader.steady_literal mode
  | value? => exact Reader.steady_value? h
  | value => exact Reader.steady_value h
  | expression? => exact h.conditional.nested
  | expression => exact Reader.steady_expression h
  | header => exact Reader.steady_header h
  | attributes? => exact Reader.steady_attributes? h
  | entry => exact Reader.steady_entry h

/-- A rule does the same over readers that do the same. -/
theorem lockstep_reader {mode : StringMode} {inner inner' : Inner} {limit depth : Int}
    (hinner : depth < limit →
      Inner.Lockstep limit limit (depth + 1) Eq inner inner') (rule : Rule α) :
    Reader.Lockstep limit limit depth Eq (rule.reader mode inner)
      (rule.reader mode inner') := by
  have hle := Int.le_refl limit
  have hleaf : StringMode.Pairs Eq mode mode := StringMode.pairs_eq mode
  cases rule with
  | name? => exact Reader.lockstep_name?
  | number? => exact Reader.lockstep_number?
  | literal => exact (Reader.lockstep_literal hleaf).mono Value.eq_of_alike
  | value? =>
      exact (Reader.lockstep_value? hle hleaf hinner).mono
        (eq_of_optionRel Value.eq_of_alike)
  | value => exact (Reader.lockstep_value hle hleaf hinner).mono Value.eq_of_alike
  | expression? =>
      exact (Reader.lockstep_expression? hle hinner).mono
        (eq_of_optionRel Expr.eq_of_alike)
  | expression => exact (Reader.lockstep_expression hle hinner).mono Expr.eq_of_alike
  | header => exact (Reader.lockstep_header hle hinner).mono Header.eq_of_alike
  | attributes? =>
      exact (Reader.lockstep_attributes? hle hleaf hinner).mono
        (eq_of_optionRel fun h => (h.mono Value.eq_of_alike).eq)
  | entry =>
      exact (Reader.lockstep_entry hle hleaf hinner).mono fun h =>
        Prod.ext h.1 (Entry.eq_of_alike h.2)

end Rule

/-- What a rule with `n` levels left reads one level further in, with an alarm
inside every level. -/
def Inner.watched (alarm : (α : Type) → Reader α) (mode : StringMode) : Nat → Inner
  | 0 => .closed
  | n + 1 =>
    let inner := watched alarm mode n
    { array := alarmed (alarm _) (Reader.array mode inner)
      object := alarmed (alarm _) (Reader.object mode inner)
      conditional := alarmed (alarm _) (Reader.conditional mode inner)
      logical := alarmed (alarm _) (Reader.logical mode inner)
      binary := alarmed (alarm _) (Reader.binary mode inner) }

/-- A rule with the levels that the guard has left, an alarm inside each of them
and one in front. -/
def Rule.watched {α : Type} (alarm : (α : Type) → Reader α) (mode : StringMode)
    (rule : Rule α) : Reader α :=
  alarmed (alarm α) fun s =>
    rule.reader mode (Inner.watched alarm mode s.guard.levels) s

section Watched

variable {α β : Type} {limit depth : Int} {alarm : (α : Type) → Reader α}
  {mode : StringMode}

theorem Reader.Lockstep.alarmed {R : α → β → Prop} {x : Reader α} {y alarm : Reader β}
    (hlimit : depth ≤ limit) (h : Lockstep limit limit depth R x y) :
    Lockstep limit limit depth R x (L20n.alarmed alarm y) := by
  intro s t hst
  have hagrees := h hst
  obtain ⟨text, pending, pending', rfl, rfl⟩ := hst
  have hinside : ¬ limit < depth := by omega
  rwa [L20n.alarmed, if_neg hinside]

theorem Inner.lockstep_watched (n : Nat) (hn : n = (limit - depth).toNat)
    (hlt : depth < limit) :
    Inner.Lockstep limit limit (depth + 1) Eq (ofLevels mode n)
      (watched alarm mode n) := by
  induction n generalizing depth with
  | zero => omega
  | succ n ih =>
      have hle := Int.le_refl limit
      have hleaf := StringMode.pairs_eq mode
      have hinner := @ih (depth + 1) (by omega)
      exact ⟨(Reader.lockstep_array hle hleaf hinner).alarmed (by omega),
        (Reader.lockstep_object hle hleaf hinner).alarmed (by omega),
        (Reader.lockstep_conditional hle hleaf hinner).alarmed (by omega),
        (Reader.lockstep_logical hle hleaf hinner).alarmed (by omega),
        (Reader.lockstep_binary hle hleaf hinner).alarmed (by omega)⟩

theorem Rule.lockstep_watched (hlimit : depth ≤ limit) (rule : Rule α) :
    Reader.Lockstep limit limit depth Eq (Reader.withLevels mode (rule.reader mode))
      (rule.watched alarm mode) := by
  refine Reader.Lockstep.alarmed hlimit ?_
  intro s t hst
  obtain ⟨text, pending, pending', rfl, rfl⟩ := hst
  exact rule.lockstep_reader (Inner.lockstep_watched _ rfl)
    ⟨text, pending, pending', rfl, rfl⟩

end Watched

namespace Session

variable {α : Type}

theorem guard_run (session : Session) (x : Reader α) :
    (session.run x).2.guard = (x.final ⟨session.ahead, session.guard⟩).guard := by
  rw [run, Reader.final]
  cases x ⟨session.ahead, session.guard⟩ <;> rfl

/-- Readers in lockstep give a session the same result. -/
theorem run_congr {session : Session} {x y : Reader α}
    (h : Reader.Lockstep session.guard.limit session.guard.limit session.guard.depth
      Eq x y) : (session.run x).1 = (session.run y).1 := by
  obtain ⟨source, offset, mode, limit, depth, pending⟩ := session
  have hagrees := h (s := ⟨source.drop offset, limit, depth, pending⟩)
    ⟨source.drop offset, pending, pending, rfl, rfl⟩
  simp only [run, ahead]
  generalize x _ = first, y _ = second at hagrees ⊢
  cases hagrees with
  | ok hab _ => rw [hab]
  | error hst =>
      obtain ⟨text, pending, pending', rfl, rfl⟩ := hst
      rfl
  | refused hlt => exact absurd hlt (Int.lt_irrefl limit)

theorem guard_runRule {source : List Char} {offset : Nat} {mode : StringMode}
    {limit depth : Int} (rule : Rule α) :
    ((Session.mk source offset mode (guardAt limit depth)).runRule
      (rule.reader mode)).2.guard = guardAt limit depth := by
  rw [runRule, guard_run, Reader.final_withLevels]
  obtain ⟨rest, -, hfinal⟩ := rule.steady_reader
    (Inner.steady_ofLevels mode (guardAt limit depth : DepthGuard (List Char)).levels)
    (source.drop offset) limit depth
  exact congrArg Guarded.guard hfinal

/-- Alarms inside every level make no difference to a rule. -/
theorem runRule_watched {source : List Char} {offset : Nat} {mode : StringMode}
    {limit depth : Int} (rule : Rule α) (h : depth ≤ limit)
    (alarm : (α : Type) → Reader α) :
    ((Session.mk source offset mode (guardAt limit depth)).runRule
        (rule.reader mode)).1 =
      ((Session.mk source offset mode (guardAt limit depth)).run
        (rule.watched alarm mode)).1 :=
  run_congr (rule.lockstep_watched h)

end Session

/-- An alarm goes off at a call past the limit.  Inside every level there is one. -/
def Monitor.alarm (limit : Int) : Monitor :=
  { breaks := fun _ depth => decide (limit < depth) }

theorem Monitor.quiet_alarm {limit depth : Int} (frames : Nat) (h : depth ≤ limit) :
    Quiet (some (alarm limit)) frames depth := by
  intro f _ d hd
  simp only [breaksOff, alarm, Option.any_some, decide_eq_false_iff_not]
  omega

theorem Station.along_ne_stackFull (handlers : Handlers) (limit : Int)
    (route : List Station) (visits : List Visit) :
    (along handlers none limit route visits).2 ≠ some .stackFull := by
  induction route generalizing visits with
  | nil => nofun
  | cons station route ih =>
      rw [along]
      by_cases hrefused : Node.Refused handlers.stops limit station.place
      · simp only [fault?_none_of_refused hrefused]
        simp
      · simp only [station.fault?_none.2 hrefused]
        exact ih _

/-- A walk within the limit stays within it: no alarm goes off. -/
theorem Node.walkUnder_alarm (node : Node) (handlers : Handlers) {limit depth : Int}
    (h : depth ≤ limit) :
    node.walkUnder (some (.alarm limit)) handlers (guardAt limit depth) =
        node.walk handlers (guardAt limit depth) ∧
      (node.walk handlers (guardAt limit depth)).outcome ≠ .error .stackFull := by
  refine ⟨walkUnder_eq_walk node (Monitor.quiet_alarm _ (by omega)), ?_⟩
  have hnone := Station.along_ne_stackFull handlers limit (node.tour handlers depth 0) []
  rw [walk, walkUnder_eq]
  change (Station.along handlers none limit (node.tour handlers depth
    (Monitor.inUse none)) []).2 ≠ _ at hnone
  generalize Station.along handlers none limit _ [] = result at hnone ⊢
  obtain ⟨visits, none | e⟩ := result
  · simp
  · simpa using hnone

/-- Writing stays within the limit: no alarm goes off. -/
theorem Resource.writeUnder_alarm (r : Resource) {limit : Int} (depth : Int)
    (h : 0 ≤ limit) :
    r.writeUnder (some (.alarm limit)) (guardAt limit depth) =
        r.writeWith (guardAt limit depth) ∧
      (r.writeWith (guardAt limit depth)).1 ≠ .error .stackFull := by
  refine ⟨writeUnder_of_quiet (Monitor.quiet_alarm _ (by omega)), fun hfull => ?_⟩
  have hscreened := Writer.screens_entries r.entries limit 0
  rw [writeWith_fst] at hfull
  generalize Writer.outcome limit 0 (Writer.entries r.entries) = result at hscreened hfull
  cases hscreened with
  | ok text => cases hfull
  | tooDeep refusal => cases hfull
  | flawed hflaw =>
      cases hfull
      exact hflaw (Node.clear_of_not_isValidation id (by simp) _)

structure RuleCall where
  {α : Type}
  rule : Rule α
  source : List Char
  offset : Nat

def RuleCall.run (mode : StringMode) (guard : DepthGuard (List Char)) (call : RuleCall) :
    Except ReadFailure call.α × Session :=
  (Session.mk call.source call.offset mode guard).runRule (call.rule.reader mode)

/-- The guard after calls one after the other. -/
def RuleCall.guardAfter (mode : StringMode) (guard : DepthGuard (List Char))
    (calls : List RuleCall) : DepthGuard (List Char) :=
  calls.foldl (fun guard call => (call.run mode guard).2.guard) guard

theorem RuleCall.guardAfter_eq (mode : StringMode) (limit depth : Int)
    (calls : List RuleCall) :
    guardAfter mode (guardAt limit depth) calls = guardAt limit depth := by
  induction calls with
  | nil => rfl
  | cons call calls ih =>
      rw [guardAfter, List.foldl_cons, run, Session.guard_runRule]
      exact ih

inductive TreeCall where
  | visit (node : Node) (handlers : Handlers)
  | write (resource : Resource)

/-- The guard after a call. -/
def TreeCall.leave (monitor : Option Monitor) (guard : DepthGuard Window) :
    TreeCall → DepthGuard Window
  | visit node handlers => (node.walkUnder monitor handlers guard).guard
  | write resource => (resource.writeUnder monitor guard).2

theorem TreeCall.foldl_leave (monitor : Option Monitor) (limit : Int)
    (calls : List TreeCall) :
    calls.foldl (leave monitor) (guardAt limit 0) = guardAt limit 0 := by
  induction calls with
  | nil => rfl
  | cons call calls ih =>
      have hleave : leave monitor (guardAt limit 0) call = guardAt limit 0 := by
        cases call with
        | visit node handlers => exact node.guard_walkUnder handlers monitor limit 0
        | write resource => exact (resource.writeUnder_guardAt monitor limit 0).2
      rw [List.foldl_cons, hleave]
      exact ih

/-- From a guard with no place pending, a rule and a walk leave the guard as it was
and a writer leaves it with no level entered, whether they succeed or fail or are broken
off.  Started within the limit, they stay within it: alarms inside every level make no
difference to a rule, and none goes off on a walk or while a resource is written.  So
calls under one guard give what they give under a fresh one. -/
theorem guard_balanced (limit depth : Int) :
    (∀ {α : Type} (rule : Rule α) (mode : StringMode) (source : List Char)
      (offset : Nat),
      ((Session.mk source offset mode (guardAt limit depth)).runRule
        (rule.reader mode)).2.guard = guardAt limit depth ∧
      (depth ≤ limit → ∀ alarm : (α : Type) → Reader α,
        ((Session.mk source offset mode (guardAt limit depth)).runRule
            (rule.reader mode)).1 =
          ((Session.mk source offset mode (guardAt limit depth)).run
            (rule.watched alarm mode)).1)) ∧
    (∀ (node : Node) (handlers : Handlers),
      (∀ monitor, (node.walkUnder monitor handlers (guardAt limit depth)).guard =
        guardAt limit depth) ∧
      (depth ≤ limit →
        node.walkUnder (some (.alarm limit)) handlers (guardAt limit depth) =
          node.walk handlers (guardAt limit depth) ∧
        (node.walk handlers (guardAt limit depth)).outcome ≠ .error .stackFull)) ∧
    (∀ r : Resource,
      (∀ monitor, (r.writeUnder monitor (guardAt limit depth)).2 = guardAt limit 0) ∧
      (0 ≤ limit →
        r.writeUnder (some (.alarm limit)) (guardAt limit depth) =
          r.writeWith (guardAt limit depth) ∧
        (r.writeWith (guardAt limit depth)).1 ≠ .error .stackFull)) ∧
    (∀ (mode : StringMode) (calls : List RuleCall) (call : RuleCall),
      call.run mode (RuleCall.guardAfter mode (guardAt limit depth) calls) =
        call.run mode (guardAt limit depth)) ∧
    ∀ (monitor : Option Monitor) (calls : List TreeCall),
      (∀ (node : Node) (handlers : Handlers),
        node.walkUnder monitor handlers
            (calls.foldl (TreeCall.leave monitor) (guardAt limit 0)) =
          node.walkUnder monitor handlers (guardAt limit 0)) ∧
      ∀ r : Resource,
        r.writeUnder monitor (calls.foldl (TreeCall.leave monitor) (guardAt limit 0)) =
          r.writeUnder monitor (guardAt limit 0) := by
  refine ⟨fun rule mode source offset =>
      ⟨Session.guard_runRule rule, Session.runRule_watched rule⟩,
    fun node handlers => ⟨fun monitor => node.guard_walkUnder handlers monitor limit depth,
      node.walkUnder_alarm handlers⟩,
    fun r => ⟨fun monitor => (r.writeUnder_guardAt monitor limit depth).2,
      r.writeUnder_alarm depth⟩,
    fun mode calls call => ?_, fun monitor calls => ?_⟩
  · rw [RuleCall.guardAfter_eq]
  · rw [TreeCall.foldl_leave]
    exact ⟨fun _ _ => rfl, fun _ => rfl⟩

/-- An entity whose value is an array in an array. -/
def Resource.arrayInArray : Resource :=
  ⟨[("k", .plain (some (.array [.array []])))]⟩

/-- The inner array is refused a level, two levels deep under a limit of one; the
guard is as before, no alarm has gone off, and the next call is like the first.
A walk from a resource goes further down than the limit and is refused, and so is
writing the inner array. -/
theorem guard_balanced_after_refusal :
    ((RuleCall.run .whole (guardAt 1 0) ⟨.value?, "[['x']]".toList, 0⟩).1.isOk = false ∧
      ((Session.mk "[['x']]".toList 0 .whole (guardAt 1 0)).runRule
        (Rule.value?.reader .whole)).2.guard = guardAt 1 0 ∧
      ((Session.mk "[['x']]".toList 0 .whole (guardAt 1 0)).runRule
          (Rule.value?.reader .whole)).1 =
        ((Session.mk "[['x']]".toList 0 .whole (guardAt 1 0)).run
          (Rule.value?.watched (fun _ => Reader.fail .expectedValue) .whole)).1 ∧
      RuleCall.run .whole (RuleCall.guardAfter .whole (guardAt 1 0)
          [⟨.value?, "[['x']]".toList, 0⟩]) ⟨.value?, "['x']".toList, 0⟩ =
        RuleCall.run .whole (guardAt 1 0) ⟨.value?, "['x']".toList, 0⟩) ∧
    (((Node.resource .arrayInArray).walk {} (guardAt 1 0)).outcome =
        .error (.tooDeep ⟨1, none⟩) ∧
      (Node.resource .arrayInArray).walkUnder (some (.alarm 1)) {} (guardAt 1 0) =
        (Node.resource .arrayInArray).walk {} (guardAt 1 0)) ∧
    (Resource.arrayInArray.writeWith (guardAt 1 0)).1 = .error (.tooDeep ⟨1, none⟩) ∧
      Resource.arrayInArray.writeUnder (some (.alarm 1)) (guardAt 1 0) =
        Resource.arrayInArray.writeWith (guardAt 1 0) := by
  obtain ⟨hrules, hwalks, hwrites, hcalls, -⟩ := guard_balanced 1 0
  obtain ⟨hguard, halarm⟩ := hrules .value? .whole "[['x']]".toList 0
  let entry := Node.entry (.plain (some (.array [.array []])))
  have hentry : entry.preorder ({} : Handlers).stops 1 =
      (entry, 1) :: entry.children.flatMap (Node.preorder ({} : Handlers).stops 2) :=
    entry.preorder_eq _ _
  have hpreorder : (Node.resource .arrayInArray).preorder ({} : Handlers).stops 0 =
      [(Node.resource .arrayInArray, 0)] ++
        (entry, 1) :: entry.children.flatMap (Node.preorder ({} : Handlers).stops 2) := by
    rw [Node.preorder_eq, ← hentry, List.singleton_append]
    exact congrArg _ (List.append_nil _)
  have hrefused : Node.Refused ({} : Handlers).stops 1 (entry, 1) := ⟨rfl, Int.le_refl 1⟩
  have hwalk := Node.walk_of_preorder_refused hpreorder (by simp [Node.Refused]) hrefused
  refine ⟨⟨by decide +kernel, hguard, halarm (by decide) _, hcalls .whole _ _⟩,
    ⟨hwalk.1, ((hwalks _ _).2 (by decide)).1⟩, by rfl, ((hwrites _).2 (by decide)).1⟩

end L20n
