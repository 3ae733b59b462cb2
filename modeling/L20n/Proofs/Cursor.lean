import L20n.Proofs.Balance
import L20n.Proofs.RuleFaults

/-!
Where rules stop.  A rule never steps back and never leaves the source: it stops
behind what it reads, strictly further on if it reads something, and where it
started if there is nothing to read.  So each round of a loop that reads
something shortens the text ahead, and the bounds on the rounds are never what
ends a loop.
-/

namespace L20n

open Text Grammar

/-- What starts with a character takes some of the text.  Else the rest could be
exchanged for an empty one, and with it the whole text. -/
theorem Local.length_lt {α : Type} {R : List Char → α → List Char → Prop}
    (h : Local R) {p : Char → Bool}
    (hstarts : ∀ {text a rest}, R text a rest → Starts p text)
    {text : List Char} {a : α} {rest : List Char} (ha : R text a rest) :
    rest.length < text.length := by
  obtain ⟨text', ⟨front, rfl, rfl⟩, ha'⟩ := h ha (neutral_nil.joins rest)
  obtain ⟨c, tail, htrim, -⟩ := hstarts ha'
  -- with nothing in front of the rest, the empty text would start with a character
  cases front with
  | nil => simp at htrim
  | cons d front =>
      simp only [List.length_append, List.length_cons]
      omega

section Lengths

variable {mode : StringMode} {n : Nat} {text rest : List Char}

theorem length_lt_of_literalText {v : Value} (h : LiteralText mode text v rest) :
    rest.length < text.length :=
  (local_literalText mode).length_lt starts_of_literalText h

theorem length_lt_of_valueText {v : Value} (h : ValueText mode n text v rest) :
    rest.length < text.length :=
  (local_valueText mode n).length_lt ValueText.starts h

theorem length_lt_of_conditionalText {e : Expr}
    (h : ConditionalText .possiblyEmpty mode n text e rest) :
    rest.length < text.length :=
  (expressionsLocal .possiblyEmpty mode n).conditional.length_lt ConditionalText.starts h

theorem length_lt_of_pairText {pair : String × Value}
    (h : PairText mode n text pair rest) : rest.length < text.length :=
  (local_pairText (local_valueText mode n)).length_lt PairText.starts h

theorem length_lt_of_headText {key : String} {index : Option (List Expr)}
    (h : HeadText .possiblyEmpty mode n text key index rest) :
    rest.length < text.length := by
  refine (local_headText key).length_lt (p := Char.isAlpha) ?_ h
  intro text index rest hhead
  cases hhead with
  | plain hname _ => exact Word.starts_first hname
  | index hname _ _ => exact Word.starts_first hname

end Lengths

namespace Rule

variable {α : Type} {mode : StringMode} {n : Nat} {limit depth : Int}
  {text rest : List Char}

/-- The result says that there is nothing to read. -/
def Absent : Rule α → α → Prop
  | name?, found => found = none
  | number?, found => found = none
  | value?, found => found = none
  | expression?, found => found = none
  | attributes?, found => found = none
  | _, _ => False

/-- An optional reader that takes something exactly when it finds something. -/
theorem contract_of_optional {x : Reader (Option α)} {found : Option α}
    (hnone : Reader.Takes limit depth x text none rest → text = rest)
    (hsome : ∀ a, Reader.Takes limit depth x text (some a) rest →
      rest.length < text.length)
    (h : Reader.Takes limit depth x text found rest) :
    (found = none → rest = text) ∧ (found ≠ none → rest.length < text.length) := by
  cases found with
  | none => exact ⟨fun _ => (hnone h).symm, fun hfound => absurd rfl hfound⟩
  | some a => exact ⟨fun hfound => absurd hfound (Option.some_ne_none a), fun _ => hsome a h⟩

theorem expression?_contract (hn : (limit - depth).toNat = n) {found : Option Expr}
    (h : Reader.Takes limit depth (Reader.expression? (Inner.ofLevels mode n)) text found
      rest) :
    (found = none → rest = text) ∧ (found ≠ none → rest.length < text.length) := by
  obtain ⟨hlt, hinside⟩ := Reader.takes_nested.1 h
  -- the level is there, so the readers inside are those of the level below
  obtain ⟨m, rfl⟩ : ∃ m, n = m + 1 := ⟨n - 1, by omega⟩
  have hm : (limit - (depth + 1)).toNat = m := by omega
  have ih := fun k (_ : m = k + 1) => Reader.reads_ofLevels mode k
  refine contract_of_optional (fun hnone => ?_) (fun e he => ?_) hinside
  · exact eq_of_conditional_none (Inner.steady_ofLevels mode m) hnone
  · exact length_lt_of_conditionalText ((Reader.takes_conditional_some hm ih).1 he).1

theorem length_lt_of_header (hn : (limit - depth).toNat = n) {head : Header}
    (h : Reader.Takes limit depth (Reader.header (Inner.ofLevels mode n)) text head rest) :
    rest.length < text.length := by
  rcases (Reader.takes_header hn).1 h with ⟨key, index, -, hhead⟩ |
    ⟨key, params, a, -, hname, hparams⟩
  · exact length_lt_of_headText hhead
  · have ih := fun m (_ : n = m + 1) => expressionsLocal .possiblyEmpty mode m
    have hlt := Word.length_lt hname
    have hle := ((local_argumentsText ih).suffix hparams).length_le
    simp only [List.length_cons] at hlt
    omega

theorem attributes?_contract (hn : (limit - depth).toNat = n)
    {found : Option (List (String × Value))}
    (h : Reader.Takes limit depth (Reader.attributes? mode (Inner.ofLevels mode n)) text
      found rest) :
    (found = none → rest = text) ∧ (found ≠ none → rest.length < text.length) := by
  obtain ⟨pairs, hpairs, -, rfl⟩ := (Reader.takes_attributes? hn).1 h
  cases hpairs with
  | nil => exact ⟨fun _ => rfl, fun hfound => absurd rfl hfound⟩
  | cons hpair hmore =>
      refine ⟨fun hfound => absurd hfound (Option.some_ne_none _), fun _ => ?_⟩
      have hlt := length_lt_of_pairText hpair
      have hle := (local_attributesText.suffix hmore).length_le
      omega

theorem length_lt_of_entry (hn : (limit - depth).toNat = n) {pair : String × Entry}
    (h : Reader.Takes limit depth (Reader.entry mode (Inner.ofLevels mode n)) text pair
      rest) :
    rest.length < text.length := by
  have hinner := Inner.steady_ofLevels mode n
  rw [Reader.entry, Reader.takes_bind (Reader.steady_header hinner)] at h
  obtain ⟨head, middle, hhead, hbody⟩ := h
  have hlt := length_lt_of_header hn hhead
  have hsteady := (@Reader.steady_entryBody mode _ hinner head).bind fun entry =>
    (Reader.steady_expect .entryClose "'>'").bind fun _ =>
      Reader.steady_pure (head.key, entry)
  have hle := (hsteady.suffix_of_takes hbody).length_le
  omega

/-- A rule takes something exactly when it finds something. -/
theorem takes_contract (hn : (limit - depth).toNat = n) (rule : Rule α) {a : α}
    (h : Reader.Takes limit depth (rule.reader mode (Inner.ofLevels mode n)) text a rest) :
    (rule.Absent a → rest = text) ∧ (¬ rule.Absent a → rest.length < text.length) := by
  have ih := fun m (_ : n = m + 1) => Reader.reads_ofLevels mode m
  have hinner := Inner.steady_ofLevels mode n
  cases rule with
  | name? =>
      exact contract_of_optional (fun hnone => (Reader.takes_name?_none.1 hnone).2)
        (fun _ hkey => Word.length_lt (Reader.takes_name?_some.1 hkey)) h
  | number? =>
      refine contract_of_optional (fun hnone => (Reader.takes_number?_none.1 hnone).2)
        (fun _ hk => ?_) h
      obtain ⟨word, hword, -⟩ := Reader.takes_number?_some.1 hk
      exact hword.length_lt
  | literal =>
      exact ⟨False.elim, fun _ => length_lt_of_literalText (Reader.takes_literal.1 h)⟩
  | value? =>
      exact contract_of_optional
        (fun hnone => ((Reader.takes_value?_none hinner).1 hnone).2)
        (fun _ hv => length_lt_of_valueText ((Reader.takes_value?_some hn ih).1 hv)) h
  | value =>
      exact ⟨False.elim,
        fun _ => length_lt_of_valueText ((Reader.takes_value hn ih).1 h)⟩
  | expression? => exact expression?_contract hn h
  | expression =>
      obtain ⟨m, -, he, -⟩ := (Reader.takes_expression hn ih).1 h
      exact ⟨False.elim, fun _ => length_lt_of_conditionalText he⟩
  | header => exact ⟨False.elim, fun _ => length_lt_of_header hn h⟩
  | attributes? => exact attributes?_contract hn h
  | entry => exact ⟨False.elim, fun _ => length_lt_of_entry hn h⟩

end Rule

/-- The state has so many levels entered, under this limit. -/
def Entered (limit depth : Int) (s : Guarded (List Char) (List Char)) : Prop :=
  s.guard.limit = limit ∧ s.guard.depth = depth

section Pending

variable {α : Type} {mode : StringMode} {s : Guarded (List Char) (List Char)}

/-- A reader to which pending places make no difference ends as it does with none
pending, but for the places. -/
theorem Reader.Lockstep.stops_of_steady {x : Reader α}
    (h : Lockstep s.guard.limit s.guard.limit s.guard.depth Eq x x) (hx : Steady x) :
    (x.final s).data <:+ s.data ∧
      ∀ a s', x s = .ok a s' →
        Takes s.guard.limit s.guard.depth x s.data a s'.data ∧
        Entered s.guard.limit s.guard.depth s' := by
  obtain ⟨text, limit, depth, pending⟩ := s
  have hagrees := h (s := ⟨text, limit, depth, pending⟩) (t := ⟨text, guardAt limit depth⟩)
    ⟨text, pending, none, rfl, rfl⟩
  obtain ⟨rest, hrest, hfinal⟩ := hx text limit depth
  rw [final] at hfinal ⊢
  generalize hfirst : x ⟨text, limit, depth, pending⟩ = first,
    hsecond : x ⟨text, guardAt limit depth⟩ = second at hagrees hfinal
  cases hagrees with
  | ok hab hst =>
      obtain ⟨text', pending', pending'', rfl, rfl⟩ := hst
      cases hfinal
      refine ⟨hrest, fun a s' hs' => ?_⟩
      cases hs'
      rw [Takes, hsecond, hab]
      exact ⟨rfl, rfl, rfl⟩
  | error hst =>
      obtain ⟨text', pending', pending'', rfl, rfl⟩ := hst
      cases hfinal
      refine ⟨hrest, fun a s' hs' => ?_⟩
      cases hs'
  | refused hlt => exact absurd hlt (Int.lt_irrefl limit)

theorem Rule.stops (rule : Rule α) :
    ((Reader.withLevels mode (rule.reader mode)).final s).data <:+ s.data ∧
      ∀ a s', Reader.withLevels mode (rule.reader mode) s = .ok a s' →
        (rule.Absent a → s'.data = s.data) ∧
        (¬ rule.Absent a → s'.data.length < s.data.length) := by
  have hsteady : Reader.Steady (Reader.withLevels mode (rule.reader mode)) :=
    Reader.steady_withLevels fun n => rule.steady_reader (Inner.steady_ofLevels mode n)
  have hlockstep : Reader.Lockstep s.guard.limit s.guard.limit s.guard.depth Eq
      (Reader.withLevels mode (rule.reader mode))
      (Reader.withLevels mode (rule.reader mode)) :=
    Reader.Lockstep.withLevels (Int.le_refl _) (StringMode.pairs_eq mode)
      fun hinner => rule.lockstep_reader hinner
  obtain ⟨hsuffix, htakes⟩ := hlockstep.stops_of_steady hsteady
  refine ⟨hsuffix, fun a s' hrun => ?_⟩
  exact rule.takes_contract rfl (Reader.takes_withLevels.1 (htakes a s' hrun).1)

end Pending

namespace Session

variable {α : Type} {session : Session}

/-- The offset of a place is where the place is ahead. -/
theorem drop_offsetOf (hoffset : session.offset ≤ session.source.length)
    {place : List Char} (hplace : place <:+ session.ahead) :
    session.source.drop (session.offsetOf place) = place ∧
      session.offsetOf place ≤ session.source.length := by
  have hlength := hplace.length_le
  have hahead : session.ahead.length = session.source.length - session.offset :=
    List.length_drop
  constructor
  · rw [offsetOf, ← List.drop_drop]
    exact (List.suffix_iff_eq_drop.1 hplace).symm
  · rw [offsetOf]
    omega

theorem offset_run (session : Session) (x : Reader α) :
    (session.run x).2.offset =
      session.offsetOf (x.final ⟨session.ahead, session.guard⟩).data := by
  rw [run, Reader.final]
  cases x ⟨session.ahead, session.guard⟩ <;> rfl

theorem run_eq_ok {x : Reader α} {a : α} (h : (session.run x).1 = .ok a) :
    ∃ s, x ⟨session.ahead, session.guard⟩ = .ok a s ∧
      (session.run x).2.offset = session.offsetOf s.data := by
  rw [run] at h ⊢
  cases hrun : x ⟨session.ahead, session.guard⟩ with
  | error e s =>
      rw [hrun] at h
      cases h
  | ok b s =>
      rw [hrun] at h
      cases h
      exact ⟨s, rfl, rfl⟩

/-- A rule stops in the source: where it started if it finds nothing, and further
on if it finds something. -/
theorem offset_runRule (hoffset : session.offset ≤ session.source.length)
    (rule : Rule α) :
    ∃ q, (session.runRule (rule.reader session.mode)).2.offset = q ∧
      session.offset ≤ q ∧ q ≤ session.source.length ∧
      ((Reader.withLevels session.mode (rule.reader session.mode)).final
        ⟨session.ahead, session.guard⟩).data = session.source.drop q ∧
      ∀ a, (session.runRule (rule.reader session.mode)).1 = .ok a →
        (rule.Absent a → q = session.offset) ∧ (¬ rule.Absent a → session.offset < q) := by
  obtain ⟨hsuffix, hstops⟩ := @Rule.stops α session.mode
    ⟨session.ahead, session.guard⟩ rule
  obtain ⟨hdrop, hle⟩ := drop_offsetOf hoffset hsuffix
  rw [← offset_run, ← runRule] at hdrop hle
  refine ⟨_, rfl, ?_, hle, hdrop.symm, fun a ha => ?_⟩
  · rw [runRule, offset_run]
    exact Nat.le_add_right _ _
  · obtain ⟨s, hrun, heq⟩ := run_eq_ok ha
    obtain ⟨habsent, hpresent⟩ := hstops a s hrun
    rw [runRule, heq, offsetOf]
    constructor
    · intro h
      rw [habsent h, Nat.sub_self, Nat.add_zero]
    · intro h
      have hlt : s.data.length < session.ahead.length := hpresent h
      omega

end Session

/-- Bounds that the length of the text does not exceed make no difference, where
each round leads to a shorter text and leaves the levels as they are. -/
theorem eq_of_bounds {β : Type} {limit depth : Int}
    (f : Nat → Guarded (List Char) (List Char) → β)
    (hend : ∀ n guard, f n ⟨[], guard⟩ = f 0 ⟨[], guard⟩)
    (hround : ∀ n m s, Entered limit depth s →
      (∀ {s'}, Entered limit depth s' → s'.data.length < s.data.length →
        f n s' = f m s') → f (n + 1) s = f (m + 1) s)
    {n m : Nat} {s : Guarded (List Char) (List Char)} (hs : Entered limit depth s)
    (hn : s.data.length ≤ n) (hm : s.data.length ≤ m) : f n s = f m s := by
  induction n generalizing m s with
  | zero =>
      obtain ⟨text, guard⟩ := s
      obtain rfl : text = [] := List.eq_nil_of_length_eq_zero (Nat.le_zero.1 hn)
      exact (hend m guard).symm
  | succ n ih =>
      cases m with
      | zero =>
          obtain ⟨text, guard⟩ := s
          obtain rfl : text = [] := List.eq_nil_of_length_eq_zero (Nat.le_zero.1 hm)
          exact hend (n + 1) guard
      | succ m =>
          apply hround n m s hs
          intro s' hs' hlt
          exact ih hs' (by omega) (by omega)

namespace Reader

variable {α : Type} {limit depth : Int} {step : Reader (Option α)}
  {s : Guarded (List Char) (List Char)}

/-- A round that reads something shortens the text and leaves the levels as they
are; where no text is left, nothing is read. -/
structure Shortening (limit depth : Int) (step : Reader (Option α)) : Prop where
  shorter : ∀ {s a s'}, Entered limit depth s → step s = .ok (some a) s' →
    s'.data.length < s.data.length ∧ Entered limit depth s'
  ends : ∀ guard, step ⟨[], guard⟩ = .ok none ⟨[], guard⟩

theorem Shortening.manyUpTo_eq (h : Shortening limit depth step)
    (hs : Entered limit depth s) {n m : Nat} (hn : s.data.length ≤ n)
    (hm : s.data.length ≤ m) : manyUpTo n step s = manyUpTo m step s := by
  apply eq_of_bounds (fun n => manyUpTo n step) ?_ ?_ hs hn hm
  · intro n guard
    cases n with
    | zero => rfl
    | succ n => simp only [manyUpTo, Bind.bind, EStateM.bind, h.ends]
  · intro n m s hs ih
    simp only [manyUpTo, Bind.bind, EStateM.bind]
    cases hstep : step s with
    | error e s' => rfl
    | ok found s' =>
        cases found with
        | none => rfl
        | some a =>
            obtain ⟨hlt, hs'⟩ := h.shorter hs hstep
            simp only [EStateM.bind, ih hs' hlt]

/-- The loop with a bound is the loop without one. -/
theorem Shortening.many_eq (h : Shortening limit depth step)
    (hs : Entered limit depth s) :
    many step s = (do
      match ← step with
      | none => return []
      | some a => return a :: (← many step) : Reader (List α)) s := by
  have hmany : many step s = manyUpTo (s.data.length + 1) step s :=
    h.manyUpTo_eq hs (Nat.le_refl _) (Nat.le_succ _)
  rw [hmany]
  simp only [manyUpTo, Bind.bind, EStateM.bind]
  cases hstep : step s with
  | error e s' => rfl
  | ok found s' =>
      cases found with
      | none => rfl
      | some a =>
          obtain ⟨hlt, hs'⟩ := h.shorter hs hstep
          have hmore : manyUpTo s.data.length step s' = many step s' :=
            h.manyUpTo_eq hs' (by omega) (Nat.le_refl _)
          simp only [EStateM.bind, hmore]

end Reader

inductive Loop : Type → Type
  | entries : Loop (String × Entry)
  | comments : Loop Unit
  | attributes : Loop (String × Value)
  | items : Loop Value
  | members : Loop (String × Value)
  | expressions : Loop Expr
  | suffixes : Loop Suffix

namespace Loop

variable {α : Type} {mode : StringMode} {limit depth : Int}

/-- One round of a loop, over what is read one level further in. -/
def round (mode : StringMode) : Loop α → Inner → Reader (Option α)
  | entries, _ => Reader.entryAhead? mode
  | comments, _ => Reader.comment?
  | attributes, inner => Reader.attribute? mode inner
  | items, inner => Reader.afterComma (Reader.value mode inner)
  | members, inner => Reader.afterComma (Reader.member mode inner "a key name")
  | expressions, inner => Reader.afterComma (Reader.expression inner)
  | suffixes, inner => Reader.suffix? inner

theorem lockstep_round {inner inner' : Inner} (hinner : depth < limit →
      Inner.Lockstep limit limit (depth + 1) Eq inner inner') (loop : Loop α) :
    Reader.Lockstep limit limit depth Eq (loop.round mode inner)
      (loop.round mode inner') := by
  have hle := Int.le_refl limit
  have hleaf := StringMode.pairs_eq mode
  have hpair : ∀ {pair pair' : String × Value},
      pair.1 = pair'.1 ∧ pair.2.Alike Eq pair'.2 → pair = pair' :=
    fun h => Prod.ext h.1 (Value.eq_of_alike h.2)
  cases loop with
  | entries =>
      exact (Reader.lockstep_entryAhead? hle hleaf).mono
        (eq_of_optionRel fun h => Prod.ext h.1 (Entry.eq_of_alike h.2))
  | comments => exact Reader.lockstep_comment?.mono (eq_of_optionRel id)
  | attributes =>
      exact (Reader.lockstep_attribute? hle hleaf hinner).mono (eq_of_optionRel hpair)
  | items =>
      exact (Reader.lockstep_value hle hleaf hinner).afterComma.mono
        (eq_of_optionRel Value.eq_of_alike)
  | members =>
      exact (Reader.lockstep_member hle hleaf hinner _).afterComma.mono
        (eq_of_optionRel hpair)
  | expressions =>
      exact (Reader.lockstep_expression hle hinner).afterComma.mono
        (eq_of_optionRel Expr.eq_of_alike)
  | suffixes =>
      exact (Reader.lockstep_suffix? hle hinner).mono (eq_of_optionRel Suffix.eq_of_alike)

theorem shorter_of_takes (mode : StringMode) (limit depth : Int) (loop : Loop α) :
    Reader.Steady (loop.round mode (Inner.ofLevels mode (limit - depth).toNat)) ∧
      ∀ {text a rest}, Reader.Takes limit depth
        (loop.round mode (Inner.ofLevels mode (limit - depth).toNat)) text (some a) rest →
          rest.length < text.length := by
  generalize hn : (limit - depth).toNat = n
  have ih := fun m (_ : n = m + 1) => Reader.reads_ofLevels mode m
  have hinner := Inner.steady_ofLevels mode n
  cases loop with
  | entries => exact ⟨Reader.steady_entryAhead?, length_lt_of_entryAhead?⟩
  | comments =>
      have hround := @Reader.progressing_comment? limit depth
      exact ⟨hround.steady, hround.shorter⟩
  | attributes =>
      have hround := @Reader.progressing_attribute? mode n limit depth hn
      exact ⟨hround.steady, hround.shorter⟩
  | items =>
      have hround := @Reader.progressing_afterComma _ limit depth _
        (@Reader.steady_value mode _ hinner)
      exact ⟨hround.steady, hround.shorter⟩
  | members =>
      have hround := @Reader.progressing_afterComma _ limit depth _
        (@Reader.steady_member mode _ hinner "a key name")
      exact ⟨hround.steady, hround.shorter⟩
  | expressions =>
      have hround := @Reader.progressing_afterComma _ limit depth _
        (Reader.steady_expression hinner)
      exact ⟨hround.steady, hround.shorter⟩
  | suffixes =>
      have hround := Reader.progressing_suffix? hn ih
      exact ⟨hround.steady, hround.shorter⟩

/-- Each round of each loop shortens the text, whatever place is pending. -/
theorem shortening_round (loop : Loop α) :
    Reader.Shortening limit depth
      (loop.round mode (Inner.ofLevels mode (limit - depth).toNat)) where
  shorter := by
    intro s a s' hs hrun
    obtain ⟨rfl, rfl⟩ := hs
    obtain ⟨hsteady, hshorter⟩ :=
      loop.shorter_of_takes mode s.guard.limit s.guard.depth
    have hlockstep : Reader.Lockstep s.guard.limit s.guard.limit s.guard.depth Eq
        (loop.round mode (Inner.ofLevels mode s.guard.levels))
        (loop.round mode (Inner.ofLevels mode s.guard.levels)) :=
      loop.lockstep_round (Inner.lockstep_ofLevels (Int.le_refl _)
        (StringMode.pairs_eq mode) _ rfl)
    obtain ⟨htakes, hs'⟩ := (hlockstep.stops_of_steady hsteady).2 _ _ hrun
    exact ⟨hshorter htakes, hs'⟩
  ends := by
    intro guard
    cases loop <;> rfl

/-- A completed round of a loop shortens the text. -/
theorem length_lt_of_round {loop : Loop α} {s s' : Guarded (List Char) (List Char)} {a : α}
    (h : loop.round mode (Inner.ofLevels mode s.guard.levels) s = .ok (some a) s') :
    s'.data.length < s.data.length := by
  have hround : Reader.Shortening s.guard.limit s.guard.depth
      (loop.round mode (Inner.ofLevels mode s.guard.levels)) := loop.shortening_round
  exact (hround.shorter ⟨rfl, rfl⟩ h).1

/-- A loop goes on for as long as a round finds something. -/
theorem many_round (loop : Loop α) (s : Guarded (List Char) (List Char)) :
    Reader.many (loop.round mode (Inner.ofLevels mode s.guard.levels)) s = (do
      match ← loop.round mode (Inner.ofLevels mode s.guard.levels) with
      | none => return []
      | some a =>
        return a :: (← Reader.many (loop.round mode (Inner.ofLevels mode s.guard.levels)))
      : Reader (List α)) s := by
  have hround : Reader.Shortening s.guard.limit s.guard.depth
      (loop.round mode (Inner.ofLevels mode s.guard.levels)) := loop.shortening_round
  exact hround.many_eq ⟨rfl, rfl⟩

end Loop

/-- Bounds on the number of entries that the length of the text does not exceed
are not reached. -/
theorem Run.upTo_eq {mode : StringMode} {s : Guarded (List Char) (List Char)} {n m : Nat}
    (hn : s.data.length ≤ n) (hm : s.data.length ≤ m) :
    Run.upTo mode n s = Run.upTo mode m s := by
  have hnext : Reader.Shortening s.guard.limit s.guard.depth (Reader.entryAhead? mode) :=
    Loop.entries.shortening_round
  have hs : Entered s.guard.limit s.guard.depth s := ⟨rfl, rfl⟩
  -- the levels stay while the states change, so they are fixed before the induction
  generalize s.guard.limit = limit, s.guard.depth = depth at hnext hs
  apply eq_of_bounds (Run.upTo mode) ?_ ?_ hs hn hm
  · intro n guard
    cases n with
    | zero => rfl
    | succ n => simp only [Run.upTo, hnext.ends]
  · intro n m s hs ih
    rw [Run.upTo, Run.upTo]
    cases hstep : Reader.entryAhead? mode s with
    | error e s' => rfl
    | ok found s' =>
        cases found with
        | none => rfl
        | some pair =>
            obtain ⟨hlt, hs'⟩ := hnext.shorter hs hstep
            simp only [ih hs' hlt]

/-- A run that meets no error ends where neither a comment nor an entry starts. -/
theorem Run.isTail_ofSource {mode : StringMode} {limit : Int} {source : List Char}
    (h : (Run.ofSource mode limit source).error = none) :
    IsTail (Run.ofSource mode limit source).state.data :=
  ((Run.upTo_iff (Nat.le_refl source.length)).1 ⟨h, rfl, rfl⟩).2

/-- Whatever the source, the position in it and the guard, a rule stops at a
position of the source and not before its start: at its start if it finds
nothing, further on if it finds something.  So each completed round of each loop
shortens the text, the loops are those without bounds, and a run ends, at an
error or at a text where neither a comment nor an entry starts. -/
theorem cursor_contract (mode : StringMode) :
    (∀ {α : Type} (rule : Rule α) (source : List Char) (p : Nat)
      (guard : DepthGuard (List Char)), p ≤ source.length →
      ∃ q, ((Session.mk source p mode guard).runRule (rule.reader mode)).2.offset = q ∧
        p ≤ q ∧ q ≤ source.length ∧
        ((Reader.withLevels mode (rule.reader mode)).final ⟨source.drop p, guard⟩).data =
          source.drop q ∧
        ∀ a, ((Session.mk source p mode guard).runRule (rule.reader mode)).1 = .ok a →
          (rule.Absent a → q = p) ∧ (¬ rule.Absent a → p < q)) ∧
    (∀ {α : Type} (loop : Loop α) (s : Guarded (List Char) (List Char)),
      (∀ a s', loop.round mode (Inner.ofLevels mode s.guard.levels) s = .ok (some a) s' →
        s'.data.length < s.data.length) ∧
      Reader.many (loop.round mode (Inner.ofLevels mode s.guard.levels)) s = (do
        match ← loop.round mode (Inner.ofLevels mode s.guard.levels) with
        | none => return []
        | some a =>
          return a :: (← Reader.many (loop.round mode (Inner.ofLevels mode s.guard.levels)))
        : Reader (List α)) s) ∧
    ∀ (limit : Int) (source : List Char),
      (∀ n, source.length ≤ n →
        Run.upTo mode n ⟨source, { limit }⟩ = Run.ofSource mode limit source) ∧
      ((Run.ofSource mode limit source).error = none →
        IsTail (Run.ofSource mode limit source).state.data) := by
  refine ⟨?_, ?_, ?_⟩
  · intro α rule source p guard hp
    exact @Session.offset_runRule α ⟨source, p, mode, guard⟩ hp rule
  · intro α loop s
    exact ⟨fun _ _ => Loop.length_lt_of_round, loop.many_round s⟩
  · intro limit source
    exact ⟨fun n hn => Run.upTo_eq hn (Nat.le_refl _), Run.isTail_ofSource⟩

/-- An entry that is found, a comment that is skipped, and a run to the end. -/
theorem cursor_contract_comment_entry :
    (∃ q, 5 < q ∧ q ≤ 12 ∧
      ((Session.mk "/**/<k 'x'>.".toList 5 .whole { limit := 0 }).runRule
        (Rule.entry.reader .whole)).2.offset = q) ∧
    (∃ s', Reader.comment? ⟨"/**/<k 'x'>.".toList, { limit := 0 }⟩ = .ok (some ()) s' ∧
      s'.data.length < 12) ∧
    Run.upTo .whole 20 ⟨"/**/<k 'x'>.".toList, { limit := 0 }⟩ =
      Run.ofSource .whole 0 "/**/<k 'x'>.".toList ∧
    IsTail (Run.ofSource .whole 0 "/**/<k 'x'>.".toList).state.data := by
  obtain ⟨hrules, hloops, hruns⟩ := cursor_contract .whole
  obtain ⟨entry, hentry⟩ := exists_ok_of_isOk
    (x := ((Session.mk "/**/<k 'x'>.".toList 5 .whole { limit := 0 }).runRule
      (Rule.entry.reader .whole)).1) (by decide +kernel)
  obtain ⟨q, hoffset, -, hle, -, hfound⟩ :=
    hrules .entry "/**/<k 'x'>.".toList 5 { limit := 0 } (by decide)
  obtain ⟨hbound, htail⟩ := hruns 0 "/**/<k 'x'>.".toList
  have hcomment : Reader.comment? ⟨"/**/<k 'x'>.".toList, { limit := 0 }⟩ =
      .ok (some ()) ⟨"<k 'x'>.".toList, { limit := 0 }⟩ := by rfl
  refine ⟨⟨q, (hfound entry hentry).2 id, hle, hoffset⟩, ⟨_, hcomment, ?_⟩,
    hbound 20 (by decide), htail (by decide +kernel)⟩
  exact (hloops .comments ⟨"/**/<k 'x'>.".toList, { limit := 0 }⟩).1 () _ hcomment

end L20n
