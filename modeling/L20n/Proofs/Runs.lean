import L20n.Proofs.Fails
import L20n.Proofs.Locality

/-!
Runs, whether they end well or not.  A run that fails has read the entries of a
derivation and stops in the step after them; so a run goes on from where any
derivation stops as if the text began there, and the blanks in front of a text
make no difference to it.
-/

namespace L20n

open Text Grammar

namespace Reader

variable {mode : StringMode} {limit depth : Int} {text other rest : List Char}
  {e : ReadError}

theorem find?_commentClose_eq_none_iff :
    Token.find? .commentClose text = none ↔
      ∀ front rest, ¬ Through ['*', '/'] text front rest := by
  constructor
  · intro hnone front rest hthrough
    obtain ⟨found, hfound, -⟩ := Token.find?_commentClose.2 ⟨front, hthrough⟩
    rw [hnone] at hfound
    cases hfound
  · intro hnever
    apply Option.eq_none_iff_forall_ne_some.2
    intro found hfound
    obtain ⟨front, hthrough⟩ := Token.find?_commentClose.1 ⟨found, hfound, rfl⟩
    exact hnever front found.rest hthrough

theorem fails_comment? :
    Fails limit depth comment? text e ↔
      ∃ body, Lexeme ['/', '*'] text body ∧
        (∀ front rest, ¬ Through ['*', '/'] body front rest) ∧
        e = .fault .unterminatedComment (some body) := by
  rw [comment?, fails_choice_bind Token.found_commentOpen]
  simp only [fails_seek?_bind, not_fails_pure, and_false, exists_false, or_false,
    false_or, fails_fail, find?_commentClose_eq_none_iff]

theorem fails_comments :
    Fails limit depth comments text e ↔
      ∃ a, SkipsComments text a ∧ Fails limit depth comment? a e := by
  have hcomment := @progressing_comment? limit depth
  rw [comments, bind_pure_comp, fails_map hcomment.steady.many, hcomment.fails_many]
  simp only [takes_comment?_some, SkipsComments]
  constructor
  · intro h
    obtain ⟨row, a, hrow, hfails⟩ := h
    exact ⟨a, ⟨row, hrow⟩, hfails⟩
  · intro h
    obtain ⟨a, ⟨row, hrow⟩, hfails⟩ := h
    exact ⟨row, a, hrow, hfails⟩

theorem fails_entryOpen :
    Fails limit depth entryOpen text e ↔
      ∃ a, SkipsComments text a ∧ Fails limit depth comment? a e := by
  have hskip : Steady comments := steady_comment?.many.bind fun _ => steady_pure _
  rw [entryOpen, fails_bind hskip, fails_comments]
  simp only [fails_token?_bind, not_fails_pure, and_false, exists_false, or_false]

theorem fails_withLevels {α : Type} {rule : Inner → Reader α} :
    Fails limit depth (withLevels mode rule) text e ↔
      Fails limit depth (rule (Inner.ofLevels mode (limit - depth).toNat)) text e :=
  Iff.rfl

/-- A step of a run fails in a comment, or in an entry, after comments. -/
theorem fails_entryAhead? :
    Fails limit depth (entryAhead? mode) text e ↔
      ∃ a, SkipsComments text a ∧
        (Fails limit depth comment? a e ∨
          ∃ b, Lexeme ['<'] a b ∧ Fails limit depth
            (entry mode (Inner.ofLevels mode (limit - depth).toNat)) b e) := by
  have hentry : Steady (withLevels mode (entry mode)) :=
    steady_withLevels fun n => steady_entry (Inner.steady_ofLevels mode n)
  rw [entryAhead?, fails_bind steady_entryOpen, fails_entryOpen]
  simp only [takes_entryOpen]
  constructor
  · intro h
    rcases h with ⟨a, hskip, hfails⟩ |
      ⟨_, b, ⟨a, hskip, -, ⟨-, rfl, -⟩ | ⟨hopen, rfl⟩⟩, hfails⟩
    · exact ⟨a, hskip, Or.inl hfails⟩
    · exact absurd hfails not_fails_pure
    · rw [if_pos rfl, bind_pure_comp, fails_map hentry, fails_withLevels] at hfails
      exact ⟨a, hskip, Or.inr ⟨b, hopen, hfails⟩⟩
  · intro h
    obtain ⟨a, hskip, hfails | ⟨b, hopen, hfails⟩⟩ := h
    · exact Or.inl ⟨a, hskip, hfails⟩
    · refine Or.inr ⟨true, b, ⟨a, hskip, ?_, Or.inr ⟨hopen, rfl⟩⟩, ?_⟩
      · intro after hcomment
        exact absurd (hopen.head_eq hcomment) (by decide)
      · rw [if_pos rfl, bind_pure_comp, fails_map hentry, fails_withLevels]
        exact hfails

theorem commentText_congr (h : trimStart text = trimStart other)
    (hcomment : CommentText text rest) : CommentText other rest := by
  obtain ⟨body, front, hopen, hthrough⟩ := hcomment
  exact ⟨body, front, hopen.congr h, hthrough⟩

theorem Fails.comment?_congr (h : trimStart text = trimStart other)
    (hfails : Fails limit depth comment? text e) :
    Fails limit depth comment? other e := by
  rw [fails_comment?] at hfails ⊢
  obtain ⟨body, hopen, hnever, heq⟩ := hfails
  exact ⟨body, hopen.congr h, hnever, heq⟩

theorem Fails.entryAhead?_congr (h : trimStart text = trimStart other)
    (hfails : Fails limit depth (entryAhead? mode) text e) :
    Fails limit depth (entryAhead? mode) other e := by
  rw [fails_entryAhead?] at hfails ⊢
  obtain ⟨a, ⟨row, hrow⟩, hend⟩ := hfails
  cases row with
  | nil =>
      obtain rfl : text = a := hrow
      refine ⟨other, ⟨[], rfl⟩, ?_⟩
      rcases hend with hfails | ⟨b, hopen, hfails⟩
      · exact Or.inl (hfails.comment?_congr h)
      · exact Or.inr ⟨b, hopen.congr h, hfails⟩
  | cons u row =>
      obtain ⟨b, hcomment, hrow⟩ := hrow
      exact ⟨a, ⟨u :: row, b, commentText_congr h hcomment, hrow⟩, hend⟩

end Reader

namespace Grammar

variable {α : Type} {entry : List Char → α → List Char → Prop}
  {text other middle rest : List Char} {items more : List α}

theorem ItemsText.append (h : ItemsText entry text items middle)
    (hmore : ItemsText entry middle more rest) :
    ItemsText entry text (items ++ more) rest := by
  induction h with
  | done => exact hmore
  | comment hcomment _ ih => exact .comment hcomment (ih hmore)
  | entry hopen hentry _ ih => exact .entry hopen hentry (ih hmore)

theorem ItemsText.congr (h : trimStart text = trimStart other)
    (hitems : ItemsText entry text items rest) :
    ∃ rest', ItemsText entry other items rest' ∧ trimStart rest = trimStart rest' := by
  cases hitems with
  | done => exact ⟨other, .done, h⟩
  | comment hcomment hmore =>
      exact ⟨rest, .comment (Reader.commentText_congr h hcomment) hmore, rfl⟩
  | entry hopen hentry hmore => exact ⟨rest, .entry (hopen.congr h) hentry hmore, rfl⟩

theorem IsTail.congr (h : trimStart text = trimStart other) (htail : IsTail text) :
    IsTail other :=
  ⟨fun after hopen => htail.1 after (hopen.congr h.symm),
    fun after hopen => htail.2 after (hopen.congr h.symm)⟩

end Grammar

section Runs

variable {mode : StringMode} {limit : Int} {text other rest : List Char}
  {pairs : List (String × Entry)} {e : ReadError}

/-- One step of a run that fails: the step itself fails, or it reads the first
entry of a derivation after which a step fails. -/
theorem fails_iff_step :
    (∃ a, ItemsText (EntryText .possiblyEmpty mode limit.toNat) text pairs a ∧
      Reader.Fails limit 0 (Reader.entryAhead? mode) a e) ↔
      pairs = [] ∧ Reader.Fails limit 0 (Reader.entryAhead? mode) text e ∨
        ∃ pair more b, pairs = pair :: more ∧
          Reader.Takes limit 0 (Reader.entryAhead? mode) text (some pair) b ∧
          ∃ a, ItemsText (EntryText .possiblyEmpty mode limit.toNat) b more a ∧
            Reader.Fails limit 0 (Reader.entryAhead? mode) a e := by
  constructor
  · intro h
    obtain ⟨a, hitems, hfails⟩ := h
    induction hitems with
    | done => exact Or.inl ⟨rfl, hfails⟩
    | comment hcomment _ ih =>
        rcases ih hfails with ⟨rfl, hstep⟩ | ⟨pair, more, b, rfl, hstep, hmore⟩
        · rw [Reader.fails_entryAhead?] at hstep ⊢
          obtain ⟨c, ⟨row, hrow⟩, hend⟩ := hstep
          exact Or.inl ⟨rfl, c, ⟨() :: row, _, hcomment, hrow⟩, hend⟩
        · rw [Reader.takes_entryAhead?] at hstep
          obtain ⟨c, ⟨row, hrow⟩, hend⟩ := hstep
          exact Or.inr ⟨pair, more, b, rfl, Reader.takes_entryAhead?.2
            ⟨c, ⟨() :: row, _, hcomment, hrow⟩, hend⟩, hmore⟩
    | entry hopen hpair hmore _ =>
        refine Or.inr ⟨_, _, _, rfl, Reader.takes_entryAhead?.2 ?_, _, hmore, hfails⟩
        rw [Int.sub_zero]
        exact ⟨_, ⟨[], rfl⟩, Or.inr ⟨_, _, hopen, hpair, rfl⟩⟩
  · intro h
    rcases h with ⟨rfl, hfails⟩ | ⟨pair, more, b, rfl, hstep, a, hmore, hfails⟩
    · exact ⟨text, .done, hfails⟩
    · rw [Reader.takes_entryAhead?, Int.sub_zero] at hstep
      obtain ⟨c, hskip, ⟨-, hnone, -⟩ | ⟨d, _, hopen, hpair, heq⟩⟩ := hstep
      · cases hnone
      · obtain rfl := Option.some.inj heq
        exact ⟨a, .of_skipsComments hskip (.entry hopen hpair hmore), hfails⟩

/-- A run with enough rounds fails exactly when a step fails after the entries
of a derivation. -/
theorem Run.upTo_fails_iff {n : Nat} (hn : text.length ≤ n) :
    ((Run.upTo mode n ⟨text, guardAt limit 0⟩).error = some e ∧
      (Run.upTo mode n ⟨text, guardAt limit 0⟩).registered = pairs) ↔
    ∃ a, ItemsText (EntryText .possiblyEmpty mode limit.toNat) text pairs a ∧
      Reader.Fails limit 0 (Reader.entryAhead? mode) a e := by
  induction n generalizing text pairs with
  | zero =>
      obtain rfl : text = [] := List.eq_nil_of_length_eq_zero (by omega)
      have hnext := @takes_entryAhead?_nil mode limit
      rw [fails_iff_step]
      constructor
      · intro h
        cases h.1
      · intro h
        rcases h with ⟨-, s, hs⟩ | ⟨pair, more, b, -, hsome, -⟩
        · rw [Reader.Takes, hs] at hnext
          cases hnext
        · cases (hnext.unique hsome).1
  | succ n ih =>
      rw [fails_iff_step, Run.upTo]
      cases hrun : Reader.entryAhead? mode ⟨text, guardAt limit 0⟩ with
      | error e' s =>
          constructor
          · intro h
            obtain ⟨herror, rfl⟩ := h
            obtain rfl := Option.some.inj herror
            exact Or.inl ⟨rfl, s, hrun⟩
          · intro h
            rcases h with ⟨rfl, s', hs'⟩ | ⟨pair, more, b, -, hsome, -⟩
            · rw [hrun] at hs'
              cases hs'
              exact ⟨rfl, rfl⟩
            · rw [Reader.Takes, hrun] at hsome
              cases hsome
      | ok found s =>
          obtain ⟨hnext, hs⟩ := Reader.steady_entryAhead?.takes_of_ok hrun
          have hnot : ¬ Reader.Fails limit 0 (Reader.entryAhead? mode) text e := by
            intro h
            obtain ⟨s', hs'⟩ := h
            rw [hrun] at hs'
            cases hs'
          cases found with
          | none =>
              constructor
              · intro h
                cases h.1
              · intro h
                rcases h with ⟨-, hfails⟩ | ⟨pair, more, b, -, hsome, -⟩
                · exact absurd hfails hnot
                · cases (hnext.unique hsome).1
          | some pair =>
              have hlt := length_lt_of_entryAhead? hnext
              rw [hs]
              constructor
              · intro h
                obtain ⟨herror, rfl⟩ := h
                have hmore := (ih (by omega)).1 ⟨herror, rfl⟩
                exact Or.inr ⟨pair, _, s.data, rfl, hnext, hmore⟩
              · intro h
                rcases h with ⟨-, hfails⟩ | ⟨other, more, b, rfl, hsome, hmore⟩
                · exact absurd hfails hnot
                · obtain ⟨heq, rfl⟩ := hnext.unique hsome
                  obtain rfl := Option.some.inj heq
                  obtain ⟨herror, hregistered⟩ := (ih (by omega)).2 hmore
                  exact ⟨herror, by rw [← hregistered]⟩

theorem Run.ofSource_fails_iff :
    (Run.ofSource mode limit text).error = some e ∧
      (Run.ofSource mode limit text).registered = pairs ↔
    ∃ a, ItemsText (EntryText .possiblyEmpty mode limit.toNat) text pairs a ∧
      Reader.Fails limit 0 (Reader.entryAhead? mode) a e :=
  Run.upTo_fails_iff (Nat.le_refl text.length)

/-- A run goes on from where a derivation stops as a run that starts there. -/
theorem Run.ofSource_of_items
    (h : ItemsText (EntryText .possiblyEmpty mode limit.toNat) text pairs rest) :
    (Run.ofSource mode limit text).error = (Run.ofSource mode limit rest).error ∧
      (Run.ofSource mode limit text).registered =
        pairs ++ (Run.ofSource mode limit rest).registered := by
  cases herror : (Run.ofSource mode limit rest).error with
  | none =>
      obtain ⟨tail, hmore, htail⟩ := Run.ofSource_iff.1 ⟨herror, rfl⟩
      exact Run.ofSource_iff.2 ⟨tail, h.append hmore, htail⟩
  | some e =>
      obtain ⟨a, hmore, hfails⟩ := Run.ofSource_fails_iff.1 ⟨herror, rfl⟩
      exact Run.ofSource_fails_iff.2 ⟨a, h.append hmore, hfails⟩

/-- Blanks in front of a text change neither what a run reads nor how it
ends. -/
theorem Run.ofSource_congr (h : trimStart text = trimStart other) :
    (Run.ofSource mode limit text).error = (Run.ofSource mode limit other).error ∧
      (Run.ofSource mode limit text).registered =
        (Run.ofSource mode limit other).registered := by
  cases herror : (Run.ofSource mode limit other).error with
  | none =>
      obtain ⟨tail, hitems, htail⟩ := Run.ofSource_iff.1 ⟨herror, rfl⟩
      obtain ⟨tail', hitems', heq⟩ := hitems.congr h.symm
      exact Run.ofSource_iff.2 ⟨tail', hitems', htail.congr heq⟩
  | some e =>
      obtain ⟨a, hitems, hfails⟩ := Run.ofSource_fails_iff.1 ⟨herror, rfl⟩
      obtain ⟨a', hitems', heq⟩ := hitems.congr h.symm
      exact Run.ofSource_fails_iff.2 ⟨a', hitems', hfails.entryAhead?_congr heq⟩

end Runs

def ReadOptions.run (options : ReadOptions) (source : String) : Run :=
  Run.ofSource options.mode (StackBudget.reading.clamp options.maxDepth).1
    source.toList

def Reading.resource? (reading : Reading) : Option Resource :=
  match reading.outcome with
  | .ok r => some r
  | .error _ => none

def Reading.diagnostic? (reading : Reading) : Option Diagnostic :=
  match reading.outcome with
  | .ok _ => none
  | .error failure => failure.diagnostic?

theorem Reading.diagnostic?_eq_some_iff {reading : Reading} {d : Diagnostic} :
    reading.diagnostic? = some d ↔ ∃ cause window,
      reading.outcome = .error (.fault cause window) ∧ d = cause.diagnostic window := by
  rw [diagnostic?]
  cases reading.outcome with
  | ok r => simp
  | error failure =>
      cases failure with
      | tooLarge size limit => simp [ReadFailure.diagnostic?]
      | numberTooLong k => simp [ReadFailure.diagnostic?]
      | fault cause window =>
          constructor
          · intro h
            exact ⟨cause, window, rfl, (Option.some.inj h).symm⟩
          · intro h
            obtain ⟨_, _, heq, rfl⟩ := h
            cases heq
            rfl

namespace Resource

variable {options : ReadOptions} {source : String} {path : Option String}
  (hsize : ¬ (0 < options.maxSize ∧ options.maxSize < source.toList.length))

include hsize

theorem outcome_eq_run :
    (Resource.read options source path).outcome =
      match (options.run source).error with
      | some e => .error (e.failure fun place =>
          Window.around source.toList (source.toList.length - place.length))
      | none => .ok (options.run source).resource := by
  simp only [Resource.read, hsize, if_false, ReadOptions.run]
  split <;> simp_all

theorem outcome_eq_error_iff {failure : ReadFailure} :
    (Resource.read options source path).outcome = .error failure ↔
      ∃ e, (options.run source).error = some e ∧
        failure = e.failure fun place =>
          Window.around source.toList (source.toList.length - place.length) := by
  rw [outcome_eq_run hsize]
  cases (options.run source).error <;> simp [eq_comm]

theorem outcome_eq_ok_iff_run {r : Resource} :
    (Resource.read options source path).outcome = .ok r ↔
      (options.run source).error = none ∧ r = (options.run source).resource := by
  rw [outcome_eq_run hsize]
  cases (options.run source).error <;> simp [eq_comm]

end Resource

end L20n
