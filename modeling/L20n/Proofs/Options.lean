import L20n.Proofs.Derived
import L20n.Proofs.Lockstep

/-!
One source under different options.  The string mode decides about strings with
placeholders and about nothing else: which sources are read, where reading stops
and what else is in the tree is the same in both modes.  The depth limit only
refuses: a reading that is not refused a level is the same under every larger
limit, and no entry is nested deeper than the limit.
-/

namespace L20n

/-- What a string in segments is when it is read as one text.  A string without
placeholders is the same in both modes. -/
inductive Value.Unsplit : Value → Value → Prop
  | string (text : String) : Unsplit (.string text) (.string text)
  | parts {pieces : List Piece} : pieces.any Piece.isPlaceholder = true →
      Unsplit (.parts (segments pieces))
        (.string (String.ofList (Text.decode (pieces.flatMap Piece.raw))))

theorem StringMode.pairs_unsplit : Pairs Value.Unsplit .split .whole := by
  intro pieces
  by_cases hany : pieces.any Piece.isPlaceholder = true
  · simpa [Value.ofPieces, hany] using Value.Unsplit.parts hany
  · simpa [Value.ofPieces, hany] using Value.Unsplit.string _

def ReadFailure.TooDeep (failure : ReadFailure) : Prop :=
  ∃ limit window, failure = .fault (.tooDeep limit) window

theorem ReadError.TooDeep.failure {e : ReadError} (h : e.TooDeep)
    (window : List Char → Window) : (e.failure window).TooDeep := by
  cases e with
  | numberTooLong _ => exact h.elim
  | fault cause place =>
      cases cause with
      | tooDeep limit => exact ⟨limit, place.map window, rfl⟩
      | _ => exact h.elim

theorem StackBudget.clamp_fst (budget : StackBudget) (requested : Int) :
    (budget.clamp requested).1 = min requested budget.ceiling := by
  by_cases h : requested ≤ budget.ceiling
  · rw [StackBudget.clamp, if_pos h, Int.min_eq_left h]
  · rw [StackBudget.clamp, if_neg h, Int.min_eq_right (by omega)]

/-- Readings that go with each other: the same failure, or resources that are
alike, unless the first was refused a level under a smaller limit. -/
inductive Reading.Agrees (leaf : Value → Value → Prop) (options other : ReadOptions)
    (reading reading' : Reading) : Prop
  | failed {failure} : reading.outcome = .error failure →
      reading'.outcome = .error failure →
      Agrees leaf options other reading reading'
  | read {r r'} : reading.outcome = .ok r → reading'.outcome = .ok r' →
      r.Alike leaf r' → Agrees leaf options other reading reading'
  | refused {failure} : options.maxDepth < other.maxDepth →
      reading.outcome = .error failure → failure.TooDeep →
      Agrees leaf options other reading reading'

namespace Resource

variable {leaf : Value → Value → Prop}

/-- A source that is too large is so in both readings; else the runs behind the
readings go with each other. -/
theorem agrees_read (options other : ReadOptions)
    (hsize : options.maxSize = other.maxSize)
    (hdepth : options.maxDepth ≤ other.maxDepth)
    (hleaf : StringMode.Pairs leaf options.mode other.mode) (source : String)
    (path : Option String) :
    Reading.Agrees leaf options other (Resource.read options source path)
      (Resource.read other source path) := by
  by_cases hlarge : 0 < options.maxSize ∧ options.maxSize < source.toList.length
  · have hlarge' := hlarge
    rw [hsize] at hlarge'
    have hfirst : (Resource.read options source path).outcome =
        .error (.tooLarge source.toList.length options.maxSize) := by
      rw [Resource.read, if_pos hlarge]
    refine .failed hfirst ?_
    rw [Resource.read, if_pos hlarge', hsize]
  have hlarge' := hlarge
  rw [hsize] at hlarge'
  have hlimits : (StackBudget.reading.clamp options.maxDepth).1 ≤
      (StackBudget.reading.clamp other.maxDepth).1 := by
    rw [StackBudget.clamp_fst, StackBudget.clamp_fst]
    omega
  have hruns := Run.agrees_ofSource hlimits hleaf source.toList
  cases hruns with
  | alike hentries herror =>
      cases hend : (options.run source).error with
      | some e =>
          exact .failed ((outcome_eq_error_iff hlarge).2 ⟨e, hend, rfl⟩)
            ((outcome_eq_error_iff hlarge').2 ⟨e, herror.symm.trans hend, rfl⟩)
      | none =>
          exact .read ((outcome_eq_ok_iff_run hlarge).2 ⟨hend, rfl⟩)
            ((outcome_eq_ok_iff_run hlarge').2 ⟨herror.symm.trans hend, rfl⟩)
            hentries.ofRegistered
  | refused hlt herror hdeep =>
      rw [StackBudget.clamp_fst, StackBudget.clamp_fst] at hlt
      exact .refused (by omega) ((outcome_eq_error_iff hlarge).2 ⟨_, herror, rfl⟩)
        (hdeep.failure _)

/-- Reading in segments and reading whole fail alike, or give the same keys and
trees that differ in strings with placeholders only. -/
theorem read_split_alike_whole (options : ReadOptions) (source : String)
    (path : Option String) :
    (∃ failure,
      (Resource.read { options with mode := .split } source path).outcome =
        .error failure ∧
      (Resource.read { options with mode := .whole } source path).outcome =
        .error failure) ∨
    ∃ r r',
      (Resource.read { options with mode := .split } source path).outcome = .ok r ∧
      (Resource.read { options with mode := .whole } source path).outcome = .ok r' ∧
      Table.names r.entries = Table.names r'.entries ∧
      r.Alike Value.Unsplit r' := by
  have hagrees := agrees_read { options with mode := .split }
    { options with mode := .whole } rfl (Int.le_refl _) StringMode.pairs_unsplit
    source path
  cases hagrees with
  | failed hsplit hwhole => exact Or.inl ⟨_, hsplit, hwhole⟩
  | read hsplit hwhole halike =>
      exact Or.inr ⟨_, _, hsplit, hwhole, halike.names_eq, halike⟩
  | refused hlt => exact absurd hlt (Int.lt_irrefl _)

/-- A reading that is not refused a level is the same under every larger limit.
What is read is nested within the limit; a negative limit still lets entries be
read that open no level. -/
theorem read_under_limit (options : ReadOptions) (source : String)
    (path : Option String) :
    (∀ limit, options.maxDepth ≤ limit →
      (∀ failure, (Resource.read options source path).outcome = .error failure →
        ¬ failure.TooDeep) →
      (Resource.read { options with maxDepth := limit } source path).outcome =
        (Resource.read options source path).outcome) ∧
    ∀ r, (Resource.read options source path).outcome = .ok r →
      ∀ pair ∈ r.entries, (pair.2.nesting : Int) ≤ max 0 (min options.maxDepth 105) := by
  constructor
  · intro limit hlimit hnot
    have hagrees := agrees_read options { options with maxDepth := limit } rfl hlimit
      (StringMode.pairs_eq options.mode) source path
    cases hagrees with
    | failed hfirst hsecond => rw [hfirst, hsecond]
    | read hfirst hsecond halike => rw [hfirst, hsecond, eq_of_alike halike]
    | refused hlt hfirst hdeep => exact absurd hdeep (hnot _ hfirst)
  · intro r hr pair hpair
    have hnesting := ((entries_within hr).2 pair hpair).2
    rw [StackBudget.clamp_fst, StackBudget.ceiling_reading] at hnesting
    omega

/-- Two levels under a limit of two, and the same reading under a limit that is
lowered to what the stack allows. -/
theorem read_under_limit_nested_array :
    (Resource.read { maxDepth := 500 } "<k ['x', [\"y\"]]> <m() \x7b 1 \x7d>" none).outcome =
      (Resource.read { maxDepth := 2 } "<k ['x', [\"y\"]]> <m() \x7b 1 \x7d>" none).outcome ∧
    ∃ r, (Resource.read { maxDepth := 2 } "<k ['x', [\"y\"]]> <m() \x7b 1 \x7d>"
        none).outcome = .ok r ∧
      ∀ pair ∈ r.entries, (pair.2.nesting : Int) ≤ max 0 (min 2 105) := by
  obtain ⟨r, hr⟩ := exists_ok_of_isOk (x := (Resource.read { maxDepth := 2 }
    "<k ['x', [\"y\"]]> <m() \x7b 1 \x7d>" none).outcome) (by decide +kernel)
  have hlimit := read_under_limit { maxDepth := 2 }
    "<k ['x', [\"y\"]]> <m() \x7b 1 \x7d>" none
  refine ⟨hlimit.1 500 (by decide) ?_, r, hr, hlimit.2 r hr⟩
  intro failure hfailure
  rw [hr] at hfailure
  cases hfailure

/-- Under a negative limit an entry without levels is read, although no nesting
is below the limit. -/
theorem read_under_negative_limit :
    ¬ ∀ (options : ReadOptions) (source : String) (path : Option String) (r : Resource),
      (Resource.read options source path).outcome = .ok r →
      ∀ pair ∈ r.entries, (pair.2.nesting : Int) ≤ min options.maxDepth 105 := by
  intro hall
  have hentries : (Resource.read { maxDepth := -1 } "<a \"x\">" none).outcome.toOption.map
      (fun r => r.entries.length) = some 1 := by decide +kernel
  obtain ⟨r, hr⟩ := exists_ok_of_isOk (x := (Resource.read { maxDepth := -1 }
    "<a \"x\">" none).outcome) (by decide +kernel)
  simp only [hr, Except.toOption, Option.map_some, Option.some.injEq] at hentries
  obtain ⟨pair, hpair⟩ := List.length_eq_one_iff.1 hentries
  have hnesting := hall _ _ _ r hr pair (by simp [hpair])
  change (pair.2.nesting : Int) ≤ min (-1) 105 at hnesting
  omega

end Resource

end L20n
