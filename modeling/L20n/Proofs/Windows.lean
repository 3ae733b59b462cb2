import L20n.Proofs.FirstFault

/-!
Where a source is at fault.  The window of a diagnostic shows the source at its
position: the end of what comes before it and the beginning of what follows, as much
of both as fits.  Reading fails at a place inside the source, so the two halves are
one piece of it, and the message of the error consists of them.
-/

namespace L20n

/-- The window shows the source at its position: on either side what is next to it,
128 characters if there are as many. -/
structure Window.Shows (source : List Char) (window : Window) : Prop where
  position_le : window.position ≤ source.length
  consumed : window.consumed.toList <:+ source.take window.position
  consumed_length : window.consumed.toList.length = min 128 window.position
  remaining : window.remaining.toList <+: source.drop window.position
  remaining_length :
    window.remaining.toList.length = min 128 (source.length - window.position)

namespace Window

variable {source : List Char} {window : Window}

/-- There is one window that shows a source at a position. -/
theorem shows_iff :
    window.Shows source ↔
      window.position ≤ source.length ∧ window = around source window.position := by
  obtain ⟨position, consumed, remaining⟩ := window
  have hwidth : position - windowWidth = position - min 128 position := by
    rw [windowWidth]
    omega
  constructor
  · rintro ⟨hposition, hconsumed, hconsumedLength, hremaining, hremainingLength⟩
    refine ⟨hposition, ?_⟩
    have hbefore : consumed.toList =
        (source.take position).drop (position - windowWidth) := by
      have heq := List.suffix_iff_eq_drop.1 hconsumed
      rwa [hconsumedLength, List.length_take_of_le hposition, ← hwidth] at heq
    have hafter : remaining.toList = (source.drop position).take windowWidth := by
      have heq := List.prefix_iff_eq_take.1 hremaining
      rwa [hremainingLength, ← List.length_drop, ← List.take_eq_take_min] at heq
    simp only [around, ← hbefore, ← hafter, String.ofList_toList]
  · rintro ⟨hposition, heq⟩
    obtain ⟨rfl, rfl⟩ : consumed = String.ofList
          ((source.take position).drop (position - windowWidth)) ∧
        remaining = String.ofList ((source.drop position).take windowWidth) := by
      simpa [around] using heq
    refine ⟨hposition, ?_, ?_, ?_, ?_⟩ <;> simp only [String.toList_ofList]
    · exact List.drop_suffix _ _
    · rw [List.length_drop, List.length_take_of_le hposition, hwidth]
      exact Nat.sub_sub_self (Nat.min_le_right 128 position)
    · exact List.take_prefix _ _
    · rw [List.length_take, List.length_drop, windowWidth]

/-- The two halves of a window are one piece of the source, and the position is between
them. -/
theorem Shows.contiguous (h : window.Shows source) :
    ∃ before after,
      source = before ++ (window.consumed.toList ++ window.remaining.toList) ++ after ∧
      before.length + window.consumed.toList.length = window.position := by
  obtain ⟨before, hbefore⟩ := h.consumed
  obtain ⟨after, hafter⟩ := h.remaining
  refine ⟨before, after, ?_, ?_⟩
  · calc source = source.take window.position ++ source.drop window.position :=
          (List.take_append_drop _ _).symm
      _ = _ := by rw [← hbefore, ← hafter]; simp only [List.append_assoc]
  · rw [← List.length_append, hbefore, List.length_take_of_le h.position_le]

end Window

theorem Layout.render_window {d : Diagnostic} {window : Window}
    (h : d.window = some window) :
    ({} : Layout).render d =
      windowHeading ++ (window.consumed ++ windowDivider ++ window.remaining) := by
  rw [render]
  simp only [h]
  rfl

theorem ReadFailure.message_fault (cause : Cause) (window : Option Window) :
    (fault cause window).message = (cause.diagnostic window).text :=
  rfl

namespace Resource

variable {options : ReadOptions} {source : String} {path : Option String}

/-- A fault is found at a place inside the source, and shown there. -/
theorem shows_of_fault {cause : Cause} {place : Option Window}
    (h : (Resource.read options source path).outcome = .error (.fault cause place)) :
    ∃ window, place = some window ∧ window.Shows source.toList := by
  by_cases hsize : 0 < options.maxSize ∧ options.maxSize < source.toList.length
  · simp only [Resource.read, hsize, and_self, if_true] at h
    cases h
  · obtain ⟨e, herror, hfault⟩ := (outcome_eq_error_iff hsize).1 h
    obtain ⟨text, hlies, -⟩ := Run.liesAt_of_error herror
    cases e with
    | numberTooLong k => cases hfault
    | fault cause shown =>
        obtain rfl : shown = some text := hlies
        cases hfault
        exact ⟨_, rfl, Window.shows_iff.2 ⟨Nat.sub_le _ _, rfl⟩⟩

/-- Whatever is wrong with a source, the diagnostic has a window that shows the source at
its position, and the message of the error is the heading with this window. -/
theorem window_of_read {failure : ReadFailure} {d : Diagnostic}
    (hfailure : (Resource.read options source path).outcome = .error failure)
    (hd : failure.diagnostic? = some d) :
    ∃ window, d.window = some window ∧ window.Shows source.toList ∧
      (∃ before after, source.toList =
          before ++ (window.consumed.toList ++ window.remaining.toList) ++ after ∧
        before.length + window.consumed.toList.length = window.position) ∧
      failure.message =
        "l10n parsing error: \n" ++ window.consumed ++ " ### " ++ window.remaining := by
  cases failure with
  | tooLarge size limit => cases hd
  | numberTooLong k => cases hd
  | fault cause place =>
      cases hd
      obtain ⟨window, rfl, hshows⟩ := shows_of_fault hfailure
      have hwindow := Cause.window_diagnostic cause (some window)
      refine ⟨window, hwindow, hshows, hshows.contiguous, ?_⟩
      rw [ReadFailure.message_fault, Diagnostic.text, Layout.render_window hwindow,
        windowHeading, windowDivider]
      simp only [String.append_assoc]

/-- The second array is refused its level, and the window that was left pending in front
of its bracket comes with the refusal. -/
theorem window_of_read_nestedArrays :
    ∃ failure d,
      (Resource.read { maxDepth := 1 } "<a [['x']]>" none).outcome = .error failure ∧
      failure.diagnostic? = some d ∧ d.code = .nestingDepthExceeded ∧
      ∃ window, d.window = some window ∧ window.position = 4 ∧
        window.Shows "<a [['x']]>".toList ∧
        failure.message =
          "l10n parsing error: \n" ++ window.consumed ++ " ### " ++ window.remaining := by
  have hread : (Resource.read { maxDepth := 1 } "<a [['x']]>" none).diagnostic?.map
      (fun d => (d.code, d.window.map Window.position)) =
        some (.nestingDepthExceeded, some 4) := by decide +kernel
  obtain ⟨d, hd, hshown⟩ := Option.map_eq_some_iff.1 hread
  obtain ⟨hcode, hposition⟩ := Prod.mk.inj hshown
  obtain ⟨cause, place, houtcome, rfl⟩ := Reading.diagnostic?_eq_some_iff.1 hd
  obtain ⟨window, hwindow, hshows, -, hmessage⟩ := window_of_read houtcome rfl
  rw [hwindow] at hposition
  exact ⟨_, _, houtcome, rfl, hcode, window, hwindow, Option.some.inj hposition, hshows,
    hmessage⟩

end Resource

end L20n
