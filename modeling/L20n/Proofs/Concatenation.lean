import L20n.Proofs.FirstFault
import L20n.Proofs.Parts

/-!
Sources one after the other.  A run that ends well takes the same entries when
more text follows, so a source that is cut off and still read gives entries of
the whole one.  If only blanks are left after the entries of a source, what
follows is read as if it stood alone: its entries replace those with the same
keys, and its faults are the same ones, further on.
-/

namespace L20n

open Text Grammar

namespace Table

variable {α : Type}

/-- The pairs that are registered replace those of a table with their names. -/
theorem foldl_register (table pairs : List (String × α)) :
    pairs.foldl (fun table (name, value) => register name value table) table =
      table.filter (fun pair => pair.1 ∉ names pairs) ++ ofRegistered pairs := by
  induction pairs generalizing table with
  | nil => simp [ofRegistered, names]
  | cons pair pairs ih =>
      obtain ⟨name, value⟩ := pair
      have hnames : names ((name, value) :: pairs) = name :: names pairs := rfl
      have hfilter : (erase name table).filter (fun pair => pair.1 ∉ names pairs) =
          table.filter (fun pair => pair.1 ∉ name :: names pairs) := by
        rw [erase, List.filter_filter]
        apply List.filter_congr
        intro pair _
        by_cases hname : pair.1 = name <;> simp [hname]
      have hfirst := ih [(name, value)]
      have hregister := ih (register name value table)
      rw [register, List.filter_append, hfilter, List.append_assoc, ← hfirst] at hregister
      rw [hnames]
      exact hregister

theorem mem_names_ofRegistered {pairs : List (String × α)} {name : String} :
    name ∈ names (ofRegistered pairs) ↔ name ∈ names pairs := by
  induction pairs with
  | nil => rfl
  | cons pair pairs ih =>
      obtain ⟨first, value⟩ := pair
      have hcons : ofRegistered ((first, value) :: pairs) = _ :=
        foldl_register [(first, value)] pairs
      change _ ↔ name ∈ first :: names pairs
      rw [hcons, List.mem_cons]
      by_cases hfirst : first ∈ names pairs
      · have hfilter : [(first, value)].filter (fun pair => pair.1 ∉ names pairs) =
            [] := by
          simp [hfirst]
        rw [hfilter, List.nil_append, ih]
        constructor
        · exact Or.inr
        · rintro (rfl | h)
          · exact hfirst
          · exact h
      · have hfilter : [(first, value)].filter (fun pair => pair.1 ∉ names pairs) =
            [(first, value)] := by
          simp [hfirst]
        rw [hfilter, ← ih]
        exact List.mem_cons

theorem ofRegistered_append (first second : List (String × α)) :
    ofRegistered (first ++ second) =
      (ofRegistered first).filter (fun pair => pair.1 ∉ names (ofRegistered second)) ++
        ofRegistered second := by
  rw [ofRegistered, List.foldl_append, foldl_register]
  simp only [mem_names_ofRegistered]
  rfl

end Table

section Runs

variable {mode : StringMode} {limit : Int} {first : List Char}

/-- A run that ends well is a derivation up to the text it leaves, whatever
follows that text. -/
theorem Run.items_append (h : (Run.ofSource mode limit first).error = none)
    (more : List Char) :
    ItemsText (EntryText .possiblyEmpty mode limit.toNat) (first ++ more)
      (Run.ofSource mode limit first).registered
      ((Run.ofSource mode limit first).state.data ++ more) := by
  obtain ⟨hitems, -⟩ := (Run.upTo_iff (Nat.le_refl first.length)).1 ⟨h, rfl, rfl⟩
  obtain ⟨text, ⟨front, hfirst, rfl⟩, hmore⟩ :=
    hitems.splice ((Run.ofSource mode limit first).state.data ++ more)
  have hsplit : first ++ more =
      front ++ ((Run.ofSource mode limit first).state.data ++ more) := by
    rw [← List.append_assoc]
    exact congrArg (· ++ more) hfirst
  rw [hsplit]
  exact hmore

/-- What a run has read when it ends well, it reads whatever follows. -/
theorem Run.registered_prefix (h : (Run.ofSource mode limit first).error = none)
    (more : List Char) :
    (Run.ofSource mode limit first).registered <+:
      (Run.ofSource mode limit (first ++ more)).registered := by
  rw [(Run.ofSource_of_items (Run.items_append h more)).2]
  exact List.prefix_append _ _

/-- After a run that leaves only blanks, what follows is read as if it stood
alone. -/
theorem Run.ofSource_append (h : (Run.ofSource mode limit first).error = none)
    (hblank : ∀ c ∈ (Run.ofSource mode limit first).state.data, isBlank c = true)
    (second : List Char) :
    (Run.ofSource mode limit (first ++ second)).error =
        (Run.ofSource mode limit second).error ∧
      (Run.ofSource mode limit (first ++ second)).registered =
        (Run.ofSource mode limit first).registered ++
          (Run.ofSource mode limit second).registered := by
  have htrim : trimStart ((Run.ofSource mode limit first).state.data ++ second) =
      trimStart second :=
    List.dropWhile_append_of_pos hblank
  obtain ⟨herror, hregistered⟩ := Run.ofSource_of_items (Run.items_append h second)
  obtain ⟨herror', hregistered'⟩ := @Run.ofSource_congr mode limit _ _ htrim
  exact ⟨herror.trans herror', by rw [hregistered, hregistered']⟩

theorem ReadOptions.run_append {options : ReadOptions} {first : String}
    (h : (options.run first).error = none)
    (hblank : ∀ c ∈ (options.run first).state.data, isBlank c = true)
    (second : String) :
    (options.run (first ++ second)).error = (options.run second).error ∧
      (options.run (first ++ second)).registered =
        (options.run first).registered ++ (options.run second).registered := by
  have hjoined : options.run (first ++ second) = Run.ofSource options.mode
      (StackBudget.reading.clamp options.maxDepth).1 (first.toList ++ second.toList) := by
    rw [ReadOptions.run, String.toList_append]
  rw [hjoined]
  exact Run.ofSource_append h hblank second.toList

end Runs

/-- A window of the second part shows the same text ahead, further on. -/
theorem Window.around_append (first : List Char) {second place : List Char}
    (h : place <:+ second) :
    (Window.around (first ++ second) ((first ++ second).length - place.length)).position =
        (Window.around second (second.length - place.length)).position + first.length ∧
      (Window.around (first ++ second)
          ((first ++ second).length - place.length)).remaining =
        (Window.around second (second.length - place.length)).remaining := by
  have hposition : (first ++ second).length - place.length =
      first.length + (second.length - place.length) := by
    have hle := h.length_le
    rw [List.length_append]
    omega
  rw [hposition]
  constructor
  · exact Nat.add_comm _ _
  · simp only [Window.around, List.drop_length_add_append]

theorem Cause.diagnostic_congr (cause : Cause) (window other : Option Window) :
    cause.diagnostic other = { cause.diagnostic window with window := other } := by
  cases cause <;> rfl

namespace Resource

/-- A source that is cut off and still read gives entries of the whole source, in
their order and from its beginning. -/
theorem registered_prefix_of_cut (options : ReadOptions) (hoff : options.maxSize ≤ 0)
    (source cut : String) (hcut : cut.toList <+: source.toList) (path : Option String)
    {r : Resource} (hread : (Resource.read options cut path).outcome = .ok r) :
    (options.run cut).registered <+: (options.run source).registered ∧
      r = (options.run cut).resource ∧
      ∀ pair ∈ r.entries, pair ∈ (options.run source).registered := by
  obtain ⟨herror, rfl⟩ := (outcome_eq_ok_iff_run (by omega)).1 hread
  obtain ⟨more, hmore⟩ := hcut
  have hbegins : (options.run cut).registered <+: (options.run source).registered := by
    rw [ReadOptions.run, ReadOptions.run, ← hmore]
    exact Run.registered_prefix herror more
  refine ⟨hbegins, rfl, fun pair hpair => ?_⟩
  exact hbegins.subset (Table.mem_of_mem_ofRegistered hpair)

/-- A source cut off between an entry and a comment, before a fault. -/
theorem registered_prefix_of_cut_before_fault :
    "<a 'x'> <a[n.b] t: ['y']> /".toList <+: "<a 'x'> <a[n.b] t: ['y']> /**/ <".toList ∧
      ∃ r, (Resource.read { maxSize := 0 } "<a 'x'> <a[n.b] t: ['y']> /" none).outcome =
        .ok r ∧
      (ReadOptions.run { maxSize := 0 } "<a 'x'> <a[n.b] t: ['y']> /").registered <+:
        (ReadOptions.run { maxSize := 0 } "<a 'x'> <a[n.b] t: ['y']> /**/ <").registered ∧
      ∀ pair ∈ r.entries, pair ∈ (ReadOptions.run { maxSize := 0 }
        "<a 'x'> <a[n.b] t: ['y']> /**/ <").registered := by
  have hcut : "<a 'x'> <a[n.b] t: ['y']> /".toList <+:
      "<a 'x'> <a[n.b] t: ['y']> /**/ <".toList := by decide +kernel
  obtain ⟨r, hr⟩ := exists_ok_of_isOk (x := (Resource.read { maxSize := 0 }
    "<a 'x'> <a[n.b] t: ['y']> /" none).outcome) (by decide +kernel)
  obtain ⟨hbegins, -, hentries⟩ :=
    registered_prefix_of_cut { maxSize := 0 } (by decide) _ _ hcut none hr
  exact ⟨hcut, r, hr, hbegins, hentries⟩

/-- After a source of which only blanks are left, another one is read as it is
read alone: it succeeds if and only if it does so alone, its entries come last
and replace those with its keys, and its diagnostic differs only in the window,
which shows the same text ahead. -/
theorem read_append (options : ReadOptions) (hoff : options.maxSize ≤ 0)
    (first second : String) (path : Option String) {r : Resource}
    (hfirst : (Resource.read options first path).outcome = .ok r)
    (hblank : ∀ c ∈ (options.run first).state.data, isBlank c = true) :
    ((∃ all, (Resource.read options (first ++ second) path).outcome = .ok all) ↔
      ∃ more, (Resource.read options second path).outcome = .ok more) ∧
    (∀ more, (Resource.read options second path).outcome = .ok more →
      (Resource.read options (first ++ second) path).outcome =
        .ok ⟨r.entries.filter (fun pair => pair.1 ∉ more.keys) ++ more.entries⟩) ∧
    ∀ cause window,
      (Resource.read options second path).outcome = .error (.fault cause window) →
      ∃ alone joined, window = some alone ∧
        (Resource.read options (first ++ second) path).outcome =
          .error (.fault cause (some joined)) ∧
        cause.diagnostic (some joined) =
          { cause.diagnostic (some alone) with window := some joined } ∧
        joined.position = alone.position + first.toList.length ∧
        joined.remaining = alone.remaining := by
  have hsize : ∀ source : String,
      ¬ (0 < options.maxSize ∧ options.maxSize < source.toList.length) := by
    intro source
    omega
  obtain ⟨hnone, rfl⟩ := (outcome_eq_ok_iff_run (hsize first)).1 hfirst
  obtain ⟨herror, hregistered⟩ := ReadOptions.run_append hnone hblank second
  refine ⟨?_, ?_, ?_⟩
  · simp [outcome_eq_ok_iff_run (hsize _), herror]
  · intro more hmore
    obtain ⟨hsecond, rfl⟩ := (outcome_eq_ok_iff_run (hsize second)).1 hmore
    refine (outcome_eq_ok_iff_run (hsize _)).2 ⟨herror.trans hsecond, ?_⟩
    have htable := Table.ofRegistered_append (options.run first).registered
      (options.run second).registered
    rw [← hregistered] at htable
    exact congrArg Resource.mk htable.symm
  · intro cause window hfault
    obtain ⟨e, hsecond, hfailure⟩ := (outcome_eq_error_iff (hsize second)).1 hfault
    cases e with
    | numberTooLong k => cases hfailure
    | fault cause shown =>
        cases hfailure
        obtain ⟨place, rfl, hplace⟩ := Run.liesAt_of_error hsecond
        obtain ⟨hposition, hremaining⟩ := Window.around_append first.toList hplace
        rw [← String.toList_append] at hposition hremaining
        refine ⟨_, _, rfl, ?_, Cause.diagnostic_congr cause _ _, hposition, hremaining⟩
        exact (outcome_eq_error_iff (hsize _)).2 ⟨_, herror.trans hsecond, rfl⟩

/-- A second part that repeats a key of the first one, and a second part that is
at fault. -/
theorem read_append_repeated_key :
    (∀ c ∈ (ReadOptions.run { maxSize := 0 } "<a 'x'> <b 'y'>\n").state.data,
      isBlank c = true) ∧
    ∃ r, (Resource.read { maxSize := 0 } "<a 'x'> <b 'y'>\n" none).outcome = .ok r ∧
      (∃ more, (Resource.read { maxSize := 0 } "/**/ <a 'z'>" none).outcome = .ok more ∧
        (Resource.read { maxSize := 0 } ("<a 'x'> <b 'y'>\n" ++ "/**/ <a 'z'>")
          none).outcome =
            .ok ⟨r.entries.filter (fun pair => pair.1 ∉ more.keys) ++ more.entries⟩) ∧
      ∃ cause alone joined,
        (Resource.read { maxSize := 0 } "<c d e" none).outcome =
          .error (.fault cause (some alone)) ∧
        (Resource.read { maxSize := 0 } ("<a 'x'> <b 'y'>\n" ++ "<c d e") none).outcome =
          .error (.fault cause (some joined)) ∧
        joined.position = alone.position + "<a 'x'> <b 'y'>\n".toList.length ∧
        joined.remaining = alone.remaining := by
  obtain ⟨r, hr⟩ := exists_ok_of_isOk (x := (Resource.read { maxSize := 0 }
    "<a 'x'> <b 'y'>\n" none).outcome) (by decide +kernel)
  have hall : (ReadOptions.run { maxSize := 0 } "<a 'x'> <b 'y'>\n").state.data.all
      isBlank = true := by decide +kernel
  have hblank := List.all_eq_true.1 hall
  refine ⟨hblank, r, hr, ?_, ?_⟩
  · obtain ⟨more, hmore⟩ := exists_ok_of_isOk (x := (Resource.read { maxSize := 0 }
      "/**/ <a 'z'>" none).outcome) (by decide +kernel)
    obtain ⟨-, hjoined, -⟩ := read_append { maxSize := 0 } (by decide) _
      "/**/ <a 'z'>" none hr hblank
    exact ⟨more, hmore, hjoined more hmore⟩
  · obtain ⟨d, hd⟩ := Option.isSome_iff_exists.1 (show (Resource.read { maxSize := 0 }
      "<c d e" none).diagnostic?.isSome = true by decide +kernel)
    obtain ⟨cause, window, hfault, -⟩ := Reading.diagnostic?_eq_some_iff.1 hd
    obtain ⟨-, -, hfaults⟩ := read_append { maxSize := 0 } (by decide) _ "<c d e" none hr
      hblank
    obtain ⟨alone, joined, rfl, hjoined, -, hposition, hremaining⟩ :=
      hfaults cause window hfault
    exact ⟨cause, alone, joined, hfault, hjoined, hposition, hremaining⟩

end Resource

end L20n
