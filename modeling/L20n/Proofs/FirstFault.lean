import L20n.Proofs.ReferenceGrammar
import L20n.Proofs.RuleFaults

/-!
Reading fails at the first violation.  Entries, steps and runs fail where their
text is viable, so that the source up to the position of a diagnostic is the
beginning of a source that is read.  There is one exception: the body of a macro
needs a level, and where no level can be entered at all nothing can be put in
for it.
-/

namespace L20n

open Text Grammar Reader

section Entries

variable {mode : StringMode} {n : Nat} {limit depth : Int} {text : List Char}
  {e : ReadError}

/-- What is missing in the text needs a level, and there is none. -/
def Starved (n : Nat) (text : List Char) (e : ReadError) : Prop :=
  n = 0 ∧ ∃ what place, e = .fault (.expectedToken what) (some place) ∧ place <:+ text

theorem Starved.trans {start : List Char} (h : Starved n text e)
    (hsuffix : text <:+ start) : Starved n start e := by
  obtain ⟨hn, what, place, heq, hplace⟩ := h
  exact ⟨hn, what, place, heq, hplace.trans hsuffix⟩

def EntityBodyText (mode : StringMode) (n : Nat) (text : List Char)
    (body : Option Value × List (String × Value)) (rest : List Char) : Prop :=
  ∃ middle, OptionalValueText mode n text body.1 middle ∧
    AttributesText mode n middle body.2 rest

def MacroHeadText (mode : StringMode) (n : Nat) (text : List Char)
    (head : String × List Expr) (rest : List Char) : Prop :=
  ∃ a, NameText text head.1 ('(' :: a) ∧
    ArgumentsText .possiblyEmpty mode n a head.2 rest

def MacroBodyText (mode : StringMode) (n : Nat) (text : List Char) (body : Expr)
    (rest : List Char) : Prop :=
  ∃ a, Lexeme ['\x7b'] text a ∧
    ClosedText (InnerText (ConditionalText .possiblyEmpty mode) n) '\x7d' a body rest

theorem local_macroHeadText : Local (MacroHeadText mode n) := by
  have hlocals := fun m (_ : n = m + 1) => expressionsLocal .possiblyEmpty mode m
  intro text head rest h rest' hjoins
  obtain ⟨a, hname, hparams⟩ := h
  obtain ⟨a', ha, hparams'⟩ := local_argumentsText hlocals hparams hjoins
  have hcall := ha.cons '('
  obtain ⟨text', hfront, hname'⟩ := local_nameText hname (hcall.joins hjoins)
  exact ⟨text', hfront.trans hcall, a', hname', hparams'⟩

theorem openEntryText_of_macro {a rest : List Char} {head : String × List Expr}
    {body : Expr} (hhead : MacroHeadText mode n text head a)
    (hbody : MacroBodyText mode n a body rest) :
    OpenEntryText .possiblyEmpty mode n text (head.1, .macroDef head.2 body) rest := by
  obtain ⟨b, hname, hparams⟩ := hhead
  obtain ⟨c, hopen, d, ⟨m, rfl, hexpr⟩, hclose⟩ := hbody
  exact .macroDef hname hparams hopen hexpr hclose

theorem macroBodyText_spaced {rest : List Char} :
    MacroBodyText mode (n + 1)
      (' ' :: '\x7b' :: ' ' :: 'a' :: ' ' :: '\x7d' :: rest)
      (.name (String.ofList ['a'])) rest :=
  ⟨_, lexeme_spaced (by decide) _, _, ⟨n, rfl, conditionalText_spaced (neutral_space _)⟩,
    lexeme_spaced (by decide) rest⟩

/-- Neither an index nor parameters start where a head is completed. -/
theorem Neutral.headText {rest : List Char} {key : String} (h : Neutral rest)
    (hname : NameText text key rest) :
    HeadText .possiblyEmpty mode n text key none rest := by
  refine .plain hname fun c hc => ⟨?_, ?_⟩
  · rintro rfl
    exact absurd (h '[' hc) (by decide)
  · rintro rfl
    exact absurd (h '(' hc) (by decide)

section Levels

variable (hn : (limit - depth).toNat = n)

include hn

theorem viable_header
    (h : Fails limit depth (header (Inner.ofLevels mode n)) text e) :
    Viable (OpenEntryText .possiblyEmpty mode n) text e := by
  have ih := fun m (_ : n = m + 1) => viable_ofLevels mode m
  have hinner := Inner.steady_ofLevels mode n
  rw [header, fails_bind (steady_name _)] at h
  simp only [takes_name, fails_choice_bind Token.found_propertyIndexOpen,
    fails_choice_bind Token.found_callOpen, Option.isSome_none, Option.isSome_some,
    if_true, Bool.false_eq_true, if_false, bind_pure_comp,
    fails_map (steady_expressions hinner _ _), fails_map (steady_arguments hinner),
    not_fails_pure, and_false, false_or, List.cons_append, List.nil_append] at h
  rcases h with h | ⟨key, _, hkey, ⟨-, a, rfl, h⟩ | ⟨a, rfl, h⟩⟩
  · refine (viable_name h).before fun rest hrest => ⟨rest, hrest, ?_⟩
    intro text' key hkey
    exact ⟨_, .entity (hrest.headText hkey) .absent .nil⟩
  · have hcall : Viable (fun text es rest => ∃ a, text = '(' :: a ∧
        ClosedText (ExpressionsText .possiblyEmpty mode n) ')' a es rest)
        ('(' :: a) e :=
      (viable_arguments hn ih h).afterMark ['('] fun a' es _ hes => ⟨es, a', rfl, hes⟩
    have hhead : Viable (fun text es rest => ∃ a, NameText text key ('(' :: a) ∧
        ClosedText (ExpressionsText .possiblyEmpty mode n) ')' a es rest) text e := by
      refine hcall.after local_nameText hkey ?_
      intro text' middle es rest hkey hes
      obtain ⟨a', rfl, hes⟩ := hes
      exact ⟨es, a', hkey, hes⟩
    refine hhead.before fun rest _ =>
      ⟨' ' :: '\x7b' :: ' ' :: 'a' :: ' ' :: '\x7d' :: rest, neutral_space _, ?_⟩
    intro text' es hhead
    obtain ⟨a', hkey, last, hes, hclose⟩ := hhead
    -- The parameters are inside a level, so there is one for the body as well.
    cases hes with
    | list hexpr hmore =>
        have hhead : MacroHeadText mode _ text' (key, _) _ :=
          ⟨a', hkey, .filled (.list hexpr hmore) hclose⟩
        exact ⟨_, openEntryText_of_macro hhead macroBodyText_spaced⟩
  · have hindex : Viable (fun text es rest => ∃ a, text = '[' :: a ∧
        ClosedText (ExpressionsText .possiblyEmpty mode n) ']' a es rest)
        ('[' :: a) e :=
      (viable_expressions hn ih Token.found_arrayClose (by decide) h).afterMark ['[']
        fun a' es _ hes => ⟨es, a', rfl, hes⟩
    refine hindex.after local_nameText hkey ?_
    intro text' middle es rest hkey hes
    obtain ⟨a', rfl, last, hes, hclose⟩ := hes
    exact ⟨_, .entity (.index hkey hes hclose) .absent .nil⟩

theorem viable_attributes
    (h : Fails limit depth (attributes? mode (Inner.ofLevels mode n)) text e) :
    Viable (AttributesText mode n) text e := by
  have ih := fun m (_ : n = m + 1) => viable_ofLevels mode m
  have hstep : Progressing limit depth (attribute? mode (Inner.ofLevels mode n)) :=
    progressing_attribute? hn
  change Fails limit depth (many (attribute? mode (Inner.ofLevels mode n)) >>=
    fun pairs => pure (if pairs.isEmpty then none else some (Table.ofPairs pairs)))
    text e at h
  rw [bind_pure_comp, fails_map hstep.steady.many, hstep.fails_many] at h
  simp only [takes_attribute?_some hn, ← attributesText_iff] at h
  obtain ⟨pairs, middle, hpairs, h⟩ := h
  have hpair : Viable (PairText mode n) middle e := by
    rw [attribute?, fails_optional_bind steady_name?] at h
    rcases h with h | ⟨_, -, h⟩ | ⟨key, a, hkey, h⟩
    · exact absurd h not_fails_name?
    · exact absurd h not_fails_pure
    · exact viable_member_of_name hn ih (f := fun v => some (key, v))
        (takes_name?_some.1 hkey) h
  refine hpair.after local_attributesText hpairs ?_
  intro text' middle' pair rest hpairs hpair
  exact ⟨pairs ++ [pair],
    attributesText_iff.2 ((attributesText_iff.1 hpairs).concat hpair)⟩

theorem viable_entityBody {key : String} {index : Option (List Expr)}
    (h : Fails limit depth (entryBody mode (Inner.ofLevels mode n) { key, index })
      text e) :
    Viable (EntityBodyText mode n) text e := by
  have ih := fun m (_ : n = m + 1) => viable_ofLevels mode m
  have hreads := fun m (_ : n = m + 1) => reads_ofLevels mode m
  have hinner := Inner.steady_ofLevels mode n
  have hfinal : ∀ {found : Option Value} {middle}, Fails limit depth (do
      let attributes ← attributes? mode (Inner.ofLevels mode n)
      if attributes.isNone && index.isNone then return Entry.plain found
      else return Entry.complex index found attributes) middle e →
      Viable (AttributesText mode n) middle e := by
    intro found middle h
    rw [fails_bind (steady_attributes? hinner)] at h
    rcases h with h | ⟨pairs, last, -, h⟩
    · exact viable_attributes hn h
    · rw [← apply_ite (pure : Entry → Reader Entry)] at h
      exact absurd h not_fails_pure
  rw [entryBody, fails_optional_bind (steady_value? hinner)] at h
  rcases h with h | ⟨middle, hnone, h⟩ | ⟨v, middle, hv, h⟩
  · exact (viable_value? hn ih h).mono fun text' v rest hv =>
      ⟨(some v, []), rest, .present hv, .nil⟩
  · obtain ⟨-, rfl⟩ := (takes_value?_none hinner).1 hnone
    exact (hfinal h).mono fun text' pairs rest hpairs =>
      ⟨(none, pairs), text', .absent, hpairs⟩
  · refine (hfinal h).after (local_valueText mode n)
      ((takes_value?_some hn hreads).1 hv) ?_
    intro text' middle' pairs rest hv hpairs
    exact ⟨(some v, pairs), middle', .present hv, hpairs⟩

theorem viable_macroBody {key : String} {params : List Expr}
    (h : Fails limit depth (entryBody mode (Inner.ofLevels mode n)
      { key, params := some params }) text e) :
    Viable (MacroBodyText mode n) text e ∨ Starved n text e := by
  have ih := fun m (_ : n = m + 1) => viable_ofLevels mode m
  rw [entryBody, fails_expect_bind Token.found_objectOpen] at h
  rcases h with ⟨rfl, -⟩ | ⟨middle, hopen, h⟩
  · cases n with
    | zero => exact Or.inr ⟨rfl, _, text, rfl, List.suffix_rfl⟩
    | succ m =>
        exact Or.inl (viable_missing fun rest _ =>
          ⟨_, _, neutral_space _, macroBodyText_spaced⟩)
  · have hinside := viable_closed_expression hn ih Token.found_objectClose (by decide) h
    exact Or.inl (hinside.afterLexeme hopen (by simp) fun _ middle' body _ hopen hbody =>
      ⟨body, middle', hopen, hbody⟩)

theorem openEntryText_of_takes {head : Header} {a rest : List Char} {body : Entry}
    (hheader : Takes limit depth (header (Inner.ofLevels mode n)) text head a)
    (hbody : Takes limit depth (entryBody mode (Inner.ofLevels mode n) head) a body
      rest) :
    OpenEntryText .possiblyEmpty mode n text (head.key, body) rest := by
  rcases (takes_header hn).1 hheader with ⟨key, index, rfl, hhead⟩ |
    ⟨key, params, b, rfl, hkey, hparams⟩
  · obtain ⟨v, pairs, c, hv, -, hpairs, -, rfl⟩ := (takes_entryBody_entity hn).1 hbody
    exact .entity hhead hv hpairs
  · obtain ⟨m, c, d, body, rfl, hopen, hexpr, hend, rfl⟩ :=
      (takes_entryBody_params hn).1 hbody
    exact .macroDef hkey hparams hopen hexpr hend

theorem viable_entryBody {head : Header} {a : List Char}
    (hheader : Takes limit depth (header (Inner.ofLevels mode n)) text head a)
    (h : Fails limit depth (entryBody mode (Inner.ofLevels mode n) head) a e) :
    Viable (OpenEntryText .possiblyEmpty mode n) text e ∨ Starved n text e := by
  rcases (takes_header hn).1 hheader with ⟨key, index, rfl, hhead⟩ |
    ⟨key, params, b, rfl, hkey, hparams⟩
  · refine Or.inl ((viable_entityBody hn h).after (local_headText key) hhead ?_)
    intro text' a' body rest hhead hbody
    obtain ⟨middle, hv, hpairs⟩ := hbody
    exact ⟨_, .entity hhead hv hpairs⟩
  · have hhead : MacroHeadText mode n text (key, params) a := ⟨b, hkey, hparams⟩
    rcases viable_macroBody hn h with hviable | hstarved
    · refine Or.inl (hviable.after local_macroHeadText hhead ?_)
      intro text' a' body rest hhead hbody
      exact ⟨_, openEntryText_of_macro hhead hbody⟩
    · exact Or.inr (hstarved.trans (local_macroHeadText.suffix hhead))

/-- An entry fails where its text is viable, or for want of a level. -/
theorem viable_entry
    (h : Fails limit depth (entry mode (Inner.ofLevels mode n)) text e) :
    Viable (EntryText .possiblyEmpty mode n) text e ∨ Starved n text e := by
  have hinner := Inner.steady_ofLevels mode n
  have hclosed : Viable (ClosedText (OpenEntryText .possiblyEmpty mode n) '>') text e ∨
      Starved n text e := by
    rw [entry, fails_bind (steady_header hinner)] at h
    rcases h with h | ⟨head, a, hhead, h⟩
    · exact Or.inl ((viable_header hn h).closed (by decide))
    · rw [fails_bind (steady_entryBody hinner head)] at h
      rcases h with h | ⟨body, b, hbody, h⟩
      · exact (viable_entryBody hn hhead h).imp_left fun hopen => hopen.closed (by decide)
      · rw [fails_expect_bind Token.found_entryClose] at h
        rcases h with ⟨rfl, -⟩ | ⟨_, -, h⟩
        · exact Or.inl (viable_unclosed local_openEntryText
            (openEntryText_of_takes hn hhead hbody) (by decide))
        · exact absurd h not_fails_pure
  refine hclosed.imp_left fun hviable => hviable.mono fun text' pair rest hpair => ?_
  exact ⟨pair, entryText_iff.2 hpair⟩

end Levels

end Entries

section Runs

variable {mode : StringMode} {limit : Int} {text : List Char} {e : ReadError}

theorem viable_comment (h : Fails limit 0 comment? text e) :
    Viable (fun text (_ : Unit) rest => CommentText text rest) text e := by
  obtain ⟨body, hopen, -, rfl⟩ := fails_comment?.1 h
  have hclose : Viable (fun text (_ : Unit) rest => ∃ front,
      Through ['*', '/'] text front rest) body
      (.fault .unterminatedComment (some body)) := by
    refine viable_missing fun rest _ =>
      ⟨' ' :: '*' :: '/' :: rest, (), neutral_space _, ?_⟩
    refine ⟨[' ', '*', '/'], (through_cons_iff (by simp)).2 ⟨['*', '/'], rfl, ?_⟩⟩
    exact (through_iff_of_start (by simp) rfl).2 ⟨rfl, rfl⟩
  refine hclose.afterLexeme hopen (by simp) ?_
  intro text' body' u rest hopen hclose
  obtain ⟨front, hthrough⟩ := hclose
  exact ⟨u, body', front, hopen, hthrough⟩

theorem local_itemsText {lists : ListRule} {n : Nat} :
    Local (ItemsText (EntryText lists mode n)) :=
  fun _ _ _ h rest' _ => h.splice rest'

/-- A step of a run fails in a comment or an entry that can be completed, or for
want of a level. -/
theorem viable_entryAhead? (h : Fails limit 0 (entryAhead? mode) text e) :
    Viable (ItemsText (EntryText .possiblyEmpty mode limit.toNat)) text e ∨
      Starved limit.toNat text e := by
  obtain ⟨a, hskip, h⟩ := fails_entryAhead?.1 h
  rw [Int.sub_zero] at h
  have hitems : ItemsText (EntryText .possiblyEmpty mode limit.toNat) text [] a :=
    .of_skipsComments hskip .done
  rcases h with h | ⟨b, hopen, h⟩
  · refine Or.inl ((viable_comment h).after local_itemsText hitems ?_)
    intro text' a' _ rest hitems hcomment
    exact ⟨[], hitems.append (.comment hcomment .done)⟩
  · rcases viable_entry (by rw [Int.sub_zero]) h with hentry | hstarved
    · refine Or.inl (hentry.behind local_itemsText hitems hopen (by simp) ?_)
      intro text' a' b' pair rest hitems hopen hpair
      exact ⟨[pair], hitems.append (.entry hopen hpair .done)⟩
    · exact Or.inr (hstarved.trans (hopen.suffix.trans hskip.suffix))

/-- A run fails where the source can be completed, or for want of a level. -/
theorem Run.viable_of_error (h : (Run.ofSource mode limit text).error = some e) :
    Viable (ItemsText (EntryText .possiblyEmpty mode limit.toNat)) text e ∨
      Starved limit.toNat text e := by
  obtain ⟨a, hitems, hfails⟩ := Run.ofSource_fails_iff.1 ⟨h, rfl⟩
  rcases viable_entryAhead? hfails with hviable | hstarved
  · refine Or.inl (hviable.after local_itemsText hitems ?_)
    intro text' a' more rest hitems hmore
    exact ⟨_, hitems.append hmore⟩
  · exact Or.inr (hstarved.trans (local_itemsText.suffix hitems))

/-- The error of a run points into its source. -/
theorem Run.liesAt_of_error (h : (Run.ofSource mode limit text).error = some e) :
    ∃ place, e.LiesAt place ∧ place <:+ text := by
  rcases Run.viable_of_error h with ⟨place, hlies, hsuffix, -⟩ |
    ⟨-, what, place, rfl, hsuffix⟩
  · exact ⟨place, hlies, hsuffix⟩
  · exact ⟨place, rfl, hsuffix⟩

/-- A text that is viable for items is the beginning of a source. -/
theorem Viable.sourceText {n : Nat}
    (h : Viable (ItemsText (EntryText .possiblyEmpty mode n)) text e)
    (hlevels : ¬ e.TooDeep) :
    ∃ front place, e.LiesAt place ∧ text = front ++ place ∧
      ∃ more pairs, SourceText (EntryText .possiblyEmpty mode n) (front ++ more)
        pairs := by
  obtain ⟨place, hlies, -, hdeep | hcompletable⟩ := h
  · exact absurd hdeep hlevels
  · obtain ⟨text', more, pairs, ⟨front, rfl, rfl⟩, -, hitems⟩ :=
      hcompletable [] neutral_nil
    exact ⟨front, place, hlies, rfl, more, pairs, [], hitems, isTail_nil⟩

end Runs

theorem Cause.window_diagnostic (cause : Cause) (window : Option Window) :
    (cause.diagnostic window).window = window := by
  cases cause <;> rfl

/-- Up to the position of a diagnostic that is not about nesting, a source is the
beginning of a source that is read. -/
theorem Resource.read_up_to_position (options : ReadOptions)
    (hoff : options.maxSize ≤ 0)
    (hdepth : 1 ≤ (StackBudget.reading.clamp options.maxDepth).1) (source : String)
    (path : Option String) {d : Diagnostic}
    (hd : (Resource.read options source path).diagnostic? = some d)
    (hcode : d.code ≠ .nestingDepthExceeded) :
    ∃ window, d.window = some window ∧ window.position ≤ source.toList.length ∧
      ∃ more r, (Resource.read options
        (String.ofList (source.toList.take window.position) ++ more) path).outcome =
          .ok r := by
  obtain ⟨cause, window, houtcome, rfl⟩ := Reading.diagnostic?_eq_some_iff.1 hd
  obtain ⟨e, herror, hfailure⟩ := (outcome_eq_error_iff (by omega)).1 houtcome
  cases e with
  | numberTooLong k => cases hfailure
  | fault cause shown =>
      cases hfailure
      have hlevels : ¬ ReadError.TooDeep (.fault cause shown) := by
        intro hdeep
        cases cause <;> first | exact hdeep | exact hcode rfl
      have hviable : Viable (ItemsText (EntryText .possiblyEmpty options.mode
          (StackBudget.reading.clamp options.maxDepth).1.toNat)) source.toList
          (.fault cause shown) := by
        rcases Run.viable_of_error herror with hviable | ⟨hzero, -⟩
        · exact hviable
        · omega
      obtain ⟨front, place, rfl, hsource, more, pairs, hread⟩ :=
        hviable.sourceText hlevels
      have hfront : source.toList.take (source.toList.length - place.length) = front := by
        rw [hsource, List.length_append, Nat.add_sub_cancel, List.take_left]
      refine ⟨_, Cause.window_diagnostic cause _, ?_, String.ofList more,
        ⟨Table.ofRegistered pairs⟩, ?_⟩
      · exact Nat.sub_le source.toList.length place.length
      · rw [outcome_eq_ok_iff (by omega)]
        refine ⟨pairs, ?_, rfl⟩
        rw [String.toList_append, String.toList_ofList, String.toList_ofList]
        exact hfront ▸ hread

/-- A placeholder without end, in a call inside a macro. -/
theorem Resource.read_up_to_open_placeholder :
    (0 : Int) ≤ 0 ∧ 1 ≤ (StackBudget.reading.clamp 3).1 ∧ ∃ d,
      (Resource.read { maxSize := 0, maxDepth := 3, mode := .split }
        "<m(a) \x7b f(1, 'it\x7b\x7b n \x7d>" none).diagnostic? = some d ∧
      d.code = .unterminatedPlaceholder ∧
      ∃ window, d.window = some window ∧
        window.position ≤ "<m(a) \x7b f(1, 'it\x7b\x7b n \x7d>".toList.length ∧
        ∃ more r, (Resource.read { maxSize := 0, maxDepth := 3, mode := .split }
          (String.ofList ("<m(a) \x7b f(1, 'it\x7b\x7b n \x7d>".toList.take
            window.position) ++ more) none).outcome = .ok r := by
  have hread : (Resource.read { maxSize := 0, maxDepth := 3, mode := .split }
      "<m(a) \x7b f(1, 'it\x7b\x7b n \x7d>" none).diagnostic?.map Diagnostic.code =
        some .unterminatedPlaceholder := by decide +kernel
  obtain ⟨d, hd, hcode⟩ := Option.map_eq_some_iff.1 hread
  exact ⟨by decide, by decide, d, hd, hcode,
    read_up_to_position _ (by decide) (by decide) _ none hd (by simp [hcode])⟩

/-- A source of permitted size gives either a resource or a diagnostic, unless a
number has too many digits; such a number stands at a place up to which the
source is the beginning of one that is read. -/
theorem Resource.resource_or_diagnostic (options : ReadOptions) (source : String)
    (path : Option String)
    (hsize : options.maxSize ≤ 0 ∨ source.toList.length ≤ options.maxSize) :
    ((Resource.read options source path).resource?.isSome ≠
        (Resource.read options source path).diagnostic?.isSome ↔
      ¬ ∃ k, (Resource.read options source path).outcome = .error (.numberTooLong k)) ∧
    ∀ k, (Resource.read options source path).outcome = .error (.numberTooLong k) →
      ∃ front place, source.toList = front ++ place ∧ LongNumber place k.digits ∧
        ∃ more r, (Resource.read { options with maxSize := 0 }
          (String.ofList front ++ more) path).outcome = .ok r := by
  have hwithin : ¬ (0 < options.maxSize ∧ options.maxSize < source.toList.length) := by
    omega
  constructor
  · rw [Reading.resource?, Reading.diagnostic?, outcome_eq_run hwithin]
    cases (options.run source).error with
    | none => simp
    | some e => cases e <;> simp [ReadError.failure, ReadFailure.diagnostic?]
  · intro k houtcome
    obtain ⟨e, herror, hfailure⟩ := (outcome_eq_error_iff hwithin).1 houtcome
    cases e with
    | fault cause shown => cases hfailure
    | numberTooLong k =>
        cases hfailure
        rcases Run.viable_of_error herror with hviable | ⟨-, what, place, hfault, -⟩
        · obtain ⟨front, place, hlies, hsource, more, pairs, hread⟩ :=
            hviable.sourceText fun hdeep => hdeep
          refine ⟨front, place, hsource, hlies, String.ofList more,
            ⟨Table.ofRegistered pairs⟩, ?_⟩
          rw [outcome_eq_ok_iff (by simp)]
          refine ⟨pairs, ?_, rfl⟩
          rw [String.toList_append, String.toList_ofList, String.toList_ofList]
          exact hread
        · cases hfault

/-- A macro whose body is the number one, with 4300 zeros in front of it. -/
def paddedOne : List Char :=
  "<m() \x7b ".toList ++ (List.replicate 4300 '0' ++ "1 \x7d>".toList)

theorem Run.error_paddedOne :
    ∃ k, (Run.ofSource .whole 100 paddedOne).error = some (.numberTooLong k) := by
  have hfailure : (Run.ofSource .whole 100 paddedOne).error.map (fun e =>
      (e.failure fun _ => Window.around paddedOne 0).diagnostic?.isSome) =
        some false := by decide +kernel
  obtain ⟨e, herror, hnone⟩ := Option.map_eq_some_iff.1 hfailure
  cases e with
  | fault cause shown => cases hnone
  | numberTooLong k => exact ⟨k, herror⟩

theorem Resource.no_diagnostic_paddedOne :
    (0 : Int) ≤ 0 ∧ ∃ k, (Resource.read { maxSize := 0 } (String.ofList paddedOne)
      none).outcome = .error (.numberTooLong k) ∧
      (Resource.read { maxSize := 0 } (String.ofList paddedOne) none).resource?.isSome =
        (Resource.read { maxSize := 0 } (String.ofList paddedOne)
          none).diagnostic?.isSome ∧
      ∃ front place, (String.ofList paddedOne).toList = front ++ place ∧
        LongNumber place k.digits ∧
        ∃ more r, (Resource.read { maxSize := 0 } (String.ofList front ++ more)
          none).outcome = .ok r := by
  obtain ⟨k, herror⟩ := Run.error_paddedOne
  have houtcome : (Resource.read { maxSize := 0 } (String.ofList paddedOne)
      none).outcome = .error (.numberTooLong k) := by
    rw [outcome_eq_error_iff (by simp)]
    refine ⟨.numberTooLong k, ?_, rfl⟩
    rw [ReadOptions.run, String.toList_ofList]
    exact herror
  obtain ⟨hiff, hplace⟩ := resource_or_diagnostic { maxSize := 0 }
    (String.ofList paddedOne) none (Or.inl (by decide))
  refine ⟨by decide, k, houtcome, ?_, hplace k houtcome⟩
  by_cases heq : (Resource.read { maxSize := 0 } (String.ofList paddedOne)
      none).resource?.isSome =
    (Resource.read { maxSize := 0 } (String.ofList paddedOne) none).diagnostic?.isSome
  · exact heq
  · exact absurd ⟨_, houtcome⟩ (hiff.1 heq)

end L20n
