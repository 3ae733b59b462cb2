import L20n.Proofs.Scanning
import L20n.Proofs.Spelling

/-!
The texts of string literals.  Decoding leaves no backslash before a letter of a
control character, and every other text has a literal.  The segments of a string
are written one by one but read as they stand next to each other, so a backslash
at the end of one can make an escape with the next.  In the same way a string with
placeholders that is read as one text can differ from its segments put together.
-/

namespace L20n

open Text

/-- A literal is read under any guard alike. -/
theorem Reader.literal_eq_ok_iff {mode : StringMode} {text : List Char} {v : Value}
    {guard : DepthGuard (List Char)} {s : Guarded (List Char) (List Char)} :
    literal mode ⟨text, guard⟩ = .ok v s ↔
      ∃ rest, LiteralText mode text v rest ∧ s = ⟨rest, guard⟩ := by
  constructor
  · intro h
    cases hmatch : Token.delimiter.match? text with
    | none =>
        have hexpect : expect .delimiter "a string delimiter" ⟨text, guard⟩ =
            .error (.fault (.expectedToken "a string delimiter") (some text))
              ⟨text, guard⟩ := by
          change EStateM.bind _ _ _ = _
          simp only [EStateM.bind, token?, hmatch]
          rfl
        change EStateM.bind _ _ _ = _ at h
        rw [EStateM.bind, hexpect] at h
        cases h
    | some found =>
        have hdelimiter := Token.found_delimiter.1 ⟨found, hmatch, rfl, rfl⟩
        rw [literal_eq hdelimiter] at h
        cases hscan : Body.scan found.lexeme found.rest with
        | closed pieces rest =>
            rw [hscan] at h
            cases h
            have hbody := Body.bodyText_of_scan hscan
            exact ⟨rest, ⟨_, _, pieces, hdelimiter, hbody, rfl⟩, rfl⟩
        | openPlaceholder place =>
            rw [hscan] at h
            cases h
        | openLiteral =>
            rw [hscan] at h
            cases h
  · rintro ⟨rest, ⟨delimiter, body, pieces, hdelimiter, hbody, rfl⟩, rfl⟩
    rw [literal_eq hdelimiter]
    obtain ⟨quote, more, rfl, hescape, hbrace⟩ := hdelimiter.quote
    rw [(Body.scan_eq_closed_iff hescape hbrace).2 hbody]

namespace Session

variable {source : List Char} {p i : Nat} {mode : StringMode} {v : Value}
  {guard : DepthGuard (List Char)}

theorem stops_literal_iff :
    (Session.mk source p mode guard).Stops (Reader.literal mode) (.ok v) i ↔
      ∃ rest, LiteralText mode (source.drop p) v rest ∧
        (Session.mk source p mode guard).offsetOf rest = i := by
  constructor
  · rintro ⟨hresult, hoffset⟩
    obtain ⟨s, hrun, hdata⟩ := run_eq_ok hresult
    obtain ⟨rest, hliteral, rfl⟩ := Reader.literal_eq_ok_iff.1 hrun
    exact ⟨rest, hliteral, hdata.symm.trans hoffset⟩
  · rintro ⟨rest, hliteral, hoffset⟩
    have hrun : Reader.literal mode ⟨source.drop p, guard⟩ = .ok v ⟨rest, guard⟩ :=
      Reader.literal_eq_ok_iff.2 ⟨rest, hliteral, rfl⟩
    have hsession : (Session.mk source p mode guard).run (Reader.literal mode) =
        (.ok v, (Session.mk source p mode guard).moved ⟨rest, guard⟩) := by
      simp only [run, ahead, hrun]
    rw [Stops, hsession]
    exact ⟨rfl, hoffset⟩

/-- A literal is read as a whole if nothing is left. -/
theorem stops_length_iff {literal : List Char} :
    (Session.mk literal 0 mode guard).Stops (Reader.literal mode) (.ok v)
        literal.length ↔ LiteralText mode literal v [] := by
  rw [stops_literal_iff]
  constructor
  · rintro ⟨rest, hliteral, hoffset⟩
    have hlt := length_lt_of_literalText hliteral
    simp only [offsetOf, ahead, List.drop_zero] at hoffset hlt
    have hrest : rest.length = 0 := by omega
    rwa [List.drop_zero, List.eq_nil_of_length_eq_zero hrest] at hliteral
  · intro hliteral
    exact ⟨[], hliteral, by simp [offsetOf, ahead]⟩

/-- A body between quotes is read as what its pieces stand for. -/
theorem stops_of_bodyText {body : List Char} {pieces : List Piece}
    (h : BodyText ['"'] body pieces []) (hv : v = Value.ofPieces mode pieces) :
    (Session.mk ('"' :: body) 0 mode guard).Stops (Reader.literal mode) (.ok v)
      (body.length + 1) := by
  rw [hv]
  exact stops_length_iff.2 (literalText_of_bodyText mode h (by simp [L20n.Stops]))

end Session

theorem Value.eq_of_ofPieces_eq_string {mode : StringMode} {pieces : List Piece}
    {content : String} (h : ofPieces mode pieces = .string content) :
    content.toList = decode (pieces.flatMap Piece.raw) := by
  rw [ofPieces] at h
  split at h
  · cases h
  · rw [← Value.string.inj h, String.toList_ofList]

/-- A text has a literal exactly if no backslash in it stands before the letter of
a control character, in both modes of reading. -/
theorem Session.exists_literal_iff (content : String) (mode : StringMode)
    (guard : DepthGuard (List Char)) :
    (∃ literal, (Session.mk literal 0 mode guard).Stops (Reader.literal mode)
        (.ok (.string content)) literal.length) ↔
      ¬ BackslashBefore ['n', 'r', 't', 'b', 'f'] content.toList := by
  constructor
  · rintro ⟨literal, hstops⟩
    obtain ⟨_, _, pieces, -, -, hvalue⟩ := stops_length_iff.1 hstops
    rw [Value.eq_of_ofPieces_eq_string hvalue.symm]
    exact not_backslashBefore_decode _
  · intro h
    have hunspelled : unspelled escapes = ['n', 'r', 't', 'b', 'f'] := by decide
    have hdecode : decode (content.toList.flatMap (spell escapes)) = content.toList := by
      have hspell :=
        shorterIf_decode_spell (fun _ hmem => hmem) (by decide) content.toList
      rwa [hspell.eq_iff, hunspelled]
    -- the literal in which everything that has an escape is spelled with it
    have hbody : BodyText ['"'] (content.toList.flatMap (spell escapes) ++ ['"'])
        (content.toList.map (Piece.spelled escapes) ++ []) [] :=
      BodyText.spell_append (by simp [escapes]) (.close []) content.toList
    refine ⟨_, stops_of_bodyText hbody ?_⟩
    rw [List.append_nil, ofPieces_spelled, hdecode, String.ofList_toList]

/-- The text before the first placeholder, and each placeholder with the text after
it. -/
abbrev Rows :=
  List Char × List (List Char × List Char)

namespace Rows

def texts (rows : Rows) : List (List Char) :=
  rows.1 :: rows.2.map Prod.snd

/-- Texts and placeholders put together, each text after a change. -/
def join (change : List Char → List Char) (rows : Rows) : List Char :=
  change rows.1 ++ rows.2.flatMap fun (source, text) => source ++ change text

theorem join_cons (change : List Char → List Char) (text source next : List Char)
    (more : List (List Char × List Char)) :
    join change (text, (source, next) :: more) =
      change text ++ (source ++ join change (next, more)) := by
  simp [join]

theorem join_map (change other : List Char → List Char) (rows : Rows) :
    join change (other rows.1, rows.2.map fun (source, text) => (source, other text)) =
      join (fun text => change (other text)) rows := by
  simp [join, List.flatMap_map]

/-- A change that makes some texts shorter makes the whole shorter. -/
theorem shorterIf_join {p : List Char → Prop} {change : List Char → List Char}
    (h : ∀ text, ShorterIf (p text) (change text) text) (rows : Rows) :
    ShorterIf (∃ text ∈ rows.texts, p text) (rows.join change) (rows.join id) := by
  obtain ⟨text, more⟩ := rows
  induction more generalizing text with
  | nil =>
      simp only [texts, join, List.map_nil, List.flatMap_nil, List.append_nil,
        List.mem_singleton, exists_eq_left, id_eq]
      exact h text
  | cons pair more ih =>
      obtain ⟨source, next⟩ := pair
      rw [join_cons, join_cons]
      apply ((h text).append ((shorterIf_refl not_false source).append (ih next))).congr
      simp [texts]

/-- The segments of rows that stand in a literal: the texts are decoded where there
are any. -/
def segments (rows : Rows) : List Segment :=
  textSegment rows.1 ++ rows.2.flatMap fun (source, text) =>
    .placeholder (String.ofList source) :: textSegment text

theorem segments_cons (text source next : List Char)
    (more : List (List Char × List Char)) :
    segments (text, (source, next) :: more) =
      textSegment text ++
        .placeholder (String.ofList source) :: segments (next, more) := by
  simp [segments]

end Rows

/-- The rows of a string that is given by its segments. -/
def textRows : List Segment → Rows
  | [] => ([], [])
  | .text content :: parts =>
    (content.toList ++ (textRows parts).1, (textRows parts).2)
  | .placeholder source :: parts =>
    ([], (source.toList, (textRows parts).1) :: (textRows parts).2)

theorem join_textRows (parts : List Segment) :
    (textRows parts).join id = (partsText parts).toList := by
  rw [partsText, String.toList_ofList]
  induction parts with
  | nil => rfl
  | cons part parts ih =>
      rw [List.flatMap_cons, ← ih]
      cases part with
      | text content => simp [textRows, Rows.join, Segment.source]
      | placeholder source =>
          rw [textRows, Rows.join_cons]
          rfl

theorem placeholders_textRows (parts : List Segment) :
    parts.filter Segment.isPlaceholder =
      (textRows parts).2.map fun pair => .placeholder (String.ofList pair.1) := by
  induction parts with
  | nil => rfl
  | cons part parts ih =>
      cases part with
      | text content =>
          rw [List.filter_cons_of_neg (by simp [Segment.isPlaceholder]), ih]
          rfl
      | placeholder source =>
          rw [List.filter_cons_of_pos rfl, ih]
          simp [textRows]

/-- The rows of what is written for the segments. -/
theorem runs_pieces (parts : List Segment) :
    runs (parts.flatMap Segment.pieces) =
      (encode (textRows parts).1, (textRows parts).2.map fun (source, text) =>
        (source, encode text)) := by
  induction parts with
  | nil => rfl
  | cons part parts ih =>
      rw [List.flatMap_cons]
      cases part with
      | text content =>
          rw [Segment.pieces, runs_ofChar_append, ih]
          simp [textRows, encode]
      | placeholder source =>
          rw [Segment.pieces, List.singleton_append, runs, ih]
          rfl

section Neighbours

variable {texts : List String} {parts : List Segment}

theorem flatMap_prefix_textRows (h : texts.map Segment.text <+: parts) :
    texts.flatMap String.toList <+: (textRows parts).1 := by
  induction texts generalizing parts with
  | nil => exact List.nil_prefix
  | cons content texts ih =>
      obtain ⟨rest, rfl⟩ := h
      have hmore := ih (List.prefix_append (texts.map Segment.text) rest)
      rw [List.flatMap_cons]
      exact (List.prefix_append_right_inj content.toList).2 hmore

/-- Texts next to each other are part of one row. -/
theorem flatMap_infix_textRows (h : texts.map Segment.text <:+: parts) :
    ∃ row ∈ (textRows parts).texts, texts.flatMap String.toList <:+: row := by
  induction parts with
  | nil =>
      obtain rfl : texts = [] := by simpa using h
      exact ⟨[], List.mem_cons_self, List.infix_rfl⟩
  | cons part parts ih =>
      rcases List.infix_cons_iff.1 h with hprefix | hinside
      · exact ⟨_, List.mem_cons_self, (flatMap_prefix_textRows hprefix).isInfix⟩
      · obtain ⟨row, hrow, hwithin⟩ := ih hinside
        cases part with
        | placeholder source =>
            refine ⟨row, List.mem_cons_of_mem [] ?_, hwithin⟩
            exact hrow
        | text content =>
            rcases List.mem_cons.1 hrow with rfl | hrow
            · refine ⟨_, List.mem_cons_self, hwithin.trans ?_⟩
              exact (List.suffix_append content.toList _).isInfix
            · exact ⟨row, List.mem_cons_of_mem _ hrow, hwithin⟩

theorem exists_prefix_textRows (parts : List Segment) :
    ∃ texts : List String, texts.map Segment.text <+: parts ∧
      texts.flatMap String.toList = (textRows parts).1 := by
  induction parts with
  | nil => exact ⟨[], List.nil_prefix, rfl⟩
  | cons part parts ih =>
      cases part with
      | placeholder source => exact ⟨[], List.nil_prefix, rfl⟩
      | text content =>
          obtain ⟨texts, hprefix, hrow⟩ := ih
          refine ⟨content :: texts, ?_, ?_⟩
          · exact List.cons_prefix_cons.2 ⟨rfl, hprefix⟩
          · rw [List.flatMap_cons, hrow]
            rfl

/-- Each row is made of texts next to each other. -/
theorem exists_infix_textRows {row : List Char} (h : row ∈ (textRows parts).texts) :
    ∃ texts : List String, texts.map Segment.text <:+: parts ∧
      texts.flatMap String.toList = row := by
  induction parts with
  | nil => exact ⟨[], List.nil_infix, by simpa [textRows, Rows.texts, eq_comm] using h⟩
  | cons part parts ih =>
      rcases List.mem_cons.1 h with rfl | hrow
      · obtain ⟨texts, hprefix, hrow⟩ := exists_prefix_textRows (part :: parts)
        exact ⟨texts, hprefix.isInfix, hrow⟩
      · have hlater : row ∈ (textRows parts).texts := by
          cases part with
          | text content => exact List.mem_cons_of_mem _ hrow
          | placeholder source => exact hrow
        obtain ⟨texts, hwithin, heq⟩ := ih hlater
        exact ⟨texts, hwithin.trans (List.suffix_cons part parts).isInfix, heq⟩

end Neighbours

theorem exists_textRows_iff {letters : List Char} {parts : List Segment} :
    (∃ row ∈ (textRows parts).texts, BackslashBefore letters row) ↔
      ∃ texts : List String, texts.map Segment.text <:+: parts ∧
        BackslashBefore letters (texts.flatMap String.toList) := by
  constructor
  · rintro ⟨row, hrow, hbefore⟩
    obtain ⟨texts, hwithin, rfl⟩ := exists_infix_textRows hrow
    exact ⟨texts, hwithin, hbefore⟩
  · rintro ⟨texts, hwithin, hbefore⟩
    obtain ⟨row, hrow, hpart⟩ := flatMap_infix_textRows hwithin
    exact ⟨row, hrow, hbefore.of_part hpart⟩

/-- The text of a string, with placeholders left as they are. -/
def Value.stringText : Value → Option String
  | .string content => some content
  | .parts segments => some (partsText segments)
  | .array _ | .object _ => none

def Value.placeholders : Value → List Segment
  | .parts segments => segments.filter Segment.isPlaceholder
  | _ => []

theorem textSegment_source (text : List Char) :
    (textSegment text).flatMap (fun segment => segment.source.toList) = decode text := by
  cases text with
  | nil => rfl
  | cons c text => simp [textSegment, Segment.source]

theorem filter_textSegment (text : List Char) :
    (textSegment text).filter Segment.isPlaceholder = [] := by
  cases text with
  | nil => rfl
  | cons c text => rfl

theorem partsText_segments (rows : Rows) :
    partsText rows.segments = String.ofList (rows.join decode) := by
  rw [partsText, Rows.segments, List.flatMap_append, textSegment_source,
    List.flatMap_assoc]
  simp only [List.flatMap_cons, textSegment_source]
  simp only [Segment.source, String.toList_ofList]
  rfl

theorem placeholders_segments (rows : Rows) :
    rows.segments.filter Segment.isPlaceholder =
      rows.2.map fun pair => .placeholder (String.ofList pair.1) := by
  rw [Rows.segments, List.filter_append, filter_textSegment, List.nil_append]
  induction rows.2 with
  | nil => rfl
  | cons pair more ih =>
      rw [List.flatMap_cons, List.cons_append, List.filter_cons_of_pos rfl,
        List.filter_append, filter_textSegment, ih]
      rfl

theorem segments_runs (pieces : List Piece) :
    L20n.segments pieces = Rows.segments (runs pieces) :=
  rfl

/-- Rows without placeholders are one text. -/
theorem runs_of_unbraced {pieces : List Piece} (h : Unbraced pieces) :
    runs pieces = (pieces.flatMap Piece.raw, []) := by
  simpa [runs] using runs_append h []

theorem stringText_ofPieces (pieces : List Piece) :
    (Value.ofPieces .split pieces).stringText =
      some (String.ofList (Rows.join decode (runs pieces))) := by
  by_cases hany : pieces.any Piece.isPlaceholder = true
  · rw [Value.ofPieces, if_pos ⟨rfl, hany⟩, Value.stringText, segments_runs,
      partsText_segments]
  · have hunbraced : Unbraced pieces := by simpa [Unbraced] using hany
    rw [Value.ofPieces, if_neg (fun h => hany h.2), runs_of_unbraced hunbraced]
    simp [Value.stringText, Rows.join]

theorem placeholders_ofPieces (pieces : List Piece) :
    (Value.ofPieces .split pieces).placeholders =
      (runs pieces).2.map fun pair => .placeholder (String.ofList pair.1) := by
  by_cases hany : pieces.any Piece.isPlaceholder = true
  · rw [Value.ofPieces, if_pos ⟨rfl, hany⟩, Value.placeholders, segments_runs,
      placeholders_segments]
  · have hunbraced : Unbraced pieces := by simpa [Unbraced] using hany
    rw [Value.ofPieces, if_neg (fun h => hany h.2), runs_of_unbraced hunbraced]
    rfl

/-- A string that is written from its segments is read back as a whole, with the
placeholders that it had.  Its text is kept too, unless texts next to each other
among the segments put a backslash before a letter of a control character or a
single quote: each text is checked by itself, but they are read joined. -/
theorem Session.read_of_written_parts {limit depth : Int} {parts : List Segment}
    {literal : List Char} (guard : DepthGuard (List Char))
    (h : Writer.outcome limit depth (Writer.value (.parts parts)) = .ok literal) :
    ∃ v, (Session.mk literal 0 .split guard).Stops (Reader.literal .split) (.ok v)
        literal.length ∧
      v.placeholders = parts.filter Segment.isPlaceholder ∧
      (v.stringText = some (partsText parts) ↔
        ¬ ∃ texts : List String, texts.map Segment.text <:+: parts ∧
          BackslashBefore ['n', 'r', 't', 'b', 'f', '\x27']
            (texts.flatMap String.toList)) := by
  have hspells : Spells (LiteralText .split) literal _ := (Writer.spells_parts h).2
  have hliteral := hspells [] (by simp [L20n.Stops])
  rw [List.append_nil] at hliteral
  refine ⟨_, stops_length_iff.2 hliteral, ?_, ?_⟩
  · rw [placeholders_ofPieces, runs_pieces, placeholders_textRows]
    simp
  · rw [stringText_ofPieces, runs_pieces, Rows.join_map]
    have hjoin := Rows.shorterIf_join shorterIf_decode_encode (textRows parts)
    rw [← exists_textRows_iff, ← hjoin.eq_iff, join_textRows, Option.some_inj,
      ← String.toList_inj, String.toList_ofList]

/-- A backslash and a letter in segments of their own are written, and read back as
a line break. -/
theorem Session.read_of_written_parts_joined :
    Writer.outcome 100 0 (Writer.value (.parts
        [.text "\\", .text "n", .placeholder "\x7b\x7bx\x7d\x7d"])) =
      .ok "\"\\\\n\x7b\x7bx\x7d\x7d\"".toList ∧
    ∃ v, (Session.mk "\"\\\\n\x7b\x7bx\x7d\x7d\"".toList 0 .split { limit := 100 }).Stops
        (Reader.literal .split) (.ok v) 10 ∧
      v.placeholders = [.placeholder "\x7b\x7bx\x7d\x7d"] ∧
      v.stringText ≠ some "\\n\x7b\x7bx\x7d\x7d" := by
  have hwritten : Writer.outcome 100 0 (Writer.value (.parts
      [.text "\\", .text "n", .placeholder "\x7b\x7bx\x7d\x7d"])) =
      .ok "\"\\\\n\x7b\x7bx\x7d\x7d\"".toList := by
    rfl
  obtain ⟨v, hstops, hplaceholders, htext⟩ :=
    Session.read_of_written_parts { limit := 100 } hwritten
  refine ⟨hwritten, v, hstops, hplaceholders, fun heq => htext.1 heq ?_⟩
  exact ⟨["\\", "n"], ⟨[], [.placeholder "\x7b\x7bx\x7d\x7d"], rfl⟩, 'n', by simp,
    List.infix_rfl⟩

/-- Segments that lose an escape when they are read as one text: a placeholder holds
one, or stands behind a text that ends in a backslash. -/
def LosesEscape (parts : List Segment) : Prop :=
  (∃ source, .placeholder source ∈ parts ∧
    BackslashBefore escapeLetters source.toList) ∨
  ∃ content source, [.text content, .placeholder source] <:+: parts ∧
    content.toList.getLast? = some '\\'

section LosesEscape

variable {content source : String} {parts : List Segment}

theorem losesEscape_placeholder_cons :
    LosesEscape (.placeholder source :: parts) ↔
      BackslashBefore escapeLetters source.toList ∨ LosesEscape parts := by
  simp only [LosesEscape, List.mem_cons, Segment.placeholder.injEq, List.infix_cons_iff,
    List.cons_prefix_cons, reduceCtorEq, false_and, false_or]
  grind

theorem losesEscape_text_cons :
    LosesEscape (.text content :: .placeholder source :: parts) ↔
      content.toList.getLast? = some '\\' ∨
        LosesEscape (.placeholder source :: parts) := by
  have hpair : ∀ other name, [.text other, .placeholder name] <:+:
      .text content :: .placeholder source :: parts ↔
      (other = content ∧ name = source) ∨
        [.text other, .placeholder name] <:+: .placeholder source :: parts := by
    intro other name
    rw [List.infix_cons_iff]
    simp
  have hmem : ∀ name, Segment.placeholder name ∈
      .text content :: .placeholder source :: parts ↔
      Segment.placeholder name ∈ .placeholder source :: parts := by
    simp
  simp only [LosesEscape, hpair, hmem]
  grind

theorem not_losesEscape_textSegment (text : List Char) :
    ¬ LosesEscape (textSegment text) := by
  cases text with
  | nil => simp [LosesEscape, textSegment]
  | cons c text => simp [LosesEscape, textSegment, List.infix_cons_iff]

/-- The text before a placeholder is decoded, if there is any; it ends in a backslash
exactly if it does so before. -/
theorem losesEscape_textSegment_append (text : List Char) :
    LosesEscape (textSegment text ++ .placeholder source :: parts) ↔
      text.getLast? = some '\\' ∨ LosesEscape (.placeholder source :: parts) := by
  cases text with
  | nil => simp [textSegment]
  | cons c text =>
      have hsegment : textSegment (c :: text) =
          [.text (String.ofList (decode (c :: text)))] := rfl
      rw [hsegment, List.singleton_append, losesEscape_text_cons, String.toList_ofList,
        getLast?_decode]

end LosesEscape

theorem PlaceholderForm.getLast?_eq {source : List Char} (h : PlaceholderForm source) :
    source.getLast? = some '\x7d' := by
  obtain ⟨-, inner, rfl, -, body, rfl, -⟩ := h
  have happend : '\x7b' :: '\x7b' :: (body ++ ['\x7d', '\x7d']) =
      ('\x7b' :: '\x7b' :: body ++ ['\x7d']) ++ ['\x7d'] := by
    simp
  rw [happend, List.getLast?_concat]

/-- Decoding a whole string works through its rows, and loses a character for each
escape that is no escape of the segments. -/
theorem Rows.shorterIf_decode (rows : Rows)
    (h : ∀ pair ∈ rows.2, PlaceholderForm pair.1) :
    ShorterIf (LosesEscape rows.segments) (decode (rows.join id)) (rows.join decode) := by
  obtain ⟨text, more⟩ := rows
  induction more generalizing text with
  | nil =>
      have hnone : Rows.segments (text, []) = textSegment text := by simp [Rows.segments]
      have hjoin : ∀ change, Rows.join change (text, []) = change text := by
        simp [Rows.join]
      rw [hnone, hjoin, hjoin]
      exact shorterIf_refl (not_losesEscape_textSegment text) _
  | cons pair more ih =>
      obtain ⟨source, next⟩ := pair
      obtain ⟨hsource, hmore⟩ := List.forall_mem_cons.1 h
      have hnext := ih next hmore
      have hlast : source.getLast? ≠ some '\\' := by
        rw [hsource.getLast?_eq]
        decide
      obtain ⟨-, inner, hbrace, -⟩ := hsource
      -- the placeholder is decoded by itself, and its brace with the text before it
      have hfront := shorterIf_decode_append text
        ('\x7b' :: inner ++ Rows.join id (next, more))
      have hinner := (Text.shorterIf_decode source).append hnext
      rw [← decode_append hlast] at hinner
      rw [← List.cons_append, ← hbrace] at hfront
      rw [Rows.join_cons, Rows.join_cons, Rows.segments_cons]
      apply (hfront.trans ((shorterIf_refl not_false _).append hinner)).congr
      rw [losesEscape_textSegment_append, losesEscape_placeholder_cons,
        String.toList_ofList, false_or]

theorem join_runs (pieces : List Piece) :
    Rows.join id (runs pieces) = pieces.flatMap Piece.raw := by
  induction pieces with
  | nil => rfl
  | cons piece pieces ih =>
      rw [List.flatMap_cons, ← ih]
      cases piece with
      | plain c => simp [runs, Rows.join, Piece.raw]
      | escaped c => simp [runs, Rows.join, Piece.raw]
      | placeholder source =>
          rw [runs, Rows.join_cons]
          rfl

/-- A string with placeholders that is read in segments is also read as one text, up
to the same place.  The segments put together are this text exactly if there is no
escape in a placeholder and no backslash at the end of a text right before one. -/
theorem Session.whole_of_split {source : List Char} {p i : Nat}
    {guard : DepthGuard (List Char)} {parts : List Segment}
    (h : (Session.mk source p .split guard).Stops (Reader.literal .split)
      (.ok (.parts parts)) i) :
    ∃ content, (Session.mk source p .whole guard).Stops (Reader.literal .whole)
        (.ok (.string content)) i ∧
      (partsText parts = content ↔
        (∀ placeholder, Segment.placeholder placeholder ∈ parts →
          ¬ BackslashBefore escapeLetters placeholder.toList) ∧
        ∀ text placeholder, [.text text, .placeholder placeholder] <:+: parts →
          text.toList.getLast? ≠ some '\\') := by
  obtain ⟨rest, ⟨delimiter, body, pieces, hdelimiter, hbody, hvalue⟩, hoffset⟩ :=
    stops_literal_iff.1 h
  have hparts : parts = L20n.segments pieces := by
    rw [Value.ofPieces] at hvalue
    split at hvalue
    · exact Value.parts.inj hvalue
    · cases hvalue
  have hsources : ∀ pair ∈ (runs pieces).2, PlaceholderForm pair.1 := fun pair hpair =>
    hbody.placeholderForm (placeholder_mem_of_mem_runs hpair)
  have hshorter := Rows.shorterIf_decode (runs pieces) hsources
  refine ⟨String.ofList (decode (pieces.flatMap Piece.raw)), ?_, ?_⟩
  · apply stops_literal_iff.2
    exact ⟨rest, ⟨delimiter, body, pieces, hdelimiter, hbody, rfl⟩, hoffset⟩
  · rw [hparts, segments_runs, partsText_segments, ← join_runs, String.ofList_inj,
      eq_comm, hshorter.eq_iff, LosesEscape, not_or]
    simp only [not_exists, not_and, Ne]

/-- Escapes in the text of a string are decoded in both modes alike. -/
theorem Session.whole_of_split_escapedText :
    (Session.mk "\"a\\n\x7b\x7bx\x7d\x7d\"".toList 0 .split { limit := 100 }).Stops
      (Reader.literal .split)
      (.ok (.parts [.text "a\n", .placeholder "\x7b\x7bx\x7d\x7d"])) 10 ∧
    ∃ content, (Session.mk "\"a\\n\x7b\x7bx\x7d\x7d\"".toList 0 .whole
        { limit := 100 }).Stops (Reader.literal .whole) (.ok (.string content)) 10 ∧
      partsText [.text "a\n", .placeholder "\x7b\x7bx\x7d\x7d"] = content := by
  have hthrough :
      Through ['\x7d', '\x7d'] "x\x7d\x7d\"".toList "x\x7d\x7d".toList ['"'] :=
    (through?_eq_some_iff (List.cons_ne_nil _ _)).1 rfl
  have hbody : BodyText ['"'] "a\\n\x7b\x7bx\x7d\x7d\"".toList
      [.plain 'a', .escaped 'n', .placeholder "\x7b\x7bx\x7d\x7d".toList] [] :=
    .plain (by decide) (fun _ heq => absurd (List.cons.inj heq).1 (by decide))
      (fun _ heq => absurd (List.cons.inj heq).1 (by decide))
      (.escaped 'n' (.placeholder hthrough (.close [])))
  have h : (Session.mk "\"a\\n\x7b\x7bx\x7d\x7d\"".toList 0 .split
      { limit := 100 }).Stops (Reader.literal .split)
      (.ok (.parts [.text "a\n", .placeholder "\x7b\x7bx\x7d\x7d"])) 10 :=
    stops_of_bodyText hbody rfl
  obtain ⟨content, hwhole, htext⟩ := whole_of_split h
  refine ⟨h, content, hwhole, htext.2 ⟨?_, ?_⟩⟩
  · intro placeholder hmem
    obtain rfl : placeholder = "\x7b\x7bx\x7d\x7d" := by simpa using hmem
    simp [BackslashBefore, List.infix_cons_iff, escapeLetters, escapes]
  · intro text placeholder hwithin
    obtain rfl : text = "a\n" := by
      rcases List.infix_cons_iff.1 hwithin with hprefix | hinside
      · exact Segment.text.inj (List.cons_prefix_cons.1 hprefix).1
      · exact absurd hinside.length_le (by simp)
    decide

/-- An escape in a placeholder is decoded only as part of one text, and so is a
backslash together with the brace of a placeholder behind it. -/
theorem Session.whole_departs_from_split :
    ((Session.mk "\"\x7b\x7b\\n\x7d\x7d\"".toList 0 .split { limit := 100 }).Stops
        (Reader.literal .split) (.ok (.parts [.placeholder "\x7b\x7b\\n\x7d\x7d"])) 8 ∧
      (Session.mk "\"\x7b\x7b\\n\x7d\x7d\"".toList 0 .whole { limit := 100 }).Stops
        (Reader.literal .whole) (.ok (.string "\x7b\x7b\n\x7d\x7d")) 8 ∧
      partsText [.placeholder "\x7b\x7b\\n\x7d\x7d"] ≠ "\x7b\x7b\n\x7d\x7d") ∧
    (Session.mk "\"\\\\\x7b\x7bx\x7d\x7d\"".toList 0 .split { limit := 100 }).Stops
        (Reader.literal .split)
        (.ok (.parts [.text "\\", .placeholder "\x7b\x7bx\x7d\x7d"])) 9 ∧
      (Session.mk "\"\\\\\x7b\x7bx\x7d\x7d\"".toList 0 .whole { limit := 100 }).Stops
        (Reader.literal .whole) (.ok (.string "\x7b\x7bx\x7d\x7d")) 9 ∧
      partsText [.text "\\", .placeholder "\x7b\x7bx\x7d\x7d"] ≠
        "\x7b\x7bx\x7d\x7d" := by
  have hescape : BodyText ['"'] "\x7b\x7b\\n\x7d\x7d\"".toList
      [.placeholder "\x7b\x7b\\n\x7d\x7d".toList] [] :=
    .placeholder ((through?_eq_some_iff (List.cons_ne_nil _ _)).1 rfl) (.close [])
  have hbackslash : BodyText ['"'] "\\\\\x7b\x7bx\x7d\x7d\"".toList
      [.escaped '\\', .placeholder "\x7b\x7bx\x7d\x7d".toList] [] :=
    .escaped '\\' (.placeholder ((through?_eq_some_iff (List.cons_ne_nil _ _)).1 rfl)
      (.close []))
  refine ⟨⟨stops_of_bodyText hescape rfl, stops_of_bodyText hescape rfl, ?_⟩,
    stops_of_bodyText hbackslash rfl, stops_of_bodyText hbackslash rfl, ?_⟩
  · decide
  · decide

end L20n
