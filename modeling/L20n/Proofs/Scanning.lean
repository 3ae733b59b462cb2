import L20n.Proofs.Cursor

/-!
String literals against a reference.  A unit is a backslash with any character
after it, a placeholder up to its first two closing braces, or one other
character that starts neither the delimiter nor a placeholder.  A literal is
closed by its delimiter after a row of units, and there is at most one such row:
each text starts with at most one unit, and none starts where a row ends.
-/

namespace L20n

open Text

/-- One unit of a literal with this delimiter, at the front of the text. -/
inductive UnitText (delimiter : List Char) : List Char → Piece → List Char → Prop
  | escaped (c : Char) (rest : List Char) :
      UnitText delimiter ('\\' :: c :: rest) (.escaped c) rest
  | placeholder {text inner rest} :
      Through ['\x7d', '\x7d'] text inner rest →
      UnitText delimiter ('\x7b' :: '\x7b' :: text)
        (.placeholder ('\x7b' :: '\x7b' :: inner)) rest
  | plain {c rest} :
      c ≠ '\\' → ¬ delimiter <+: c :: rest → ¬ ['\x7b', '\x7b'] <+: c :: rest →
      UnitText delimiter (c :: rest) (.plain c) rest

/-- A row of units from a text up to a rest of it. -/
def Units (delimiter text : List Char) (pieces : List Piece) (rest : List Char) :
    Prop :=
  Iterates (UnitText delimiter) pieces text rest

/-- A placeholder starts here that is not closed by the end of the input. -/
def OpensPlaceholder (text : List Char) : Prop :=
  ∃ inner, text = '\x7b' :: '\x7b' :: inner ∧ ¬ ['\x7d', '\x7d'] <:+: inner

/-- The end of the input, where at most a backslash is left that has nothing to
escape. -/
def EndsInput (text : List Char) : Prop :=
  text = [] ∨ text = ['\\']

theorem UnitText.append {delimiter text rest : List Char} {piece : Piece}
    (h : UnitText delimiter text piece rest) : piece.raw ++ rest = text := by
  cases h with
  | escaped c rest => rfl
  | placeholder hthrough => simp [Piece.raw, hthrough.split]
  | plain => rfl

/-- A row of units and the rest make up the text. -/
theorem Units.append {delimiter text rest : List Char} {pieces : List Piece}
    (h : Units delimiter text pieces rest) :
    pieces.flatMap Piece.raw ++ rest = text := by
  induction pieces generalizing text with
  | nil => exact h.symm
  | cons piece pieces ih =>
      obtain ⟨middle, hunit, hmore⟩ := h
      rw [List.flatMap_cons, List.append_assoc, ih hmore]
      exact hunit.append

theorem Units.suffix {delimiter text rest : List Char} {pieces : List Piece}
    (h : Units delimiter text pieces rest) : rest <:+ text :=
  ⟨_, h.append⟩

/-- A text starts with at most one unit. -/
theorem UnitText.unique {delimiter text rest rest' : List Char} {piece piece' : Piece}
    (h : UnitText delimiter text piece rest) (h' : UnitText delimiter text piece' rest') :
    piece = piece' ∧ rest = rest' := by
  cases h with
  | escaped c rest =>
      cases h' with
      | escaped => exact ⟨rfl, rfl⟩
      | plain hescape => exact absurd rfl hescape
  | placeholder hthrough =>
      cases h' with
      | placeholder hthrough' =>
          have hmark : ['\x7d', '\x7d'] ≠ [] := List.cons_ne_nil _ _
          have hfirst := (through?_eq_some_iff hmark).2 hthrough
          have hsecond := (through?_eq_some_iff hmark).2 hthrough'
          rw [hfirst] at hsecond
          obtain ⟨rfl, rfl⟩ := Prod.mk.inj (Option.some.inj hsecond)
          exact ⟨rfl, rfl⟩
      | plain _ _ hopen => exact absurd (List.prefix_append ['\x7b', '\x7b'] _) hopen
  | plain hescape _ hopen =>
      cases h' with
      | escaped => exact absurd rfl hescape
      | placeholder => exact absurd (List.prefix_append ['\x7b', '\x7b'] _) hopen
      | plain => exact ⟨rfl, rfl⟩

/-- No unit of a literal with this delimiter starts here. -/
def Halts (delimiter text : List Char) : Prop :=
  ∀ piece rest, ¬ UnitText delimiter text piece rest

/-- There is at most one row of units to where none starts. -/
theorem Units.unique {delimiter text rest rest' : List Char} {pieces pieces' : List Piece}
    (h : Units delimiter text pieces rest) (hhalts : Halts delimiter rest)
    (h' : Units delimiter text pieces' rest') (hhalts' : Halts delimiter rest') :
    pieces = pieces' ∧ rest = rest' := by
  induction pieces generalizing text pieces' with
  | nil =>
      obtain rfl : text = rest := h
      cases pieces' with
      | nil => exact ⟨rfl, h'⟩
      | cons piece' pieces' =>
          obtain ⟨middle, hunit, -⟩ := h'
          exact absurd hunit (hhalts piece' middle)
  | cons piece pieces ih =>
      obtain ⟨middle, hunit, hmore⟩ := h
      cases pieces' with
      | nil =>
          obtain rfl : text = rest' := h'
          exact absurd hunit (hhalts' piece middle)
      | cons piece' pieces' =>
          obtain ⟨middle', hunit', hmore'⟩ := h'
          obtain ⟨rfl, rfl⟩ := hunit.unique hunit'
          obtain ⟨rfl, rfl⟩ := ih hmore hmore'
          exact ⟨rfl, rfl⟩

section Halting

variable {quote : Char} {more : List Char}

theorem halts_delimiter (hescape : quote ≠ '\\') (hbrace : quote ≠ '\x7b')
    (rest : List Char) : Halts (quote :: more) (quote :: more ++ rest) := by
  intro piece after h
  generalize htext : quote :: more ++ rest = text at h
  cases h with
  | escaped => exact hescape (List.cons.inj htext).1
  | placeholder => exact hbrace (List.cons.inj htext).1
  | plain _ hdelimiter _ => exact hdelimiter ⟨rest, htext⟩

theorem halts_of_opensPlaceholder {text : List Char} (h : OpensPlaceholder text) :
    Halts (quote :: more) text := by
  obtain ⟨inner, rfl, hnot⟩ := h
  intro piece after h
  cases h with
  | placeholder hthrough =>
      obtain ⟨hsplit, body, rfl, -⟩ := hthrough
      apply hnot
      rw [hsplit]
      exact ⟨body, after, rfl⟩
  | plain _ _ hopen => exact hopen (List.prefix_append ['\x7b', '\x7b'] inner)

theorem halts_of_endsInput {text : List Char} (h : EndsInput text) :
    Halts (quote :: more) text := by
  intro piece after hunit
  rcases h with rfl | rfl
  · cases hunit
  · cases hunit with
    | plain hescape => exact hescape rfl

/-- No unit starts where a row may end. -/
theorem halts_of_ends {text : List Char} (hescape : quote ≠ '\\')
    (hbrace : quote ≠ '\x7b')
    (h : quote :: more <+: text ∨ OpensPlaceholder text ∨ EndsInput text) :
    Halts (quote :: more) text := by
  rcases h with ⟨rest, rfl⟩ | hopens | hends
  · exact halts_delimiter hescape hbrace rest
  · exact halts_of_opensPlaceholder hopens
  · exact halts_of_endsInput hends

end Halting

theorem Text.through?_eq_none {mark text : List Char} (h : through? mark text = none)
    (hmark : mark ≠ []) : ¬ mark <:+: text := by
  induction text with
  | nil =>
      rintro hinfix
      exact hmark (List.infix_nil.1 hinfix)
  | cons c text ih =>
      cases hat : after? mark (c :: text) with
      | some rest => simp [through?, hat] at h
      | none =>
          simp only [through?, hat, Option.map_eq_none_iff] at h
          intro hinfix
          rcases List.infix_cons_iff.1 hinfix with ⟨rest, hprefix⟩ | hinside
          · exact Token.after?_eq_none_iff.1 hat rest hprefix
          · exact ih h hinside

def Body.EndsAt (delimiter : List Char) (row : List Piece) (text : List Char) :
    Body → Prop
  | closed pieces rest => row = pieces ∧ text = delimiter ++ rest
  | openPlaceholder place => text = place ∧ OpensPlaceholder text
  | openLiteral => EndsInput text

/-- The body ends where a row of units of the text ends. -/
def Body.Follows (delimiter text : List Char) (body : Body) : Prop :=
  ∃ pieces rest, Units delimiter text pieces rest ∧ body.EndsAt delimiter pieces rest

theorem Body.Follows.push {delimiter text middle : List Char} {piece : Piece}
    {body : Body} (h : body.Follows delimiter middle)
    (hunit : UnitText delimiter text piece middle) :
    (body.push piece).Follows delimiter text := by
  obtain ⟨pieces, rest, hunits, hends⟩ := h
  refine ⟨piece :: pieces, rest, ⟨middle, hunit, hunits⟩, ?_⟩
  cases body with
  | closed => exact ⟨congrArg (piece :: ·) hends.1, hends.2⟩
  | openPlaceholder => exact hends
  | openLiteral => exact hends

/-- Scanning follows the units of a text, each recursive call behind one unit. -/
theorem Body.follows_scan (delimiter text : List Char) :
    (scan delimiter text).Follows delimiter text := by
  fun_induction scan delimiter text with
  | case1 text after hafter =>
      exact ⟨[], text, rfl, rfl, (after?_eq_some_iff.1 hafter).symm⟩
  | case2 => exact ⟨[], [], rfl, Or.inl rfl⟩
  | case3 => exact ⟨[], ['\\'], rfl, Or.inr rfl⟩
  | case4 c tail _ ih => exact ih.push (.escaped c tail)
  | case5 tail hnone =>
      have hnot := through?_eq_none hnone (List.cons_ne_nil _ _)
      exact ⟨[], _, rfl, rfl, tail, rfl, hnot⟩
  | case6 tail inner after hthrough _ ih =>
      exact ih.push (.placeholder ((through?_eq_some_iff (by simp)).1 hthrough))
  | case7 c tail hlone hescape hopen hnone ih =>
      apply ih.push
      apply UnitText.plain
      · rintro rfl
        cases tail with
        | nil => exact hlone rfl rfl
        | cons d tail => exact hescape d tail rfl rfl
      · rintro ⟨after, heq⟩
        exact Token.after?_eq_none_iff.1 hnone after heq
      · rintro ⟨after, heq⟩
        obtain ⟨rfl, rfl⟩ := List.cons.inj heq
        exact hopen after rfl rfl

theorem Body.follows_of_scan {delimiter text : List Char} {body : Body}
    (h : scan delimiter text = body) : body.Follows delimiter text :=
  h ▸ follows_scan delimiter text

section Ends

variable {quote : Char} {more text rest : List Char} {pieces : List Piece} {body : Body}

theorem Body.EndsAt.ends (h : body.EndsAt (quote :: more) pieces text) :
    quote :: more <+: text ∨ OpensPlaceholder text ∨ EndsInput text := by
  cases body with
  | closed _ rest => exact Or.inl (h.2 ▸ List.prefix_append _ rest)
  | openPlaceholder => exact Or.inr (Or.inl h.2)
  | openLiteral => exact Or.inr (Or.inr h)

/-- A text at which a row ends tells how the body ends. -/
theorem Body.EndsAt.unique {other : Body} (hescape : quote ≠ '\\')
    (hbrace : quote ≠ '\x7b') (h : body.EndsAt (quote :: more) pieces text)
    (h' : other.EndsAt (quote :: more) pieces text) : body = other := by
  have hquote : ∀ tail, ¬ OpensPlaceholder (quote :: tail) := by
    rintro tail ⟨inner, heq, -⟩
    exact hbrace (List.cons.inj heq).1
  have hends : ∀ tail, ¬ EndsInput (quote :: tail) := by
    rintro tail (heq | heq)
    · cases heq
    · exact hescape (List.cons.inj heq).1
  have hopens : OpensPlaceholder text → ¬ EndsInput text := by
    rintro ⟨inner, rfl, -⟩ (heq | heq) <;> cases heq
  cases body with
  | closed row rest =>
      obtain ⟨rfl, rfl⟩ := h
      cases other with
      | closed row' rest' =>
          obtain ⟨rfl, heq⟩ := h'
          rw [List.append_cancel_left heq]
      | openPlaceholder place => exact absurd h'.2 (hquote _)
      | openLiteral => exact absurd h' (hends _)
  | openPlaceholder place =>
      cases other with
      | closed row' rest' =>
          rw [h'.2] at h
          exact absurd h.2 (hquote _)
      | openPlaceholder place' => rw [← h.1, ← h'.1]
      | openLiteral => exact absurd h' (hopens h.2)
  | openLiteral =>
      cases other with
      | closed row' rest' =>
          rw [h'.2] at h
          exact absurd h (hends _)
      | openPlaceholder place' => exact absurd h (hopens h'.2)
      | openLiteral => rfl

/-- A body is the one that scanning finds exactly if it ends where the units of
the text end. -/
theorem Body.scan_eq_iff_follows (hescape : quote ≠ '\\') (hbrace : quote ≠ '\x7b') :
    scan (quote :: more) text = body ↔ body.Follows (quote :: more) text := by
  constructor
  · exact follows_of_scan
  · rintro ⟨pieces, rest, hunits, hends⟩
    obtain ⟨pieces', rest', hunits', hends'⟩ := follows_scan (quote :: more) text
    obtain ⟨rfl, rfl⟩ := hunits.unique (halts_of_ends hescape hbrace hends.ends) hunits'
      (halts_of_ends hescape hbrace hends'.ends)
    exact hends'.unique hescape hbrace hends

/-- Every text has one row of units that ends at the delimiter, at a placeholder
without end or at the end of the input. -/
theorem Units.existsUnique (hescape : quote ≠ '\\') (hbrace : quote ≠ '\x7b')
    (text : List Char) :
    ∃! row : List Piece × List Char, Units (quote :: more) text row.1 row.2 ∧
      (quote :: more <+: row.2 ∨ OpensPlaceholder row.2 ∨ EndsInput row.2) := by
  obtain ⟨pieces, rest, hunits, hends⟩ := Body.follows_scan (quote :: more) text
  refine ⟨(pieces, rest), ⟨hunits, hends.ends⟩, ?_⟩
  rintro ⟨pieces', rest'⟩ ⟨hunits', hends'⟩
  obtain ⟨rfl, rfl⟩ := hunits'.unique (halts_of_ends hescape hbrace hends') hunits
    (halts_of_ends hescape hbrace hends.ends)
  rfl

end Ends

def Unbraced (pieces : List Piece) : Prop :=
  ∀ piece ∈ pieces, piece.isPlaceholder = false

/-- The string that a row of units stands for.  It is one decoded text, unless it
is read in segments and there are placeholders: then these stand as they are, and
the units before, between and after them are decoded row by row, where there are
any. -/
inductive Value.OfUnits : StringMode → List Piece → Value → Prop
  | text {mode pieces} : mode = .whole ∨ Unbraced pieces →
      OfUnits mode pieces
        (.string (String.ofList (decode (pieces.flatMap Piece.raw))))
  | parts {row : List Piece} {more : List (List Char × List Piece)} : more ≠ [] →
      Unbraced row → (∀ pair ∈ more, Unbraced pair.2) →
      OfUnits .split
        (row ++ more.flatMap fun (source, row) => .placeholder source :: row)
        (.parts (textSegment (row.flatMap Piece.raw) ++ more.flatMap fun (source, row) =>
          .placeholder (String.ofList source) :: textSegment (row.flatMap Piece.raw)))

theorem runs_append {row : List Piece} (h : Unbraced row) (pieces : List Piece) :
    runs (row ++ pieces) =
      (row.flatMap Piece.raw ++ (runs pieces).1, (runs pieces).2) := by
  induction row with
  | nil => rfl
  | cons piece row ih =>
      obtain ⟨hpiece, hrow⟩ := List.forall_mem_cons.1 h
      cases piece with
      | placeholder source => cases hpiece
      | plain c => simp [runs, ih hrow]
      | escaped c => simp [runs, ih hrow]

theorem runs_rows {row : List Piece} {more : List (List Char × List Piece)}
    (hrow : Unbraced row) (hmore : ∀ pair ∈ more, Unbraced pair.2) :
    runs (row ++ more.flatMap fun (source, row) => .placeholder source :: row) =
      (row.flatMap Piece.raw, more.map fun (source, row) =>
        (source, row.flatMap Piece.raw)) := by
  induction more generalizing row with
  | nil => simpa [runs] using runs_append hrow []
  | cons pair more ih =>
      obtain ⟨source, next⟩ := pair
      obtain ⟨hnext, hlater⟩ := List.forall_mem_cons.1 hmore
      rw [List.flatMap_cons, runs_append hrow, List.cons_append, runs, ih hnext hlater]
      simp

/-- The pieces of a body in rows, with the placeholders between them. -/
theorem exists_rows (pieces : List Piece) :
    ∃ (row : List Piece) (more : List (List Char × List Piece)), Unbraced row ∧
      (∀ pair ∈ more, Unbraced pair.2) ∧
      pieces = row ++ more.flatMap fun (source, row) => .placeholder source :: row := by
  induction pieces with
  | nil => exact ⟨[], [], by simp [Unbraced], by simp, rfl⟩
  | cons piece pieces ih =>
      obtain ⟨row, more, hrow, hmore, rfl⟩ := ih
      by_cases hpiece : piece.isPlaceholder = true
      · cases piece with
        | placeholder source =>
            refine ⟨[], (source, row) :: more, by simp [Unbraced], ?_, rfl⟩
            exact List.forall_mem_cons.2 ⟨hrow, hmore⟩
        | plain c => cases hpiece
        | escaped c => cases hpiece
      · refine ⟨piece :: row, more, ?_, hmore, rfl⟩
        exact List.forall_mem_cons.2 ⟨by simpa using hpiece, hrow⟩

theorem Value.ofUnits_iff {mode : StringMode} {pieces : List Piece} {v : Value} :
    v.OfUnits mode pieces ↔ v = ofPieces mode pieces := by
  constructor
  · intro h
    cases h with
    | text htext =>
        rw [ofPieces, if_neg]
        rintro ⟨rfl, hany⟩
        obtain ⟨piece, hmem, hpiece⟩ := List.any_eq_true.1 hany
        have hnone := htext.resolve_left (by decide) piece hmem
        rw [hpiece] at hnone
        cases hnone
    | @parts row more hne hrow hmore =>
        have hany : (row ++ more.flatMap fun (source, row) =>
            Piece.placeholder source :: row).any Piece.isPlaceholder = true := by
          cases more with
          | nil => exact absurd rfl hne
          | cons pair more => simp [Piece.isPlaceholder]
        rw [ofPieces, if_pos ⟨rfl, hany⟩, segments, runs_rows hrow hmore]
        simp [List.flatMap_map]
  · rintro rfl
    by_cases hsplit : mode = .split ∧ pieces.any Piece.isPlaceholder = true
    · obtain ⟨rfl, hany⟩ := hsplit
      obtain ⟨row, more, hrow, hmore, rfl⟩ := exists_rows pieces
      rw [ofPieces, if_pos ⟨rfl, hany⟩, segments, runs_rows hrow hmore]
      simp only [List.flatMap_map]
      apply OfUnits.parts ?_ hrow hmore
      -- with no placeholder there would be none among the pieces
      rintro rfl
      obtain ⟨piece, hmem, hpiece⟩ := List.any_eq_true.1 hany
      rw [hrow piece (by simpa using hmem)] at hpiece
      cases hpiece
    · rw [ofPieces, if_neg hsplit]
      apply OfUnits.text
      cases mode with
      | whole => exact Or.inl rfl
      | split =>
          right
          intro piece hmem
          by_contra hpiece
          exact hsplit ⟨rfl, List.any_eq_true.2 ⟨piece, hmem, by simpa using hpiece⟩⟩

theorem Reader.literal_eq {mode : StringMode} {text delimiter body : List Char}
    (h : Delimiter text delimiter body) (guard : DepthGuard (List Char)) :
    literal mode ⟨text, guard⟩ =
      match Body.scan delimiter body with
      | .closed pieces rest => .ok (Value.ofPieces mode pieces) ⟨rest, guard⟩
      | .openPlaceholder place =>
        .error (.fault .unterminatedPlaceholder (some place)) ⟨place, guard⟩
      | .openLiteral =>
        .error (.fault (.unterminatedString (String.ofList delimiter)) (some body))
          ⟨body, guard⟩ := by
  have hexpect : expect .delimiter "a string delimiter" ⟨text, guard⟩ =
      .ok delimiter ⟨body, guard⟩ := by
    obtain ⟨found, hfound, rfl, rfl⟩ := Token.found_delimiter.2 h
    change EStateM.bind _ _ _ = _
    simp only [EStateM.bind, token?, hfound]
    rfl
  change EStateM.bind _ _ _ = _
  rw [EStateM.bind, hexpect]
  change (match Body.scan delimiter body with
    | .closed pieces rest => _
    | .openPlaceholder place => _
    | .openLiteral => _ : Reader Value) ⟨body, guard⟩ = _
  cases Body.scan delimiter body <;> rfl

theorem lt_length_of_drop {source rest : List Char} {i : Nat} {c : Char}
    (h : source.drop i = c :: rest) : i < source.length := by
  by_contra hge
  rw [List.drop_of_length_le (by omega)] at h
  cases h

namespace Session

/-- A reader that runs from the position gives this result and stops at this
offset. -/
def Stops {α : Type} (session : Session) (reader : Reader α)
    (result : Except ReadFailure α) (offset : Nat) : Prop :=
  (session.run reader).1 = result ∧ (session.run reader).2.offset = offset

variable {session : Session} {delimiter body rest : List Char} {i : Nat}

/-- The place at an offset ahead has this offset. -/
theorem offsetOf_drop (hoffset : session.offset ≤ session.source.length)
    (hi : i ≤ session.source.length) (hahead : session.source.drop i <:+ session.ahead) :
    session.offsetOf (session.source.drop i) = i := by
  have hle := hahead.length_le
  rw [ahead, List.length_drop, List.length_drop] at hle
  rw [offsetOf, ahead, List.length_drop, List.length_drop]
  omega

theorem run_literal {mode : StringMode} (h : Delimiter session.ahead delimiter body) :
    session.run (Reader.literal mode) =
      match Body.scan delimiter body with
      | .closed pieces rest =>
        (.ok (Value.ofPieces mode pieces), session.moved ⟨rest, session.guard⟩)
      | .openPlaceholder place =>
        (.error (.fault .unterminatedPlaceholder
            (some (Window.around session.source (session.offsetOf place)))),
          session.moved ⟨place, session.guard⟩)
      | .openLiteral =>
        (.error (.fault (.unterminatedString (String.ofList delimiter))
            (some (Window.around session.source (session.offsetOf body)))),
          session.moved ⟨body, session.guard⟩) := by
  rw [run, Reader.literal_eq h]
  cases Body.scan delimiter body <;> rfl

theorem offsetOf_append {front : List Char} (hahead : front ++ rest <:+ session.ahead) :
    session.offsetOf rest = session.offsetOf (front ++ rest) + front.length := by
  have hle := hahead.length_le
  rw [List.length_append] at hle
  rw [offsetOf, offsetOf, List.length_append]
  omega

/-- Where a delimiter is ahead, the position lies in the source. -/
theorem offset_le_of_delimiter (h : Delimiter session.ahead delimiter body) :
    session.offset ≤ session.source.length := by
  obtain ⟨quote, more, rfl, -⟩ := h.quote
  have hlt := h.ahead.length_lt (List.cons_ne_nil quote more)
  rw [ahead, List.length_drop] at hlt
  omega

section Outcomes

variable {mode : StringMode} (h : Delimiter session.ahead delimiter body)

include h

/-- A literal is read exactly if units lead up to its delimiter. -/
theorem stops_ok_iff {v : Value} :
    session.Stops (Reader.literal mode) (.ok v) (i + delimiter.length) ↔
      ∃ pieces, Units delimiter body pieces (session.source.drop i) ∧
        delimiter <+: session.source.drop i ∧ v.OfUnits mode pieces := by
  have hbody : body <:+ session.ahead := h.ahead.suffix
  rw [Stops, run_literal h]
  constructor
  · rintro ⟨hresult, hoffset⟩
    cases hscan : Body.scan delimiter body with
    | closed pieces rest =>
        rw [hscan] at hresult hoffset
        obtain rfl := Except.ok.inj hresult
        obtain ⟨row, text, hunits, rfl, rfl⟩ := Body.follows_of_scan hscan
        have hahead := hunits.suffix.trans hbody
        have hi : session.offsetOf (delimiter ++ rest) = i := by
          have happend : session.offsetOf rest = i + delimiter.length := hoffset
          rw [offsetOf_append hahead] at happend
          omega
        have hdrop := (drop_offsetOf (offset_le_of_delimiter h) hahead).1
        rw [hi] at hdrop
        rw [hdrop]
        exact ⟨row, hunits, List.prefix_append _ _, Value.ofUnits_iff.2 rfl⟩
    | openPlaceholder place =>
        rw [hscan] at hresult
        cases hresult
    | openLiteral =>
        rw [hscan] at hresult
        cases hresult
  · rintro ⟨pieces, hunits, ⟨rest, hrest⟩, hv⟩
    obtain ⟨quote, more, rfl, hescape, hbrace⟩ := h.quote
    have hscan : Body.scan (quote :: more) body = .closed pieces rest :=
      (Body.scan_eq_iff_follows hescape hbrace).2 ⟨pieces, _, hunits, rfl, hrest.symm⟩
    have hahead := hunits.suffix.trans hbody
    have hlt := lt_length_of_drop hrest.symm
    have hi := offsetOf_drop (offset_le_of_delimiter h) (Nat.le_of_lt hlt) hahead
    rw [← hrest] at hahead hi
    rw [hscan, Value.ofUnits_iff.1 hv]
    refine ⟨rfl, ?_⟩
    change session.offsetOf rest = _
    rw [offsetOf_append hahead, hi]

/-- Reading stops at a placeholder exactly if units lead up to it and it is not
closed. -/
theorem stops_unterminatedPlaceholder_iff :
    session.Stops (Reader.literal mode) (.error (.fault .unterminatedPlaceholder
        (some (Window.around session.source i)))) i ↔
      ∃ pieces, Units delimiter body pieces (session.source.drop i) ∧
        OpensPlaceholder (session.source.drop i) := by
  have hbody : body <:+ session.ahead := h.ahead.suffix
  rw [Stops, run_literal h]
  constructor
  · rintro ⟨hresult, hoffset⟩
    cases hscan : Body.scan delimiter body with
    | closed pieces rest =>
        rw [hscan] at hresult
        cases hresult
    | openPlaceholder place =>
        rw [hscan] at hoffset
        obtain ⟨row, text, hunits, rfl, hopens⟩ := Body.follows_of_scan hscan
        have hdrop := (drop_offsetOf (offset_le_of_delimiter h)
          (hunits.suffix.trans hbody)).1
        have hi : session.offsetOf text = i := hoffset
        rw [hi] at hdrop
        rw [hdrop]
        exact ⟨row, hunits, hopens⟩
    | openLiteral =>
        rw [hscan] at hresult
        cases hresult
  · rintro ⟨pieces, hunits, hopens⟩
    obtain ⟨quote, more, rfl, hescape, hbrace⟩ := h.quote
    have hscan : Body.scan (quote :: more) body =
        .openPlaceholder (session.source.drop i) :=
      (Body.scan_eq_iff_follows hescape hbrace).2 ⟨pieces, _, hunits, rfl, hopens⟩
    obtain ⟨inner, heq, -⟩ := hopens
    have hlt := lt_length_of_drop heq
    have hi := offsetOf_drop (offset_le_of_delimiter h) (Nat.le_of_lt hlt)
      (hunits.suffix.trans hbody)
    rw [hscan]
    refine ⟨?_, hi⟩
    simp only [hi]

/-- Reading fails at the start of the body exactly if units lead up to the end of
the input. -/
theorem stops_unterminatedString_iff :
    session.Stops (Reader.literal mode) (.error (.fault
        (.unterminatedString (String.ofList delimiter))
        (some (Window.around session.source (session.offsetOf body)))))
        (session.offsetOf body) ↔
      ∃ pieces rest, Units delimiter body pieces rest ∧ EndsInput rest := by
  rw [Stops, run_literal h]
  constructor
  · rintro ⟨hresult, -⟩
    cases hscan : Body.scan delimiter body with
    | closed pieces rest =>
        rw [hscan] at hresult
        cases hresult
    | openPlaceholder place =>
        rw [hscan] at hresult
        cases hresult
    | openLiteral => exact Body.follows_of_scan hscan
  · intro hfollows
    obtain ⟨quote, more, rfl, hescape, hbrace⟩ := h.quote
    have hscan : Body.scan (quote :: more) body = .openLiteral :=
      (Body.scan_eq_iff_follows hescape hbrace).2 hfollows
    rw [hscan]
    exact ⟨rfl, rfl⟩

end Outcomes

/-- String literals against the reference.  Behind the delimiter there is one row
of units that ends at the delimiter, at a placeholder without end or at the end of
the input.  The literal is read, up to behind its delimiter, exactly if the row ends
at the delimiter, and it is then the string that the row stands for; reading fails
at the open placeholder in the second case, and at the start of the body in the
third. -/
theorem literal_by_units (source : List Char) (p : Nat) (mode : StringMode)
    (guard : DepthGuard (List Char)) {delimiter : List Char} {s : Nat}
    (hs : s ≤ source.length) (h : Delimiter (source.drop p) delimiter (source.drop s)) :
    (∃! row : List Piece × List Char, Units delimiter (source.drop s) row.1 row.2 ∧
      (delimiter <+: row.2 ∨ OpensPlaceholder row.2 ∨ EndsInput row.2)) ∧
    (∀ i v, (Session.mk source p mode guard).Stops (Reader.literal mode) (.ok v)
        (i + delimiter.length) ↔
      ∃ pieces, Units delimiter (source.drop s) pieces (source.drop i) ∧
        delimiter <+: source.drop i ∧
        pieces.flatMap Piece.raw = (source.drop s).take (i - s) ∧
        v.OfUnits mode pieces) ∧
    (∀ i, (Session.mk source p mode guard).Stops (Reader.literal mode)
        (.error (.fault .unterminatedPlaceholder (some (Window.around source i)))) i ↔
      ∃ pieces, Units delimiter (source.drop s) pieces (source.drop i) ∧
        OpensPlaceholder (source.drop i)) ∧
    ((Session.mk source p mode guard).Stops (Reader.literal mode)
        (.error (.fault (.unterminatedString (String.ofList delimiter))
          (some (Window.around source s)))) s ↔
      ∃ pieces rest, Units delimiter (source.drop s) pieces rest ∧ EndsInput rest) := by
  have hahead : Delimiter (Session.mk source p mode guard).ahead delimiter
      (source.drop s) := h
  obtain ⟨quote, more, rfl, hescape, hbrace⟩ := h.quote
  have hoffset := offset_le_of_delimiter hahead
  have hstart : (Session.mk source p mode guard).offsetOf (source.drop s) = s :=
    offsetOf_drop hoffset hs hahead.ahead.suffix
  refine ⟨Units.existsUnique hescape hbrace _, fun i v => ?_,
    fun i => stops_unterminatedPlaceholder_iff hahead, ?_⟩
  · rw [stops_ok_iff hahead]
    refine exists_congr fun pieces => and_congr_right fun hunits => and_congr_right ?_
    rintro ⟨rest, hrest⟩
    -- what the row takes is the source up to where the delimiter stands
    have hi : i < source.length := lt_length_of_drop hrest.symm
    have happend : pieces.flatMap Piece.raw ++ source.drop i = source.drop s :=
      hunits.append
    have hlength := congrArg List.length happend
    rw [List.length_append, List.length_drop, List.length_drop] at hlength
    have hraw : pieces.flatMap Piece.raw = (source.drop s).take (i - s) := by
      rw [← happend, List.take_left']
      omega
    simp [hraw]
  · rw [← stops_unterminatedString_iff hahead, hstart]

/-- The quote in the placeholder and the escaped one do not close the literal. -/
theorem literal_by_units_placeholder :
    Delimiter ("k \"a\\\"\x7b\x7bb\"\x7d\x7d\\n\" z".toList.drop 1) ['"']
      ("k \"a\\\"\x7b\x7bb\"\x7d\x7d\\n\" z".toList.drop 3) ∧
    (Session.mk "k \"a\\\"\x7b\x7bb\"\x7d\x7d\\n\" z".toList 1 .split { limit := 0 }).Stops
      (Reader.literal .split)
      (.ok (.parts [.text "a\"", .placeholder "\x7b\x7bb\"\x7d\x7d", .text "\n"])) 15 := by
  have h : Delimiter ("k \"a\\\"\x7b\x7bb\"\x7d\x7d\\n\" z".toList.drop 1) ['"']
      ("k \"a\\\"\x7b\x7bb\"\x7d\x7d\\n\" z".toList.drop 3) :=
    ⟨rfl, '"', Or.inr rfl, Or.inr ⟨rfl, by rintro more ⟨⟩⟩⟩
  have hthrough : Through ['\x7d', '\x7d'] "b\"\x7d\x7d\\n\" z".toList
      "b\"\x7d\x7d".toList "\\n\" z".toList :=
    (through?_eq_some_iff (List.cons_ne_nil _ _)).1 rfl
  refine ⟨h, ((literal_by_units _ 1 .split { limit := 0 } (by decide) h).2.1 14 _).2
    ⟨[.plain 'a', .escaped '"', .placeholder "\x7b\x7bb\"\x7d\x7d".toList, .escaped 'n'],
      ?_, ⟨" z".toList, rfl⟩, rfl, Value.ofUnits_iff.2 rfl⟩⟩
  exact ⟨_, .plain (by decide) (by decide) (by decide), _, .escaped _ _,
    _, .placeholder hthrough, _, .escaped _ _, rfl⟩

end Session

end L20n
