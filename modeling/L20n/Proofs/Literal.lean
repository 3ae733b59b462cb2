import L20n.Proofs.Lexeme

/-!
The bodies of string literals.  A body is a row of pieces, each of which can be
recognised where it starts: an escaped character, a placeholder up to its first
two closing braces, or a character that is none of these and does not start the
delimiter.  Scanning finds exactly this row.
-/

namespace L20n

namespace Text

/-- The front of the text up to and with the first `mark` in it. -/
structure Through (mark text front rest : List Char) : Prop where
  split : text = front ++ rest
  ends : ∃ body, front = body ++ mark ∧
    ∀ before after, text = before ++ (mark ++ after) →
      body.length ≤ before.length

variable {mark text front rest : List Char}

theorem through_iff_of_start (hmark : mark ≠ []) {found : List Char}
    (hfound : text = mark ++ found) :
    Through mark text front rest ↔ front = mark ∧ rest = found := by
  constructor
  · rintro ⟨hsplit, body, rfl, hfirst⟩
    have hlength := hfirst [] found hfound
    obtain rfl : body = [] := List.eq_nil_of_length_eq_zero (by simpa using hlength)
    rw [hfound, List.nil_append] at hsplit
    exact ⟨rfl, (List.append_cancel_left hsplit).symm⟩
  · rintro ⟨rfl, rfl⟩
    exact ⟨hfound, [], rfl, fun before _ _ => Nat.zero_le before.length⟩

theorem through_cons_iff {c : Char} (hnot : ∀ found, c :: text ≠ mark ++ found) :
    Through mark (c :: text) front rest ↔
      ∃ tail, front = c :: tail ∧ Through mark text tail rest := by
  constructor
  · rintro ⟨hsplit, body, rfl, hfirst⟩
    cases body with
    | nil => exact absurd hsplit (hnot rest)
    | cons d body =>
        simp only [List.cons_append, List.cons.injEq] at hsplit
        obtain ⟨rfl, hsplit⟩ := hsplit
        refine ⟨body ++ mark, rfl, hsplit, body, rfl, ?_⟩
        intro before after heq
        have hlength := hfirst (c :: before) after (by rw [heq]; rfl)
        simpa using hlength
  · rintro ⟨tail, rfl, hsplit, body, rfl, hfirst⟩
    refine ⟨by rw [hsplit]; rfl, c :: body, rfl, ?_⟩
    intro before after heq
    cases before with
    | nil => exact absurd heq (hnot after)
    | cons d before =>
        simp only [List.cons_append, List.cons.injEq] at heq
        have hlength := hfirst before after heq.2
        simpa using hlength

theorem through?_eq_some_iff (hmark : mark ≠ []) :
    through? mark text = some (front, rest) ↔ Through mark text front rest := by
  induction text generalizing front with
  | nil =>
      simp only [through?, reduceCtorEq, false_iff]
      rintro ⟨hsplit, body, rfl, _⟩
      simp [hmark] at hsplit
  | cons c text ih =>
      cases hat : after? mark (c :: text) with
      | some found =>
          have hfound := (after?_eq_some_iff.1 hat).symm
          rw [through_iff_of_start hmark hfound]
          simp [through?, hat, eq_comm]
      | none =>
          have hnot := Token.after?_eq_none_iff.1 hat
          rw [through_cons_iff fun found heq => hnot found heq.symm]
          simp only [through?, hat, Option.map_eq_some_iff, Prod.mk.injEq,
            Prod.exists]
          constructor
          · rintro ⟨tail, last, hthrough, rfl, rfl⟩
            exact ⟨tail, rfl, ih.1 hthrough⟩
          · rintro ⟨tail, rfl, hthrough⟩
            exact ⟨tail, rest, ih.2 hthrough, rfl, rfl⟩

theorem Through.suffix (h : Through mark text front rest) : rest <:+ text :=
  ⟨front, h.split.symm⟩

end Text

open Text

/-- The end of a comment is found where its two characters stand first. -/
theorem Token.find?_commentClose {text rest : List Char} :
    (∃ found, find? .commentClose text = some found ∧ found.rest = rest) ↔
      ∃ front, Through ['*', '/'] text front rest := by
  have hfind : find? .commentClose text =
      (through? ['*', '/'] text).map fun parts => ⟨[], ['*', '/'], parts.2⟩ := by
    induction text with
    | nil => rfl
    | cons c text ih =>
        cases hat : after? ['*', '/'] (c :: text) with
        | some found =>
            simp [find?, through?, match?, shape, blankBefore, blankAfter,
              Shape.split?, firstOf?, hat]
        | none =>
            simp [find?, through?, match?, shape, blankBefore, Shape.split?,
              firstOf?, hat, ih, Function.comp_def]
  rw [hfind]
  simp only [← through?_eq_some_iff (List.cons_ne_nil '*' ['/']),
    Option.map_eq_some_iff, Prod.exists]
  constructor
  · rintro ⟨_, ⟨front, last, hthrough, rfl⟩, rfl⟩
    exact ⟨front, hthrough⟩
  · rintro ⟨front, hthrough⟩
    exact ⟨_, ⟨front, rest, hthrough, rfl⟩, rfl⟩

/-- The body of a literal as a row of pieces, up to its delimiter. -/
inductive BodyText (delimiter : List Char) :
    List Char → List Piece → List Char → Prop
  | close (rest : List Char) : BodyText delimiter (delimiter ++ rest) [] rest
  | escaped (c : Char) {text pieces rest} :
      BodyText delimiter text pieces rest →
      BodyText delimiter ('\\' :: c :: text) (.escaped c :: pieces) rest
  | placeholder {text inner after pieces rest} :
      Through ['\x7d', '\x7d'] text inner after →
      BodyText delimiter after pieces rest →
      BodyText delimiter ('\x7b' :: '\x7b' :: text)
        (.placeholder ('\x7b' :: '\x7b' :: inner) :: pieces) rest
  | plain {c text pieces rest} :
      c ≠ '\\' →
      (∀ after, c :: text ≠ delimiter ++ after) →
      (∀ after, c :: text ≠ '\x7b' :: '\x7b' :: after) →
      BodyText delimiter text pieces rest →
      BodyText delimiter (c :: text) (.plain c :: pieces) rest

theorem Body.bodyText_of_scan {delimiter text rest : List Char}
    {pieces : List Piece} (h : scan delimiter text = closed pieces rest) :
    BodyText delimiter text pieces rest := by
  fun_induction scan delimiter text generalizing pieces with
  | case1 text after hafter =>
      cases h
      rw [← after?_eq_some_iff.1 hafter]
      exact .close _
  | case2 | case3 | case5 => cases h
  | case4 c tail _ ih =>
      obtain ⟨more, rfl, hscan⟩ := push_eq_closed_iff.1 h
      exact .escaped c (ih hscan)
  | case6 tail inner after hthrough _ ih =>
      obtain ⟨more, rfl, hscan⟩ := push_eq_closed_iff.1 h
      exact .placeholder ((through?_eq_some_iff (by simp)).1 hthrough) (ih hscan)
  | case7 c tail hlone hescape hopen hnone ih =>
      obtain ⟨more, rfl, hscan⟩ := push_eq_closed_iff.1 h
      refine .plain ?_ ?_ ?_ (ih hscan)
      · rintro rfl
        cases tail with
        | nil => exact hlone rfl rfl
        | cons d tail => exact hescape d tail rfl rfl
      · intro after heq
        exact Token.after?_eq_none_iff.1 hnone after heq.symm
      · intro after heq
        simp only [List.cons.injEq] at heq
        exact hopen after heq.1 heq.2

/-- A delimiter that starts neither like an escape nor like a placeholder ends
the body exactly where scanning stops. -/
theorem Body.scan_eq_closed_iff {quote : Char} {more text rest : List Char}
    (hescape : quote ≠ '\\') (hbrace : quote ≠ '\x7b') {pieces : List Piece} :
    scan (quote :: more) text = closed pieces rest ↔
      BodyText (quote :: more) text pieces rest := by
  refine ⟨bodyText_of_scan, fun h => ?_⟩
  induction h with
  | close rest =>
      have hafter : after? (quote :: more) (quote :: more ++ rest) = some rest :=
        after?_eq_some_iff.2 rfl
      rw [scan.eq_def, hafter]
  | escaped c _ ih =>
      rw [scan]
      simp [after?, hescape, ih, push]
  | placeholder hthrough _ ih =>
      rw [scan]
      have hfound := (through?_eq_some_iff (by simp)).2 hthrough
      simp only [after?, hbrace, if_false]
      split
      · simp_all
      · next inner after heq =>
          rw [hfound] at heq
          obtain ⟨rfl, rfl⟩ := Prod.mk.inj (Option.some.inj heq)
          rw [ih, push]
  | @plain c text pieces rest hc hdelimiter hopen _ ih =>
      have hafter : after? (quote :: more) (c :: text) = none :=
        Token.after?_eq_none_iff.2 fun rest heq => hdelimiter rest heq.symm
      rw [scan, hafter]
      · simp only
        rw [ih, push]
      · exact fun h _ => hc h
      · exact fun _ _ h _ => hc h
      · rintro rest rfl rfl
        exact hopen rest rfl

theorem Delimiter.quote {text delimiter rest : List Char}
    (h : Delimiter text delimiter rest) :
    ∃ quote more, delimiter = quote :: more ∧ quote ≠ '\\' ∧ quote ≠ '\x7b' := by
  obtain ⟨quote, hquote, hlong | ⟨hshort, _⟩⟩ := h.longest
  · refine ⟨quote, _, hlong, ?_⟩
    rcases hquote with rfl | rfl <;> decide
  · refine ⟨quote, _, hshort, ?_⟩
    rcases hquote with rfl | rfl <;> decide

def LiteralText (mode : StringMode) (text : List Char) (v : Value)
    (rest : List Char) : Prop :=
  ∃ delimiter body pieces, Delimiter text delimiter body ∧
    BodyText delimiter body pieces rest ∧ v = Value.ofPieces mode pieces

theorem Reader.takes_literal {limit depth : Int} {mode : StringMode}
    {text rest : List Char} {v : Value} :
    Takes limit depth (literal mode) text v rest ↔
      LiteralText mode text v rest := by
  rw [literal, takes_bind (steady_expect _ _)]
  simp only [takes_expect, Token.found_delimiter, takes_ahead_bind]
  constructor
  · rintro ⟨delimiter, body, hdelimiter, h⟩
    obtain ⟨quote, more, rfl, hescape, hbrace⟩ := hdelimiter.quote
    cases hscan : Body.scan (quote :: more) body with
    | closed pieces last =>
        rw [hscan] at h
        obtain ⟨rfl, rfl⟩ : Value.ofPieces mode pieces = v ∧ last = rest := by
          change EStateM.Result.ok _ _ = EStateM.Result.ok _ _ at h
          simpa using h
        exact ⟨_, body, pieces, hdelimiter,
          (Body.scan_eq_closed_iff hescape hbrace).1 hscan, rfl⟩
    | openPlaceholder place =>
        rw [hscan] at h
        cases h
    | openLiteral =>
        rw [hscan] at h
        cases h
  · rintro ⟨delimiter, body, pieces, hdelimiter, hbody, rfl⟩
    obtain ⟨quote, more, rfl, hescape, hbrace⟩ := hdelimiter.quote
    refine ⟨_, body, hdelimiter, ?_⟩
    rw [(Body.scan_eq_closed_iff hescape hbrace).2 hbody]
    rfl

end L20n
