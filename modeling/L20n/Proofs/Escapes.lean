import L20n.Proofs.Decoding
import L20n.Proofs.Shape
import L20n.Writer

/-!
Literals that are written.  Each step of decoding takes one kind of escape out
of an encoded text, so decoding gives back the text, unless a backslash of the
text itself stands before an escape letter.  The encoded text and the
placeholders between two quotes are scanned as the pieces they were made of.
-/

namespace L20n

namespace Text

/-- How a character is written when these escapes are in use. -/
def spell (rules : List (Char × Char)) (c : Char) : List Char :=
  match rules.find? fun rule => rule.2 = c with
  | some rule => ['\\', rule.1]
  | none => [c]

/-- The escapes that are used in writing: a single quote stands for itself. -/
def writtenEscapes : List (Char × Char) :=
  [('\\', '\\'), ('n', '\n'), ('r', '\r'), ('t', '\t'), ('b', '\x08'),
    ('f', '\x0c'), ('\x7b', '\x7b'), ('\x7d', '\x7d'), ('"', '"')]

theorem encodeChar_eq_spell (c : Char) : encodeChar c = spell writtenEscapes c := by
  by_cases hmem : c ∈ writtenEscapes.map Prod.snd
  · simp only [writtenEscapes, List.map_cons, List.map_nil, List.mem_cons,
      List.not_mem_nil, or_false] at hmem
    rcases hmem with rfl | rfl | rfl | rfl | rfl | rfl | rfl | rfl | rfl <;> rfl
  · have hnone : writtenEscapes.find? (fun rule => rule.2 = c) = none := by
      rw [List.find?_eq_none]
      intro rule hrule heq
      exact hmem (of_decide_eq_true heq ▸ List.mem_map_of_mem hrule)
    simp only [writtenEscapes, List.map_cons, List.map_nil, List.mem_cons,
      List.not_mem_nil, or_false, not_or] at hmem
    rw [spell, hnone]
    simp [encodeChar, hmem]

theorem spell_cases (rules : List (Char × Char)) (c : Char) :
    (∃ rule ∈ rules, rule.2 = c ∧ spell rules c = ['\\', rule.1]) ∨
      (∀ rule ∈ rules, rule.2 ≠ c) ∧ spell rules c = [c] := by
  rw [spell]
  cases hfind : rules.find? fun rule => rule.2 = c with
  | some rule =>
      exact Or.inl ⟨rule, List.mem_of_find?_eq_some hfind,
        by simpa using List.find?_some hfind, rfl⟩
  | none =>
      refine Or.inr ⟨fun rule hrule heq => ?_, rfl⟩
      exact List.find?_eq_none.1 hfind rule hrule (decide_eq_true heq)

/-- The escape letters that texts keep when these escapes are in use. -/
def unspelled (rules : List (Char × Char)) : List Char :=
  (letterEscapes.map Prod.fst).filter fun c => !(rules.map Prod.snd).contains c

theorem mem_unspelled_iff {rules : List (Char × Char)} {c : Char}
    (h : ∀ rule ∈ rules, rule.2 ≠ c) : c ∈ unspelled rules ↔ isEscapeLetter c = true := by
  have hnone : c ∉ rules.map Prod.snd := by
    rintro hmem
    obtain ⟨rule, hrule, heq⟩ := List.mem_map.1 hmem
    exact h rule hrule heq
  rw [unspelled, List.mem_filter]
  simp [hnone, letterEscapes, escapes, isEscapeLetter]

theorem backslash_notMem_unspelled (rules : List (Char × Char)) :
    '\\' ∉ unspelled rules := by
  intro hmem
  exact absurd (List.mem_filter.1 hmem).1 (by decide)

section Spelled

variable {rules : List (Char × Char)} (hrules : rules ⊆ escapes)
  (hbackslash : ('\\', '\\') ∈ rules)

include hrules hbackslash

theorem flatMap_spell_replicate (k : Nat) :
    (List.replicate k '\\').flatMap (spell rules) = List.replicate (2 * k) '\\' := by
  have hmeanings : ∀ rule ∈ escapes, rule.2 = '\\' → rule.1 = '\\' := by decide
  have hspell : spell rules '\\' = ['\\', '\\'] := by
    rcases spell_cases rules '\\' with ⟨rule, hrule, heq, hspell⟩ | ⟨hnone, -⟩
    · rw [hspell, hmeanings rule (hrules hrule) heq]
    · exact absurd rfl (hnone _ hbackslash)
  induction k with
  | zero => rfl
  | succ k ih =>
      rw [List.replicate_succ, List.flatMap_cons, hspell, ih]
      rfl

/-- Decoding a spelled text gives the text back, unless a backslash in it stands
before a letter that is kept: then the backslash is lost. -/
theorem shorterIf_decode_spell (text : List Char) :
    ShorterIf (BackslashBefore (unspelled rules) text)
      (decode (text.flatMap (spell rules))) text := by
  have hescape := backslash_notMem_unspelled rules
  induction text using induction_on_runs with
  | ends k =>
      have hhalf : (2 * k + 1) / 2 = k := by omega
      rw [flatMap_spell_replicate hrules hbackslash, decode_replicate, hhalf]
      apply shorterIf_refl
      rw [backslashBefore_replicate]
      exact fun h => hescape h.2
  | run k c rest hc ih =>
      rw [List.flatMap_append, List.flatMap_cons,
        flatMap_spell_replicate hrules hbackslash]
      rcases spell_cases rules c with ⟨rule, hrule, heq, hspell⟩ | ⟨hnone, hspell⟩
      · -- the letter of an escape takes the last of an odd number of backslashes
        have hletters : ∀ rule ∈ escapes, rule.2 ≠ '\\' →
            rule.1 ≠ '\\' ∧ letterEscapes.lookup rule.1 = some rule.2 := by
          decide
        obtain ⟨hletter, hlookup⟩ := hletters rule (hrules hrule) (heq ▸ hc)
        have hkept : c ∉ unspelled rules := by
          have hmem : c ∈ rules.map Prod.snd := heq ▸ List.mem_map_of_mem hrule
          rw [unspelled, List.mem_filter, List.contains_iff_mem.2 hmem]
          simp
        have hrun : List.replicate (2 * k) '\\' ++ (['\\', rule.1] ++
            rest.flatMap (spell rules)) =
            List.replicate (2 * k + 1) '\\' ++ rule.1 :: rest.flatMap (spell rules) := by
          rw [List.replicate_succ', List.append_assoc]
          rfl
        have hhalf : (2 * k + 1 + 1) / 2 = k + 1 := by omega
        rw [hspell, hrun, decode_run hletter, hhalf, runEnd_letter hlookup, heq]
        apply ((shorterIf_refl not_false _).append_run ih).congr
        rw [backslashBefore_run hc]
        simp [hkept, hescape]
      · have hhalf : (2 * k + 1) / 2 = k := by omega
        rw [hspell, List.singleton_append, decode_run hc, hhalf]
        apply ((shorterIf_runEnd k c).append_run ih).congr
        rw [backslashBefore_run hc, mem_unspelled_iff hnone]
        simp [hescape]

end Spelled

theorem hasAmbiguousBackslash_iff {text : List Char} :
    hasAmbiguousBackslash text = true ↔
      BackslashBefore (letterEscapes.map Prod.fst) text := by
  induction text with
  | nil => simp [hasAmbiguousBackslash, not_backslashBefore_nil]
  | cons c text ih =>
      rw [backslashBefore_cons, ← ih]
      cases text with
      | nil => simp [hasAmbiguousBackslash]
      | cons d text =>
          have hletter : isEscapeLetter d = true ↔
              ∃ letter ∈ letterEscapes.map Prod.fst, some d = some letter := by
            simp [isEscapeLetter, letterEscapes, escapes]
          rw [List.head?_cons, ← hletter]
          simp [hasAmbiguousBackslash]

theorem encode_eq_spell (text : List Char) :
    encode text = text.flatMap (spell writtenEscapes) := by
  rw [encode, funext encodeChar_eq_spell]

/-- Of the escape letters, those of control characters and the single quote are
written as they stand, so a backslash before one of them is lost. -/
theorem shorterIf_decode_encode (text : List Char) :
    ShorterIf (BackslashBefore ['n', 'r', 't', 'b', 'f', '\x27'] text)
      (decode (encode text)) text := by
  rw [encode_eq_spell]
  have hrules : writtenEscapes ⊆ escapes := by decide
  exact shorterIf_decode_spell hrules (by decide) text

/-- Decoding an encoded text gives the text back, if no backslash in it would
be read as an escape. -/
theorem decode_encode {text : List Char} (h : hasAmbiguousBackslash text = false) :
    decode (encode text) = text := by
  rw [(shorterIf_decode_encode text).eq_iff]
  intro hbefore
  have hambiguous := hasAmbiguousBackslash_iff.2 (hbefore.mono (by decide))
  rw [h] at hambiguous
  cases hambiguous

end Text

open Text

def Piece.ofChar (c : Char) : Piece :=
  match encodeChar c with
  | [_, letter] => .escaped letter
  | _ => .plain c

def Segment.pieces : Segment → List Piece
  | .text value => value.toList.map Piece.ofChar
  | .placeholder source => [.placeholder source.toList]

/-- The piece as which a character is spelled with these escapes. -/
def Piece.spelled (rules : List (Char × Char)) (c : Char) : Piece :=
  match rules.find? fun rule => rule.2 = c with
  | some rule => .escaped rule.1
  | none => .plain c

theorem Piece.ofChar_eq_spelled (c : Char) : ofChar c = spelled writtenEscapes c := by
  rw [ofChar, encodeChar_eq_spell, spell, spelled]
  cases writtenEscapes.find? fun rule => rule.2 = c <;> rfl

/-- A character is spelled with a backslash in front of a letter, or it stands
for itself. -/
theorem Piece.spelled_cases (rules : List (Char × Char)) (c : Char) :
    (∃ letter, spell rules c = ['\\', letter] ∧ spelled rules c = .escaped letter) ∨
      spell rules c = [c] ∧ spelled rules c = .plain c ∧ c ∉ rules.map Prod.snd := by
  rw [spell, spelled]
  cases hfind : rules.find? fun rule => rule.2 = c with
  | some rule => exact Or.inl ⟨rule.1, rfl, rfl⟩
  | none =>
      refine Or.inr ⟨rfl, rfl, fun hmem => ?_⟩
      obtain ⟨rule, hrule, heq⟩ := List.mem_map.1 hmem
      exact List.find?_eq_none.1 hfind rule hrule (decide_eq_true heq)

theorem Piece.raw_spelled (rules : List (Char × Char)) (c : Char) :
    (spelled rules c).raw = spell rules c := by
  rcases spelled_cases rules c with ⟨letter, hspell, hpiece⟩ | ⟨hspell, hpiece, -⟩
  · rw [hspell, hpiece, raw]
  · rw [hspell, hpiece, raw]

theorem Piece.isPlaceholder_spelled (rules : List (Char × Char)) (c : Char) :
    (spelled rules c).isPlaceholder = false := by
  rcases spelled_cases rules c with ⟨letter, -, hpiece⟩ | ⟨-, hpiece, -⟩
  · rw [hpiece]
    rfl
  · rw [hpiece]
    rfl

theorem flatMap_raw_spelled (rules : List (Char × Char)) (text : List Char) :
    (text.map (Piece.spelled rules)).flatMap Piece.raw = text.flatMap (spell rules) := by
  rw [List.flatMap_map]
  simp only [Piece.raw_spelled]

theorem any_isPlaceholder_spelled (rules : List (Char × Char)) (text : List Char) :
    (text.map (Piece.spelled rules)).any Piece.isPlaceholder = false := by
  simp [Piece.isPlaceholder_spelled]

/-- A spelled text in front of a body adds its pieces to it, if the characters with a
meaning of their own are spelled. -/
theorem BodyText.spell_append {rules : List (Char × Char)} {text rest : List Char}
    {pieces : List Piece} (hrules : ∀ c ∈ ['\\', '"', '\x7b'], c ∈ rules.map Prod.snd)
    (h : BodyText ['"'] text pieces rest) (content : List Char) :
    BodyText ['"'] (content.flatMap (spell rules) ++ text)
      (content.map (Piece.spelled rules) ++ pieces) rest := by
  induction content with
  | nil => exact h
  | cons c content ih =>
      rw [List.flatMap_cons, List.append_assoc, List.map_cons, List.cons_append]
      rcases Piece.spelled_cases rules c with ⟨letter, hspell, hpiece⟩ |
        ⟨hspell, hpiece, hnone⟩
      · rw [hspell, hpiece]
        exact .escaped letter ih
      · have hne : ∀ d ∈ ['\\', '"', '\x7b'], c ≠ d := by
          rintro d hd rfl
          exact hnone (hrules c hd)
        rw [hspell, hpiece]
        apply BodyText.plain (hne '\\' (by simp)) ?_ ?_ ih
        · intro after heq
          exact hne '"' (by simp) (List.cons.inj heq).1
        · intro after heq
          exact hne '\x7b' (by simp) (List.cons.inj heq).1

theorem BodyText.encode_append {text rest : List Char} {pieces : List Piece}
    (h : BodyText ['"'] text pieces rest) (content : List Char) :
    BodyText ['"'] (encode content ++ text) (content.map Piece.ofChar ++ pieces)
      rest := by
  rw [encode_eq_spell, funext Piece.ofChar_eq_spelled]
  exact h.spell_append (by simp [writtenEscapes]) content

/-- Text after the first mark does not change where the mark stands. -/
theorem Text.Through.append {mark front : List Char}
    (h : Through mark front front []) (more : List Char) :
    Through mark (front ++ more) front more := by
  obtain ⟨-, body, hfront, hfirst⟩ := h
  refine ⟨rfl, body, hfront, fun before after heq => ?_⟩
  rcases Nat.lt_or_ge before.length body.length with hlt | hge
  · have hwhole : before ++ mark <+: front ++ more :=
      ⟨after, by rw [heq, List.append_assoc]⟩
    have hlength : (before ++ mark).length ≤ front.length := by
      rw [hfront, List.length_append, List.length_append]
      omega
    obtain ⟨tail, htail⟩ :=
      List.prefix_of_prefix_length_le hwhole (List.prefix_append front more) hlength
    exact hfirst before tail (by rw [← htail, List.append_assoc])
  · exact hge

theorem isPlaceholderSource_iff {source : List Char} :
    isPlaceholderSource source = true ↔ PlaceholderForm source := by
  rw [isPlaceholderSource.eq_def]
  split
  · next inner =>
      have hmark : ['\x7d', '\x7d'] ≠ [] := by simp
      constructor
      · intro h
        split at h
        · next front hthrough =>
            obtain rfl := append_of_through? hthrough
            rw [List.append_nil] at hthrough ⊢
            exact placeholderForm_of_through ((through?_eq_some_iff hmark).1 hthrough)
        · cases h
      · rintro ⟨-, other, heq, hthrough⟩
        obtain rfl : inner = other := by simpa using heq
        rw [(through?_eq_some_iff hmark).2 hthrough]
  · next hnot =>
      simp only [Bool.false_eq_true, false_iff]
      rintro ⟨-, inner, rfl, -⟩
      exact hnot inner rfl

/-- A placeholder in front of a body adds itself to it. -/
theorem BodyText.placeholder_append {source text rest : List Char}
    {pieces : List Piece} (hsource : PlaceholderForm source)
    (h : BodyText ['"'] text pieces rest) :
    BodyText ['"'] (source ++ text) (.placeholder source :: pieces) rest := by
  obtain ⟨-, inner, rfl, hthrough⟩ := hsource
  exact .placeholder (hthrough.append text) h

theorem runs_ofChar_append (content : List Char) (pieces : List Piece) :
    runs (content.map Piece.ofChar ++ pieces) =
      (encode content ++ (runs pieces).1, (runs pieces).2) := by
  rw [encode_eq_spell, funext Piece.ofChar_eq_spelled]
  induction content with
  | nil => rfl
  | cons c content ih =>
      have hraw := Piece.raw_spelled writtenEscapes c
      rw [List.map_cons, List.cons_append, List.flatMap_cons, List.append_assoc, ← hraw]
      rcases Piece.spelled_cases writtenEscapes c with ⟨letter, -, hpiece⟩ |
        ⟨-, hpiece, -⟩
      · rw [hpiece, runs, ih]
        simp
      · rw [hpiece, runs, ih]
        simp

theorem segments_eq (pieces : List Piece) :
    segments pieces = textSegment (runs pieces).1 ++
      (runs pieces).2.flatMap fun (source, run) =>
        .placeholder (String.ofList source) :: textSegment run :=
  rfl

theorem segments_placeholder_cons (source : List Char) (pieces : List Piece) :
    segments (.placeholder source :: pieces) =
      .placeholder (String.ofList source) :: segments pieces :=
  rfl

/-- Text in front of nothing or of a placeholder is a segment of its own. -/
theorem segments_ofChar_append {content : String} {pieces : List Piece}
    (hcontent : content ≠ "") (hclear : hasAmbiguousBackslash content.toList = false)
    (hpieces : (runs pieces).1 = []) :
    segments (content.toList.map Piece.ofChar ++ pieces) =
      .text content :: segments pieces := by
  have hencode : encode content.toList ≠ [] := by
    intro hnil
    have htext := decode_encode hclear
    rw [hnil] at htext
    exact hcontent (String.toList_inj.1 htext.symm)
  have htext : textSegment (encode content.toList) = [.text content] := by
    rw [textSegment.eq_def]
    split
    · exact absurd ‹_› hencode
    · rw [decode_encode hclear, String.ofList_toList]
  rw [segments_eq, segments_eq, runs_ofChar_append, hpieces, List.append_nil, htext]
  rfl

/-- The segments of a string with placeholders come back from its pieces. -/
theorem segments_pieces {parts : List Segment} (hfilled : Segment.text "" ∉ parts)
    (hseparated : Separated parts)
    (hclear : ∀ content, Segment.text content ∈ parts →
      hasAmbiguousBackslash content.toList = false) :
    segments (parts.flatMap Segment.pieces) = parts := by
  induction parts with
  | nil => rfl
  | cons part parts ih =>
      obtain ⟨hnext, hlater⟩ := separated_cons.1 hseparated
      have ih := ih (fun h => hfilled (List.mem_cons_of_mem part h)) hlater
        fun content h => hclear content (List.mem_cons_of_mem part h)
      rw [List.flatMap_cons]
      cases part with
      | placeholder source =>
          rw [Segment.pieces, List.singleton_append, segments_placeholder_cons, ih,
            String.ofList_toList]
      | text content =>
          have hcontent : content ≠ "" := by
            rintro rfl
            exact hfilled List.mem_cons_self
          have hruns : (runs (parts.flatMap Segment.pieces)).1 = [] := by
            cases parts with
            | nil => rfl
            | cons next parts =>
                cases next with
                | placeholder source => rfl
                | text second => exact absurd rfl (hnext content second parts rfl)
          rw [Segment.pieces,
            segments_ofChar_append hcontent (hclear content List.mem_cons_self) hruns, ih]

theorem ofPieces_spelled (mode : StringMode) (rules : List (Char × Char))
    (content : List Char) :
    Value.ofPieces mode (content.map (Piece.spelled rules)) =
      .string (String.ofList (decode (content.flatMap (spell rules)))) := by
  rw [Value.ofPieces, any_isPlaceholder_spelled, if_neg (by simp), flatMap_raw_spelled]

theorem ofPieces_ofChar {mode : StringMode} {content : String}
    (hclear : hasAmbiguousBackslash content.toList = false) :
    Value.ofPieces mode (content.toList.map Piece.ofChar) = .string content := by
  rw [funext Piece.ofChar_eq_spelled, ofPieces_spelled, ← encode_eq_spell,
    decode_encode hclear, String.ofList_toList]

theorem ofPieces_pieces {parts : List Segment} (h : Alternating parts)
    (hclear : ∀ content, Segment.text content ∈ parts →
      hasAmbiguousBackslash content.toList = false) :
    Value.ofPieces .split (parts.flatMap Segment.pieces) = .parts parts := by
  obtain ⟨source, hmem⟩ := h.placeholder
  have hsome : (parts.flatMap Segment.pieces).any Piece.isPlaceholder = true := by
    rw [List.any_eq_true]
    exact ⟨.placeholder source.toList,
      List.mem_flatMap.2 ⟨_, hmem, List.mem_singleton_self _⟩, rfl⟩
  rw [Value.ofPieces, if_pos ⟨rfl, hsome⟩, segments_pieces h.filled h.separated hclear]

end L20n
