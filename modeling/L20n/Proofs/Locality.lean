import L20n.Proofs.Boundary
import L20n.Proofs.Escapes

/-!
A derivation depends only on the text that it takes.  The rest behind it can be
exchanged for any other rest that starts in the same way, or with a character
that neither a word nor a literal nor the head of an entity goes on with.  An
entry and a comment are closed by a mark of their own, and take any rest.
-/

namespace L20n

open Text Grammar

/-- Two texts that are the same up to the rests in which they end. -/
def SameFront (text rest text' rest' : List Char) : Prop :=
  ∃ front, text = front ++ rest ∧ text' = front ++ rest'

/-- The characters that no word, no literal and no head of an entity goes on
with. -/
def isNeutral (c : Char) : Bool :=
  !isWordChar c && c != '\x27' && c != '"' && c != '[' && c != '('

def Neutral (text : List Char) : Prop :=
  ∀ c ∈ text.head?, isNeutral c = true

/-- The second text starts as the first one does, or neutrally. -/
def Joins (text text' : List Char) : Prop :=
  ∀ c ∈ text'.head?, c ∈ text.head? ∨ isNeutral c = true

section Texts

variable {text middle rest text' middle' rest' : List Char}

theorem SameFront.refl (rest rest' : List Char) :
    SameFront rest rest rest' rest' :=
  ⟨[], rfl, rfl⟩

theorem SameFront.trans (h : SameFront text middle text' middle')
    (h' : SameFront middle rest middle' rest') :
    SameFront text rest text' rest' := by
  obtain ⟨front, rfl, rfl⟩ := h
  obtain ⟨more, rfl, rfl⟩ := h'
  exact ⟨front ++ more, by simp, by simp⟩

theorem SameFront.cons (c : Char) (h : SameFront text rest text' rest') :
    SameFront (c :: text) rest (c :: text') rest' := by
  obtain ⟨front, rfl, rfl⟩ := h
  exact ⟨c :: front, rfl, rfl⟩

theorem neutral_nil : Neutral [] := by
  intro c hc
  simp at hc

theorem neutral_cons {c : Char} (h : isNeutral c = true) (text : List Char) :
    Neutral (c :: text) := by
  intro d hd
  obtain rfl : c = d := by simpa using hd
  exact h

theorem Neutral.joins (h : Neutral text') (text : List Char) : Joins text text' :=
  fun c hc => Or.inr (h c hc)

theorem SameFront.joins (h : SameFront text rest text' rest')
    (hjoins : Joins rest rest') : Joins text text' := by
  obtain ⟨front, rfl, rfl⟩ := h
  cases front with
  | nil => exact hjoins
  | cons c front => exact fun d hd => Or.inl hd

/-- Texts that share some characters start in the same way. -/
theorem SameFront.joins_of_lt (h : SameFront text rest text' rest')
    (hlt : rest.length < text.length) : Joins text text' := by
  obtain ⟨front, rfl, rfl⟩ := h
  cases front with
  | nil => simp at hlt
  | cons c front => exact fun d hd => Or.inl hd

theorem isWordChar_eq_false_of_isNeutral {c : Char} (h : isNeutral c = true) :
    isWordChar c = false := by
  simp only [isNeutral, Bool.and_eq_true, Bool.not_eq_true'] at h
  exact h.1.1.1.1

/-- Whether a mark stands at the front of a text is told by as many characters
as the mark has. -/
theorem ne_append_of_length_le {front : List Char} (mark : List Char)
    (h : ∀ after, front ++ rest ≠ mark ++ after)
    (hlength : mark.length ≤ front.length) (after : List Char) :
    front ++ rest' ≠ mark ++ after := by
  intro heq
  obtain ⟨tail, rfl⟩ := List.prefix_of_prefix_length_le
    ⟨after, heq.symm⟩ (List.prefix_append front rest') hlength
  exact h (tail ++ rest) (List.append_assoc mark tail rest)

/-- A blank that is not in the mark keeps a mark from being completed. -/
theorem ne_append_space {front : List Char} (mark : List Char)
    (h : ∀ after, front ++ rest ≠ mark ++ after) (hspace : ' ' ∉ mark)
    (after : List Char) : front ++ ' ' :: rest' ≠ mark ++ after := by
  by_cases hlength : mark.length ≤ front.length
  · exact ne_append_of_length_le mark h hlength after
  · intro heq
    have hprefix : front ++ [' '] <+: mark ++ after :=
      ⟨rest', by rw [← heq]; simp⟩
    obtain ⟨tail, htail⟩ := List.prefix_of_prefix_length_le hprefix
      (List.prefix_append mark after) (by simp; omega)
    apply hspace
    rw [← htail]
    simp

end Texts

/-- What the relation says of a text it says of every text with the same front
and a rest that joins. -/
def Local {α : Type} (relation : List Char → α → List Char → Prop) : Prop :=
  ∀ ⦃text a rest⦄, relation text a rest → ∀ ⦃rest'⦄, Joins rest rest' →
    ∃ text', SameFront text rest text' rest' ∧ relation text' a rest'

theorem UnaryOp.symbol_ne_nil (op : UnaryOp) : op.symbol ≠ [] := by
  cases op <;> decide

theorem BinaryOp.symbol_ne_nil (op : BinaryOp) : op.symbol ≠ [] := by
  cases op <;> decide

theorem LogicalOp.symbol_ne_nil (op : LogicalOp) : op.symbol ≠ [] := by
  cases op <;> decide

section Lexemes

variable {text rest rest' : List Char}

/-- A lexeme stands in front of any rest. -/
theorem Lexeme.splice {c : Char} {more : List Char}
    (h : Lexeme (c :: more) text rest) (rest' : List Char) :
    ∃ text', SameFront text rest text' rest' ∧ Lexeme (c :: more) text' rest' := by
  have hfront : text = text.takeWhile isBlank ++ (c :: more) ++ rest := by
    rw [List.append_assoc, ← h]
    exact (takeWhile_append_trimStart text).symm
  have hblank : ∀ d ∈ text.takeWhile isBlank, isBlank d = true :=
    List.all_eq_true.1 List.all_takeWhile
  have hc : isBlank c = false := by
    have hhead := List.head?_dropWhile_not isBlank text
    rw [Lexeme, trimStart] at h
    simpa [h] using hhead
  refine ⟨text.takeWhile isBlank ++ (c :: more) ++ rest', ⟨_, hfront, rfl⟩, ?_⟩
  rw [Lexeme, trimStart, List.append_assoc, List.dropWhile_append_of_pos hblank]
  simp [hc]

theorem Lexeme.joins {c : Char} {more text' : List Char}
    (h : Lexeme (c :: more) text rest) (hfront : SameFront text rest text' rest') :
    Joins text text' :=
  hfront.joins_of_lt (h.length_lt (List.cons_ne_nil c more))

/-- The same for a lexeme that is only known not to be empty. -/
theorem Lexeme.splice_of_ne_nil {lexeme : List Char} (h : Lexeme lexeme text rest)
    (hne : lexeme ≠ []) (rest' : List Char) :
    ∃ text', SameFront text rest text' rest' ∧ Lexeme lexeme text' rest' := by
  cases lexeme with
  | nil => exact absurd rfl hne
  | cons c more => exact h.splice rest'

theorem Word.splice {first : Char → Bool} {word : List Char}
    (h : Word first text word rest) (hjoins : Joins rest rest') :
    ∃ text', SameFront text rest text' rest' ∧ Word first text' word rest' := by
  obtain ⟨c, tail, rfl, hc, htail⟩ := h.starts
  obtain ⟨text', hfront, hahead⟩ := h.ahead.splice rest'
  refine ⟨text', hfront, hahead, ⟨c, tail, rfl, hc, htail⟩, ?_⟩
  intro d hd
  rcases hjoins d hd with hsame | hneutral
  · exact h.longest d hsame
  · exact isWordChar_eq_false_of_isNeutral hneutral

theorem local_nameText : Local NameText :=
  fun _ _ _ h _ hjoins => Word.splice h hjoins

theorem local_numberText : Local NumberText := by
  intro text n rest h rest' hjoins
  obtain ⟨word, hword, hdigits, rfl⟩ := h
  obtain ⟨text', hfront, hword'⟩ := hword.splice hjoins
  exact ⟨text', hfront, word, hword', hdigits, rfl⟩

/-- The body of a literal holds its delimiter, and stands in front of any
rest. -/
theorem BodyText.splice {delimiter : List Char} {pieces : List Piece}
    (hdelimiter : delimiter ≠ []) (h : BodyText delimiter text pieces rest) :
    ∃ front, text = front ++ rest ∧ delimiter.length ≤ front.length ∧
      ∀ rest', BodyText delimiter (front ++ rest') pieces rest' := by
  have hpos := List.length_pos_iff.2 hdelimiter
  induction h with
  | close rest => exact ⟨delimiter, rfl, Nat.le_refl _, fun rest' => .close rest'⟩
  | escaped c _ ih =>
      obtain ⟨front, rfl, hlength, hbody⟩ := ih
      refine ⟨'\\' :: c :: front, rfl, ?_, fun rest' => .escaped c (hbody rest')⟩
      simp only [List.length_cons]
      omega
  | @placeholder text inner after pieces rest hthrough _ ih =>
      obtain ⟨front, rfl, hlength, hbody⟩ := ih
      have hinner : ∀ rest', Through ['\x7d', '\x7d'] (inner ++ front ++ rest') inner
          (front ++ rest') := by
        intro rest'
        rw [List.append_assoc]
        exact hthrough.self.append (front ++ rest')
      refine ⟨'\x7b' :: '\x7b' :: (inner ++ front), ?_, ?_, fun rest' =>
        .placeholder (hinner rest') (hbody rest')⟩
      · rw [hthrough.split]
        simp
      · simp only [List.length_cons, List.length_append]
        omega
  | @plain c text pieces rest hc hnot hopen _ ih =>
      obtain ⟨front, rfl, hlength, hbody⟩ := ih
      rw [← List.cons_append] at hnot hopen
      refine ⟨c :: front, rfl, by simp only [List.length_cons]; omega, fun rest' => ?_⟩
      refine .plain hc (ne_append_of_length_le delimiter hnot ?_)
        (ne_append_of_length_le ['\x7b', '\x7b'] hopen ?_) (hbody rest')
      · simp only [List.length_cons]
        omega
      · simp only [List.length_cons, List.length_nil]
        omega

theorem local_literalText (mode : StringMode) : Local (LiteralText mode) := by
  intro text v rest h rest' hjoins
  obtain ⟨delimiter, body, pieces, hdelimiter, hbody, rfl⟩ := h
  obtain ⟨quote, more, hquote, -, -⟩ := hdelimiter.quote
  have hne : delimiter ≠ [] := by simp [hquote]
  obtain ⟨front, rfl, hlength, hbody'⟩ := hbody.splice hne
  have hahead := hdelimiter.ahead
  rw [hquote] at hahead
  obtain ⟨text', hfront, hahead'⟩ := hahead.splice (front ++ rest')
  refine ⟨text', hfront.trans ⟨front, rfl, rfl⟩, delimiter, front ++ rest', pieces,
    ⟨hquote ▸ hahead', ?_⟩, hbody' rest', rfl⟩
  obtain ⟨quote, hkind, hlong | ⟨hshort, hrest⟩⟩ := hdelimiter.longest
  · exact ⟨quote, hkind, Or.inl hlong⟩
  · refine ⟨quote, hkind, Or.inr ⟨hshort, ?_⟩⟩
    -- Only a body of one character lets the rest complete three quotes.
    by_cases htwo : 2 ≤ front.length
    · exact ne_append_of_length_le [quote, quote] hrest htwo
    · intro after heq
      have hone : front.length = 1 := by
        rw [hshort] at hlength
        simp only [List.length_cons, List.length_nil] at hlength
        omega
      obtain ⟨c, rfl⟩ := List.length_eq_one_iff.1 hone
      simp only [List.cons_append, List.nil_append, List.cons.injEq] at heq
      obtain ⟨rfl, rfl⟩ := heq
      rcases hjoins c rfl with hsame | hneutral
      · cases rest with
        | nil => cases hsame
        | cons d rest =>
            obtain rfl : d = c := by simpa using hsame
            exact hrest rest rfl
      · rcases hkind with rfl | rfl <;> exact absurd hneutral (by decide)

end Lexemes

section Lists

variable {α : Type} {relation : List Char → α → List Char → Prop}

theorem Local.iterates (h : Local relation) :
    Local fun text as rest => Iterates relation as text rest := by
  intro text as rest hrun rest' hjoins
  induction as generalizing text with
  | nil =>
      obtain rfl : text = rest := hrun
      exact ⟨rest', .refl text rest', rfl⟩
  | cons a as ih =>
      obtain ⟨middle, hstep, hmore⟩ := hrun
      obtain ⟨middle', hrest, hmore'⟩ := ih hmore
      obtain ⟨text', hmiddle, hstep'⟩ := h hstep (hrest.joins hjoins)
      exact ⟨text', hmiddle.trans hrest, middle', hstep', hmore'⟩

/-- A list after a comma depends on what its items depend on. -/
theorem Local.afterComma (h : Local relation) :
    Local fun text a rest => ∃ start, Lexeme [','] text start ∧
      relation start a rest := by
  intro text a rest hitem rest' hjoins
  obtain ⟨start, hcomma, hstart⟩ := hitem
  obtain ⟨start', hrest, hstart'⟩ := h hstart hjoins
  obtain ⟨text', hfront, hcomma'⟩ := hcomma.splice start'
  exact ⟨text', hfront.trans hrest, start', hcomma', hstart'⟩

end Lists

namespace Grammar

section Values

variable {mode : StringMode} {n : Nat}

theorem local_pairText (hvalue : Local (ValueText mode n)) :
    Local (PairText mode n) := by
  intro text pair rest h rest' hjoins
  cases h with
  | pair hname hcolon hv =>
      obtain ⟨b', hb, hv'⟩ := hvalue hv hjoins
      obtain ⟨a', ha, hcolon'⟩ := hcolon.splice b'
      obtain ⟨text', hfront, hname'⟩ := local_nameText hname (hcolon.joins ha)
      exact ⟨text', hfront.trans (ha.trans hb), .pair hname' hcolon' hv'⟩

theorem local_moreValues (hvalue : Local (ValueText mode n)) :
    Local (MoreValues mode n) := by
  intro text vs rest h rest' hjoins
  simp only [moreValues_iff] at h ⊢
  exact hvalue.afterComma.iterates h hjoins

theorem local_morePairs (hvalue : Local (ValueText mode n)) :
    Local (MorePairs mode n) := by
  intro text pairs rest h rest' hjoins
  simp only [morePairs_iff] at h ⊢
  exact (local_pairText hvalue).afterComma.iterates h hjoins

theorem local_arrayText (hvalue : Local (ValueText mode n)) :
    Local (ArrayText mode n) := by
  intro text v rest h rest' hjoins
  cases h with
  | empty hopen hclose =>
      obtain ⟨a', ha, hclose'⟩ := hclose.splice rest'
      obtain ⟨text', hfront, hopen'⟩ := hopen.splice a'
      exact ⟨text', hfront.trans ha, .empty hopen' hclose'⟩
  | items hopen hfirst hmore hclose =>
      obtain ⟨c', hc, hclose'⟩ := hclose.splice rest'
      obtain ⟨b', hb, hmore'⟩ := local_moreValues hvalue hmore (hclose.joins hc)
      obtain ⟨a', ha, hfirst'⟩ := hvalue hfirst (hb.joins (hclose.joins hc))
      obtain ⟨text', hfront, hopen'⟩ := hopen.splice a'
      exact ⟨text', hfront.trans (ha.trans (hb.trans hc)),
        .items hopen' hfirst' hmore' hclose'⟩

theorem local_objectText (hvalue : Local (ValueText mode n)) :
    Local (ObjectText mode n) := by
  have hpair := local_pairText hvalue
  intro text v rest h rest' hjoins
  cases h with
  | empty hopen hclose =>
      obtain ⟨a', ha, hclose'⟩ := hclose.splice rest'
      obtain ⟨text', hfront, hopen'⟩ := hopen.splice a'
      exact ⟨text', hfront.trans ha, .empty hopen' hclose'⟩
  | members hopen hfirst hmore hclose =>
      obtain ⟨c', hc, hclose'⟩ := hclose.splice rest'
      obtain ⟨b', hb, hmore'⟩ := local_morePairs hvalue hmore (hclose.joins hc)
      obtain ⟨a', ha, hfirst'⟩ := hpair hfirst (hb.joins (hclose.joins hc))
      obtain ⟨text', hfront, hopen'⟩ := hopen.splice a'
      exact ⟨text', hfront.trans (ha.trans (hb.trans hc)),
        .members hopen' hfirst' hmore' hclose'⟩

theorem local_valueText (mode : StringMode) (n : Nat) : Local (ValueText mode n) := by
  induction n with
  | zero =>
      intro text v rest h rest' hjoins
      cases h with
      | literal hliteral =>
          obtain ⟨text', hfront, hliteral'⟩ := local_literalText mode hliteral hjoins
          exact ⟨text', hfront, .literal hliteral'⟩
  | succ n ih =>
      intro text v rest h rest' hjoins
      cases h with
      | literal hliteral =>
          obtain ⟨text', hfront, hliteral'⟩ := local_literalText mode hliteral hjoins
          exact ⟨text', hfront, .literal hliteral'⟩
      | array harray =>
          obtain ⟨text', hfront, harray'⟩ := local_arrayText ih harray hjoins
          exact ⟨text', hfront, .array harray'⟩
      | object hobject =>
          obtain ⟨text', hfront, hobject'⟩ := local_objectText ih hobject hjoins
          exact ⟨text', hfront, .object hobject'⟩

end Values

/-- The expressions that are derived with `n` levels depend only on the text
that they take. -/
structure ExpressionsLocal (lists : ListRule) (mode : StringMode) (n : Nat) :
    Prop where
  conditional : Local (ConditionalText lists mode n)
  logical : Local (LogicalText lists mode n)
  binary : Local (BinaryText lists mode n)

section Levels

variable {lists : ListRule} {mode : StringMode} {n : Nat}
  (ih : ∀ m, n = m + 1 → ExpressionsLocal lists mode m)

include ih

theorem local_expressionsText : Local (ExpressionsText lists mode n) := by
  intro text es rest h rest' hjoins
  cases h with
  | @list m _ _ _ e es hexpr hmore =>
      have hinner := (ih m rfl).conditional
      rw [moreExpressions_iff] at hmore
      obtain ⟨a', ha, hmore'⟩ := hinner.afterComma.iterates hmore hjoins
      obtain ⟨text', hfront, hexpr'⟩ := hinner hexpr (ha.joins hjoins)
      exact ⟨text', hfront.trans ha, .list hexpr' (moreExpressions_iff.2 hmore')⟩

theorem local_argumentsText : Local (ArgumentsText lists mode n) := by
  intro text es rest h rest' hjoins
  cases h with
  | empty hlists hclose =>
      obtain ⟨text', hfront, hclose'⟩ := hclose.splice rest'
      exact ⟨text', hfront, .empty hlists hclose'⟩
  | filled hes hclose =>
      obtain ⟨a', ha, hclose'⟩ := hclose.splice rest'
      obtain ⟨text', hfront, hes'⟩ := local_expressionsText ih hes (hclose.joins ha)
      exact ⟨text', hfront.trans ha, .filled hes' hclose'⟩

theorem local_primaryText : Local (PrimaryText lists mode n) := by
  intro text e rest h rest' hjoins
  cases h with
  | paren hopen hexpr hclose =>
      obtain ⟨b', hb, hclose'⟩ := hclose.splice rest'
      obtain ⟨a', ha, hexpr'⟩ := (ih _ rfl).conditional hexpr (hclose.joins hb)
      obtain ⟨text', hfront, hopen'⟩ := hopen.splice a'
      exact ⟨text', hfront.trans (ha.trans hb), .paren hopen' hexpr' hclose'⟩
  | number hnumber =>
      obtain ⟨text', hfront, hnumber'⟩ := local_numberText hnumber hjoins
      exact ⟨text', hfront, .number hnumber'⟩
  | value hvalue =>
      obtain ⟨text', hfront, hvalue'⟩ := local_valueText mode n hvalue hjoins
      exact ⟨text', hfront, .value hvalue'⟩
  | name hname =>
      obtain ⟨text', hfront, hname'⟩ := local_nameText hname hjoins
      exact ⟨text', hfront, .name hname'⟩

theorem local_suffixText : Local (SuffixText lists mode n) := by
  intro text suffix rest h rest' hjoins
  cases h with
  | attr hname =>
      obtain ⟨text', hfront, hname'⟩ := local_nameText hname hjoins
      exact ⟨_, (hfront.cons '.').cons '.', .attr hname'⟩
  | attrAt hexpr hclose =>
      obtain ⟨a', ha, hclose'⟩ := hclose.splice rest'
      obtain ⟨text', hfront, hexpr'⟩ := (ih _ rfl).conditional hexpr (hclose.joins ha)
      exact ⟨_, ((hfront.trans ha).cons '.').cons '[', .attrAt hexpr' hclose'⟩
  | prop hname =>
      obtain ⟨text', hfront, hname'⟩ := local_nameText hname hjoins
      exact ⟨_, hfront.cons '.', .prop hname'⟩
  | propAt hexpr hclose =>
      obtain ⟨a', ha, hclose'⟩ := hclose.splice rest'
      obtain ⟨text', hfront, hexpr'⟩ := (ih _ rfl).conditional hexpr (hclose.joins ha)
      exact ⟨_, (hfront.trans ha).cons '[', .propAt hexpr' hclose'⟩
  | call hes =>
      obtain ⟨text', hfront, hes'⟩ := local_argumentsText ih hes hjoins
      exact ⟨_, hfront.cons '(', .call hes'⟩

theorem local_suffixesText : Local (SuffixesText lists mode n) := by
  intro text suffixes rest h rest' hjoins
  simp only [suffixesText_iff] at h ⊢
  exact (local_suffixText ih).iterates h hjoins

theorem local_memberText : Local (MemberText lists mode n) := by
  intro text e rest h rest' hjoins
  cases h with
  | chain hbase hsuffixes =>
      obtain ⟨a', ha, hsuffixes'⟩ := local_suffixesText ih hsuffixes hjoins
      obtain ⟨text', hfront, hbase'⟩ := local_primaryText ih hbase (ha.joins hjoins)
      exact ⟨text', hfront.trans ha, .chain hbase' hsuffixes'⟩

theorem local_unaryText : Local (UnaryText lists mode n) := by
  intro text e rest h rest' hjoins
  cases h with
  | operand hmember =>
      obtain ⟨text', hfront, hmember'⟩ := local_memberText ih hmember hjoins
      exact ⟨text', hfront, .operand hmember'⟩
  | operator op hop hmember =>
      obtain ⟨a', ha, hmember'⟩ := local_memberText ih hmember hjoins
      obtain ⟨text', hfront, hop'⟩ := hop.splice_of_ne_nil op.symbol_ne_nil a'
      exact ⟨text', hfront.trans ha, .operator op hop' hmember'⟩

theorem local_binaryText : Local (BinaryText lists mode n) := by
  intro text e rest h rest' hjoins
  cases h with
  | operand hunary =>
      obtain ⟨text', hfront, hunary'⟩ := local_unaryText ih hunary hjoins
      exact ⟨text', hfront, .operand hunary'⟩
  | operator op hleft hop hright =>
      obtain ⟨b', hb, hright'⟩ := (ih _ rfl).binary hright hjoins
      obtain ⟨a', ha, hop'⟩ := hop.splice_of_ne_nil op.symbol_ne_nil b'
      obtain ⟨text', hfront, hleft'⟩ :=
        local_unaryText ih hleft ((ha.trans hb).joins hjoins)
      exact ⟨text', hfront.trans (ha.trans hb), .operator op hleft' hop' hright'⟩

theorem local_logicalText : Local (LogicalText lists mode n) := by
  intro text e rest h rest' hjoins
  cases h with
  | operand hbinary =>
      obtain ⟨text', hfront, hbinary'⟩ := local_binaryText ih hbinary hjoins
      exact ⟨text', hfront, .operand hbinary'⟩
  | operator op hleft hop hright =>
      obtain ⟨b', hb, hright'⟩ := (ih _ rfl).logical hright hjoins
      obtain ⟨a', ha, hop'⟩ := hop.splice_of_ne_nil op.symbol_ne_nil b'
      obtain ⟨text', hfront, hleft'⟩ :=
        local_binaryText ih hleft ((ha.trans hb).joins hjoins)
      exact ⟨text', hfront.trans (ha.trans hb), .operator op hleft' hop' hright'⟩

theorem local_conditionalText : Local (ConditionalText lists mode n) := by
  intro text e rest h rest' hjoins
  cases h with
  | test hlogical =>
      obtain ⟨text', hfront, hlogical'⟩ := local_logicalText ih hlogical hjoins
      exact ⟨text', hfront, .test hlogical'⟩
  | branches htest hquestion hyes hcolon hno =>
      have hinner := (ih _ rfl).conditional
      obtain ⟨d', hd, hno'⟩ := hinner hno hjoins
      obtain ⟨c', hc, hcolon'⟩ := hcolon.splice d'
      obtain ⟨b', hb, hyes'⟩ := hinner hyes (hcolon.joins hc)
      obtain ⟨a', ha, hquestion'⟩ := hquestion.splice b'
      obtain ⟨text', hfront, htest'⟩ := local_logicalText ih htest (hquestion.joins ha)
      exact ⟨text', hfront.trans (ha.trans (hb.trans (hc.trans hd))),
        .branches htest' hquestion' hyes' hcolon' hno'⟩

end Levels

theorem expressionsLocal (lists : ListRule) (mode : StringMode) (n : Nat) :
    ExpressionsLocal lists mode n := by
  induction n with
  | zero =>
      have ih : ∀ m, 0 = m + 1 → ExpressionsLocal lists mode m :=
        fun m hm => absurd hm (by omega)
      exact ⟨local_conditionalText ih, local_logicalText ih, local_binaryText ih⟩
  | succ n ih =>
      have ih : ∀ m, n + 1 = m + 1 → ExpressionsLocal lists mode m := by
        intro m hm
        obtain rfl : n = m := by omega
        exact ih
      exact ⟨local_conditionalText ih, local_logicalText ih, local_binaryText ih⟩

section Entries

variable {lists : ListRule} {mode : StringMode} {n : Nat}
  {text rest : List Char}

theorem local_optionalValueText : Local (OptionalValueText mode n) := by
  intro text v rest h rest' hjoins
  cases h with
  | absent => exact ⟨rest', .refl text rest', .absent⟩
  | present hv =>
      obtain ⟨text', hfront, hv'⟩ := local_valueText mode n hv hjoins
      exact ⟨text', hfront, .present hv'⟩

theorem local_attributesText : Local (AttributesText mode n) := by
  intro text pairs rest h rest' hjoins
  simp only [attributesText_iff] at h ⊢
  exact (local_pairText (local_valueText mode n)).iterates h hjoins

theorem local_headText (key : String) :
    Local fun text index rest => HeadText lists mode n text key index rest := by
  have ih := fun m (_ : n = m + 1) => expressionsLocal lists mode m
  intro text index rest h rest' hjoins
  cases h with
  | plain hname hfree =>
      obtain ⟨text', hfront, hname'⟩ := local_nameText hname hjoins
      refine ⟨text', hfront, .plain hname' ?_⟩
      intro c hc
      rcases hjoins c hc with hsame | hneutral
      · exact hfree c hsame
      · constructor <;> rintro rfl <;> exact absurd hneutral (by decide)
  | index hname hes hclose =>
      obtain ⟨b', hb, hclose'⟩ := hclose.splice rest'
      obtain ⟨a', ha, hes'⟩ := local_expressionsText ih hes (hclose.joins hb)
      have hopen := ha.cons '['
      obtain ⟨text', hfront, hname'⟩ :=
        local_nameText hname (hopen.joins (hclose.joins hb))
      exact ⟨text', hfront.trans (hopen.trans hb), .index hname' hes' hclose'⟩

/-- An entry without the mark that closes it. -/
inductive OpenEntryText (lists : ListRule) (mode : StringMode) :
    Nat → List Char → String × Entry → List Char → Prop
  | entity {n text a b rest key index v pairs} :
      HeadText lists mode n text key index a →
      OptionalValueText mode n a v b → AttributesText mode n b pairs rest →
      OpenEntryText lists mode n text (key, entityOf index v pairs) rest
  | macroDef {n text a b c d rest key params body} :
      NameText text key ('(' :: a) → ArgumentsText lists mode (n + 1) a params b →
      Lexeme ['\x7b'] b c → ConditionalText lists mode n c body d →
      Lexeme ['\x7d'] d rest →
      OpenEntryText lists mode (n + 1) text (key, .macroDef params body) rest

theorem entryText_iff {pair : String × Entry} :
    EntryText lists mode n text pair rest ↔
      ∃ middle, OpenEntryText lists mode n text pair middle ∧
        Lexeme ['>'] middle rest := by
  constructor
  · intro h
    cases h with
    | entity hhead hv hpairs hclose => exact ⟨_, .entity hhead hv hpairs, hclose⟩
    | macroDef hname hparams hopen hbody hend hclose =>
        exact ⟨_, .macroDef hname hparams hopen hbody hend, hclose⟩
  · intro h
    obtain ⟨middle, h, hclose⟩ := h
    cases h with
    | entity hhead hv hpairs => exact .entity hhead hv hpairs hclose
    | macroDef hname hparams hopen hbody hend =>
        exact .macroDef hname hparams hopen hbody hend hclose

theorem local_openEntryText : Local (OpenEntryText lists mode n) := by
  intro text pair rest h rest' hjoins
  cases h with
  | entity hhead hv hpairs =>
      obtain ⟨b', hb, hpairs'⟩ := local_attributesText hpairs hjoins
      obtain ⟨a', ha, hv'⟩ := local_optionalValueText hv (hb.joins hjoins)
      obtain ⟨text', hfront, hhead'⟩ :=
        local_headText _ hhead ((ha.trans hb).joins hjoins)
      exact ⟨text', hfront.trans (ha.trans hb), .entity hhead' hv' hpairs'⟩
  | @macroDef m _ _ _ _ _ _ _ _ _ hname hparams hopen hbody hend =>
      have ih := fun k (_ : m + 1 = k + 1) => expressionsLocal lists mode k
      obtain ⟨d', hd, hend'⟩ := hend.splice rest'
      obtain ⟨c', hc, hbody'⟩ :=
        (expressionsLocal lists mode m).conditional hbody (hend.joins hd)
      obtain ⟨b', hb, hopen'⟩ := hopen.splice c'
      obtain ⟨a', ha, hparams'⟩ := local_argumentsText ih hparams (hopen.joins hb)
      have hcall := ha.cons '('
      obtain ⟨text', hfront, hname'⟩ :=
        local_nameText hname (hcall.joins (hopen.joins hb))
      exact ⟨text', hfront.trans (hcall.trans (hb.trans (hc.trans hd))),
        .macroDef hname' hparams' hopen' hbody' hend'⟩

/-- An entry stands in front of any rest. -/
theorem EntryText.splice {pair : String × Entry}
    (h : EntryText lists mode n text pair rest) (rest' : List Char) :
    ∃ text', SameFront text rest text' rest' ∧
      EntryText lists mode n text' pair rest' := by
  obtain ⟨middle, hopen, hclose⟩ := entryText_iff.1 h
  obtain ⟨middle', hrest, hclose'⟩ := hclose.splice rest'
  obtain ⟨text', hfront, hopen'⟩ := local_openEntryText hopen (hclose.joins hrest)
  exact ⟨text', hfront.trans hrest, entryText_iff.2 ⟨middle', hopen', hclose'⟩⟩

theorem CommentText.splice (h : CommentText text rest) (rest' : List Char) :
    ∃ text', SameFront text rest text' rest' ∧ CommentText text' rest' := by
  obtain ⟨body, front, hopen, hthrough⟩ := h
  obtain ⟨text', hfront, hopen'⟩ := hopen.splice (front ++ rest')
  exact ⟨text', hfront.trans ⟨front, hthrough.split, rfl⟩, front ++ rest', front,
    hopen', hthrough.self.append rest'⟩

/-- Comments and entries stand in front of any rest. -/
theorem ItemsText.splice {pairs : List (String × Entry)}
    (h : ItemsText (EntryText lists mode n) text pairs rest) (rest' : List Char) :
    ∃ text', SameFront text rest text' rest' ∧
      ItemsText (EntryText lists mode n) text' pairs rest' := by
  induction h with
  | done => exact ⟨rest', .refl _ rest', .done⟩
  | comment hcomment _ ih =>
      obtain ⟨a', ha, hitems'⟩ := ih
      obtain ⟨text', hfront, hcomment'⟩ := hcomment.splice a'
      exact ⟨text', hfront.trans ha, .comment hcomment' hitems'⟩
  | entry hopen hentry _ ih =>
      obtain ⟨b', hb, hitems'⟩ := ih
      obtain ⟨a', ha, hentry'⟩ := hentry.splice b'
      obtain ⟨text', hfront, hopen'⟩ := hopen.splice a'
      exact ⟨text', hfront.trans (ha.trans hb), .entry hopen' hentry' hitems'⟩

end Entries

end Grammar

end L20n
