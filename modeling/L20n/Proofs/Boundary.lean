import L20n.Proofs.Grammar

/-!
Where the parts of the grammar start and end.  The first character after the
blanks tells which alternative a derivation takes.  Optional parts are taken
whenever they are there, so what a rule leaves cannot go on with one;
`EndsMember` and its companions say so.  The tokens that can follow an
expression in the grammar are such ends, which is why a derivation never has to
say that an optional part is absent.
-/

namespace L20n

open Text Grammar

theorem Lexeme.head_eq {c d : Char} {more other text after after' : List Char}
    (h : Lexeme (c :: more) text after) (h' : Lexeme (d :: other) text after') :
    c = d := by
  rw [Lexeme] at h h'
  rw [h] at h'
  simp only [List.cons_append, List.cons.injEq] at h'
  exact h'.1

theorem Lexeme.congr {lexeme text other rest : List Char}
    (h : trimStart text = trimStart other) (hlexeme : Lexeme lexeme text rest) :
    Lexeme lexeme other rest := by
  rw [Lexeme, ← h]
  exact hlexeme

theorem Word.congr {first : Char → Bool} {word text other rest : List Char}
    (h : trimStart text = trimStart other) (hword : Word first text word rest) :
    Word first other word rest :=
  ⟨hword.ahead.congr h, hword.starts, hword.longest⟩

/-- After its blanks the text goes on with a character of some kind. -/
def Starts (p : Char → Bool) (text : List Char) : Prop :=
  ∃ c tail, trimStart text = c :: tail ∧ p c = true

theorem Starts.mono {p q : Char → Bool} {text : List Char}
    (hpq : ∀ c, p c = true → q c = true) (h : Starts p text) : Starts q text := by
  obtain ⟨c, tail, hhead, hc⟩ := h
  exact ⟨c, tail, hhead, hpq c hc⟩

theorem Lexeme.starts {p : Char → Bool} {c : Char}
    {more text rest : List Char} (h : Lexeme (c :: more) text rest)
    (hc : p c = true) : Starts p text :=
  ⟨c, more ++ rest, h, hc⟩

theorem Word.starts_first {first : Char → Bool} {text word rest : List Char}
    (h : Word first text word rest) : Starts first text := by
  obtain ⟨c, tail, rfl, hc, _⟩ := h.starts
  exact h.ahead.starts hc

theorem Starts.not_lexeme {p : Char → Bool} {c : Char}
    {more text rest : List Char} (h : Starts p text) (hc : p c = false) :
    ¬ Lexeme (c :: more) text rest := by
  intro hlexeme
  obtain ⟨d, tail, hhead, hd⟩ := h
  rw [Lexeme, hhead, List.cons_append] at hlexeme
  obtain ⟨rfl, _⟩ := List.cons.inj hlexeme
  rw [hc] at hd
  cases hd

theorem lexeme_cons_iff {c d : Char} {more text rest : List Char}
    (hblank : isBlank c = false) :
    Lexeme (d :: more) (c :: text) rest ↔ c = d ∧ text = more ++ rest := by
  simp [Lexeme, trimStart_cons, hblank]

theorem starts_cons_iff {p : Char → Bool} {c : Char} {text : List Char}
    (hblank : isBlank c = false) : Starts p (c :: text) ↔ p c = true := by
  simp [Starts, trimStart_cons, hblank]

theorem Starts.ne_cons {p : Char → Bool} {c : Char} {text : List Char}
    (h : Starts p text) (hc : p c = false) (hblank : isBlank c = false)
    (after : List Char) : text ≠ c :: after := by
  rintro rfl
  rw [starts_cons_iff hblank, hc] at h
  cases h

theorem Starts.not_starts {p q : Char → Bool} {text : List Char}
    (hpq : ∀ c, p c = true → q c = false) (h : Starts p text) :
    ¬ Starts q text := by
  rintro ⟨d, tail, hhead, hd⟩
  obtain ⟨c, tail', hhead', hc⟩ := h
  rw [hhead] at hhead'
  obtain ⟨rfl, _⟩ := List.cons.inj hhead'
  rw [hpq d hc] at hd
  cases hd

namespace Grammar

-- Every part of the grammar starts with a token that blanks may precede.

section Blanks

variable {mode : StringMode} {lists : ListRule} {n : Nat}
  {text other rest : List Char}

theorem ValueText.congr (h : trimStart text = trimStart other) {v : Value}
    (hv : ValueText mode n text v rest) : ValueText mode n other v rest := by
  cases hv with
  | literal hliteral =>
      obtain ⟨delimiter, body, pieces, hdelimiter, hbody, rfl⟩ := hliteral
      exact .literal ⟨delimiter, body, pieces,
        ⟨hdelimiter.ahead.congr h, hdelimiter.longest⟩, hbody, rfl⟩
  | array harray =>
      cases harray with
      | empty hopen hclose => exact .array (.empty (hopen.congr h) hclose)
      | items hopen hfirst hmore hclose =>
          exact .array (.items (hopen.congr h) hfirst hmore hclose)
  | object hobject =>
      cases hobject with
      | empty hopen hclose => exact .object (.empty (hopen.congr h) hclose)
      | members hopen hfirst hmore hclose =>
          exact .object (.members (hopen.congr h) hfirst hmore hclose)

theorem PairText.congr (h : trimStart text = trimStart other)
    {pair : String × Value} (hpair : PairText mode n text pair rest) :
    PairText mode n other pair rest := by
  cases hpair with
  | pair hname hcolon hvalue => exact .pair (Word.congr h hname) hcolon hvalue

theorem PrimaryText.congr (h : trimStart text = trimStart other) {e : Expr}
    (he : PrimaryText lists mode n text e rest) :
    PrimaryText lists mode n other e rest := by
  cases he with
  | paren hopen hexpr hclose => exact .paren (hopen.congr h) hexpr hclose
  | number hnumber =>
      obtain ⟨word, hword, hdigits, rfl⟩ := hnumber
      exact .number ⟨word, hword.congr h, hdigits, rfl⟩
  | value hvalue => exact .value (hvalue.congr h)
  | name hname => exact .name (Word.congr h hname)

theorem MemberText.congr (h : trimStart text = trimStart other) {e : Expr}
    (he : MemberText lists mode n text e rest) :
    MemberText lists mode n other e rest := by
  cases he with
  | chain hbase hsuffixes => exact .chain (hbase.congr h) hsuffixes

theorem UnaryText.congr (h : trimStart text = trimStart other) {e : Expr}
    (he : UnaryText lists mode n text e rest) :
    UnaryText lists mode n other e rest := by
  cases he with
  | operand hmember => exact .operand (hmember.congr h)
  | operator op hop hmember => exact .operator op (hop.congr h) hmember

theorem BinaryText.congr (h : trimStart text = trimStart other) {e : Expr}
    (he : BinaryText lists mode n text e rest) :
    BinaryText lists mode n other e rest := by
  cases he with
  | operand hunary => exact .operand (hunary.congr h)
  | operator op hleft hop hright => exact .operator op (hleft.congr h) hop hright

theorem LogicalText.congr (h : trimStart text = trimStart other) {e : Expr}
    (he : LogicalText lists mode n text e rest) :
    LogicalText lists mode n other e rest := by
  cases he with
  | operand hbinary => exact .operand (hbinary.congr h)
  | operator op hleft hop hright => exact .operator op (hleft.congr h) hop hright

theorem ConditionalText.congr (h : trimStart text = trimStart other) {e : Expr}
    (he : ConditionalText lists mode n text e rest) :
    ConditionalText lists mode n other e rest := by
  cases he with
  | test hlogical => exact .test (hlogical.congr h)
  | branches htest hquestion hyes hcolon hno =>
      exact .branches (htest.congr h) hquestion hyes hcolon hno

theorem valueText_trimStart {v : Value} :
    ValueText mode n (trimStart text) v rest ↔ ValueText mode n text v rest :=
  ⟨.congr (trimStart_trimStart text), .congr (trimStart_trimStart text).symm⟩

theorem pairText_trimStart {pair : String × Value} :
    PairText mode n (trimStart text) pair rest ↔ PairText mode n text pair rest :=
  ⟨.congr (trimStart_trimStart text), .congr (trimStart_trimStart text).symm⟩

theorem conditionalText_trimStart {e : Expr} :
    ConditionalText lists mode n (trimStart text) e rest ↔
      ConditionalText lists mode n text e rest :=
  ⟨.congr (trimStart_trimStart text), .congr (trimStart_trimStart text).symm⟩

end Blanks

section Lists

variable {mode : StringMode} {lists : ListRule} {n : Nat} {text rest : List Char}

theorem moreValues_iff {vs : List Value} :
    MoreValues mode n text vs rest ↔
      Iterates (fun text v rest => ∃ start, Lexeme [','] text start ∧
        ValueText mode n start v rest) vs text rest := by
  apply iterates_iff
  · exact ⟨fun h => by cases h; rfl, fun h => h ▸ .nil⟩
  · intro text v vs rest
    constructor
    · rintro (_ | ⟨hcomma, hvalue, hmore⟩)
      exact ⟨_, ⟨_, hcomma, hvalue⟩, hmore⟩
    · rintro ⟨_, ⟨_, hcomma, hvalue⟩, hmore⟩
      exact .cons hcomma hvalue hmore

theorem morePairs_iff {pairs : List (String × Value)} :
    MorePairs mode n text pairs rest ↔
      Iterates (fun text pair rest => ∃ start, Lexeme [','] text start ∧
        PairText mode n start pair rest) pairs text rest := by
  apply iterates_iff
  · exact ⟨fun h => by cases h; rfl, fun h => h ▸ .nil⟩
  · intro text pair pairs rest
    constructor
    · rintro (_ | ⟨hcomma, hpair, hmore⟩)
      exact ⟨_, ⟨_, hcomma, hpair⟩, hmore⟩
    · rintro ⟨_, ⟨_, hcomma, hpair⟩, hmore⟩
      exact .cons hcomma hpair hmore

theorem moreExpressions_iff {es : List Expr} :
    MoreExpressions lists mode n text es rest ↔
      Iterates (fun text e rest => ∃ start, Lexeme [','] text start ∧
        ConditionalText lists mode n start e rest) es text rest := by
  apply iterates_iff
  · exact ⟨fun h => by cases h; rfl, fun h => h ▸ .nil⟩
  · intro text e es rest
    constructor
    · rintro (_ | ⟨hcomma, hexpr, hmore⟩)
      exact ⟨_, ⟨_, hcomma, hexpr⟩, hmore⟩
    · rintro ⟨_, ⟨_, hcomma, hexpr⟩, hmore⟩
      exact .cons hcomma hexpr hmore

theorem suffixesText_iff {suffixes : List Suffix} :
    SuffixesText lists mode n text suffixes rest ↔
      Iterates (SuffixText lists mode n) suffixes text rest := by
  apply iterates_iff
  · exact ⟨fun h => by cases h; rfl, fun h => h ▸ .nil⟩
  · intro text suffix suffixes rest
    constructor
    · rintro (_ | ⟨hsuffix, hmore⟩)
      exact ⟨_, hsuffix, hmore⟩
    · rintro ⟨_, hsuffix, hmore⟩
      exact .cons hsuffix hmore

theorem attributesText_iff {pairs : List (String × Value)} :
    AttributesText mode n text pairs rest ↔
      Iterates (PairText mode n) pairs text rest := by
  apply iterates_iff
  · exact ⟨fun h => by cases h; rfl, fun h => h ▸ .nil⟩
  · intro text pair pairs rest
    constructor
    · rintro (_ | ⟨hpair, hmore⟩)
      exact ⟨_, hpair, hmore⟩
    · rintro ⟨_, hpair, hmore⟩
      exact .cons hpair hmore

end Lists

section Starts

variable {mode : StringMode} {lists : ListRule} {n : Nat} {text rest : List Char}

/-- The characters that a value starts with. -/
def isValueOpen (c : Char) : Bool :=
  c == '\x27' || c == '"' || c == '[' || c == '\x7b'

def isPrimaryStart (c : Char) : Bool :=
  c == '(' || c.isDigit || isValueOpen c || c.isAlpha

def isExpressionStart (c : Char) : Bool :=
  c == '+' || c == '-' || c == '!' || isPrimaryStart c

theorem isValueOpen_eq_true_iff {c : Char} :
    isValueOpen c = true ↔ c = '\x27' ∨ c = '"' ∨ c = '[' ∨ c = '\x7b' := by
  simp [isValueOpen, or_assoc]

theorem isValueOpen_eq_false_of_isAlphanum {c : Char} (h : c.isAlphanum = true) :
    isValueOpen c = false := by
  rw [← Bool.not_eq_true, isValueOpen_eq_true_iff]
  rintro (rfl | rfl | rfl | rfl) <;> revert h <;> decide

theorem isDigit_eq_false_of_isAlpha {c : Char} (h : c.isAlpha = true) :
    c.isDigit = false := by
  have hletter := toNat_of_isAlpha h
  rw [← Bool.not_eq_true, Char.isDigit_iff_toNat]
  intro hdigit
  have hhigh : c.toNat ≤ 57 := hdigit.2
  omega

theorem starts_of_literalText {v : Value} (h : LiteralText mode text v rest) :
    Starts (fun c => c == '\x27' || c == '"') text := by
  obtain ⟨delimiter, body, pieces, hdelimiter, -, -⟩ := h
  have hahead := hdelimiter.ahead
  obtain ⟨quote, hquote, rfl | ⟨rfl, -⟩⟩ := hdelimiter.longest
  · exact hahead.starts (by rcases hquote with rfl | rfl <;> decide)
  · exact hahead.starts (by rcases hquote with rfl | rfl <;> decide)

theorem ArrayText.lexeme {v : Value} (h : ArrayText mode n text v rest) :
    ∃ after, Lexeme ['['] text after := by
  cases h with
  | empty hopen _ => exact ⟨_, hopen⟩
  | items hopen _ _ _ => exact ⟨_, hopen⟩

theorem ObjectText.lexeme {v : Value} (h : ObjectText mode n text v rest) :
    ∃ after, Lexeme ['\x7b'] text after := by
  cases h with
  | empty hopen _ => exact ⟨_, hopen⟩
  | members hopen _ _ _ => exact ⟨_, hopen⟩

theorem ValueText.starts {v : Value} (h : ValueText mode n text v rest) :
    Starts isValueOpen text := by
  cases h with
  | literal hliteral =>
      refine (starts_of_literalText hliteral).mono fun c hc => ?_
      rw [Bool.or_eq_true, beq_iff_eq, beq_iff_eq] at hc
      rcases hc with rfl | rfl <;> decide
  | array harray =>
      obtain ⟨after, hopen⟩ := harray.lexeme
      exact hopen.starts (by decide)
  | object hobject =>
      obtain ⟨after, hopen⟩ := hobject.lexeme
      exact hopen.starts (by decide)

theorem PairText.starts {pair : String × Value}
    (h : PairText mode n text pair rest) : Starts Char.isAlpha text := by
  cases h with
  | pair hname _ _ => exact Word.starts_first hname

theorem PrimaryText.starts {e : Expr} (h : PrimaryText lists mode n text e rest) :
    Starts isPrimaryStart text := by
  cases h with
  | paren hopen _ _ => exact hopen.starts (by decide)
  | number hnumber =>
      obtain ⟨word, hword, _⟩ := hnumber
      exact hword.starts_first.mono fun c hc => by simp [isPrimaryStart, hc]
  | value hvalue =>
      exact hvalue.starts.mono fun c hc => by simp [isPrimaryStart, hc]
  | name hname =>
      exact (Word.starts_first hname).mono fun c hc => by simp [isPrimaryStart, hc]

theorem MemberText.starts {e : Expr} (h : MemberText lists mode n text e rest) :
    Starts isPrimaryStart text := by
  cases h with
  | chain hbase _ => exact hbase.starts

theorem UnaryText.starts {e : Expr} (h : UnaryText lists mode n text e rest) :
    Starts isExpressionStart text := by
  cases h with
  | operand hmember =>
      exact hmember.starts.mono fun c hc => by simp [isExpressionStart, hc]
  | operator op hop _ => cases op <;> exact hop.starts (by decide)

theorem BinaryText.starts {e : Expr} (h : BinaryText lists mode n text e rest) :
    Starts isExpressionStart text := by
  cases h with
  | operand hunary => exact hunary.starts
  | operator op hleft _ _ => exact hleft.starts

theorem LogicalText.starts {e : Expr} (h : LogicalText lists mode n text e rest) :
    Starts isExpressionStart text := by
  cases h with
  | operand hbinary => exact hbinary.starts
  | operator op hleft _ _ => exact hleft.starts

theorem ConditionalText.starts {e : Expr}
    (h : ConditionalText lists mode n text e rest) :
    Starts isExpressionStart text := by
  cases h with
  | test hlogical => exact hlogical.starts
  | branches htest _ _ _ _ => exact htest.starts

end Starts

/-- No suffix of a member chain follows. -/
def EndsMember (rest : List Char) : Prop :=
  ∀ c ∈ rest.head?, c ≠ '.' ∧ c ≠ '[' ∧ c ≠ '('

/-- Nothing follows that a chain of comparison and arithmetic goes on with. -/
def EndsBinary (rest : List Char) : Prop :=
  EndsMember rest ∧ ∀ (op : BinaryOp) (after : List Char),
    ¬ Lexeme op.symbol rest after

def EndsLogical (rest : List Char) : Prop :=
  EndsBinary rest ∧ ∀ (op : LogicalOp) (after : List Char),
    ¬ Lexeme op.symbol rest after

def EndsConditional (rest : List Char) : Prop :=
  EndsLogical rest ∧ ∀ after, ¬ Lexeme ['?'] rest after

theorem forall_ne_cons_iff {c : Char} {text : List Char} :
    (∀ after, text ≠ c :: after) ↔ ∀ d ∈ text.head?, d ≠ c := by
  cases text with
  | nil => simp
  | cons d text => simp

theorem endsMember_iff {rest : List Char} :
    EndsMember rest ↔ (∀ after, rest ≠ '.' :: after) ∧
      (∀ after, rest ≠ '[' :: after) ∧ ∀ after, rest ≠ '(' :: after := by
  simp only [EndsMember, forall_ne_cons_iff, forall_and]

theorem endsMember_of_lexeme {c : Char} {more rest after : List Char}
    (h : Lexeme (c :: more) rest after)
    (hc : c ≠ '.' ∧ c ≠ '[' ∧ c ≠ '(') : EndsMember rest := by
  intro d hd
  obtain ⟨tail, rfl⟩ : ∃ tail, rest = d :: tail := by
    cases rest with
    | nil => simp at hd
    | cons e tail =>
        simp only [List.head?_cons, Option.mem_some_iff] at hd
        exact ⟨tail, by rw [hd]⟩
  by_cases hblank : isBlank d = true
  · refine ⟨?_, ?_, ?_⟩ <;> rintro rfl <;> revert hblank <;> decide
  · rw [Lexeme, trimStart_cons, if_neg hblank, List.cons_append] at h
    obtain ⟨rfl, _⟩ := List.cons.inj h
    exact hc

theorem endsMember_of_binaryOp {op : BinaryOp} {rest after : List Char}
    (h : Lexeme op.symbol rest after) : EndsMember rest := by
  cases op <;> exact endsMember_of_lexeme h (by decide)

theorem endsBinary_of_lexeme {c : Char} {more rest after : List Char}
    (h : Lexeme (c :: more) rest after)
    (hc : c ≠ '.' ∧ c ≠ '[' ∧ c ≠ '(')
    (hop : ∀ op : BinaryOp, op.symbol.head? ≠ some c) : EndsBinary rest := by
  refine ⟨endsMember_of_lexeme h hc, fun op other hother => ?_⟩
  have hne := hop op
  cases op <;> exact hne (by rw [← hother.head_eq h]; rfl)

theorem endsBinary_of_logicalOp {op : LogicalOp} {rest after : List Char}
    (h : Lexeme op.symbol rest after) : EndsBinary rest := by
  cases op <;>
    exact endsBinary_of_lexeme h (by decide) (fun op => by cases op <;> decide)

theorem endsLogical_of_lexeme {c : Char} {more rest after : List Char}
    (h : Lexeme (c :: more) rest after)
    (hc : c ∈ ['?', ')', ']', '\x7d', ',', ':']) : EndsLogical rest := by
  simp only [List.mem_cons, List.not_mem_nil, or_false] at hc
  have hbinary : EndsBinary rest := by
    apply endsBinary_of_lexeme h
    · rcases hc with rfl | rfl | rfl | rfl | rfl | rfl <;> decide
    · intro op
      rcases hc with rfl | rfl | rfl | rfl | rfl | rfl <;> cases op <;> decide
  refine ⟨hbinary, fun op other hother => ?_⟩
  have hne : op.symbol.head? ≠ some c := by
    rcases hc with rfl | rfl | rfl | rfl | rfl | rfl <;> cases op <;> decide
  cases op <;> exact hne (by rw [← hother.head_eq h]; rfl)

/-- The tokens that follow an expression in the grammar end it. -/
theorem endsConditional_of_lexeme {c : Char} {more rest after : List Char}
    (h : Lexeme (c :: more) rest after)
    (hc : c ∈ [')', ']', '\x7d', ',', ':']) : EndsConditional rest := by
  refine ⟨endsLogical_of_lexeme h (List.mem_cons_of_mem '?' hc), ?_⟩
  intro other hother
  obtain rfl := hother.head_eq h
  revert hc
  decide

section Lists

variable {lists : ListRule} {mode : StringMode} {n : Nat} {text rest : List Char}
  {es : List Expr}

theorem ExpressionsText.starts (h : ExpressionsText lists mode n text es rest) :
    Starts isExpressionStart text := by
  cases h with
  | list hexpr _ => exact hexpr.starts

/-- A comma ends an expression, as does what follows the last one. -/
theorem MoreExpressions.ends (h : MoreExpressions lists mode n text es rest)
    (hrest : EndsConditional rest) : EndsConditional text := by
  cases h with
  | nil => exact hrest
  | cons hcomma _ _ => exact endsConditional_of_lexeme hcomma (by decide)

theorem MoreExpressions.iterates (h : MoreExpressions lists mode n text es rest)
    (hrest : EndsConditional rest) :
    Iterates (fun text e rest => ∃ start, Lexeme [','] text start ∧
      ConditionalText lists mode n start e rest ∧ EndsConditional rest)
      es text rest := by
  induction es generalizing text with
  | nil =>
      cases h
      rfl
  | cons e es ih =>
      cases h with
      | cons hcomma hexpr hmore =>
          exact ⟨_, ⟨_, hcomma, hexpr, hmore.ends hrest⟩, ih hmore⟩

end Lists

end Grammar

end L20n
