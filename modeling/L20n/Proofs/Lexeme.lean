import L20n.Proofs.Takes

/-!
Lexemes: what it means that a token stands at the front of a text, said without
the matcher.  Blanks may stand before most tokens, a word takes as many word
characters as there are, and the member openers follow directly.  The matcher
finds exactly these.
-/

namespace L20n

open Text

/-- After its blanks the text goes on with the lexeme, and the rest follows. -/
def Lexeme (lexeme text rest : List Char) : Prop :=
  trimStart text = lexeme ++ rest

/-- After its blanks the text goes on with a word: a first character of some
kind and all the word characters after it. -/
structure Word (first : Char → Bool) (text word rest : List Char) : Prop where
  ahead : Lexeme word text rest
  starts : ∃ c tail, word = c :: tail ∧ first c = true ∧
    ∀ d ∈ tail, isWordChar d = true
  longest : ∀ c ∈ rest.head?, isWordChar c = false

/-- After its blanks the text goes on with a delimiter of string literals.  A
single quote character is one only where it does not stand three times. -/
structure Delimiter (text delimiter rest : List Char) : Prop where
  ahead : Lexeme delimiter text rest
  longest : ∃ quote, (quote = '\x27' ∨ quote = '"') ∧
    (delimiter = [quote, quote, quote] ∨
      delimiter = [quote] ∧ ∀ more, rest ≠ quote :: quote :: more)

theorem Lexeme.suffix {lexeme text rest : List Char}
    (h : Lexeme lexeme text rest) : rest <:+ text :=
  List.IsSuffix.trans ⟨lexeme, h.symm⟩ (suffix_trimStart text)

theorem Lexeme.length_lt {lexeme text rest : List Char}
    (h : Lexeme lexeme text rest) (hne : lexeme ≠ []) :
    rest.length < text.length := by
  have hle := length_trimStart_le text
  have hpos := List.length_pos_iff.2 hne
  rw [h, List.length_append] at hle
  omega

namespace Token

theorem after?_eq_none_iff {mark text : List Char} :
    after? mark text = none ↔ ∀ rest, mark ++ rest ≠ text := by
  rw [Option.eq_none_iff_forall_not_mem]
  simp only [Option.mem_def, after?_eq_some_iff, ne_eq]

theorem firstOf?_eq_none_iff {choices : List (List Char)} {text : List Char} :
    firstOf? choices text = none ↔
      ∀ choice ∈ choices, ∀ rest, choice ++ rest ≠ text := by
  induction choices with
  | nil => simp [firstOf?]
  | cons choice choices ih =>
      cases hat : after? choice text with
      | some rest =>
          have happend := after?_eq_some_iff.1 hat
          simp only [firstOf?, hat, reduceCtorEq, List.mem_cons, false_iff]
          intro h
          exact h choice (Or.inl rfl) rest happend
      | none =>
          simp only [firstOf?, hat, ih, List.forall_mem_cons]
          exact ⟨fun h => ⟨after?_eq_none_iff.1 hat, h⟩, fun h => h.2⟩

/-- Where no choice starts another one, the order of the choices does not
matter. -/
theorem firstOf?_eq_some_iff {choices : List (List Char)}
    (hfree : ∀ a ∈ choices, ∀ b ∈ choices, a <+: b → a = b)
    {text lexeme rest : List Char} :
    firstOf? choices text = some (lexeme, rest) ↔
      lexeme ∈ choices ∧ lexeme ++ rest = text := by
  constructor
  · exact append_of_firstOf?
  · rintro ⟨hmem, happend⟩
    cases hat : firstOf? choices text with
    | none => exact absurd happend (firstOf?_eq_none_iff.1 hat lexeme hmem rest)
    | some found =>
        obtain ⟨other, tail⟩ := found
        obtain ⟨hother, htail⟩ := append_of_firstOf? hat
        have hprefix := List.prefix_or_prefix_of_prefix
          ⟨rest, happend⟩ ⟨tail, htail⟩
        have heq : lexeme = other := by
          rcases hprefix with hle | hle
          · exact hfree lexeme hmem other hother hle
          · exact (hfree other hother lexeme hmem hle).symm
        subst heq
        rw [List.append_cancel_left (happend.trans htail.symm)]

variable {token : Token} {text lexeme rest : List Char}

theorem found_iff_split? (hbefore : token.blankBefore = true)
    (hafter : token.blankAfter = false) :
    token.Found text lexeme rest ↔
      token.shape.split? (trimStart text) = some (lexeme, rest) := by
  cases hsplit : token.shape.split? (trimStart text) with
  | none => simp [Found, match?, hbefore, hsplit]
  | some found => simp [Found, match?, hbefore, hafter, hsplit, Prod.ext_iff]

theorem found_iff_split?_direct (hbefore : token.blankBefore = false)
    (hafter : token.blankAfter = false) :
    token.Found text lexeme rest ↔
      token.shape.split? text = some (lexeme, rest) := by
  cases hsplit : token.shape.split? text with
  | none => simp [Found, match?, hbefore, hsplit]
  | some found => simp [Found, match?, hbefore, hafter, hsplit, Prod.ext_iff]

theorem firstOf?_singleton {choice : List Char} :
    firstOf? [choice] text = some (lexeme, rest) ↔
      lexeme = choice ∧ choice ++ rest = text := by
  rw [firstOf?_eq_some_iff (by simp), List.mem_singleton]
  constructor
  · rintro ⟨rfl, happend⟩
    exact ⟨rfl, happend⟩
  · rintro ⟨rfl, happend⟩
    exact ⟨rfl, happend⟩

theorem found_fixed {choice : List Char} (hshape : token.shape = .oneOf [choice])
    (hbefore : token.blankBefore = true) (hafter : token.blankAfter = false) :
    token.Found text lexeme rest ↔ lexeme = choice ∧ Lexeme choice text rest := by
  rw [found_iff_split? hbefore hafter, hshape, Shape.split?, firstOf?_singleton,
    Lexeme, eq_comm (a := trimStart text)]

theorem found_direct {choice : List Char} (hshape : token.shape = .oneOf [choice])
    (hbefore : token.blankBefore = false) (hafter : token.blankAfter = false) :
    token.Found text lexeme rest ↔ lexeme = choice ∧ text = choice ++ rest := by
  rw [found_iff_split?_direct hbefore hafter, hshape, Shape.split?,
    firstOf?_singleton, eq_comm (a := text)]

/-- A separator takes the blanks after it along. -/
theorem found_separator {choice : List Char}
    (hshape : token.shape = .oneOf [choice])
    (hbefore : token.blankBefore = true) (hafter : token.blankAfter = true) :
    (∃ lexeme, token.Found text lexeme rest) ↔
      ∃ middle, Lexeme choice text middle ∧ rest = trimStart middle := by
  cases hat : after? choice (trimStart text) with
  | none =>
      have hnone := after?_eq_none_iff.1 hat
      simp only [Found, match?, hbefore, if_true, hshape, Shape.split?, firstOf?,
        hat, reduceCtorEq, false_and, exists_false, false_iff, not_exists,
        not_and]
      intro middle hmiddle
      exact absurd hmiddle.symm (hnone middle)
  | some middle =>
      have happend := after?_eq_some_iff.1 hat
      simp only [Found, match?, hbefore, hafter, if_true, hshape, Shape.split?,
        firstOf?, hat, Option.some.injEq, exists_eq_left']
      constructor
      · intro hrest
        exact ⟨middle, happend.symm, hrest.symm⟩
      · rintro ⟨other, hother, hrest⟩
        have heq : middle = other :=
          List.append_cancel_left (happend.trans hother)
        rw [heq, hrest]

theorem takeWhile_append_of_boundary {p : Char → Bool} {row rest : List Char}
    (hrow : ∀ c ∈ row, p c = true) (hrest : ∀ c ∈ rest.head?, p c = false) :
    (row ++ rest).takeWhile p = row := by
  rw [List.takeWhile_append_of_pos hrow]
  cases rest with
  | nil => simp
  | cons c rest => simp [hrest c rfl]

theorem dropWhile_append_of_boundary {p : Char → Bool} {row rest : List Char}
    (hrow : ∀ c ∈ row, p c = true) (hrest : ∀ c ∈ rest.head?, p c = false) :
    (row ++ rest).dropWhile p = rest := by
  rw [List.dropWhile_append_of_pos hrow]
  cases rest with
  | nil => simp
  | cons c rest => simp [hrest c rfl]

theorem found_word {first : Char → Bool} (hshape : token.shape = .word first)
    (hbefore : token.blankBefore = true) (hafter : token.blankAfter = false) :
    token.Found text lexeme rest ↔ Word first text lexeme rest := by
  rw [found_iff_split? hbefore hafter, hshape]
  constructor
  · intro h
    have happend := append_of_split? h
    cases hbody : trimStart text with
    | nil => simp [hbody, Shape.split?] at h
    | cons c tail =>
        by_cases hc : first c = true
        · simp only [hbody, Shape.split?, hc, if_true, Option.some.injEq,
            Prod.mk.injEq] at h
          obtain ⟨rfl, rfl⟩ := h
          refine ⟨happend.symm, ⟨c, _, rfl, hc, ?_⟩, ?_⟩
          · exact List.all_eq_true.1 List.all_takeWhile
          · intro d hd
            have hhead := List.head?_dropWhile_not isWordChar tail
            rw [Option.mem_def] at hd
            simpa [hd] using hhead
        · simp [hbody, Shape.split?, hc] at h
  · rintro ⟨hahead, ⟨c, tail, rfl, hc, htail⟩, hlongest⟩
    rw [hahead, List.cons_append, Shape.split?, if_pos hc,
      takeWhile_append_of_boundary htail hlongest,
      dropWhile_append_of_boundary htail hlongest]

@[simp]
theorem found_arrayOpen : Found .arrayOpen text lexeme rest ↔
    lexeme = ['['] ∧ Lexeme ['['] text rest :=
  found_fixed rfl rfl rfl

@[simp]
theorem found_arrayClose : Found .arrayClose text lexeme rest ↔
    lexeme = [']'] ∧ Lexeme [']'] text rest :=
  found_fixed rfl rfl rfl

@[simp]
theorem found_objectOpen : Found .objectOpen text lexeme rest ↔
    lexeme = ['\x7b'] ∧ Lexeme ['\x7b'] text rest :=
  found_fixed rfl rfl rfl

@[simp]
theorem found_objectClose : Found .objectClose text lexeme rest ↔
    lexeme = ['\x7d'] ∧ Lexeme ['\x7d'] text rest :=
  found_fixed rfl rfl rfl

@[simp]
theorem found_parenOpen : Found .parenOpen text lexeme rest ↔
    lexeme = ['('] ∧ Lexeme ['('] text rest :=
  found_fixed rfl rfl rfl

@[simp]
theorem found_parenClose : Found .parenClose text lexeme rest ↔
    lexeme = [')'] ∧ Lexeme [')'] text rest :=
  found_fixed rfl rfl rfl

@[simp]
theorem found_commentOpen : Found .commentOpen text lexeme rest ↔
    lexeme = ['/', '*'] ∧ Lexeme ['/', '*'] text rest :=
  found_fixed rfl rfl rfl

@[simp]
theorem found_entryOpen : Found .entryOpen text lexeme rest ↔
    lexeme = ['<'] ∧ Lexeme ['<'] text rest :=
  found_fixed rfl rfl rfl

@[simp]
theorem found_entryClose : Found .entryClose text lexeme rest ↔
    lexeme = ['>'] ∧ Lexeme ['>'] text rest :=
  found_fixed rfl rfl rfl

@[simp]
theorem found_attributeDot : Found .attributeDot text lexeme rest ↔
    lexeme = ['.', '.'] ∧ text = ['.', '.'] ++ rest :=
  found_direct rfl rfl rfl

@[simp]
theorem found_attributeIndexOpen : Found .attributeIndexOpen text lexeme rest ↔
    lexeme = ['[', '.'] ∧ text = ['[', '.'] ++ rest :=
  found_direct rfl rfl rfl

@[simp]
theorem found_propertyDot : Found .propertyDot text lexeme rest ↔
    lexeme = ['.'] ∧ text = ['.'] ++ rest :=
  found_direct rfl rfl rfl

@[simp]
theorem found_propertyIndexOpen : Found .propertyIndexOpen text lexeme rest ↔
    lexeme = ['['] ∧ text = ['['] ++ rest :=
  found_direct rfl rfl rfl

@[simp]
theorem found_callOpen : Found .callOpen text lexeme rest ↔
    lexeme = ['('] ∧ text = ['('] ++ rest :=
  found_direct rfl rfl rfl

@[simp]
theorem found_commentClose : Found .commentClose text lexeme rest ↔
    lexeme = ['*', '/'] ∧ text = ['*', '/'] ++ rest :=
  found_direct rfl rfl rfl

@[simp]
theorem found_name :
    Found .name text lexeme rest ↔ Word Char.isAlpha text lexeme rest :=
  found_word rfl rfl rfl

@[simp]
theorem found_number :
    Found .number text lexeme rest ↔ Word Char.isDigit text lexeme rest :=
  found_word rfl rfl rfl

theorem found_comma : (∃ lexeme, Found .comma text lexeme rest) ↔
    ∃ middle, Lexeme [','] text middle ∧ rest = trimStart middle :=
  found_separator rfl rfl rfl

theorem found_colon : (∃ lexeme, Found .colon text lexeme rest) ↔
    ∃ middle, Lexeme [':'] text middle ∧ rest = trimStart middle :=
  found_separator rfl rfl rfl

theorem found_question : (∃ lexeme, Found .question text lexeme rest) ↔
    ∃ middle, Lexeme ['?'] text middle ∧ rest = trimStart middle :=
  found_separator rfl rfl rfl

/-- One of several symbols, none of which starts another. -/
theorem found_symbol {ι : Type} {all : List ι} {symbol : ι → List Char}
    (hshape : token.shape = .oneOf (all.map symbol))
    (hbefore : token.blankBefore = true) (hafter : token.blankAfter = false)
    (hall : ∀ i, i ∈ all)
    (hfree : ∀ i ∈ all, ∀ j ∈ all, symbol i <+: symbol j → symbol i = symbol j) :
    token.Found text lexeme rest ↔
      ∃ i, lexeme = symbol i ∧ Lexeme (symbol i) text rest := by
  have hfree' : ∀ a ∈ all.map symbol, ∀ b ∈ all.map symbol,
      a <+: b → a = b := by
    simpa only [List.forall_mem_map] using hfree
  rw [found_iff_split? hbefore hafter, hshape, Shape.split?,
    firstOf?_eq_some_iff hfree', List.mem_map]
  constructor
  · rintro ⟨⟨i, _, rfl⟩, happend⟩
    exact ⟨i, rfl, happend.symm⟩
  · rintro ⟨i, rfl, happend⟩
    exact ⟨⟨i, hall i, rfl⟩, happend.symm⟩

@[simp]
theorem found_unaryOp : Found .unaryOp text lexeme rest ↔
    ∃ op : UnaryOp, lexeme = op.symbol ∧ Lexeme op.symbol text rest :=
  found_symbol rfl rfl rfl (fun op => by cases op <;> decide) (by decide)

@[simp]
theorem found_binaryOp : Found .binaryOp text lexeme rest ↔
    ∃ op : BinaryOp, lexeme = op.symbol ∧ Lexeme op.symbol text rest :=
  found_symbol rfl rfl rfl (fun op => by cases op <;> decide) (by decide)

@[simp]
theorem found_logicalOp : Found .logicalOp text lexeme rest ↔
    ∃ op : LogicalOp, lexeme = op.symbol ∧ Lexeme op.symbol text rest :=
  found_symbol rfl rfl rfl (fun op => by cases op <;> decide) (by decide)

/-- Three quotes are tried before one, so a delimiter is as long as it can
be. -/
@[simp]
theorem found_delimiter :
    Found .delimiter text lexeme rest ↔ Delimiter text lexeme rest := by
  rw [found_iff_split? rfl rfl, shape, Shape.split?]
  constructor
  · intro h
    obtain ⟨hmem, happend⟩ := append_of_firstOf? h
    refine ⟨happend.symm, ?_⟩
    simp only [List.mem_cons, List.not_mem_nil, or_false] at hmem
    rcases hmem with rfl | rfl | rfl | rfl
    · exact ⟨'\x27', Or.inl rfl, Or.inl rfl⟩
    · exact ⟨'"', Or.inr rfl, Or.inl rfl⟩
    · refine ⟨'\x27', Or.inl rfl, Or.inr ⟨rfl, ?_⟩⟩
      rintro more rfl
      simp [← happend, firstOf?, after?] at h
    · refine ⟨'"', Or.inr rfl, Or.inr ⟨rfl, ?_⟩⟩
      rintro more rfl
      simp [← happend, firstOf?, after?] at h
  · rintro ⟨hahead, quote, hquote, hlongest⟩
    rw [Lexeme] at hahead
    rw [hahead]
    rcases hlongest with rfl | ⟨rfl, hrest⟩
    · rcases hquote with rfl | rfl <;> simp [firstOf?, after?]
    · have hnone : after? [quote, quote] rest = none :=
        after?_eq_none_iff.2 fun more heq => hrest more heq.symm
      rcases hquote with rfl | rfl <;>
        simp [firstOf?, after?, hnone]

end Token

def NameText (text : List Char) (key : String) (rest : List Char) : Prop :=
  Word Char.isAlpha text key.toList rest

/-- After its blanks the text goes on with a number.  Only its leading digits
count, and there may not be too many of them. -/
def NumberText (text : List Char) (n : Nat) (rest : List Char) : Prop :=
  ∃ word, Word Char.isDigit text word rest ∧
    (word.takeWhile Char.isDigit).length ≤ maxDigits ∧
    n = Nat.ofDigitChars 10 (word.takeWhile Char.isDigit) 0

theorem Word.length_lt {first : Char → Bool} {text word rest : List Char}
    (h : Word first text word rest) : rest.length < text.length := by
  obtain ⟨c, tail, rfl, _⟩ := h.starts
  exact h.ahead.length_lt (List.cons_ne_nil c tail)

theorem toNat_of_isAlpha {c : Char} (h : c.isAlpha = true) :
    65 ≤ c.toNat ∧ c.toNat ≤ 122 := by
  rcases Bool.or_eq_true_iff.1 h with hupper | hlower
  · have hbounds : 'A'.val ≤ c.val ∧ c.val ≤ 'Z'.val := of_decide_eq_true hupper
    exact ⟨hbounds.1, Nat.le_trans hbounds.2 (by decide)⟩
  · obtain ⟨hlow, hhigh⟩ := Bool.and_eq_true_iff.1 hlower
    exact ⟨Nat.le_trans (by decide) (of_decide_eq_true hlow), of_decide_eq_true hhigh⟩

theorem not_isBlank_of_isAlphanum {c : Char} (h : c.isAlphanum = true) :
    isBlank c = false := by
  have hrange : 48 ≤ c.toNat ∧ c.toNat ≤ 122 := by
    rcases Bool.or_eq_true_iff.1 h with halpha | hdigit
    · have hletter := toNat_of_isAlpha halpha
      omega
    · have hbounds := Char.isDigit_iff_toNat.1 hdigit
      exact ⟨hbounds.1, Nat.le_trans hbounds.2 (by decide)⟩
  simp [isBlank]
  omega

namespace Reader

variable {α β : Type} {limit depth : Int} {text rest : List Char}

/-- A token with one lexeme, if it is there, decides between two ways to go
on. -/
theorem takes_choice_bind {token : Token} {choice : List Char}
    {follows : List Char → List Char → Prop}
    (hfound : ∀ {text lexeme rest}, token.Found text lexeme rest ↔
      lexeme = choice ∧ follows text rest)
    {f : Option (List Char) → Reader α} {a : α} :
    Takes limit depth (token? token >>= f) text a rest ↔
      (∀ after, ¬ follows text after) ∧ Takes limit depth (f none) text a rest ∨
        ∃ middle, follows text middle ∧
          Takes limit depth (f (some choice)) middle a rest := by
  rw [takes_token?_bind]
  simp only [hfound]
  constructor
  · rintro (⟨hnone, hx⟩ | ⟨_, middle, ⟨rfl, hchoice⟩, hx⟩)
    · exact Or.inl ⟨fun after hchoice => hnone choice after ⟨rfl, hchoice⟩, hx⟩
    · exact Or.inr ⟨middle, hchoice, hx⟩
  · rintro (⟨hnone, hx⟩ | ⟨middle, hchoice, hx⟩)
    · exact Or.inl ⟨fun _ after hfound => hnone after hfound.2, hx⟩
    · exact Or.inr ⟨choice, middle, ⟨rfl, hchoice⟩, hx⟩

theorem takes_expect_bind {token : Token} {what : String} {choice : List Char}
    {follows : List Char → List Char → Prop}
    (hfound : ∀ {text lexeme rest}, token.Found text lexeme rest ↔
      lexeme = choice ∧ follows text rest)
    {x : Reader α} {a : α} :
    Takes limit depth (do let _ ← expect token what; x) text a rest ↔
      ∃ middle, follows text middle ∧ Takes limit depth x middle a rest := by
  rw [takes_bind (steady_expect _ _)]
  simp only [takes_expect, hfound]
  constructor
  · rintro ⟨_, middle, ⟨-, hchoice⟩, hx⟩
    exact ⟨middle, hchoice, hx⟩
  · rintro ⟨middle, hchoice, hx⟩
    exact ⟨choice, middle, ⟨rfl, hchoice⟩, hx⟩

theorem takes_question_bind {f : Option (List Char) → Reader α} {x : Reader α}
    (hf : ∀ lexeme, f (some lexeme) = x) {a : α} :
    Takes limit depth (token? .question >>= f) text a rest ↔
      (∀ after, ¬ Lexeme ['?'] text after) ∧
          Takes limit depth (f none) text a rest ∨
        ∃ middle, Lexeme ['?'] text middle ∧
          Takes limit depth x (trimStart middle) a rest := by
  rw [takes_token?_bind]
  constructor
  · rintro (⟨hnone, hx⟩ | ⟨lexeme, start, hfound, hx⟩)
    · refine Or.inl ⟨fun after hquestion => ?_, hx⟩
      obtain ⟨lexeme, hlexeme⟩ := Token.found_question.2 ⟨after, hquestion, rfl⟩
      exact hnone lexeme _ hlexeme
    · obtain ⟨middle, hquestion, rfl⟩ := Token.found_question.1 ⟨lexeme, hfound⟩
      rw [hf] at hx
      exact Or.inr ⟨middle, hquestion, hx⟩
  · rintro (⟨hnone, hx⟩ | ⟨middle, hquestion, hx⟩)
    · refine Or.inl ⟨fun lexeme after hlexeme => ?_, hx⟩
      obtain ⟨middle, hquestion, _⟩ := Token.found_question.1 ⟨lexeme, hlexeme⟩
      exact hnone middle hquestion
    · obtain ⟨lexeme, hlexeme⟩ := Token.found_question.2 ⟨middle, hquestion, rfl⟩
      rw [← hf lexeme] at hx
      exact Or.inr ⟨lexeme, _, hlexeme, hx⟩

theorem takes_colon_bind {what : String} {x : Reader α} {a : α} :
    Takes limit depth (do let _ ← expect .colon what; x) text a rest ↔
      ∃ middle, Lexeme [':'] text middle ∧
        Takes limit depth x (trimStart middle) a rest := by
  rw [takes_bind (steady_expect _ _)]
  simp only [takes_expect]
  constructor
  · rintro ⟨lexeme, start, hfound, hx⟩
    obtain ⟨middle, hcolon, rfl⟩ := Token.found_colon.1 ⟨lexeme, hfound⟩
    exact ⟨middle, hcolon, hx⟩
  · rintro ⟨middle, hcolon, hx⟩
    obtain ⟨lexeme, hfound⟩ := Token.found_colon.2 ⟨middle, hcolon, rfl⟩
    exact ⟨lexeme, _, hfound, hx⟩

theorem takes_name {what key : String} :
    Takes limit depth (name what) text key rest ↔ NameText text key rest := by
  rw [name, takes_bind (steady_expect _ _)]
  simp only [takes_expect, Token.found_name, takes_pure, NameText]
  constructor
  · rintro ⟨word, middle, hword, rfl, rfl⟩
    rwa [String.toList_ofList]
  · intro h
    exact ⟨key.toList, rest, h, String.ofList_toList, rfl⟩

theorem takes_name?_some {key : String} :
    Takes limit depth name? text (some key) rest ↔ NameText text key rest := by
  rw [name?, takes_bind (steady_token? _)]
  simp only [takes_pure, NameText]
  constructor
  · rintro ⟨found, middle, hword, hkey, rfl⟩
    obtain ⟨word, rfl, rfl⟩ := Option.map_eq_some_iff.1 hkey
    rwa [String.toList_ofList, ← Token.found_name, ← @takes_token?_some limit depth]
  · intro h
    refine ⟨some key.toList, rest, ?_, by simp, rfl⟩
    rwa [takes_token?_some, Token.found_name]

theorem takes_name?_none :
    Takes limit depth name? text none rest ↔
      (∀ key after, ¬ NameText text key after) ∧ text = rest := by
  rw [name?, takes_bind (steady_token? _)]
  simp only [takes_pure, Option.map_eq_none_iff]
  constructor
  · rintro ⟨_, middle, hnone, rfl, rfl⟩
    rw [takes_token?_none] at hnone
    refine ⟨fun key after hkey => ?_, hnone.2⟩
    exact hnone.1 key.toList after (Token.found_name.2 hkey)
  · rintro ⟨hnone, rfl⟩
    refine ⟨none, text, takes_token?_none.2 ⟨?_, rfl⟩, rfl, rfl⟩
    intro word after hfound
    refine hnone (String.ofList word) after ?_
    rwa [NameText, String.toList_ofList, ← Token.found_name]

theorem numberValue_of_word {word : List Char} (h : Word Char.isDigit text word rest) :
    numberValue word = digitsValue (word.takeWhile Char.isDigit) := by
  obtain ⟨c, tail, rfl, hc, _⟩ := h.starts
  have hblank : isBlank c = false :=
    not_isBlank_of_isAlphanum (by simp [Char.isAlphanum, hc])
  rw [numberValue, trimStart_cons, hblank]
  simp

theorem takes_number?_some {n : Nat} :
    Takes limit depth number? text (some n) rest ↔ NumberText text n rest := by
  rw [number?, takes_bind (steady_token? _)]
  constructor
  · rintro ⟨found, middle, hfound, hnumber⟩
    cases found with
    | none => simp at hnumber
    | some word =>
        rw [takes_token?_some, Token.found_number] at hfound
        simp only [numberValue_of_word hfound, digitsValue] at hnumber
        by_cases hdigits : (word.takeWhile Char.isDigit).length ≤ maxDigits
        · simp only [hdigits, if_true, takes_pure, Option.some.injEq] at hnumber
          obtain ⟨rfl, rfl⟩ := hnumber
          exact ⟨word, hfound, hdigits, rfl⟩
        · simp [hdigits] at hnumber
  · rintro ⟨word, hword, hdigits, rfl⟩
    refine ⟨some word, rest, ?_, ?_⟩
    · rwa [takes_token?_some, Token.found_number]
    · simp [numberValue_of_word hword, digitsValue, hdigits]

theorem takes_number?_none :
    Takes limit depth number? text none rest ↔
      (∀ word after, ¬ Word Char.isDigit text word after) ∧ text = rest := by
  rw [number?, takes_bind (steady_token? _)]
  simp only [← Token.found_number]
  constructor
  · rintro ⟨found, middle, hfound, hnumber⟩
    cases found with
    | none =>
        obtain ⟨-, rfl⟩ := takes_pure.1 hnumber
        exact takes_token?_none.1 hfound
    | some word => cases hvalue : numberValue word <;> simp [hvalue] at hnumber
  · intro h
    exact ⟨none, text, takes_token?_none.2 ⟨h.1, rfl⟩, takes_pure.2 ⟨rfl, h.2⟩⟩

/-- An optional operator decides between two ways to go on. -/
theorem takes_operator {ι : Type} {token : Token} {symbol : ι → List Char}
    (hfound : ∀ {text lexeme rest}, token.Found text lexeme rest ↔
      ∃ op, lexeme = symbol op ∧ Lexeme (symbol op) text rest)
    {f : Option (List Char) → Reader α} {a : α} :
    Takes limit depth (token? token >>= f) text a rest ↔
      (∀ op after, ¬ Lexeme (symbol op) text after) ∧
          Takes limit depth (f none) text a rest ∨
        ∃ op middle, Lexeme (symbol op) text middle ∧
          Takes limit depth (f (some (symbol op))) middle a rest := by
  rw [takes_token?_bind]
  constructor
  · rintro (⟨hnone, htakes⟩ | ⟨lexeme, middle, hlexeme, htakes⟩)
    · refine Or.inl ⟨fun op after hop => ?_, htakes⟩
      exact hnone _ after (hfound.2 ⟨op, rfl, hop⟩)
    · obtain ⟨op, rfl, hop⟩ := hfound.1 hlexeme
      exact Or.inr ⟨op, middle, hop, htakes⟩
  · rintro (⟨hnone, htakes⟩ | ⟨op, middle, hop, htakes⟩)
    · refine Or.inl ⟨fun lexeme after hlexeme => ?_, htakes⟩
      obtain ⟨op, _, hop⟩ := hfound.1 hlexeme
      exact hnone op after hop
    · exact Or.inr ⟨symbol op, middle, hfound.2 ⟨op, rfl, hop⟩, htakes⟩

def afterComma (item : Reader α) : Reader (Option α) := do
  match ← token? .comma with
  | none => return none
  | some _ => return some (← item)

theorem takes_afterComma {item : Reader α} (hitem : Steady item)
    {found : Option α} :
    Takes limit depth (afterComma item) text found rest ↔
      (∀ after, ¬ Lexeme [','] text after) ∧ found = none ∧ text = rest ∨
        ∃ a middle, found = some a ∧ Lexeme [','] text middle ∧
          Takes limit depth item (trimStart middle) a rest := by
  rw [afterComma, takes_token?_bind]
  simp only [takes_pure, bind_pure_comp, takes_map hitem]
  constructor
  · rintro (⟨hnone, rfl, rfl⟩ | ⟨lexeme, start, hfound, a, ha, rfl⟩)
    · refine Or.inl ⟨fun after hcomma => ?_, rfl, rfl⟩
      obtain ⟨lexeme, hlexeme⟩ := Token.found_comma.2 ⟨after, hcomma, rfl⟩
      exact hnone lexeme _ hlexeme
    · obtain ⟨middle, hcomma, rfl⟩ := Token.found_comma.1 ⟨lexeme, hfound⟩
      exact Or.inr ⟨a, middle, rfl, hcomma, ha⟩
  · rintro (⟨hnone, rfl, rfl⟩ | ⟨a, middle, rfl, hcomma, ha⟩)
    · refine Or.inl ⟨fun lexeme after hlexeme => ?_, rfl, rfl⟩
      obtain ⟨middle, hcomma, _⟩ := Token.found_comma.1 ⟨lexeme, hlexeme⟩
      exact hnone middle hcomma
    · obtain ⟨lexeme, hlexeme⟩ := Token.found_comma.2 ⟨middle, hcomma, rfl⟩
      exact Or.inr ⟨lexeme, _, hlexeme, a, ha, rfl⟩

theorem takes_afterComma_some {item : Reader α} (hitem : Steady item) {a : α} :
    Takes limit depth (afterComma item) text (some a) rest ↔
      ∃ middle, Lexeme [','] text middle ∧
        Takes limit depth item (trimStart middle) a rest := by
  simp [takes_afterComma hitem]

theorem takes_afterComma_none {item : Reader α} (hitem : Steady item) :
    Takes limit depth (afterComma item) text none rest ↔
      (∀ after, ¬ Lexeme [','] text after) ∧ text = rest := by
  simp [takes_afterComma hitem]

theorem progressing_afterComma {item : Reader α} (hitem : Steady item) :
    Progressing limit depth (afterComma item) where
  steady := by
    refine (steady_token? .comma).bind fun found => ?_
    cases found with
    | none => exact steady_pure none
    | some _ => exact hitem.bind fun _ => steady_pure _
  shorter := by
    intro text a rest h
    obtain ⟨middle, hcomma, ha⟩ := (takes_afterComma_some hitem).1 h
    have hshort := hcomma.length_lt (by simp)
    have htrim := length_trimStart_le middle
    have hrest := (hitem.suffix_of_takes ha).length_le
    omega
  stays := fun h => ((takes_afterComma_none hitem).1 h).2
  ends := by
    refine (takes_afterComma_none hitem).2 ⟨fun after hcomma => ?_, rfl⟩
    simp [Lexeme] at hcomma

/-- A list read with commas: a first item, and items behind commas up to a text
where no comma follows. -/
theorem takes_commaSeparated {item : Reader α} (hitem : Steady item)
    {as : List α} :
    Takes limit depth (commaSeparated item) text as rest ↔
      ∃ a tail middle, as = a :: tail ∧ Takes limit depth item text a middle ∧
        Iterates (fun text a rest => ∃ start, Lexeme [','] text start ∧
          Takes limit depth item (trimStart start) a rest) tail middle rest ∧
        ∀ after, ¬ Lexeme [','] rest after := by
  have hmore := @progressing_afterComma α limit depth item hitem
  change Takes limit depth (item >>= fun first =>
    many (afterComma item) >>= fun more => pure (first :: more)) text as rest ↔ _
  simp only [takes_bind hitem, takes_bind hmore.steady.many, hmore.takes_many,
    takes_pure, takes_afterComma_some hitem, takes_afterComma_none hitem]
  constructor
  · rintro ⟨a, middle, ha, tail, last, ⟨htail, hnone, -⟩, rfl, rfl⟩
    exact ⟨a, tail, middle, rfl, ha, htail, hnone⟩
  · rintro ⟨a, tail, middle, rfl, ha, htail, hnone⟩
    exact ⟨a, middle, ha, tail, rest, ⟨htail, hnone, trivial⟩, rfl, rfl⟩

end Reader

section Words

variable {text rest rest' : List Char}

/-- One name is read from a text. -/
theorem NameText.unique {key key' : String} (h : NameText text key rest)
    (h' : NameText text key' rest') : key = key' ∧ rest = rest' := by
  have htakes := (@Reader.takes_name 0 0 text rest "" key).2 h
  have htakes' := (@Reader.takes_name 0 0 text rest' "" key').2 h'
  exact htakes.unique htakes'

/-- One number is read from a text. -/
theorem NumberText.unique {k l : Nat} (h : NumberText text k rest)
    (h' : NumberText text l rest') : k = l ∧ rest = rest' := by
  have htakes := (@Reader.takes_number?_some 0 0 text rest k).2 h
  have htakes' := (@Reader.takes_number?_some 0 0 text rest' l).2 h'
  obtain ⟨hsome, hrest⟩ := htakes.unique htakes'
  exact ⟨Option.some.inj hsome, hrest⟩

end Words

end L20n
