import L20n.Proofs.Alike
import L20n.Proofs.Boundary
import L20n.Proofs.Escapes
import L20n.Proofs.Grouping
import L20n.Proofs.Outcome

/-!
Written texts are derived by the grammar.  What is written for a tree, of whatever
shape, stands for the grouped tree wherever neither a word nor a quote goes on
after it, under any number of levels in which the grouped tree is nested.  Strings
stand for what they are read as, which a relation between strings says.
-/

namespace L20n

open Text Node Grammar

/-- Neither a word nor a quote goes on here. -/
def Stops (rest : List Char) : Prop :=
  ∀ c ∈ rest.head?, isWordChar c = false ∧ c ≠ '"'

/-- The text stands for `a` wherever it stops. -/
def Spells {α : Type} (relation : List Char → α → List Char → Prop)
    (text : List Char) (a : α) : Prop :=
  ∀ rest, Stops rest → relation (text ++ rest) a rest

def SpellsEach {α : Type} (relation : List Char → α → List Char → Prop)
    (as : List α) (texts : List (List Char)) : Prop :=
  List.Forall₂ (fun a text => Spells relation text a) as texts

theorem stops_cons {c : Char} {rest : List Char}
    (h : isWordChar c = false ∧ c ≠ '"') : Stops (c :: rest) := by
  intro d hd
  obtain rfl : c = d := by simpa using hd
  exact h

theorem lexeme_cons {c : Char} {more rest : List Char} (h : isBlank c = false) :
    Lexeme (c :: more) (c :: more ++ rest) rest :=
  (lexeme_cons_iff h).2 ⟨rfl, rfl⟩

theorem trimStart_space (text : List Char) :
    trimStart (' ' :: text) = trimStart text :=
  rfl

theorem lexeme_space {lexeme text rest : List Char}
    (h : Lexeme lexeme text rest) : Lexeme lexeme (' ' :: text) rest :=
  h.congr (trimStart_space text).symm

/-- A word is read where it stands, up to where it stops. -/
theorem word_cons {first : Char → Bool} {c : Char} {tail rest : List Char}
    (hc : first c = true) (halphanum : c.isAlphanum = true)
    (htail : ∀ d ∈ tail, isWordChar d = true) (hrest : Stops rest) :
    Word first (c :: tail ++ rest) (c :: tail) rest :=
  ⟨lexeme_cons (not_isBlank_of_isAlphanum halphanum), ⟨c, tail, rfl, hc, htail⟩,
    fun d hd => (hrest d hd).1⟩

theorem nameText_of_isName {key : String} {rest : List Char}
    (h : isName key.toList = true) (hrest : Stops rest) :
    NameText (key.toList ++ rest) key rest := by
  rw [NameText]
  cases hkey : key.toList with
  | nil =>
      rw [hkey] at h
      cases h
  | cons c tail =>
      rw [hkey, isName, Bool.and_eq_true, List.all_eq_true] at h
      exact word_cons h.1 (by simp [Char.isAlphanum, h.1]) h.2 hrest

theorem numberText_decimal {n : Nat} {rest : List Char}
    (h : (decimal n).length ≤ maxDigits) (hrest : Stops rest) :
    NumberText (decimal n ++ rest) n rest := by
  have hdigits : ∀ c ∈ decimal n, c.isDigit = true := fun c hc =>
    Nat.isDigit_of_mem_toDigits (by decide) (by decide) hc
  have htake : (decimal n).takeWhile Char.isDigit = decimal n := by
    rw [← List.append_nil (decimal n), List.takeWhile_append_of_pos hdigits]
    rfl
  have hword : Word Char.isDigit (decimal n ++ rest) (decimal n) rest := by
    cases hdecimal : decimal n with
    | nil => exact absurd hdecimal Nat.toDigits_ne_nil
    | cons c tail =>
        rw [hdecimal] at hdigits
        obtain ⟨hc, htail⟩ := List.forall_mem_cons.1 hdigits
        refine word_cons hc (by simp [Char.isAlphanum, hc]) (fun d hd => ?_) hrest
        simp [isWordChar, Char.isAlphanum, htail d hd]
  refine ⟨decimal n, hword, ?_, ?_⟩
  · rw [htake]
    exact h
  · rw [htake, decimal, Nat.ofDigitChars_ten_toDigits]

/-- A body between two quotes is read as a literal, unless a quote follows. -/
theorem literalText_of_bodyText (mode : StringMode) {text rest : List Char}
    {pieces : List Piece} (h : BodyText ['"'] text pieces rest) (hrest : Stops rest) :
    LiteralText mode ('"' :: text) (Value.ofPieces mode pieces) rest := by
  refine ⟨['"'], text, pieces, ⟨lexeme_cons (by decide), '"', Or.inr rfl, ?_⟩, h, rfl⟩
  refine Or.inr ⟨rfl, ?_⟩
  rintro more rfl
  -- The body would start with the delimiter, so it is empty and a quote follows.
  cases h with
  | close => exact (hrest '"' rfl).2 rfl
  | plain _ hdelimiter _ _ => exact hdelimiter _ rfl

section Lists

variable {α : Type} {relation : List Char → α → List Char → Prop}

theorem commas_cons (text : List Char) (texts : List (List Char)) :
    Writer.commas (text :: texts) =
      text ++ texts.flatMap fun other => ',' :: ' ' :: other := by
  rw [Writer.commas, List.intercalate]
  induction texts generalizing text with
  | nil => simp
  | cons other texts ih =>
      rw [List.intersperse_cons_cons, List.flatten_cons, List.flatten_cons, ih]
      rfl

theorem stops_commas {texts : List (List Char)} {rest : List Char}
    (hrest : Stops rest) :
    Stops (texts.flatMap (fun other => ',' :: ' ' :: other) ++ rest) := by
  cases texts with
  | nil => exact hrest
  | cons text texts => exact stops_cons (by decide)

theorem iterates_commas
    (hblank : ∀ {text a rest}, relation text a rest → relation (' ' :: text) a rest)
    {as : List α} {texts : List (List Char)}
    (h : SpellsEach relation as texts)
    {rest : List Char} (hrest : Stops rest) :
    Iterates (fun text a rest => ∃ start, Lexeme [','] text start ∧
        relation start a rest)
      as (texts.flatMap (fun other => ',' :: ' ' :: other) ++ rest) rest := by
  induction h with
  | nil => rfl
  | cons hfirst _ ih =>
      rw [List.flatMap_cons, List.append_assoc]
      exact ⟨_, ⟨_, lexeme_cons (by decide), hblank (hfirst _ (stops_commas hrest))⟩, ih⟩

/-- A list with commas is read as its first item and the items after it. -/
theorem spells_commas
    (hblank : ∀ {text a rest}, relation text a rest → relation (' ' :: text) a rest)
    {a : α} {as : List α} {texts : List (List Char)}
    (h : SpellsEach relation (a :: as) texts)
    {rest : List Char} (hrest : Stops rest) :
    ∃ middle, relation (Writer.commas texts ++ rest) a middle ∧
      Iterates (fun text a rest => ∃ start, Lexeme [','] text start ∧
        relation start a rest) as middle rest := by
  cases h with
  | cons hfirst hmore =>
      rw [commas_cons, List.append_assoc]
      exact ⟨_, hfirst _ (stops_commas hrest), iterates_commas hblank hmore hrest⟩

end Lists

namespace Grammar

/-- The derivations of expressions that bind at a level. -/
def LevelText (mode : StringMode) :
    Level → Nat → List Char → Expr → List Char → Prop
  | .member => MemberText .possiblyEmpty mode
  | .unary => UnaryText .possiblyEmpty mode
  | .binary => BinaryText .possiblyEmpty mode
  | .logical => LogicalText .possiblyEmpty mode
  | .conditional => ConditionalText .possiblyEmpty mode

def OperandText (mode : StringMode) (allowed : Level) (n : Nat) (text : List Char)
    (e : Expr) (rest : List Char) : Prop :=
  ∃ level, level ≤ allowed ∧ LevelText mode level n text e rest

section Levels

variable {mode : StringMode} {level : Level} {n : Nat} {text rest : List Char}
  {e : Expr}

theorem OperandText.memberText (h : OperandText mode .member n text e rest) :
    MemberText .possiblyEmpty mode n text e rest := by
  obtain ⟨level, hlevel, h⟩ := h
  cases level with
  | member => exact h
  | unary | binary | logical | conditional => exact absurd hlevel (by decide)

theorem OperandText.unaryText (h : OperandText mode .unary n text e rest) :
    UnaryText .possiblyEmpty mode n text e rest := by
  obtain ⟨level, hlevel, h⟩ := h
  cases level with
  | member => exact .operand h
  | unary => exact h
  | binary | logical | conditional => exact absurd hlevel (by decide)

theorem OperandText.binaryText (h : OperandText mode .binary n text e rest) :
    BinaryText .possiblyEmpty mode n text e rest := by
  obtain ⟨level, hlevel, h⟩ := h
  cases level with
  | member | unary => exact .operand (unaryText ⟨_, by decide, h⟩)
  | binary => exact h
  | logical | conditional => exact absurd hlevel (by decide)

theorem OperandText.logicalText (h : OperandText mode .logical n text e rest) :
    LogicalText .possiblyEmpty mode n text e rest := by
  obtain ⟨level, hlevel, h⟩ := h
  cases level with
  | member | unary | binary => exact .operand (binaryText ⟨_, by decide, h⟩)
  | logical => exact h
  | conditional => exact absurd hlevel (by decide)

theorem LevelText.conditionalText (h : LevelText mode level n text e rest) :
    ConditionalText .possiblyEmpty mode n text e rest := by
  cases level with
  | member | unary | binary | logical =>
      exact .test (OperandText.logicalText ⟨_, by decide, h⟩)
  | conditional => exact h

theorem SuffixesText.concat {lists : ListRule} {middle : List Char}
    {suffixes : List Suffix} {suffix : Suffix}
    (h : SuffixesText lists mode n text suffixes middle)
    (hsuffix : SuffixText lists mode n middle suffix rest) :
    SuffixesText lists mode n text (suffixes ++ [suffix]) rest := by
  induction suffixes generalizing text with
  | nil =>
      cases h
      exact .cons hsuffix .nil
  | cons first suffixes ih =>
      cases h with
      | cons hfirst hmore => exact .cons hfirst (ih hmore)

/-- A member chain with one more suffix is a member chain. -/
theorem MemberText.extend {lists : ListRule} {middle : List Char} {base : Expr}
    {suffix : Suffix} (h : MemberText lists mode n text base middle)
    (hsuffix : SuffixText lists mode n middle suffix rest) :
    MemberText lists mode n text (base.extend suffix) rest := by
  cases h with
  | chain hprimary hsuffixes =>
      have hchain := MemberText.chain hprimary (hsuffixes.concat hsuffix)
      rwa [List.foldl_append] at hchain

end Levels

end Grammar

def Expr.Bounded : Expr → Prop
  | .number k => k < (10 ^ maxDigits : Nat)
  | _ => True

/-- The shape of a part as far as writing takes it for granted: operands bind as
their places ask, numbers are within the digit limit, texts alternate with
placeholders, a complex entity has an index or attributes, and no name stands
twice in a table. -/
def Node.Formed : Node → Prop
  | .resource r => Table.Unique r.entries
  | .entry (.complex index _ attributes) =>
    (index.isSome ∨ attributes.isSome) ∧
      ∀ table, attributes = some table → table ≠ [] ∧ Table.Unique table
  | .entry _ => True
  | .value (.parts segments) => Alternating segments
  | .value (.object members) => Table.Unique members
  | .value _ => True
  | .segment _ => True
  | .expr e => e.Leveled ∧ e.Bounded

def Node.Unsplit : Node → Prop
  | .value (.parts _) => False
  | _ => True

/-- The part has its shape, and its strings can be read in the given mode. -/
def Node.Readable (mode : StringMode) (node : Node) : Prop :=
  node.Formed ∧ (mode = .split ∨ node.Unsplit)

/-- No name stands twice in a table of the part. -/
def Node.Keyed : Node → Prop
  | .resource r => Table.Unique r.entries
  | .entry (.complex _ _ attributes) => Table.Unique (attributes.getD [])
  | .value (.object members) => Table.Unique members
  | _ => True

/-- Whatever is written for the string is read as one that `leaf` allows for it. -/
def Value.Echoed (mode : StringMode) (leaf : Value → Value → Prop) (v : Value) : Prop :=
  ∀ (limit depth : Int) (text : List Char),
    Writer.outcome limit depth (Writer.value v) = .ok text →
    ∃ w, leaf v w ∧ Spells (LiteralText mode) text w

/-- The tables of the part are keyed, and if it is a string then it is read as `leaf`
says. -/
structure Node.Spellable (mode : StringMode) (leaf : Value → Value → Prop)
    (node : Node) : Prop where
  keyed : node.Keyed
  string : ∀ content, node = .value (.string content) →
    (Value.string content).Echoed mode leaf
  parts : ∀ parts, node = .value (.parts parts) → (Value.parts parts).Echoed mode leaf

/-- Whatever is written for the expression stands for one like the grouped expression,
at the level at which this binds and within the levels in which it is nested. -/
def Expr.Echoed (mode : StringMode) (leaf : Value → Value → Prop) (e : Expr) : Prop :=
  ∀ (n : Nat) (limit depth : Int) (text : List Char), e.grouped.nesting ≤ n →
    Writer.outcome limit depth (Writer.expr e) = .ok text →
    ∃ f, e.grouped.Alike leaf f ∧ Spells (LevelText mode e.level n) text f

namespace Writer

variable {limit : Int} {mode : StringMode} {depth : Int} {leaf : Value → Value → Prop}

theorem name_eq_ok {role : NameRole} {key : String} {text : List Char}
    (h : outcome limit depth (name role key) = .ok text) :
    isName key.toList = true ∧ text = key.toList := by
  rw [name] at h
  split at h
  · next hname =>
      cases h
      exact ⟨hname, rfl⟩
  · cases h

theorem text_eq_ok {content : String} {written : List Char}
    (h : outcome limit depth (text content) = .ok written) :
    hasAmbiguousBackslash content.toList = false ∧ written = encode content.toList := by
  rw [text] at h
  split at h
  · cases h
  · next hclear =>
      cases h
      exact ⟨by simpa using hclear, rfl⟩

theorem number_eq_ok {k : Int} {written : List Char}
    (h : outcome limit depth (number k) = .ok written) :
    ∃ n : Nat, k = n ∧ (decimal n).length ≤ maxDigits ∧ written = decimal n := by
  rw [number] at h
  split at h
  · cases h
  split at h
  · cases h
  · next hdigits hsign =>
      cases h
      exact ⟨k.natAbs, by omega, by omega, rfl⟩

/-- Written segments are the body of a literal, each text without ambiguity. -/
theorem bodyText_of_segments {parts : List Segment} {written : List Char}
    (h : outcome limit depth (segments parts) = .ok written) (rest : List Char) :
    (∀ content, Segment.text content ∈ parts →
      hasAmbiguousBackslash content.toList = false) ∧
      BodyText ['"'] (written ++ '"' :: rest) (parts.flatMap Segment.pieces) rest := by
  induction parts generalizing written with
  | nil =>
      cases h
      exact ⟨fun _ hmem => absurd hmem List.not_mem_nil, .close rest⟩
  | cons part parts ih =>
      obtain ⟨first, hfirst, h⟩ := (outcome_bind_eq_ok (steady_segment part)).1 h
      obtain ⟨more, hmore, h⟩ := (outcome_bind_eq_ok (steady_segments parts)).1 h
      cases h
      obtain ⟨hclear, hbody⟩ := ih hmore
      rw [List.append_assoc, List.flatMap_cons]
      cases part with
      | text content =>
          obtain ⟨hcontent, rfl⟩ := text_eq_ok hfirst
          refine ⟨?_, hbody.encode_append content.toList⟩
          intro other hmem
          rcases List.mem_cons.1 hmem with heq | hmem
          · cases heq
            exact hcontent
          · exact hclear other hmem
      | placeholder source =>
          rw [segment] at hfirst
          split at hfirst
          · next hsource =>
              cases hfirst
              refine ⟨?_, hbody.placeholder_append (isPlaceholderSource_iff.1 hsource)⟩
              intro other hmem
              rcases List.mem_cons.1 hmem with heq | hmem
              · cases heq
              · exact hclear other hmem
          · cases hfirst

theorem spells_string {content : String} {text : List Char}
    (h : outcome limit depth (value (.string content)) = .ok text) :
    Spells (LiteralText mode) text (.string content) := by
  rw [value] at h
  obtain ⟨written, hwritten, h⟩ := (outcome_bind_eq_ok (steady_text content)).1 h
  cases h
  obtain ⟨hclear, rfl⟩ := text_eq_ok hwritten
  intro rest hrest
  have hclose : BodyText ['"'] ('"' :: rest) [] rest := .close rest
  have hliteral := literalText_of_bodyText mode (hclose.encode_append content.toList) hrest
  rw [List.append_nil, ofPieces_ofChar hclear] at hliteral
  rw [List.append_assoc]
  exact hliteral

/-- Written segments are read as their pieces say, and their texts are without
ambiguity. -/
theorem spells_parts {parts : List Segment} {text : List Char}
    (h : outcome limit depth (value (.parts parts)) = .ok text) :
    (∀ content, Segment.text content ∈ parts →
      hasAmbiguousBackslash content.toList = false) ∧
      Spells (LiteralText mode) text
        (Value.ofPieces mode (parts.flatMap Segment.pieces)) := by
  rw [value] at h
  obtain ⟨written, hwritten, h⟩ := (outcome_bind_eq_ok (steady_segments parts)).1 h
  cases h
  refine ⟨(bodyText_of_segments hwritten []).1, fun rest hrest => ?_⟩
  rw [List.append_assoc]
  exact literalText_of_bodyText mode (bodyText_of_segments hwritten rest).2 hrest

theorem valueText_space {n : Nat} {text rest : List Char} {v : Value}
    (h : ValueText mode n text v rest) : ValueText mode n (' ' :: text) v rest :=
  h.congr (trimStart_space text).symm

theorem pairText_space {n : Nat} {text rest : List Char} {pair : String × Value}
    (h : PairText mode n text pair rest) : PairText mode n (' ' :: text) pair rest :=
  h.congr (trimStart_space text).symm

theorem spells_array {n : Nat} {items : List Value} {texts : List (List Char)}
    (h : SpellsEach (ValueText mode n) items texts) :
    Spells (ValueText mode (n + 1)) ('[' :: commas texts ++ [']']) (.array items) := by
  intro rest hrest
  rw [List.append_assoc]
  cases items with
  | nil =>
      cases h
      exact .array (.empty (lexeme_cons (by decide)) (lexeme_cons (by decide)))
  | cons v vs =>
      have hclose : Stops (']' :: rest) := stops_cons (by decide)
      obtain ⟨middle, hfirst, hmore⟩ := spells_commas valueText_space h hclose
      exact .array (.items (lexeme_cons (by decide)) hfirst (moreValues_iff.2 hmore)
        (lexeme_cons (by decide)))

theorem spells_object {n : Nat} {pairs : List (String × Value)}
    {texts : List (List Char)} (hunique : Table.Unique pairs)
    (h : SpellsEach (PairText mode n) pairs texts) :
    Spells (ValueText mode (n + 1)) ('\x7b' :: commas texts ++ ['\x7d'])
      (.object pairs) := by
  intro rest hrest
  rw [List.append_assoc]
  cases pairs with
  | nil =>
      cases h
      exact .object (.empty (lexeme_cons (by decide)) (lexeme_cons (by decide)))
  | cons pair pairs =>
      have hclose : Stops ('\x7d' :: rest) := stops_cons (by decide)
      obtain ⟨middle, hfirst, hmore⟩ := spells_commas pairText_space h hclose
      rw [← Table.ofPairs_eq_self hunique]
      exact .object (.members (lexeme_cons (by decide)) hfirst (morePairs_iff.2 hmore)
        (lexeme_cons (by decide)))

theorem spells_pair {n : Nat} {key : String} {v : Value} {text : List Char}
    (hkey : isName key.toList = true) (h : Spells (ValueText mode n) text v) :
    Spells (PairText mode n) (key.toList ++ ':' :: ' ' :: text) (key, v) := by
  intro rest hrest
  rw [List.append_assoc]
  exact .pair (nameText_of_isName hkey (stops_cons (by decide)))
    (lexeme_cons (by decide)) (valueText_space (h rest hrest))

theorem spells_leaf {v : Value} {n : Nat} {text : List Char}
    (hecho : v.Echoed mode leaf) (h : outcome limit depth (value v) = .ok text) :
    ∃ w, v.Alike leaf w ∧ Spells (ValueText mode n) text w := by
  obtain ⟨w, hleaf, hspells⟩ := hecho limit depth text h
  exact ⟨w, .leaf hleaf, fun rest hrest => .literal (hspells rest hrest)⟩

mutual

/-- What is written for a value stands for one that is alike. -/
theorem spells_value : ∀ (v : Value) {n : Nat} {depth : Int} {text : List Char},
    Everywhere (Spellable mode leaf) (.value v) → v.nesting ≤ n →
    outcome limit depth (value v) = .ok text →
    ∃ w, v.Alike leaf w ∧ Spells (ValueText mode n) text w
  | .string content, n, depth, text, hshape, _, h =>
      spells_leaf ((everywhere_string.1 hshape).string content rfl) h
  | .parts parts, n, depth, text, hshape, _, h =>
      spells_leaf ((everywhere_parts.1 hshape).1.parts parts rfl) h
  | .array items, n, depth, text, hshape, hn, h => by
      rw [everywhere_array] at hshape
      rw [Value.nesting] at hn
      obtain ⟨m, rfl⟩ : ∃ m, n = m + 1 := ⟨n - 1, by omega⟩
      rw [value] at h
      obtain ⟨-, h⟩ := outcome_deeper_eq_ok.1 h
      obtain ⟨texts, htexts, h⟩ := (outcome_bind_eq_ok (steady_values items)).1 h
      cases h
      obtain ⟨others, halike, heach⟩ :=
        spells_values items hshape.2 (Nat.le_of_succ_le_succ hn) htexts
      exact ⟨.array others, .array halike, spells_array heach⟩
  | .object pairs, n, depth, text, hshape, hn, h => by
      rw [everywhere_object] at hshape
      rw [Value.nesting] at hn
      obtain ⟨m, rfl⟩ : ∃ m, n = m + 1 := ⟨n - 1, by omega⟩
      rw [value] at h
      obtain ⟨-, h⟩ := outcome_deeper_eq_ok.1 h
      obtain ⟨texts, htexts, h⟩ := (outcome_bind_eq_ok (steady_members .key pairs)).1 h
      cases h
      obtain ⟨others, halike, heach⟩ :=
        spells_members .key pairs hshape.2 (Nat.le_of_succ_le_succ hn) htexts
      exact ⟨.object others, Value.alike_object halike,
        spells_object (halike.unique hshape.1.keyed) heach⟩

theorem spells_values : ∀ (items : List Value) {n : Nat} {depth : Int}
    {texts : List (List Char)},
    (∀ v ∈ items, Everywhere (Spellable mode leaf) (.value v)) →
    valuesNesting items ≤ n → outcome limit depth (values items) = .ok texts →
    ∃ others, List.Forall₂ (Value.Alike leaf) items others ∧
      SpellsEach (ValueText mode n) others texts
  | [], n, depth, texts, _, _, h => by
      rw [values] at h
      cases h
      exact ⟨[], .nil, .nil⟩
  | item :: items, n, depth, texts, hshape, hn, h => by
      rw [values] at h
      obtain ⟨first, hfirst, h⟩ := (outcome_bind_eq_ok (steady_value item)).1 h
      obtain ⟨more, hmore, h⟩ := (outcome_bind_eq_ok (steady_values items)).1 h
      cases h
      obtain ⟨hitem, hitems⟩ := List.forall_mem_cons.1 hshape
      rw [valuesNesting, Nat.max_le] at hn
      obtain ⟨other, halike, hspells⟩ := spells_value item hitem hn.1 hfirst
      obtain ⟨others, halikes, heach⟩ := spells_values items hitems hn.2 hmore
      exact ⟨other :: others, .cons halike halikes, .cons hspells heach⟩

theorem spells_members (role : NameRole) :
    ∀ (pairs : List (String × Value)) {n : Nat} {depth : Int} {texts : List (List Char)},
    (∀ pair ∈ pairs, Everywhere (Spellable mode leaf) (.value pair.2)) →
    membersNesting pairs ≤ n → outcome limit depth (members role pairs) = .ok texts →
    ∃ others, Table.Alike (Value.Alike leaf) pairs others ∧
      SpellsEach (PairText mode n) others texts
  | [], n, depth, texts, _, _, h => by
      rw [members] at h
      cases h
      exact ⟨[], .nil, .nil⟩
  | (key, item) :: rest, n, depth, texts, hshape, hn, h => by
      rw [members] at h
      obtain ⟨keyText, hkey, h⟩ := (outcome_bind_eq_ok (steady_name role key)).1 h
      obtain ⟨first, hfirst, h⟩ := (outcome_bind_eq_ok (steady_value item)).1 h
      obtain ⟨more, hmore, h⟩ := (outcome_bind_eq_ok (steady_members role rest)).1 h
      cases h
      obtain ⟨hname, rfl⟩ := name_eq_ok hkey
      obtain ⟨hitem, hrest⟩ := List.forall_mem_cons.1 hshape
      rw [membersNesting, Nat.max_le] at hn
      obtain ⟨other, halike, hspells⟩ := spells_value item hitem hn.1 hfirst
      obtain ⟨others, halikes, heach⟩ := spells_members role rest hrest hn.2 hmore
      exact ⟨(key, other) :: others, .cons ⟨rfl, halike⟩ halikes,
        .cons (spells_pair hname hspells) heach⟩

end

theorem conditionalText_space {n : Nat} {text rest : List Char} {e : Expr}
    (h : ConditionalText .possiblyEmpty mode n text e rest) :
    ConditionalText .possiblyEmpty mode n (' ' :: text) e rest :=
  h.congr (trimStart_space text).symm

section Expressions

variable {n : Nat} {text tail : List Char} {base e : Expr}

theorem spells_primary
    (h : Spells (PrimaryText .possiblyEmpty mode n) text e) :
    Spells (MemberText .possiblyEmpty mode n) text e :=
  fun rest hrest => .chain (h rest hrest) .nil

theorem spells_paren (h : Spells (ConditionalText .possiblyEmpty mode n) text e) :
    Spells (MemberText .possiblyEmpty mode (n + 1)) ('(' :: text ++ [')'])
      (.paren e) := by
  apply spells_primary
  intro rest hrest
  rw [List.append_assoc]
  exact .paren (lexeme_cons (by decide)) (h _ (stops_cons (by decide)))
    (lexeme_cons (by decide))

/-- A suffix that does not go on like a word extends what is written before
it. -/
theorem spells_extend {c : Char} (suffix : Suffix)
    (hbase : Spells (OperandText mode .member n) text base)
    (hsuffix : Spells (SuffixText .possiblyEmpty mode n) (c :: tail) suffix)
    (hc : isWordChar c = false ∧ c ≠ '"') :
    Spells (MemberText .possiblyEmpty mode n) (text ++ c :: tail)
      (base.extend suffix) := by
  intro rest hrest
  rw [List.append_assoc]
  exact (hbase _ (stops_cons hc)).memberText.extend (hsuffix rest hrest)

theorem spells_expressions {es : List Expr} {texts : List (List Char)} (hes : es ≠ [])
    (hn : 0 < n)
    (h : SpellsEach (ConditionalText .possiblyEmpty mode (n - 1)) es texts) :
    Spells (ExpressionsText .possiblyEmpty mode n) (commas texts) es := by
  intro rest hrest
  cases es with
  | nil => exact absurd rfl hes
  | cons e es =>
      obtain ⟨middle, hfirst, hmore⟩ := spells_commas conditionalText_space h hrest
      have hsucc : n = n - 1 + 1 := by omega
      rw [hsucc]
      exact .list hfirst (moreExpressions_iff.2 hmore)

theorem spells_arguments {es : List Expr} {texts : List (List Char)}
    (hn : es ≠ [] → 0 < n)
    (h : SpellsEach (ConditionalText .possiblyEmpty mode (n - 1)) es texts) :
    Spells (ArgumentsText .possiblyEmpty mode n) (commas texts ++ [')']) es := by
  intro rest hrest
  rw [List.append_assoc]
  by_cases hes : es = []
  · subst hes
    cases h
    exact .empty rfl (lexeme_cons (by decide))
  · exact .filled (spells_expressions hes (hn hes) h _ (stops_cons (by decide)))
      (lexeme_cons (by decide))

theorem then_eq_ok {α β γ : Type} {x : Writer α} {y : Writer β} (hx : Steady x)
    (hy : Steady y) {join : α → β → γ} {written : γ}
    (h : outcome limit depth (do
      let front ← x
      let back ← y
      return join front back) = .ok written) :
    ∃ front back, outcome limit depth x = .ok front ∧
      outcome limit depth y = .ok back ∧ written = join front back := by
  obtain ⟨front, hfront, h⟩ := (outcome_bind_eq_ok hx).1 h
  obtain ⟨back, hback, h⟩ := (outcome_bind_eq_ok hy).1 h
  cases h
  exact ⟨front, back, hfront, hback, rfl⟩

end Expressions

section Places

variable {n : Nat} {text : List Char} {allowed : Level} {base e : Expr}

/-- One level further in, an expression may bind as it likes. -/
theorem spells_nested (he : e.Echoed mode leaf) (hn : e.grouped.nesting ≤ n)
    (h : outcome limit depth (nested (expr e)) = .ok text) :
    ∃ f, e.grouped.Alike leaf f ∧
      Spells (ConditionalText .possiblyEmpty mode n) text f := by
  obtain ⟨f, halike, hspells⟩ := he n _ _ text hn (outcome_nested_eq_ok.1 h).2
  exact ⟨f, halike, fun rest hrest => (hspells rest hrest).conditionalText⟩

/-- What is written for an operand stands for one that is alike and fits its
place. -/
theorem spells_operand (he : e.Echoed mode leaf)
    (hn : (e.grouped.fitted allowed).nesting ≤ n)
    (h : outcome limit depth (operand allowed e (expr e)) = .ok text) :
    ∃ f, (e.grouped.fitted allowed).Alike leaf f ∧
      Spells (OperandText mode allowed n) text f := by
  have hsame := e.level_grouped
  by_cases hlevel : e.level ≤ allowed
  · rw [operand_eq hlevel] at h
    rw [Expr.fitted_of_le (hsame ▸ hlevel)] at hn ⊢
    obtain ⟨f, halike, hspells⟩ := he n _ _ text hn h
    exact ⟨f, halike, fun rest hrest => ⟨e.level, hlevel, hspells rest hrest⟩⟩
  · rw [operand, if_neg hlevel] at h
    rw [Expr.fitted_of_not_le (hsame ▸ hlevel)] at hn ⊢
    rw [Expr.nesting] at hn
    obtain ⟨m, rfl⟩ : ∃ m, n = m + 1 := ⟨n - 1, by omega⟩
    obtain ⟨inner, hinner, h⟩ := (outcome_bind_eq_ok (steady_expr e).nested).1 h
    cases h
    obtain ⟨f, halike, hspells⟩ := spells_nested he (Nat.le_of_succ_le_succ hn) hinner
    refine ⟨.paren f, .paren halike, fun rest hrest => ?_⟩
    exact ⟨.member, Nat.zero_le allowed.rank, spells_paren hspells rest hrest⟩

/-- An operand that is one level further in anyway is written like any other. -/
theorem spells_innerOperand (he : e.Echoed mode leaf)
    (hn : (e.grouped.fitted allowed).nesting ≤ n)
    (h : outcome limit depth (innerOperand allowed e (expr e)) = .ok text) :
    ∃ f, (e.grouped.fitted allowed).Alike leaf f ∧
      Spells (OperandText mode allowed n) text f := by
  by_cases hlevel : e.level ≤ allowed
  · rw [innerOperand_eq hlevel] at h
    have hinside : outcome limit (depth + 1) (operand allowed e (expr e)) = .ok text := by
      rw [operand_eq hlevel]
      exact (outcome_nested_eq_ok.1 h).2
    exact spells_operand he hn hinside
  · rw [innerOperand, if_neg hlevel] at h
    have houtside : outcome limit depth (operand allowed e (expr e)) = .ok text := by
      rw [operand, if_neg hlevel]
      exact h
    exact spells_operand he hn houtside

/-- What is written behind the base of a member chain may be any suffix. -/
theorem spells_chain {α : Type} {c : Char} {y : Writer α} {tail : α → List Char}
    {join : List Char → α → List Char} (hbase : base.Echoed mode leaf)
    (hn : (base.grouped.fitted .member).nesting ≤ n) (hy : Steady y)
    (hjoin : ∀ front back, join front back = front ++ c :: tail back)
    (hc : isWordChar c = false ∧ c ≠ '"')
    (h : outcome limit depth (do
      let front ← operand .member base (expr base)
      let back ← y
      return join front back) = .ok text) :
    ∃ f back, (base.grouped.fitted .member).Alike leaf f ∧
      outcome limit depth y = .ok back ∧
      ∀ suffix, Spells (SuffixText .possiblyEmpty mode n) (c :: tail back) suffix →
        Spells (MemberText .possiblyEmpty mode n) text (f.extend suffix) := by
  obtain ⟨front, back, hfront, hback, rfl⟩ := then_eq_ok (steady_expr base).operand hy h
  obtain ⟨f, halike, hspells⟩ := spells_operand hbase hn hfront
  refine ⟨f, back, halike, hback, fun suffix hsuffix => ?_⟩
  rw [hjoin]
  exact spells_extend suffix hspells hsuffix hc

/-- The expressions of a list stand one level further in. -/
theorem spells_exprs {es : List Expr} {texts : List (List Char)}
    (hes : ∀ e ∈ es, e.Echoed mode leaf) (hn : exprsNesting (groupedExprs es) ≤ n)
    (h : outcome limit depth (exprs es) = .ok texts) :
    ∃ fs, List.Forall₂ (Expr.Alike leaf) (groupedExprs es) fs ∧ (fs ≠ [] → 0 < n) ∧
      SpellsEach (ConditionalText .possiblyEmpty mode (n - 1)) fs texts := by
  induction es generalizing texts with
  | nil =>
      rw [exprs] at h
      cases h
      exact ⟨[], .nil, fun hfs => absurd rfl hfs, .nil⟩
  | cons e es ih =>
      rw [exprs] at h
      obtain ⟨first, hfirst, h⟩ := (outcome_bind_eq_ok (steady_expr e).nested).1 h
      obtain ⟨more, hmore, h⟩ := (outcome_bind_eq_ok (steady_exprs es)).1 h
      cases h
      obtain ⟨hexpr, hexprs⟩ := List.forall_mem_cons.1 hes
      rw [groupedExprs, exprsNesting, Nat.max_le] at hn
      obtain ⟨f, halike, hspells⟩ :=
        spells_nested hexpr (Nat.le_sub_of_add_le hn.1) hfirst
      obtain ⟨fs, halikes, -, heach⟩ := ih hexprs hn.2 hmore
      exact ⟨f :: fs, .cons halike halikes, fun _ => by omega, .cons hspells heach⟩

end Places

theorem lexeme_unaryOp (op : UnaryOp) (rest : List Char) :
    Lexeme op.symbol (op.symbol ++ rest) rest := by
  cases op <;> exact lexeme_cons (by decide)

theorem lexeme_binaryOp (op : BinaryOp) (rest : List Char) :
    Lexeme op.symbol (' ' :: op.symbol ++ rest) rest := by
  cases op <;> exact lexeme_space (lexeme_cons (by decide))

theorem lexeme_logicalOp (op : LogicalOp) (rest : List Char) :
    Lexeme op.symbol (' ' :: op.symbol ++ rest) rest := by
  cases op <;> exact lexeme_space (lexeme_cons (by decide))

section Forms

variable {e base index left right : Expr}

theorem echoed_number (k : Int) : (Expr.number k).Echoed mode leaf := by
  intro n limit depth text _ h
  rw [expr] at h
  obtain ⟨m, rfl, hdigits, rfl⟩ := number_eq_ok h
  exact ⟨_, .number _, spells_primary fun rest hrest =>
    .number (numberText_decimal hdigits hrest)⟩

theorem echoed_value {v : Value} (hv : Everywhere (Spellable mode leaf) (.value v)) :
    (Expr.value v).Echoed mode leaf := by
  intro n limit depth text hn h
  rw [expr] at h
  obtain ⟨w, halike, hspells⟩ := spells_value v hv hn h
  exact ⟨.value w, .value halike, spells_primary fun rest hrest =>
    .value (hspells rest hrest)⟩

theorem echoed_name (key : String) : (Expr.name key).Echoed mode leaf := by
  intro n limit depth text _ h
  rw [expr] at h
  obtain ⟨hname, rfl⟩ := name_eq_ok h
  exact ⟨_, .name key, spells_primary fun rest hrest =>
    .name (nameText_of_isName hname hrest)⟩

theorem echoed_paren (he : e.Echoed mode leaf) : e.paren.Echoed mode leaf := by
  intro n limit depth text hn h
  rw [Expr.grouped, Expr.nesting] at hn
  obtain ⟨m, rfl⟩ : ∃ m, n = m + 1 := ⟨n - 1, by omega⟩
  rw [expr] at h
  obtain ⟨inner, hinner, h⟩ := (outcome_bind_eq_ok (steady_expr e).nested).1 h
  cases h
  obtain ⟨f, halike, hspells⟩ := spells_nested he (Nat.le_of_succ_le_succ hn) hinner
  exact ⟨.paren f, .paren halike, spells_paren hspells⟩

theorem echoed_attr (hbase : base.Echoed mode leaf) (key : String) :
    (base.attr key).Echoed mode leaf := by
  intro n limit depth text hn h
  rw [expr] at h
  obtain ⟨f, written, halike, hwritten, hchain⟩ := spells_chain hbase hn
    (steady_name .attribute key) (fun _ _ => rfl) (by decide) h
  obtain ⟨hname, rfl⟩ := name_eq_ok hwritten
  exact ⟨.attr f key, .attr key halike, hchain (.attr key) fun rest hrest =>
    .attr (nameText_of_isName hname hrest)⟩

theorem echoed_prop (hbase : base.Echoed mode leaf) (key : String) :
    (base.prop key).Echoed mode leaf := by
  intro n limit depth text hn h
  rw [expr] at h
  obtain ⟨f, written, halike, hwritten, hchain⟩ := spells_chain hbase hn
    (steady_name .property key) (fun _ _ => rfl) (by decide) h
  obtain ⟨hname, rfl⟩ := name_eq_ok hwritten
  exact ⟨.prop f key, .prop key halike, hchain (.prop key) fun rest hrest =>
    .prop (nameText_of_isName hname hrest)⟩

theorem echoed_attrAt (hbase : base.Echoed mode leaf) (hindex : index.Echoed mode leaf) :
    (base.attrAt index).Echoed mode leaf := by
  intro n limit depth text hn h
  rw [Expr.grouped, Expr.nesting, Nat.max_le] at hn
  obtain ⟨m, rfl⟩ : ∃ m, n = m + 1 := ⟨n - 1, by omega⟩
  rw [expr] at h
  obtain ⟨f, inner, halike, hinner, hchain⟩ := spells_chain hbase hn.1
    (steady_expr index).nested (fun _ _ => List.append_assoc _ _ _) (by decide) h
  obtain ⟨g, halike', hspells⟩ :=
    spells_nested hindex (Nat.le_of_succ_le_succ hn.2) hinner
  refine ⟨.attrAt f g, .attrAt halike halike', hchain (.attrAt g) fun rest hrest => ?_⟩
  have hinside := hspells (']' :: rest) (stops_cons (by decide))
  simpa using SuffixText.attrAt hinside (lexeme_cons (by decide))

theorem echoed_propAt (hbase : base.Echoed mode leaf) (hindex : index.Echoed mode leaf) :
    (base.propAt index).Echoed mode leaf := by
  intro n limit depth text hn h
  rw [Expr.grouped, Expr.nesting, Nat.max_le] at hn
  obtain ⟨m, rfl⟩ : ∃ m, n = m + 1 := ⟨n - 1, by omega⟩
  rw [expr] at h
  obtain ⟨f, inner, halike, hinner, hchain⟩ := spells_chain hbase hn.1
    (steady_expr index).nested (fun _ _ => List.append_assoc _ _ _) (by decide) h
  obtain ⟨g, halike', hspells⟩ :=
    spells_nested hindex (Nat.le_of_succ_le_succ hn.2) hinner
  refine ⟨.propAt f g, .propAt halike halike', hchain (.propAt g) fun rest hrest => ?_⟩
  have hinside := hspells (']' :: rest) (stops_cons (by decide))
  simpa using SuffixText.propAt hinside (lexeme_cons (by decide))

theorem echoed_call {arguments : List Expr} (hbase : base.Echoed mode leaf)
    (harguments : ∀ e ∈ arguments, e.Echoed mode leaf) :
    (base.call arguments).Echoed mode leaf := by
  intro n limit depth text hn h
  rw [Expr.grouped, Expr.nesting, Nat.max_le] at hn
  rw [expr] at h
  obtain ⟨f, texts, halike, htexts, hchain⟩ := spells_chain hbase hn.1
    (steady_exprs arguments) (fun _ _ => List.append_assoc _ _ _) (by decide) h
  obtain ⟨fs, halikes, hpos, heach⟩ := spells_exprs harguments hn.2 htexts
  exact ⟨.call f fs, .call halike halikes, hchain (.call fs) fun rest hrest =>
    .call (spells_arguments hpos heach rest hrest)⟩

theorem echoed_unary (op : UnaryOp) (he : e.Echoed mode leaf) :
    (e.unary op).Echoed mode leaf := by
  intro n limit depth text hn h
  rw [expr] at h
  obtain ⟨inner, hinner, h⟩ := (outcome_bind_eq_ok (steady_expr e).operand).1 h
  cases h
  obtain ⟨f, halike, hspells⟩ := spells_operand he hn hinner
  refine ⟨.unary op f, .unary op halike, fun rest hrest => ?_⟩
  rw [List.append_assoc]
  exact .operator op (lexeme_unaryOp op _) (hspells rest hrest).memberText

theorem echoed_binary (op : BinaryOp) (hleft : left.Echoed mode leaf)
    (hright : right.Echoed mode leaf) :
    (Expr.binary op left right).Echoed mode leaf := by
  intro n limit depth text hn h
  rw [Expr.grouped, Expr.nesting, Nat.max_le] at hn
  obtain ⟨m, rfl⟩ : ∃ m, n = m + 1 := ⟨n - 1, by omega⟩
  rw [expr] at h
  obtain ⟨front, back, hfront, hback, rfl⟩ :=
    then_eq_ok (steady_expr left).operand (steady_expr right).innerOperand h
  obtain ⟨f, halike, hspells⟩ := spells_operand hleft hn.1 hfront
  obtain ⟨g, halike', hspells'⟩ :=
    spells_innerOperand hright (Nat.le_of_succ_le_succ hn.2) hback
  refine ⟨.binary op f g, .binary op halike halike', fun rest hrest => ?_⟩
  rw [List.append_assoc, List.append_assoc]
  exact .operator op (hspells _ (stops_cons (by decide))).unaryText (lexeme_binaryOp op _)
    ((hspells' rest hrest).binaryText.congr (trimStart_space _).symm)

theorem echoed_logical (op : LogicalOp) (hleft : left.Echoed mode leaf)
    (hright : right.Echoed mode leaf) :
    (Expr.logical op left right).Echoed mode leaf := by
  intro n limit depth text hn h
  rw [Expr.grouped, Expr.nesting, Nat.max_le] at hn
  obtain ⟨m, rfl⟩ : ∃ m, n = m + 1 := ⟨n - 1, by omega⟩
  rw [expr] at h
  obtain ⟨front, back, hfront, hback, rfl⟩ :=
    then_eq_ok (steady_expr left).operand (steady_expr right).innerOperand h
  obtain ⟨f, halike, hspells⟩ := spells_operand hleft hn.1 hfront
  obtain ⟨g, halike', hspells'⟩ :=
    spells_innerOperand hright (Nat.le_of_succ_le_succ hn.2) hback
  refine ⟨.logical op f g, .logical op halike halike', fun rest hrest => ?_⟩
  rw [List.append_assoc, List.append_assoc]
  exact .operator op (hspells _ (stops_cons (by decide))).binaryText
    (lexeme_logicalOp op _)
    ((hspells' rest hrest).logicalText.congr (trimStart_space _).symm)

theorem echoed_conditional {test consequent alternate : Expr}
    (htest : test.Echoed mode leaf) (hyes : consequent.Echoed mode leaf)
    (hno : alternate.Echoed mode leaf) :
    (Expr.conditional test consequent alternate).Echoed mode leaf := by
  intro n limit depth text hn h
  rw [Expr.grouped, Expr.nesting, Nat.max_le] at hn
  obtain ⟨m, rfl⟩ : ∃ m, n = m + 1 := ⟨n - 1, by omega⟩
  have hbranches := Nat.max_le.1 (Nat.le_of_succ_le_succ hn.2)
  rw [expr] at h
  obtain ⟨front, hfront, h⟩ := (outcome_bind_eq_ok (steady_expr test).operand).1 h
  obtain ⟨yes, no, hyesText, hnoText, rfl⟩ :=
    then_eq_ok (steady_expr consequent).nested (steady_expr alternate).nested h
  obtain ⟨f, halike, hspells⟩ := spells_operand htest hn.1 hfront
  obtain ⟨y, halikeYes, hyes⟩ := spells_nested hyes hbranches.1 hyesText
  obtain ⟨z, halikeNo, hno⟩ := spells_nested hno hbranches.2 hnoText
  refine ⟨.conditional f y z, .conditional halike halikeYes halikeNo,
    fun rest hrest => ?_⟩
  simp only [List.append_assoc]
  exact .branches (hspells _ (stops_cons (by decide))).logicalText
    (lexeme_space (lexeme_cons (by decide)))
    (conditionalText_space (hyes _ (stops_cons (by decide))))
    (lexeme_space (lexeme_cons (by decide))) (conditionalText_space (hno rest hrest))

end Forms

mutual

/-- What is written for an expression is derived at the level at which the
expression binds, so that every operand stands where its level is asked for, in
parentheses or without. -/
theorem echoed_expr : ∀ e : Expr, Everywhere (Spellable mode leaf) (.expr e) →
    e.Echoed mode leaf
  | .number k, _ => echoed_number k
  | .value v, h => echoed_value (everywhere_value.1 h).2
  | .name key, _ => echoed_name key
  | .paren e, h => echoed_paren (echoed_expr e (everywhere_paren.1 h).2)
  | .attr base key, h => echoed_attr (echoed_expr base (everywhere_attr.1 h).2) key
  | .attrAt base index, h => by
      obtain ⟨-, hbase, hindex⟩ := everywhere_attrAt.1 h
      exact echoed_attrAt (echoed_expr base hbase) (echoed_expr index hindex)
  | .prop base key, h => echoed_prop (echoed_expr base (everywhere_prop.1 h).2) key
  | .propAt base index, h => by
      obtain ⟨-, hbase, hindex⟩ := everywhere_propAt.1 h
      exact echoed_propAt (echoed_expr base hbase) (echoed_expr index hindex)
  | .call base arguments, h => by
      obtain ⟨-, hbase, harguments⟩ := everywhere_call.1 h
      exact echoed_call (echoed_expr base hbase) (echoed_exprs arguments harguments)
  | .unary op e, h => echoed_unary op (echoed_expr e (everywhere_unary.1 h).2)
  | .binary op left right, h => by
      obtain ⟨-, hleft, hright⟩ := everywhere_binary.1 h
      exact echoed_binary op (echoed_expr left hleft) (echoed_expr right hright)
  | .logical op left right, h => by
      obtain ⟨-, hleft, hright⟩ := everywhere_logical.1 h
      exact echoed_logical op (echoed_expr left hleft) (echoed_expr right hright)
  | .conditional test consequent alternate, h => by
      obtain ⟨-, htest, hyes, hno⟩ := everywhere_conditional.1 h
      exact echoed_conditional (echoed_expr test htest) (echoed_expr consequent hyes)
        (echoed_expr alternate hno)

theorem echoed_exprs : ∀ es : List Expr,
    (∀ e ∈ es, Everywhere (Spellable mode leaf) (.expr e)) →
    ∀ e ∈ es, e.Echoed mode leaf
  | [], _ => by simp
  | e :: es, h => by
      obtain ⟨he, hes⟩ := List.forall_mem_cons.1 h
      exact List.forall_mem_cons.2 ⟨echoed_expr e he, echoed_exprs es hes⟩

end

end Writer

end L20n
