import L20n.Proofs.Boundary

/-!
Derivations that do not ask how tightly anything binds.  A text has the form of a tree
when the tokens of the tree stand in it in order, with parentheses where the tree has
them and nowhere else.  Operands may be expressions of any kind and levels are not
counted.  Whatever the grammar derives has the form of its tree.
-/

namespace L20n.Grammar

open Text

section Loose

variable (mode : StringMode)

mutual

/-- The text starts with one of the form of the tree, and the rest follows. -/
def LooseText : List Char → Expr → List Char → Prop
  | text, .number k, rest => ∃ n : Nat, k = n ∧ NumberText text n rest
  | text, .value v, rest => ∃ n, ValueText mode n text v rest
  | text, .name key, rest => NameText text key rest
  | text, .paren e, rest =>
    ∃ a b, Lexeme ['('] text a ∧ LooseText a e b ∧ Lexeme [')'] b rest
  | text, .attr base key, rest =>
    ∃ a, LooseText text base ('.' :: '.' :: a) ∧ NameText a key rest
  | text, .attrAt base index, rest =>
    ∃ a b, LooseText text base ('[' :: '.' :: a) ∧ LooseText a index b ∧
      Lexeme [']'] b rest
  | text, .prop base key, rest =>
    ∃ a, LooseText text base ('.' :: a) ∧ NameText a key rest
  | text, .propAt base index, rest =>
    ∃ a b, LooseText text base ('[' :: a) ∧ LooseText a index b ∧ Lexeme [']'] b rest
  | text, .call base arguments, rest =>
    ∃ a, LooseText text base ('(' :: a) ∧ LooseArguments a arguments rest
  | text, .unary op e, rest => ∃ a, Lexeme op.symbol text a ∧ LooseText a e rest
  | text, .binary op left right, rest =>
    ∃ a b, LooseText text left a ∧ Lexeme op.symbol a b ∧ LooseText b right rest
  | text, .logical op left right, rest =>
    ∃ a b, LooseText text left a ∧ Lexeme op.symbol a b ∧ LooseText b right rest
  | text, .conditional test consequent alternate, rest =>
    ∃ a b c d, LooseText text test a ∧ Lexeme ['?'] a b ∧ LooseText b consequent c ∧
      Lexeme [':'] c d ∧ LooseText d alternate rest

def LooseArguments : List Char → List Expr → List Char → Prop
  | text, [], rest => Lexeme [')'] text rest
  | text, e :: es, rest => ∃ a, LooseText text e a ∧ MoreLooseArguments a es rest

def MoreLooseArguments : List Char → List Expr → List Char → Prop
  | text, [], rest => Lexeme [')'] text rest
  | text, e :: es, rest =>
    ∃ a b, Lexeme [','] text a ∧ LooseText a e b ∧ MoreLooseArguments b es rest

end

end Loose

variable {lists : ListRule} {mode : StringMode} {n : Nat} {text other rest : List Char}

theorem LooseText.congr (h : trimStart text = trimStart other) :
    ∀ {e : Expr} {rest : List Char}, LooseText mode text e rest →
      LooseText mode other e rest
  | .number _, _, ⟨k, hk, word, hword, hdigits⟩ => ⟨k, hk, word, hword.congr h, hdigits⟩
  | .value _, _, ⟨n, hv⟩ => ⟨n, hv.congr h⟩
  | .name _, _, hname => Word.congr h hname
  | .paren _, _, ⟨a, b, hopen, he⟩ => ⟨a, b, hopen.congr h, he⟩
  | .attr _ _, _, ⟨a, hbase, hname⟩ => ⟨a, hbase.congr h, hname⟩
  | .attrAt _ _, _, ⟨a, b, hbase, hindex⟩ => ⟨a, b, hbase.congr h, hindex⟩
  | .prop _ _, _, ⟨a, hbase, hname⟩ => ⟨a, hbase.congr h, hname⟩
  | .propAt _ _, _, ⟨a, b, hbase, hindex⟩ => ⟨a, b, hbase.congr h, hindex⟩
  | .call _ _, _, ⟨a, hbase, harguments⟩ => ⟨a, hbase.congr h, harguments⟩
  | .unary _ _, _, ⟨a, hop, he⟩ => ⟨a, hop.congr h, he⟩
  | .binary _ _ _, _, ⟨a, b, hleft, hright⟩ => ⟨a, b, hleft.congr h, hright⟩
  | .logical _ _ _, _, ⟨a, b, hleft, hright⟩ => ⟨a, b, hleft.congr h, hright⟩
  | .conditional _ _ _, _, ⟨a, b, c, d, htest, hrest⟩ => ⟨a, b, c, d, htest.congr h, hrest⟩

/-- What is derived with `n` levels has the form of its tree. -/
structure DerivesLoose (lists : ListRule) (mode : StringMode) (n : Nat) : Prop where
  conditional : ∀ {text e rest}, ConditionalText lists mode n text e rest →
    LooseText mode text e rest
  logical : ∀ {text e rest}, LogicalText lists mode n text e rest →
    LooseText mode text e rest
  binary : ∀ {text e rest}, BinaryText lists mode n text e rest →
    LooseText mode text e rest

theorem moreLooseArguments_of_moreExpressions (h : DerivesLoose lists mode n)
    {es : List Expr} {middle : List Char} (hes : MoreExpressions lists mode n text es middle)
    (hclose : Lexeme [')'] middle rest) : MoreLooseArguments mode text es rest := by
  induction es generalizing text with
  | nil =>
      cases hes
      exact hclose
  | cons e es ih =>
      cases hes with
      | cons hcomma he hmore => exact ⟨_, _, hcomma, h.conditional he, ih hmore⟩

section Levels

variable (ih : ∀ m, n = m + 1 → DerivesLoose lists mode m)

include ih

theorem looseArguments_of_argumentsText {es : List Expr}
    (h : ArgumentsText lists mode n text es rest) : LooseArguments mode text es rest := by
  cases h with
  | empty _ hclose => exact hclose
  | filled hes hclose =>
      cases hes with
      | list hfirst hmore =>
          exact ⟨_, (ih _ rfl).conditional hfirst,
            moreLooseArguments_of_moreExpressions (ih _ rfl) hmore hclose⟩

theorem looseText_of_primaryText {e : Expr} (h : PrimaryText lists mode n text e rest) :
    LooseText mode text e rest := by
  cases h with
  | paren hopen he hclose => exact ⟨_, _, hopen, (ih _ rfl).conditional he, hclose⟩
  | number hnumber => exact ⟨_, rfl, hnumber⟩
  | value hv => exact ⟨_, hv⟩
  | name hname => exact hname

theorem LooseText.extend {base : Expr} {suffix : Suffix} {middle : List Char}
    (hbase : LooseText mode text base middle)
    (h : SuffixText lists mode n middle suffix rest) :
    LooseText mode text (base.extend suffix) rest := by
  cases h with
  | attr hname => exact ⟨_, hbase, hname⟩
  | attrAt he hclose => exact ⟨_, _, hbase, (ih _ rfl).conditional he, hclose⟩
  | prop hname => exact ⟨_, hbase, hname⟩
  | propAt he hclose => exact ⟨_, _, hbase, (ih _ rfl).conditional he, hclose⟩
  | call hes => exact ⟨_, hbase, looseArguments_of_argumentsText ih hes⟩

theorem LooseText.extend_all {base : Expr} {suffixes : List Suffix} {middle : List Char}
    (hbase : LooseText mode text base middle)
    (h : SuffixesText lists mode n middle suffixes rest) :
    LooseText mode text (suffixes.foldl Expr.extend base) rest := by
  induction suffixes generalizing base middle with
  | nil =>
      cases h
      exact hbase
  | cons suffix suffixes ihsuffixes =>
      cases h with
      | cons hsuffix hmore => exact ihsuffixes (hbase.extend ih hsuffix) hmore

theorem looseText_of_memberText {e : Expr} (h : MemberText lists mode n text e rest) :
    LooseText mode text e rest := by
  cases h with
  | chain hprimary hsuffixes =>
      exact (looseText_of_primaryText ih hprimary).extend_all ih hsuffixes

theorem looseText_of_unaryText {e : Expr} (h : UnaryText lists mode n text e rest) :
    LooseText mode text e rest := by
  cases h with
  | operand hmember => exact looseText_of_memberText ih hmember
  | operator op hop hmember => exact ⟨_, hop, looseText_of_memberText ih hmember⟩

theorem looseText_of_binaryText {e : Expr} (h : BinaryText lists mode n text e rest) :
    LooseText mode text e rest := by
  cases h with
  | operand hunary => exact looseText_of_unaryText ih hunary
  | operator op hleft hop hright =>
      exact ⟨_, _, looseText_of_unaryText ih hleft, hop, (ih _ rfl).binary hright⟩

theorem looseText_of_logicalText {e : Expr} (h : LogicalText lists mode n text e rest) :
    LooseText mode text e rest := by
  cases h with
  | operand hbinary => exact looseText_of_binaryText ih hbinary
  | operator op hleft hop hright =>
      exact ⟨_, _, looseText_of_binaryText ih hleft, hop, (ih _ rfl).logical hright⟩

theorem looseText_of_conditionalText {e : Expr}
    (h : ConditionalText lists mode n text e rest) : LooseText mode text e rest := by
  cases h with
  | test htest => exact looseText_of_logicalText ih htest
  | branches htest hquestion hyes hcolon hno =>
      exact ⟨_, _, _, _, looseText_of_logicalText ih htest, hquestion,
        (ih _ rfl).conditional hyes, hcolon, (ih _ rfl).conditional hno⟩

theorem derivesLoose_of_inner : DerivesLoose lists mode n where
  conditional := looseText_of_conditionalText ih
  logical := looseText_of_logicalText ih
  binary := looseText_of_binaryText ih

end Levels

theorem derivesLoose (lists : ListRule) (mode : StringMode) (n : Nat) :
    DerivesLoose lists mode n := by
  induction n with
  | zero =>
      apply derivesLoose_of_inner
      intro m hm
      cases hm
  | succ n ih =>
      apply derivesLoose_of_inner
      intro m hm
      obtain rfl : n = m := by omega
      exact ih

end L20n.Grammar
