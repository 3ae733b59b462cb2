import L20n.Proofs.Literal
import L20n.Resource.Run

/-!
The grammar of resources, as relations between a text, what it stands for and
the rest of the text.  A relation `…Text n text x rest` says that `text` starts
with an `x` in which at most `n` levels are nested, and that `rest` follows it.

    value       := literal | array | object
    array       := '[' ( value (',' value)* )? ']'
    object      := '{' ( pair (',' pair)* )? '}'
    pair        := NAME ':' value
    conditional := logical ( '?' conditional ':' conditional )?
    logical     := binary ( ('&&' | '||') logical )?
    binary      := unary ( operator binary )?
    unary       := ('+' | '-' | '!')? member
    member      := primary suffix*
    suffix      := '..' NAME | '[.' conditional ']' | '.' NAME
                 | '[' conditional ']' | '(' arguments
    primary     := '(' conditional ')' | NUMBER | value | NAME
    arguments   := ( conditional (',' conditional)* )? ')'
    entry       := NAME ( '[' conditional (',' conditional)* ']' )? value? pair* '>'
                 | NAME '(' arguments '{' conditional '}' '>'

An array, an object, every conditional of `suffix`, `primary`, `arguments` and
`entry`, and every right operand and branch is one level further in.
-/

namespace L20n.Grammar

/-- Whether a list in parentheses, of parameters or arguments, may be empty. -/
inductive ListRule where
  | filled
  | possiblyEmpty
  deriving DecidableEq

section Values

variable (mode : StringMode)

mutual

inductive ValueText : Nat → List Char → Value → List Char → Prop
  | literal {n text v rest} :
      LiteralText mode text v rest → ValueText n text v rest
  | array {n text v rest} :
      ArrayText n text v rest → ValueText (n + 1) text v rest
  | object {n text v rest} :
      ObjectText n text v rest → ValueText (n + 1) text v rest

inductive ArrayText : Nat → List Char → Value → List Char → Prop
  | empty {n text a rest} :
      Lexeme ['['] text a → Lexeme [']'] a rest →
      ArrayText n text (.array []) rest
  | items {n text a b c rest v vs} :
      Lexeme ['['] text a → ValueText n a v b → MoreValues n b vs c →
      Lexeme [']'] c rest →
      ArrayText n text (.array (v :: vs)) rest

inductive MoreValues : Nat → List Char → List Value → List Char → Prop
  | nil {n text} : MoreValues n text [] text
  | cons {n text a b rest v vs} :
      Lexeme [','] text a → ValueText n a v b → MoreValues n b vs rest →
      MoreValues n text (v :: vs) rest

inductive ObjectText : Nat → List Char → Value → List Char → Prop
  | empty {n text a rest} :
      Lexeme ['\x7b'] text a → Lexeme ['\x7d'] a rest →
      ObjectText n text (.object []) rest
  | members {n text a b c rest pair pairs} :
      Lexeme ['\x7b'] text a → PairText n a pair b → MorePairs n b pairs c →
      Lexeme ['\x7d'] c rest →
      ObjectText n text (.object (Table.ofPairs (pair :: pairs))) rest

inductive PairText : Nat → List Char → String × Value → List Char → Prop
  | pair {n text a b rest key v} :
      NameText text key a → Lexeme [':'] a b → ValueText n b v rest →
      PairText n text (key, v) rest

inductive MorePairs :
    Nat → List Char → List (String × Value) → List Char → Prop
  | nil {n text} : MorePairs n text [] text
  | cons {n text a b rest pair pairs} :
      Lexeme [','] text a → PairText n a pair b → MorePairs n b pairs rest →
      MorePairs n text (pair :: pairs) rest

end

end Values

section Expressions

variable (lists : ListRule) (mode : StringMode)

mutual

inductive ConditionalText : Nat → List Char → Expr → List Char → Prop
  | test {n text e rest} :
      LogicalText n text e rest → ConditionalText n text e rest
  | branches {n text a b c d rest test consequent alternate} :
      LogicalText (n + 1) text test a →
      Lexeme ['?'] a b → ConditionalText n b consequent c →
      Lexeme [':'] c d → ConditionalText n d alternate rest →
      ConditionalText (n + 1) text (.conditional test consequent alternate) rest

inductive LogicalText : Nat → List Char → Expr → List Char → Prop
  | operand {n text e rest} :
      BinaryText n text e rest → LogicalText n text e rest
  | operator {n text a b rest left right} (op : LogicalOp) :
      BinaryText (n + 1) text left a →
      Lexeme op.symbol a b → LogicalText n b right rest →
      LogicalText (n + 1) text (.logical op left right) rest

inductive BinaryText : Nat → List Char → Expr → List Char → Prop
  | operand {n text e rest} :
      UnaryText n text e rest → BinaryText n text e rest
  | operator {n text a b rest left right} (op : BinaryOp) :
      UnaryText (n + 1) text left a →
      Lexeme op.symbol a b → BinaryText n b right rest →
      BinaryText (n + 1) text (.binary op left right) rest

inductive UnaryText : Nat → List Char → Expr → List Char → Prop
  | operand {n text e rest} :
      MemberText n text e rest → UnaryText n text e rest
  | operator {n text a rest e} (op : UnaryOp) :
      Lexeme op.symbol text a → MemberText n a e rest →
      UnaryText n text (.unary op e) rest

inductive MemberText : Nat → List Char → Expr → List Char → Prop
  | chain {n text a rest base suffixes} :
      PrimaryText n text base a → SuffixesText n a suffixes rest →
      MemberText n text (suffixes.foldl Expr.extend base) rest

inductive SuffixesText : Nat → List Char → List Suffix → List Char → Prop
  | nil {n text} : SuffixesText n text [] text
  | cons {n text a rest suffix suffixes} :
      SuffixText n text suffix a → SuffixesText n a suffixes rest →
      SuffixesText n text (suffix :: suffixes) rest

inductive SuffixText : Nat → List Char → Suffix → List Char → Prop
  | attr {n text rest key} :
      NameText text key rest → SuffixText n ('.' :: '.' :: text) (.attr key) rest
  | attrAt {n text a rest e} :
      ConditionalText n text e a → Lexeme [']'] a rest →
      SuffixText (n + 1) ('[' :: '.' :: text) (.attrAt e) rest
  | prop {n text rest key} :
      NameText text key rest → SuffixText n ('.' :: text) (.prop key) rest
  | propAt {n text a rest e} :
      ConditionalText n text e a → Lexeme [']'] a rest →
      SuffixText (n + 1) ('[' :: text) (.propAt e) rest
  | call {n text rest es} :
      ArgumentsText n text es rest → SuffixText n ('(' :: text) (.call es) rest

inductive PrimaryText : Nat → List Char → Expr → List Char → Prop
  | paren {n text a b rest e} :
      Lexeme ['('] text a → ConditionalText n a e b → Lexeme [')'] b rest →
      PrimaryText (n + 1) text (.paren e) rest
  | number {n text rest} {k : Nat} :
      NumberText text k rest → PrimaryText n text (.number k) rest
  | value {n text v rest} :
      ValueText mode n text v rest → PrimaryText n text (.value v) rest
  | name {n text key rest} :
      NameText text key rest → PrimaryText n text (.name key) rest

inductive ArgumentsText : Nat → List Char → List Expr → List Char → Prop
  | empty {n text rest} :
      lists = .possiblyEmpty → Lexeme [')'] text rest →
      ArgumentsText n text [] rest
  | filled {n text a rest es} :
      ExpressionsText n text es a → Lexeme [')'] a rest →
      ArgumentsText n text es rest

inductive ExpressionsText : Nat → List Char → List Expr → List Char → Prop
  | list {n text a rest e es} :
      ConditionalText n text e a → MoreExpressions n a es rest →
      ExpressionsText (n + 1) text (e :: es) rest

/-- The expressions after the first one; here the level is entered already. -/
inductive MoreExpressions : Nat → List Char → List Expr → List Char → Prop
  | nil {n text} : MoreExpressions n text [] text
  | cons {n text a b rest e es} :
      Lexeme [','] text a → ConditionalText n a e b →
      MoreExpressions n b es rest →
      MoreExpressions n text (e :: es) rest

end

end Expressions

section Entries

variable (lists : ListRule) (mode : StringMode) (n : Nat)

inductive OptionalValueText :
    List Char → Option Value → List Char → Prop
  | absent {text} : OptionalValueText text none text
  | present {text v rest} :
      ValueText mode n text v rest → OptionalValueText text (some v) rest

inductive AttributesText :
    List Char → List (String × Value) → List Char → Prop
  | nil {text} : AttributesText text [] text
  | cons {text a rest pair pairs} :
      PairText mode n text pair a → AttributesText a pairs rest →
      AttributesText text (pair :: pairs) rest

/-- The head of an entity.  A bracket or parenthesis right after the name never
belongs to what follows the head. -/
inductive HeadText :
    List Char → String → Option (List Expr) → List Char → Prop
  | plain {text key rest} :
      NameText text key rest → (∀ c ∈ rest.head?, c ≠ '[' ∧ c ≠ '(') →
      HeadText text key none rest
  | index {text key a b rest es} :
      NameText text key ('[' :: a) → ExpressionsText lists mode n a es b →
      Lexeme [']'] b rest →
      HeadText text key (some es) rest

end Entries

/-- The entity with these parts: a plain one if it has neither an index nor
attributes. -/
def entityOf (index : Option (List Expr)) (v : Option Value)
    (pairs : List (String × Value)) : Entry :=
  match index, pairs with
  | none, [] => .plain v
  | index, [] => .complex index v none
  | index, pairs => .complex index v (some (Table.ofPairs pairs))

/-- An entry after its `<`, with its key. -/
inductive EntryText (lists : ListRule) (mode : StringMode) :
    Nat → List Char → String × Entry → List Char → Prop
  | entity {n text a b c rest key index v pairs} :
      HeadText lists mode n text key index a →
      OptionalValueText mode n a v b → AttributesText mode n b pairs c →
      Lexeme ['>'] c rest →
      EntryText lists mode n text (key, entityOf index v pairs) rest
  | macroDef {n text a b c d e rest key params body} :
      NameText text key ('(' :: a) → ArgumentsText lists mode (n + 1) a params b →
      Lexeme ['\x7b'] b c → ConditionalText lists mode n c body d →
      Lexeme ['\x7d'] d e → Lexeme ['>'] e rest →
      EntryText lists mode (n + 1) text (key, .macroDef params body) rest

/-- A comment ends with the first mark that closes it. -/
def CommentText (text rest : List Char) : Prop :=
  ∃ body front, Lexeme ['/', '*'] text body ∧
    Text.Through ['*', '/'] body front rest

/-- Comments and entries in any order, for some kind of entries. -/
inductive ItemsText {α : Type} (entry : List Char → α → List Char → Prop) :
    List Char → List α → List Char → Prop
  | done {text} : ItemsText entry text [] text
  | comment {text a rest items} :
      CommentText text a → ItemsText entry a items rest →
      ItemsText entry text items rest
  | entry {text a b rest item items} :
      Lexeme ['<'] text a → entry a item b → ItemsText entry b items rest →
      ItemsText entry text (item :: items) rest

/-- A text at which neither a comment nor an entry starts. -/
def IsTail (text : List Char) : Prop :=
  (∀ after, ¬ Lexeme ['<'] text after) ∧
    ∀ after, ¬ Lexeme ['/', '*'] text after

/-- A whole source: comments and entries, and a tail that is left alone. -/
def SourceText {α : Type} (entry : List Char → α → List Char → Prop)
    (text : List Char) (items : List α) : Prop :=
  ∃ tail, ItemsText entry text items tail ∧ IsTail tail

end L20n.Grammar
