import L20n.Proofs.Acceptance

/-!
The reference grammar of entries, read to the letter.

    entity     := '<' identifier ( macroBody | value? pair* ) '>'
    identifier := NAME ( '[' expr (',' expr)* ']' | '(' expr (',' expr)* ')' )?
    macroBody  := '{' expr '}'

It differs from what is read in three ways: it has no empty list of parameters
or arguments, it lets either kind of body follow any identifier, and it lets the
bracket right after a name open an array.
-/

namespace L20n.Grammar

open Text

section Reference

variable (mode : StringMode)

inductive IdentifierText : Nat → List Char → List Char → Prop
  | plain {n text key rest} :
      NameText text key rest → IdentifierText n text rest
  | index {n text key a b rest es} :
      NameText text key ('[' :: a) → ExpressionsText .filled mode n a es b →
      Lexeme [']'] b rest → IdentifierText n text rest
  | params {n text key a rest es} :
      NameText text key ('(' :: a) → ArgumentsText .filled mode n a es rest →
      IdentifierText n text rest

inductive EntityBodyText : Nat → List Char → List Char → Prop
  | macroBody {n text a b rest e} :
      Lexeme ['\x7b'] text a → ConditionalText .filled mode n a e b →
      Lexeme ['\x7d'] b rest → EntityBodyText (n + 1) text rest
  | valueAndPairs {n text a rest v pairs} :
      OptionalValueText mode n text v a → AttributesText mode n a pairs rest →
      EntityBodyText n text rest

def EntityText (n : Nat) (text : List Char) (_ : Unit) (rest : List Char) :
    Prop :=
  ∃ a b, IdentifierText mode n text a ∧ EntityBodyText mode n a b ∧
    Lexeme ['>'] b rest

end Reference

/-- Reading accepts the source exactly when the reference grammar derives it
within the levels of the depth limit. -/
def FollowsReference (options : ReadOptions) (source : String) : Prop :=
  (∃ r, (Resource.read options source none).outcome = .ok r) ↔
    ∃ items, SourceText (EntityText options.mode
      (StackBudget.reading.clamp options.maxDepth).1.toNat) source.toList items

theorem nameText_unique {text rest rest' : List Char} {key key' : String}
    (h : NameText text key rest) (h' : NameText text key' rest') : rest = rest' :=
  (h.unique h').2

/-- A source that starts with an entry goes on with what is left of it. -/
theorem SourceText.first {α : Type} {entry : List Char → α → List Char → Prop}
    {text : List Char} {items : List α} (h : SourceText entry ('<' :: text) items) :
    ∃ item more rest, items = item :: more ∧ entry text item rest ∧
      SourceText entry rest more := by
  obtain ⟨tail, hitems, htail⟩ := h
  have hopen : Lexeme ['<'] ('<' :: text) text := rfl
  cases hitems with
  | done => exact absurd hopen (htail.1 text)
  | comment hcomment _ =>
      obtain ⟨body, front, hstart, -⟩ := hcomment
      exact absurd (hopen.head_eq hstart) (by decide)
  | entry hopen' hentry hmore =>
      rw [Lexeme, hopen, List.append_cancel_left_eq] at hopen'
      subst hopen'
      exact ⟨_, _, _, rfl, hentry, tail, hmore, htail⟩

theorem entry_of_sourceText {α : Type} {entry : List Char → α → List Char → Prop}
    {text : List Char} {items : List α}
    (h : SourceText entry ('<' :: text) items) : ∃ item rest, entry text item rest := by
  obtain ⟨item, -, rest, -, hentry, -⟩ := h.first
  exact ⟨item, rest, hentry⟩

theorem isTail_nil : IsTail [] := by
  constructor <;> intro after h <;> simp [Lexeme] at h

theorem boundary_cons {c : Char} {rest : List Char} (h : isWordChar c = false) :
    ∀ d ∈ (c :: rest).head?, isWordChar d = false := by
  intro d hd
  obtain rfl : c = d := by simpa using hd
  exact h

theorem nameText_one {c : Char} {rest : List Char} (hc : c.isAlpha = true)
    (hrest : ∀ d ∈ rest.head?, isWordChar d = false) (hblank : isBlank c = false) :
    NameText (c :: rest) (String.ofList [c]) rest := by
  refine ⟨?_, ⟨c, [], by simp, hc, by simp⟩, hrest⟩
  rw [Lexeme, trimStart_cons, hblank, String.toList_ofList]
  rfl

theorem not_followsReference_of_accepted {options : ReadOptions} {source : String}
    (h : (Resource.read options source none).outcome.isOk = true)
    (hnot : ∀ items, ¬ SourceText (EntityText options.mode
      (StackBudget.reading.clamp options.maxDepth).1.toNat) source.toList items) :
    ¬ FollowsReference options source := by
  intro hfollows
  obtain ⟨items, hitems⟩ := hfollows.1 (exists_ok_of_isOk h)
  exact hnot items hitems

theorem not_followsReference_of_refused {options : ReadOptions} {source : String}
    (h : (Resource.read options source none).outcome.isOk = false)
    {items : List Unit}
    (hitems : SourceText (EntityText options.mode
      (StackBudget.reading.clamp options.maxDepth).1.toNat) source.toList items) :
    ¬ FollowsReference options source := by
  intro hfollows
  obtain ⟨r, hr⟩ := hfollows.2 ⟨items, hitems⟩
  rw [hr] at h
  cases h

/-- The reference grammar derives no empty list of parameters. -/
theorem not_entityText_emptyParameters {mode : StringMode} {n : Nat} {u : Unit}
    {rest : List Char} :
    ¬ EntityText mode n "m() \x7b 1 \x7d>".toList u rest := by
  rintro ⟨a, b, hhead, hbody, hclose⟩
  have hname : NameText "m() \x7b 1 \x7d>".toList "m" "() \x7b 1 \x7d>".toList :=
    nameText_one rfl (boundary_cons rfl) rfl
  cases hhead with
  | plain h =>
      obtain rfl := nameText_unique hname h
      cases hbody with
      | macroBody hopen _ _ =>
          exact absurd ((lexeme_cons_iff rfl).1 hopen).1 (by decide)
      | valueAndPairs hv hpairs =>
          cases hv with
          | present hv => exact absurd ((starts_cons_iff rfl).1 hv.starts) (by decide)
          | absent =>
              have hstarts := Reader.starts_of_attributesText hpairs hclose
              exact absurd ((starts_cons_iff rfl).1 hstarts) (by decide)
  | index h _ _ =>
      have heq := nameText_unique hname h
      exact absurd (List.cons.inj heq).1 (by decide)
  | params h hparams =>
      obtain ⟨-, rfl⟩ := List.cons.inj (nameText_unique hname h)
      cases hparams with
      | empty hlists _ => cases hlists
      | filled hes _ => exact absurd ((starts_cons_iff rfl).1 hes.starts) (by decide)

/-- It derives parameters without a macro body. -/
theorem entityText_parametersAlone {mode : StringMode} {n : Nat} :
    EntityText mode (n + 1) "m(n)>".toList () [] := by
  have hkey : NameText "m(n)>".toList "m" "(n)>".toList :=
    nameText_one rfl (boundary_cons rfl) rfl
  have hparam : NameText "n)>".toList "n" ")>".toList :=
    nameText_one rfl (boundary_cons rfl) rfl
  have hexpr : ConditionalText .filled mode n "n)>".toList (.name "n") ")>".toList :=
    .test (.operand (.operand (.operand (.chain (.name hparam) .nil))))
  have hparams : ArgumentsText .filled mode (n + 1) "n)>".toList [.name "n"] ['>'] :=
    .filled (.list hexpr .nil) rfl
  exact ⟨['>'], ['>'], .params hkey hparams, .valueAndPairs .absent .nil, rfl⟩

/-- It derives a macro body without parameters. -/
theorem entityText_bodyAlone {mode : StringMode} {n : Nat} :
    EntityText mode (n + 1) "k \x7b 1 \x7d>".toList () [] := by
  have hkey : NameText "k \x7b 1 \x7d>".toList "k" " \x7b 1 \x7d>".toList :=
    nameText_one rfl (boundary_cons rfl) rfl
  have hnumber : NumberText " 1 \x7d>".toList 1 " \x7d>".toList :=
    ⟨['1'], ⟨rfl, ⟨'1', [], rfl, rfl, by simp⟩, boundary_cons rfl⟩, by decide, by decide⟩
  have hexpr : ConditionalText .filled mode n " 1 \x7d>".toList (.number 1)
      " \x7d>".toList :=
    .test (.operand (.operand (.operand (.chain (.number hnumber) .nil))))
  exact ⟨" \x7b 1 \x7d>".toList, ['>'], .plain hkey, .macroBody rfl hexpr rfl, rfl⟩

/-- It derives an array right after the name. -/
theorem entityText_arrayAfterName {mode : StringMode} {n : Nat} :
    EntityText mode (n + 1) "k[]>".toList () [] := by
  have hkey : NameText "k[]>".toList "k" "[]>".toList :=
    nameText_one rfl (boundary_cons rfl) rfl
  have harray : ValueText mode (n + 1) "[]>".toList (.array []) ['>'] :=
    .array (.empty rfl rfl)
  exact ⟨"[]>".toList, ['>'], .plain hkey,
    .valueAndPairs (.present harray) .nil, rfl⟩

theorem sourceText_single {entry : List Char → Unit → List Char → Prop}
    {text : List Char} (h : entry text () []) :
    SourceText entry ('<' :: text) [()] :=
  ⟨[], .entry rfl h .done, isTail_nil⟩

/-- An empty list of parameters is read, although the reference grammar has
none; a parameter list without a macro body, a macro body without a parameter
list and an array right after the name are not read, although it has them. -/
theorem reading_departs_from_reference :
    ¬ FollowsReference { maxSize := 0 } "<m() \x7b 1 \x7d>" ∧
      ¬ FollowsReference { maxSize := 0 } "<m(n)>" ∧
      ¬ FollowsReference { maxSize := 0 } "<k \x7b 1 \x7d>" ∧
      ¬ FollowsReference { maxSize := 0 } "<k[]>" := by
  refine ⟨?_, ?_, ?_, ?_⟩
  · refine not_followsReference_of_accepted (by decide +kernel) fun items hitems => ?_
    obtain ⟨u, rest, hentity⟩ := entry_of_sourceText hitems
    exact not_entityText_emptyParameters hentity
  · exact not_followsReference_of_refused (by decide +kernel)
      (sourceText_single entityText_parametersAlone)
  · exact not_followsReference_of_refused (by decide +kernel)
      (sourceText_single entityText_bodyAlone)
  · exact not_followsReference_of_refused (by decide +kernel)
      (sourceText_single entityText_arrayAfterName)

end L20n.Grammar
