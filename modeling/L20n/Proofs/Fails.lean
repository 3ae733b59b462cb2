import L20n.Proofs.Acceptance

/-!
How a reader fails.  `Fails limit depth x text e` says that the reader `x`,
started at `text` with `depth` of `limit` levels entered, stops with the error
`e`.  Each combinator has one lemma that says exactly when it fails, beside the
one that says when it succeeds, so that the failure of a rule unfolds into what
was taken before and the part that failed.
-/

namespace L20n

open Text Grammar

namespace Reader

variable {α β : Type} {limit depth : Int} {text rest : List Char} {e : ReadError}

/-- The reader stops with this error. -/
def Fails (limit depth : Int) (x : Reader α) (text : List Char) (e : ReadError) :
    Prop :=
  ∃ s, x ⟨text, guardAt limit depth⟩ = .error e s

@[simp]
theorem not_fails_pure {a : α} : ¬ Fails limit depth (pure a) text e := by
  intro h
  obtain ⟨s, hs⟩ := h
  cases hs

@[simp]
theorem fails_fail {cause : Cause} :
    Fails limit depth (fail cause : Reader α) text e ↔
      e = .fault cause (some text) := by
  constructor
  · intro h
    obtain ⟨s, hs⟩ := h
    cases hs
    rfl
  · intro h
    rw [h]
    exact ⟨_, rfl⟩

@[simp]
theorem fails_throw {e' : ReadError} :
    Fails limit depth (throw e' : Reader α) text e ↔ e = e' := by
  constructor
  · intro h
    obtain ⟨s, hs⟩ := h
    cases hs
    rfl
  · intro h
    rw [h]
    exact ⟨_, rfl⟩

theorem fails_bind {x : Reader α} {f : α → Reader β} (hx : Steady x) :
    Fails limit depth (x >>= f) text e ↔
      Fails limit depth x text e ∨
        ∃ a middle, Takes limit depth x text a middle ∧
          Fails limit depth (f a) middle e := by
  constructor
  · intro h
    obtain ⟨s, hs⟩ := h
    cases hrun : x ⟨text, guardAt limit depth⟩ with
    | error e' s' =>
        simp only [Bind.bind, EStateM.bind, hrun, EStateM.Result.error.injEq] at hs
        exact Or.inl ⟨s', by rw [hrun, hs.1]⟩
    | ok a s' =>
        obtain ⟨htakes, heq⟩ := hx.takes_of_ok hrun
        rw [heq] at hrun
        simp only [Bind.bind, EStateM.bind, hrun] at hs
        exact Or.inr ⟨a, s'.data, htakes, s, hs⟩
  · intro h
    rcases h with ⟨s, hs⟩ | ⟨a, middle, hx, s, hs⟩
    · exact ⟨s, by simp [Bind.bind, EStateM.bind, hs]⟩
    · rw [Takes] at hx
      exact ⟨s, by simp [Bind.bind, EStateM.bind, hx, hs]⟩

/-- An optional construct decides between two ways to go on. -/
theorem fails_optional_bind {x : Reader (Option α)} {f : Option α → Reader β}
    (hx : Steady x) :
    Fails limit depth (x >>= f) text e ↔
      Fails limit depth x text e ∨
      (∃ middle, Takes limit depth x text none middle ∧
        Fails limit depth (f none) middle e) ∨
      ∃ a middle, Takes limit depth x text (some a) middle ∧
        Fails limit depth (f (some a)) middle e := by
  rw [fails_bind hx, Option.exists]

theorem fails_map {x : Reader α} {f : α → β} (hx : Steady x) :
    Fails limit depth (f <$> x) text e ↔ Fails limit depth x text e := by
  rw [← bind_pure_comp, fails_bind hx]
  simp

@[simp]
theorem not_fails_token? {token : Token} :
    ¬ Fails limit depth (token? token) text e := by
  intro h
  obtain ⟨s, hs⟩ := h
  cases hat : token.match? text <;> simp [token?, hat] at hs

theorem fails_token?_bind {token : Token} {f : Option (List Char) → Reader α} :
    Fails limit depth (token? token >>= f) text e ↔
      (∀ lexeme after, ¬ token.Found text lexeme after) ∧
          Fails limit depth (f none) text e ∨
        ∃ lexeme middle, token.Found text lexeme middle ∧
          Fails limit depth (f (some lexeme)) middle e := by
  rw [fails_optional_bind (steady_token? token)]
  simp only [not_fails_token?, takes_token?_none, takes_token?_some, false_or]
  constructor
  · intro h
    rcases h with ⟨_, ⟨hnone, rfl⟩, hfails⟩ | hsome
    · exact Or.inl ⟨hnone, hfails⟩
    · exact Or.inr hsome
  · intro h
    rcases h with ⟨hnone, hfails⟩ | hsome
    · exact Or.inl ⟨text, ⟨hnone, rfl⟩, hfails⟩
    · exact Or.inr hsome

theorem fails_seek?_bind {token : Token} {f : Option (List Char) → Reader α} :
    Fails limit depth (seek? token >>= f) text e ↔
      token.find? text = none ∧ Fails limit depth (f none) text e ∨
        ∃ found, token.find? text = some found ∧
          Fails limit depth (f (some found.source)) found.rest e := by
  cases hfind : token.find? text <;>
    simp [Fails, Bind.bind, EStateM.bind, seek?, hfind]

/-- A token with one lexeme, if it is there, decides between two ways to go
on. -/
theorem fails_choice_bind {token : Token} {choice : List Char}
    {follows : List Char → List Char → Prop}
    (hfound : ∀ {text lexeme rest}, token.Found text lexeme rest ↔
      lexeme = choice ∧ follows text rest)
    {f : Option (List Char) → Reader α} :
    Fails limit depth (token? token >>= f) text e ↔
      (∀ after, ¬ follows text after) ∧ Fails limit depth (f none) text e ∨
        ∃ middle, follows text middle ∧
          Fails limit depth (f (some choice)) middle e := by
  rw [fails_token?_bind]
  simp only [hfound]
  constructor
  · intro h
    rcases h with ⟨hnone, hfails⟩ | ⟨_, middle, ⟨rfl, hchoice⟩, hfails⟩
    · exact Or.inl ⟨fun after hchoice => hnone choice after ⟨rfl, hchoice⟩, hfails⟩
    · exact Or.inr ⟨middle, hchoice, hfails⟩
  · intro h
    rcases h with ⟨hnone, hfails⟩ | ⟨middle, hchoice, hfails⟩
    · exact Or.inl ⟨fun _ after hfound => hnone after hfound.2, hfails⟩
    · exact Or.inr ⟨choice, middle, ⟨rfl, hchoice⟩, hfails⟩

/-- An optional operator decides between two ways to go on. -/
theorem fails_operator {ι : Type} {token : Token} {symbol : ι → List Char}
    (hfound : ∀ {text lexeme rest}, token.Found text lexeme rest ↔
      ∃ op, lexeme = symbol op ∧ Lexeme (symbol op) text rest)
    {f : Option (List Char) → Reader α} :
    Fails limit depth (token? token >>= f) text e ↔
      (∀ op after, ¬ Lexeme (symbol op) text after) ∧
          Fails limit depth (f none) text e ∨
        ∃ op middle, Lexeme (symbol op) text middle ∧
          Fails limit depth (f (some (symbol op))) middle e := by
  rw [fails_token?_bind]
  constructor
  · intro h
    rcases h with ⟨hnone, hfails⟩ | ⟨lexeme, middle, hlexeme, hfails⟩
    · refine Or.inl ⟨fun op after hop => ?_, hfails⟩
      exact hnone _ after (hfound.2 ⟨op, rfl, hop⟩)
    · obtain ⟨op, rfl, hop⟩ := hfound.1 hlexeme
      exact Or.inr ⟨op, middle, hop, hfails⟩
  · intro h
    rcases h with ⟨hnone, hfails⟩ | ⟨op, middle, hop, hfails⟩
    · refine Or.inl ⟨fun lexeme after hlexeme => ?_, hfails⟩
      obtain ⟨op, _, hop⟩ := hfound.1 hlexeme
      exact hnone op after hop
    · exact Or.inr ⟨symbol op, middle, hfound.2 ⟨op, rfl, hop⟩, hfails⟩

theorem fails_ahead_bind {f : List Char → Reader α} :
    Fails limit depth (ahead >>= f) text e ↔ Fails limit depth (f text) text e :=
  Iff.rfl

theorem fails_peek?_bind {token : Token} {f : Option (List Char) → Reader α} :
    Fails limit depth (peek? token >>= f) text e ↔
      Fails limit depth (f ((token.match? text).map Token.Match.lexeme)) text e :=
  Iff.rfl

@[simp]
theorem fails_expect {token : Token} {what : String} :
    Fails limit depth (expect token what) text e ↔
      (∀ lexeme after, ¬ token.Found text lexeme after) ∧
        e = .fault (.expectedToken what) (some text) := by
  rw [expect, fails_token?_bind]
  simp

theorem fails_expect_bind {token : Token} {what : String} {choice : List Char}
    {follows : List Char → List Char → Prop}
    (hfound : ∀ {text lexeme rest}, token.Found text lexeme rest ↔
      lexeme = choice ∧ follows text rest)
    {x : Reader α} :
    Fails limit depth (do let _ ← expect token what; x) text e ↔
      e = .fault (.expectedToken what) (some text) ∧
          (∀ after, ¬ follows text after) ∨
        ∃ middle, follows text middle ∧ Fails limit depth x middle e := by
  rw [fails_bind (steady_expect _ _)]
  simp only [fails_expect, takes_expect, hfound]
  constructor
  · intro h
    rcases h with ⟨hnone, rfl⟩ | ⟨_, middle, ⟨-, hchoice⟩, hx⟩
    · exact Or.inl ⟨rfl, fun after hchoice => hnone choice after ⟨rfl, hchoice⟩⟩
    · exact Or.inr ⟨middle, hchoice, hx⟩
  · intro h
    rcases h with ⟨rfl, hnone⟩ | ⟨middle, hchoice, hx⟩
    · exact Or.inl ⟨fun _ after hfound => hnone after hfound.2, rfl⟩
    · exact Or.inr ⟨choice, middle, ⟨rfl, hchoice⟩, hx⟩

/-- A separator takes the blanks after it along. -/
theorem fails_separator_bind {token : Token} {choice : List Char}
    (hfound : ∀ {text rest}, (∃ lexeme, token.Found text lexeme rest) ↔
      ∃ middle, Lexeme choice text middle ∧ rest = trimStart middle)
    {f : Option (List Char) → Reader α} {x : Reader α}
    (hf : ∀ lexeme, f (some lexeme) = x) :
    Fails limit depth (token? token >>= f) text e ↔
      (∀ after, ¬ Lexeme choice text after) ∧ Fails limit depth (f none) text e ∨
        ∃ middle, Lexeme choice text middle ∧
          Fails limit depth x (trimStart middle) e := by
  rw [fails_token?_bind]
  constructor
  · intro h
    rcases h with ⟨hnone, hfails⟩ | ⟨lexeme, start, hlexeme, hfails⟩
    · refine Or.inl ⟨fun after hchoice => ?_, hfails⟩
      obtain ⟨lexeme, hlexeme⟩ := hfound.2 ⟨after, hchoice, rfl⟩
      exact hnone lexeme _ hlexeme
    · obtain ⟨middle, hchoice, rfl⟩ := hfound.1 ⟨lexeme, hlexeme⟩
      rw [hf] at hfails
      exact Or.inr ⟨middle, hchoice, hfails⟩
  · intro h
    rcases h with ⟨hnone, hfails⟩ | ⟨middle, hchoice, hfails⟩
    · refine Or.inl ⟨fun lexeme after hlexeme => ?_, hfails⟩
      obtain ⟨middle, hchoice, _⟩ := hfound.1 ⟨lexeme, hlexeme⟩
      exact hnone middle hchoice
    · obtain ⟨lexeme, hlexeme⟩ := hfound.2 ⟨middle, hchoice, rfl⟩
      rw [← hf lexeme] at hfails
      exact Or.inr ⟨lexeme, _, hlexeme, hfails⟩

theorem fails_colon_bind {what : String} {x : Reader α} :
    Fails limit depth (do let _ ← expect .colon what; x) text e ↔
      e = .fault (.expectedToken what) (some text) ∧
          (∀ after, ¬ Lexeme [':'] text after) ∨
        ∃ middle, Lexeme [':'] text middle ∧
          Fails limit depth x (trimStart middle) e := by
  rw [expect, bind_assoc, fails_separator_bind Token.found_colon (x := x)]
  · simp only [fails_bind (steady_fail _), fails_fail, not_takes_fail, false_and,
      exists_false, or_false, and_comm]
  · exact fun _ => rfl

theorem fails_required {x : Reader (Option α)} (hx : Steady x) {cause : Cause} :
    Fails limit depth (required cause x) text e ↔
      Fails limit depth x text e ∨
        ∃ middle, Takes limit depth x text none middle ∧
          e = .fault cause (some middle) := by
  rw [required, fails_optional_bind hx]
  simp

theorem fails_nested {x : Reader α} :
    Fails limit depth (nested x) text e ↔
      limit ≤ depth ∧ e = .fault (.tooDeep limit) (some text) ∨
        depth < limit ∧ Fails limit (depth + 1) x text e := by
  by_cases hlimit : limit ≤ depth
  · have hnot : ¬ depth < limit := by omega
    simp [Fails, nested, atLevel, DepthGuard.entering, DepthGuard.enter, guardAt,
      hlimit, hnot, eq_comm]
  · have hlt : depth < limit := by omega
    simp only [Fails, nested, atLevel, DepthGuard.entering, DepthGuard.enter,
      guardAt, hlimit, if_false, hlt, true_and, false_and, false_or]
    cases hrun : x ⟨text, { limit, depth := depth + 1, pending := none }⟩ with
    | error e' s => simp
    | ok a s => simp

theorem Progressing.fails_manyUpTo {step : Reader (Option α)}
    (hstep : Progressing limit depth step) {n : Nat} (hn : text.length ≤ n) :
    Fails limit depth (manyUpTo n step) text e ↔
      ∃ as middle, Iterates (fun text a rest =>
          Takes limit depth step text (some a) rest) as text middle ∧
        Fails limit depth step middle e := by
  induction n generalizing text with
  | zero =>
      obtain rfl : text = [] := List.eq_nil_of_length_eq_zero (by omega)
      simp only [manyUpTo, not_fails_pure, false_iff]
      intro h
      obtain ⟨as, middle, hiterates, hfails⟩ := h
      cases as with
      | nil =>
          obtain rfl : [] = middle := hiterates
          obtain ⟨s, hs⟩ := hfails
          have hends := hstep.ends
          rw [Takes, hs] at hends
          cases hends
      | cons a as =>
          obtain ⟨last, htakes, _⟩ := hiterates
          have hshort := hstep.shorter htakes
          simp at hshort
  | succ n ih =>
      rw [manyUpTo, fails_optional_bind hstep.steady]
      simp only [not_fails_pure, and_false, exists_false, false_or, bind_pure_comp,
        fails_map (hstep.steady.manyUpTo n)]
      constructor
      · intro h
        rcases h with hfails | ⟨a, middle, htakes, hmore⟩
        · exact ⟨[], text, rfl, hfails⟩
        · have hshort := hstep.shorter htakes
          obtain ⟨as, last, hiterates, hfails⟩ := (ih (by omega)).1 hmore
          exact ⟨a :: as, last, ⟨middle, htakes, hiterates⟩, hfails⟩
      · intro h
        obtain ⟨as, last, hiterates, hfails⟩ := h
        cases as with
        | nil =>
            obtain rfl : text = last := hiterates
            exact Or.inl hfails
        | cons a as =>
            obtain ⟨middle, htakes, hiterates⟩ := hiterates
            have hshort := hstep.shorter htakes
            exact Or.inr ⟨a, middle, htakes,
              (ih (by omega)).2 ⟨as, last, hiterates, hfails⟩⟩

/-- A loop fails in the round after those that succeed. -/
theorem Progressing.fails_many {step : Reader (Option α)}
    (hstep : Progressing limit depth step) :
    Fails limit depth (many step) text e ↔
      ∃ as middle, Iterates (fun text a rest =>
          Takes limit depth step text (some a) rest) as text middle ∧
        Fails limit depth step middle e := by
  rw [many, fails_ahead_bind]
  exact hstep.fails_manyUpTo (Nat.le_refl _)

theorem fails_afterComma {item : Reader α} (hitem : Steady item) :
    Fails limit depth (afterComma item) text e ↔
      ∃ middle, Lexeme [','] text middle ∧
        Fails limit depth item (trimStart middle) e := by
  rw [afterComma, fails_separator_bind Token.found_comma
    (x := do return some (← item)) fun _ => rfl]
  simp only [not_fails_pure, and_false, false_or, bind_pure_comp, fails_map hitem]

/-- A list read with commas fails in its first item, or in an item behind a
comma after those that succeed. -/
theorem fails_commaSeparated {item : Reader α} (hitem : Steady item) :
    Fails limit depth (commaSeparated item) text e ↔
      Fails limit depth item text e ∨
        ∃ a tail middle start, Takes limit depth item text a middle ∧
          ∃ last, Iterates (fun text a rest => ∃ start, Lexeme [','] text start ∧
            Takes limit depth item (trimStart start) a rest) tail middle last ∧
          Lexeme [','] last start ∧ Fails limit depth item (trimStart start) e := by
  have hmore := @progressing_afterComma α limit depth item hitem
  change Fails limit depth (item >>= fun first =>
    many (afterComma item) >>= fun more => pure (first :: more)) text e ↔ _
  simp only [fails_bind hitem, fails_bind hmore.steady.many, hmore.fails_many,
    not_fails_pure, and_false, exists_false, or_false, takes_afterComma_some hitem,
    fails_afterComma hitem]
  constructor
  · intro h
    rcases h with hfails | ⟨a, middle, ha, tail, last, htail, start, hcomma, hfails⟩
    · exact Or.inl hfails
    · exact Or.inr ⟨a, tail, middle, start, ha, last, htail, hcomma, hfails⟩
  · intro h
    rcases h with hfails | ⟨a, tail, middle, start, ha, last, htail, hcomma, hfails⟩
    · exact Or.inl hfails
    · exact Or.inr ⟨a, middle, ha, tail, last, htail, start, hcomma, hfails⟩

theorem fails_name {what : String} :
    Fails limit depth (name what) text e ↔
      e = .fault (.expectedToken what) (some text) ∧
        ∀ key after, ¬ NameText text key after := by
  rw [name, bind_pure_comp, fails_map (steady_expect _ _), fails_expect, and_comm]
  simp only [Token.found_name]
  constructor
  · intro h
    exact ⟨h.1, fun key after => h.2 key.toList after⟩
  · intro h
    refine ⟨h.1, fun word after hword => h.2 (String.ofList word) after ?_⟩
    rwa [NameText, String.toList_ofList]

@[simp]
theorem not_fails_name? : ¬ Fails limit depth name? text e := by
  rw [name?, bind_pure_comp, fails_map (steady_token? _)]
  exact not_fails_token?

def LongNumber (text : List Char) (digits : Nat) : Prop :=
  ∃ word rest, Word Char.isDigit text word rest ∧
    (word.takeWhile Char.isDigit).length = digits ∧ maxDigits < digits

theorem fails_number? :
    Fails limit depth number? text e ↔
      ∃ digits, LongNumber text digits ∧ e = .numberTooLong ⟨digits⟩ := by
  rw [number?, fails_token?_bind]
  simp only [not_fails_pure, and_false, false_or, Token.found_number]
  constructor
  · intro h
    obtain ⟨word, middle, hword, hfails⟩ := h
    simp only [numberValue_of_word hword, digitsValue] at hfails
    by_cases hdigits : (word.takeWhile Char.isDigit).length ≤ maxDigits
    · simp [hdigits] at hfails
    · simp only [hdigits, if_false, fails_throw] at hfails
      exact ⟨_, ⟨word, middle, hword, rfl, by omega⟩, hfails⟩
  · intro h
    obtain ⟨digits, ⟨word, middle, hword, rfl, hlong⟩, rfl⟩ := h
    refine ⟨word, middle, hword, ?_⟩
    have hnot : ¬ (word.takeWhile Char.isDigit).length ≤ maxDigits := by omega
    simp [numberValue_of_word hword, digitsValue, hnot]

theorem fails_literal {mode : StringMode} :
    Fails limit depth (literal mode) text e ↔
      e = .fault (.expectedToken "a string delimiter") (some text) ∧
          (∀ delimiter body, ¬ Delimiter text delimiter body) ∨
        ∃ delimiter body, Delimiter text delimiter body ∧
          ((∃ place, Body.scan delimiter body = .openPlaceholder place ∧
              e = .fault .unterminatedPlaceholder (some place)) ∨
            Body.scan delimiter body = .openLiteral ∧
              e = .fault (.unterminatedString (String.ofList delimiter))
                (some body)) := by
  rw [literal, fails_bind (steady_expect _ _)]
  simp only [fails_expect, takes_expect, Token.found_delimiter, fails_ahead_bind]
  refine or_congr and_comm ?_
  refine exists_congr fun delimiter => exists_congr fun body => and_congr_right ?_
  intro _
  cases hscan : Body.scan delimiter body with
  | closed pieces rest =>
      simp only [reduceCtorEq, false_and, exists_false, or_self, iff_false]
      intro h
      obtain ⟨s, hs⟩ := h
      cases hs
  | openPlaceholder place =>
      simp only [Body.openPlaceholder.injEq, exists_eq_left', reduceCtorEq, false_and,
        or_false]
      constructor
      · intro h
        obtain ⟨s, hs⟩ := h
        cases hs
        rfl
      · intro h
        rw [h]
        exact ⟨_, rfl⟩
  | openLiteral => simp

end Reader

end L20n
