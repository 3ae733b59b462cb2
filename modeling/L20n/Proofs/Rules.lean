import L20n.Proofs.Boundary

/-!
Each rule of the reader reads exactly its part of the grammar: it takes a text
if and only if the grammar derives one and what is left ends it.  The proof
goes by induction on the levels left.
-/

namespace L20n

open Text Grammar

/-- What is read inside a level with `n` levels left is exactly what the grammar
derives within `n` levels. -/
structure Inner.Reads (mode : StringMode) (n : Nat) : Prop where
  array : ∀ {limit depth : Int} {text v rest}, (limit - depth).toNat = n →
    (Reader.Takes limit depth (Reader.array mode (ofLevels mode n)) text v rest ↔
      ArrayText mode n text v rest)
  object : ∀ {limit depth : Int} {text v rest}, (limit - depth).toNat = n →
    (Reader.Takes limit depth (Reader.object mode (ofLevels mode n)) text v rest ↔
      ObjectText mode n text v rest)
  conditional : ∀ {limit depth : Int} {text e rest}, (limit - depth).toNat = n →
    (Reader.Takes limit depth (Reader.conditional mode (ofLevels mode n)) text
        (some e) rest ↔
      ConditionalText .possiblyEmpty mode n text e rest ∧ EndsConditional rest)
  logical : ∀ {limit depth : Int} {text e rest}, (limit - depth).toNat = n →
    (Reader.Takes limit depth (Reader.logical mode (ofLevels mode n)) text
        (some e) rest ↔
      LogicalText .possiblyEmpty mode n text e rest ∧ EndsLogical rest)
  binary : ∀ {limit depth : Int} {text e rest}, (limit - depth).toNat = n →
    (Reader.Takes limit depth (Reader.binary mode (ofLevels mode n)) text
        (some e) rest ↔
      BinaryText .possiblyEmpty mode n text e rest ∧ EndsBinary rest)

namespace Reader

variable {α : Type} {mode : StringMode} {n : Nat} {limit depth : Int}
  {text rest : List Char}

/-- A level can be entered exactly when there is one left. -/
theorem takes_nested_iff_levels (hn : (limit - depth).toNat = n)
    {x : Reader α} {a : α} {inside : Nat → Prop}
    (h : ∀ m, n = m + 1 → (limit - (depth + 1)).toNat = m →
      (Takes limit (depth + 1) x text a rest ↔ inside m)) :
    Takes limit depth (nested x) text a rest ↔ ∃ m, n = m + 1 ∧ inside m := by
  rw [takes_nested]
  constructor
  · rintro ⟨hlt, htakes⟩
    have hm : n = (limit - (depth + 1)).toNat + 1 := by omega
    exact ⟨_, hm, (h _ hm rfl).1 htakes⟩
  · rintro ⟨m, hm, hinside⟩
    exact ⟨by omega, (h m hm (by omega)).2 hinside⟩

section Levels

variable (hn : (limit - depth).toNat = n)
  (ih : ∀ m, n = m + 1 → Inner.Reads mode m)

include hn ih

theorem takes_nested_array {v : Value} :
    Takes limit depth (nested (Inner.ofLevels mode n).array) text v rest ↔
      ∃ m, n = m + 1 ∧ ArrayText mode m text v rest :=
  takes_nested_iff_levels hn fun m hm hlevels => by
    subst hm
    exact (ih m rfl).array hlevels

theorem takes_nested_object {v : Value} :
    Takes limit depth (nested (Inner.ofLevels mode n).object) text v rest ↔
      ∃ m, n = m + 1 ∧ ObjectText mode m text v rest :=
  takes_nested_iff_levels hn fun m hm hlevels => by
    subst hm
    exact (ih m rfl).object hlevels

theorem takes_expression {e : Expr} :
    Takes limit depth (expression (Inner.ofLevels mode n)) text e rest ↔
      ∃ m, n = m + 1 ∧ ConditionalText .possiblyEmpty mode m text e rest ∧
        EndsConditional rest := by
  have hsteady := (Inner.steady_ofLevels mode n).conditional.nested
  rw [expression, expression?, takes_required hsteady]
  refine takes_nested_iff_levels hn fun m hm hlevels => ?_
  subst hm
  exact (ih m rfl).conditional hlevels

theorem takes_operand_conditional {e : Expr} :
    Takes limit depth (operand (Inner.ofLevels mode n).conditional) text e rest ↔
      ∃ m, n = m + 1 ∧ ConditionalText .possiblyEmpty mode m text e rest ∧
        EndsConditional rest := by
  refine takes_nested_iff_levels hn fun m hm hlevels => ?_
  rw [takes_required (Inner.steady_ofLevels mode n).conditional]
  subst hm
  exact (ih m rfl).conditional hlevels

theorem takes_operand_logical {e : Expr} :
    Takes limit depth (operand (Inner.ofLevels mode n).logical) text e rest ↔
      ∃ m, n = m + 1 ∧ LogicalText .possiblyEmpty mode m text e rest ∧
        EndsLogical rest := by
  refine takes_nested_iff_levels hn fun m hm hlevels => ?_
  rw [takes_required (Inner.steady_ofLevels mode n).logical]
  subst hm
  exact (ih m rfl).logical hlevels

theorem takes_operand_binary {e : Expr} :
    Takes limit depth (operand (Inner.ofLevels mode n).binary) text e rest ↔
      ∃ m, n = m + 1 ∧ BinaryText .possiblyEmpty mode m text e rest ∧
        EndsBinary rest := by
  refine takes_nested_iff_levels hn fun m hm hlevels => ?_
  rw [takes_required (Inner.steady_ofLevels mode n).binary]
  subst hm
  exact (ih m rfl).binary hlevels

end Levels

theorem lexeme_valueOpen (text : List Char) :
    (Token.match? .valueOpen text).map Token.Match.lexeme =
      (trimStart text).head?.bind fun c =>
        if isValueOpen c then some [c] else none := by
  cases hbody : trimStart text with
  | nil =>
      simp [Token.match?, Token.blankBefore, Token.shape, Token.Shape.split?,
        hbody, Token.firstOf?, after?]
  | cons c tail =>
      by_cases hc : isValueOpen c = true
      · have hcases := isValueOpen_eq_true_iff.1 hc
        rcases hcases with rfl | rfl | rfl | rfl <;>
          simp [Token.match?, Token.blankBefore, Token.blankAfter, Token.shape,
            Token.Shape.split?, hbody, Token.firstOf?, after?, isValueOpen]
      · have hcases := hc
        simp only [isValueOpen_eq_true_iff, not_or] at hcases
        obtain ⟨h₁, h₂, h₃, h₄⟩ := hcases
        simp [Token.match?, Token.blankBefore, Token.shape, Token.Shape.split?,
          hbody, Token.firstOf?, after?, hc, Ne.symm h₁, Ne.symm h₂,
          Ne.symm h₃, Ne.symm h₄]

/-- The first character decides what kind of value is read. -/
theorem takes_value? {inner : Inner} (hinner : inner.Steady)
    {found : Option Value} :
    Takes limit depth (value? mode inner) text found rest ↔
      ¬ Starts isValueOpen text ∧ found = none ∧ text = rest ∨
      ∃ v, found = some v ∧
        (Starts (· == '[') text ∧
            Takes limit depth (nested inner.array) text v rest ∨
          Starts (· == '\x7b') text ∧
            Takes limit depth (nested inner.object) text v rest ∨
          Starts (fun c => c == '\x27' || c == '"') text ∧
            LiteralText mode text v rest) := by
  have harray := hinner.array.nested
  have hobject := hinner.object.nested
  rw [value?, takes_peek?_bind, lexeme_valueOpen]
  simp only [Starts]
  cases hbody : trimStart text with
  | nil => simp [eq_comm (a := none)]
  | cons c tail =>
      by_cases hc : isValueOpen c = true
      · rcases isValueOpen_eq_true_iff.1 hc with rfl | rfl | rfl | rfl
        · simp [takes_map (steady_literal mode), takes_literal, isValueOpen,
            and_comm]
        · simp [takes_map (steady_literal mode), takes_literal, isValueOpen,
            and_comm]
        · simp [takes_map harray, isValueOpen, and_comm]
        · simp [takes_map hobject, isValueOpen, and_comm]
      · have hcases := hc
        simp only [isValueOpen_eq_true_iff, not_or] at hcases
        simp [hc, hcases, eq_comm (a := none)]

theorem takes_value?_none {inner : Inner} (hinner : inner.Steady) :
    Takes limit depth (value? mode inner) text none rest ↔
      ¬ Starts isValueOpen text ∧ text = rest := by
  simp [takes_value? hinner]

section Levels

variable (hn : (limit - depth).toNat = n)
  (ih : ∀ m, n = m + 1 → Inner.Reads mode m)

include hn ih

theorem takes_value?_some {v : Value} :
    Takes limit depth (value? mode (Inner.ofLevels mode n)) text (some v) rest ↔
      ValueText mode n text v rest := by
  rw [takes_value? (Inner.steady_ofLevels mode n)]
  simp only [takes_nested_array hn ih, takes_nested_object hn ih]
  constructor
  · rintro (⟨-, hnone, -⟩ | ⟨w, hw, hread⟩)
    · cases hnone
    · obtain rfl := Option.some.inj hw
      rcases hread with ⟨-, m, rfl, harray⟩ | ⟨-, m, rfl, hobject⟩ | ⟨-, hliteral⟩
      · exact .array harray
      · exact .object hobject
      · exact .literal hliteral
  · intro h
    refine Or.inr ⟨v, rfl, ?_⟩
    cases h with
    | literal hliteral =>
        exact Or.inr (Or.inr ⟨starts_of_literalText hliteral, hliteral⟩)
    | array harray =>
        obtain ⟨after, hopen⟩ := harray.lexeme
        exact Or.inl ⟨hopen.starts (by decide), _, rfl, harray⟩
    | object hobject =>
        obtain ⟨after, hopen⟩ := hobject.lexeme
        exact Or.inr (Or.inl ⟨hopen.starts (by decide), _, rfl, hobject⟩)

theorem takes_value {v : Value} :
    Takes limit depth (value mode (Inner.ofLevels mode n)) text v rest ↔
      ValueText mode n text v rest := by
  rw [value, takes_required (steady_value? (Inner.steady_ofLevels mode n)),
    takes_value?_some hn ih]

theorem takes_member {what : String} {pair : String × Value} :
    Takes limit depth (member mode (Inner.ofLevels mode n) what) text pair rest ↔
      PairText mode n text pair rest := by
  have hvalue : Steady (value mode (Inner.ofLevels mode n)) :=
    steady_value (Inner.steady_ofLevels mode n)
  rw [member, takes_bind (steady_name what)]
  simp only [takes_name, takes_colon_bind, bind_pure_comp, takes_map hvalue,
    takes_value hn ih, valueText_trimStart]
  constructor
  · rintro ⟨key, a, hname, b, hcolon, v, hv, rfl⟩
    exact .pair hname hcolon hv
  · rintro ⟨hname, hcolon, hv⟩
    exact ⟨_, _, hname, _, hcolon, _, hv, rfl⟩

theorem takes_array {v : Value} :
    Takes limit depth (array mode (Inner.ofLevels mode n)) text v rest ↔
      ArrayText mode n text v rest := by
  have hvalue : Steady (value mode (Inner.ofLevels mode n)) :=
    steady_value (Inner.steady_ofLevels mode n)
  rw [array, takes_expect_bind Token.found_arrayOpen]
  simp only [takes_choice_bind Token.found_arrayClose,
    takes_bind hvalue.commaSeparated, takes_commaSeparated hvalue,
    takes_expect_bind Token.found_arrayClose, takes_pure, takes_value hn ih,
    valueText_trimStart, ← moreValues_iff]
  constructor
  · rintro ⟨a, hopen, ⟨-, vs, b, ⟨w, ws, c, rfl, hw, hws, -⟩, d, hclose, rfl, rfl⟩ |
      ⟨b, hclose, rfl, rfl⟩⟩
    · exact .items hopen hw hws hclose
    · exact .empty hopen hclose
  · intro h
    cases h with
    | empty hopen hclose => exact ⟨_, hopen, Or.inr ⟨_, hclose, rfl, rfl⟩⟩
    | items hopen hfirst hmore hclose =>
        refine ⟨_, hopen, Or.inl ⟨?_, _, _,
          ⟨_, _, _, rfl, hfirst, hmore, ?_⟩, _, hclose, rfl, rfl⟩⟩
        · intro after hempty
          exact hfirst.starts.not_lexeme (by decide) hempty
        · intro after hcomma
          exact absurd (hclose.head_eq hcomma) (by decide)

theorem takes_object {v : Value} :
    Takes limit depth (object mode (Inner.ofLevels mode n)) text v rest ↔
      ObjectText mode n text v rest := by
  have hmember : Steady (member mode (Inner.ofLevels mode n) "a key name") :=
    steady_member (Inner.steady_ofLevels mode n) _
  rw [object, takes_expect_bind Token.found_objectOpen]
  simp only [takes_choice_bind Token.found_objectClose,
    takes_bind hmember.commaSeparated, takes_commaSeparated hmember,
    takes_expect_bind Token.found_objectClose, takes_pure, takes_member hn ih,
    pairText_trimStart, ← morePairs_iff]
  constructor
  · rintro ⟨a, hopen, ⟨-, ps, b, ⟨p, more, c, rfl, hp, hmore, -⟩, d, hclose, rfl,
      rfl⟩ | ⟨b, hclose, rfl, rfl⟩⟩
    · exact .members hopen hp hmore hclose
    · exact .empty hopen hclose
  · intro h
    cases h with
    | empty hopen hclose => exact ⟨_, hopen, Or.inr ⟨_, hclose, rfl, rfl⟩⟩
    | members hopen hfirst hmore hclose =>
        refine ⟨_, hopen, Or.inl ⟨?_, _, _,
          ⟨_, _, _, rfl, hfirst, hmore, ?_⟩, _, hclose, rfl, rfl⟩⟩
        · intro after hempty
          exact hfirst.starts.not_lexeme (by decide) hempty
        · intro after hcomma
          exact absurd (hclose.head_eq hcomma) (by decide)

theorem takes_index {e : Expr} :
    Takes limit depth (index (Inner.ofLevels mode n)) text e rest ↔
      ∃ m middle, n = m + 1 ∧ ConditionalText .possiblyEmpty mode m text e middle ∧
        Lexeme [']'] middle rest := by
  rw [index, takes_bind (steady_expression (Inner.steady_ofLevels mode n))]
  simp only [takes_expression hn ih, takes_expect_bind Token.found_arrayClose,
    takes_pure]
  constructor
  · rintro ⟨e, middle, ⟨m, hm, hexpr, -⟩, last, hclose, rfl, rfl⟩
    exact ⟨m, middle, hm, hexpr, hclose⟩
  · rintro ⟨m, middle, hm, hexpr, hclose⟩
    exact ⟨e, middle, ⟨m, hm, hexpr, endsConditional_of_lexeme hclose (by decide)⟩,
      rest, hclose, rfl, rfl⟩

theorem takes_expressions {close : Token} {what : String} {c : Char}
    (hfound : ∀ {text lexeme rest}, close.Found text lexeme rest ↔
      lexeme = [c] ∧ Lexeme [c] text rest)
    (hc : c = ')' ∨ c = ']') {es : List Expr} :
    Takes limit depth (expressions (Inner.ofLevels mode n) close what) text es
        rest ↔
      ∃ middle, ExpressionsText .possiblyEmpty mode n text es middle ∧
        Lexeme [c] middle rest := by
  have hexpression := steady_expression (Inner.steady_ofLevels mode n)
  have hmem : c ∈ [')', ']', '\x7d', ',', ':'] := by
    rcases hc with rfl | rfl <;> decide
  rw [expressions, takes_bind hexpression.commaSeparated]
  simp only [takes_commaSeparated hexpression, takes_expect_bind hfound,
    takes_pure, takes_expression hn ih]
  constructor
  · rintro ⟨items, middle, ⟨e, es, a, rfl, ⟨m, rfl, he, -⟩, hes, -⟩, last, hclose,
      rfl, rfl⟩
    refine ⟨middle, .list he (moreExpressions_iff.2 (hes.mono ?_)), hclose⟩
    rintro text e rest ⟨start, hcomma, m', hm', he, -⟩
    obtain rfl : m = m' := by omega
    exact ⟨start, hcomma, conditionalText_trimStart.1 he⟩
  · rintro ⟨middle, ⟨he, hes⟩, hclose⟩
    have hends := endsConditional_of_lexeme hclose hmem
    refine ⟨_, middle, ⟨_, _, _, rfl, ⟨_, rfl, he, hes.ends hends⟩, ?_, ?_⟩,
      rest, hclose, rfl, rfl⟩
    · refine ((hes.iterates hends).mono ?_)
      rintro text e rest ⟨start, hcomma, he, hends⟩
      exact ⟨start, hcomma, _, rfl, conditionalText_trimStart.2 he, hends⟩
    · intro after hcomma
      have heq := hclose.head_eq hcomma
      rcases hc with rfl | rfl <;> exact absurd heq (by decide)

theorem takes_arguments {es : List Expr} :
    Takes limit depth (arguments (Inner.ofLevels mode n)) text es rest ↔
      ArgumentsText .possiblyEmpty mode n text es rest := by
  rw [arguments, takes_choice_bind Token.found_parenClose]
  simp only [takes_expressions hn ih Token.found_parenClose (Or.inl rfl),
    takes_pure]
  constructor
  · rintro (⟨-, middle, hes, hclose⟩ | ⟨middle, hclose, rfl, rfl⟩)
    · exact .filled hes hclose
    · exact .empty rfl hclose
  · intro h
    cases h with
    | empty _ hclose => exact Or.inr ⟨_, hclose, rfl, rfl⟩
    | filled hes hclose =>
        refine Or.inl ⟨fun after hempty => ?_, _, hes, hclose⟩
        exact hes.starts.not_lexeme (by decide) hempty

theorem takes_primary_some {e : Expr} :
    Takes limit depth (primary mode (Inner.ofLevels mode n)) text (some e) rest ↔
      PrimaryText .possiblyEmpty mode n text e rest := by
  have hinner := Inner.steady_ofLevels mode n
  rw [primary, takes_choice_bind Token.found_parenOpen]
  simp only [takes_bind (steady_expression hinner), takes_expression hn ih,
    takes_expect_bind Token.found_parenClose, takes_optional_bind steady_number?,
    takes_optional_bind (steady_value? hinner), takes_value?_some hn ih,
    takes_value?_none hinner, takes_number?_some, takes_number?_none,
    takes_optional_bind steady_name?, takes_name?_some, takes_pure,
    Option.map_none, Option.map_some, Option.some.injEq, reduceCtorEq, false_and,
    and_false, exists_false, false_or]
  constructor
  · rintro (⟨-, ⟨_, ⟨-, rfl⟩, ⟨_, ⟨-, rfl⟩, key, _, hname, rfl, rfl⟩ |
      ⟨v, _, hvalue, rfl, rfl⟩⟩ | ⟨k, _, hnumber, rfl, rfl⟩⟩ |
      ⟨a, hopen, e, b, ⟨m, rfl, hexpr, -⟩, _, hclose, rfl, rfl⟩)
    · exact .name hname
    · exact .value hvalue
    · exact .number hnumber
    · exact .paren hopen hexpr hclose
  · intro h
    cases h with
    | paren hopen hexpr hclose =>
        have hends := endsConditional_of_lexeme hclose (by decide)
        exact Or.inr ⟨_, hopen, _, _, ⟨_, rfl, hexpr, hends⟩, _, hclose, rfl, rfl⟩
    | number hnumber =>
        refine Or.inl ⟨fun after hopen => ?_, Or.inr ⟨_, _, hnumber, rfl, rfl⟩⟩
        obtain ⟨word, hword, -⟩ := hnumber
        exact hword.starts_first.not_lexeme (by decide) hopen
    | value hvalue =>
        refine Or.inl ⟨?_, Or.inl ⟨_, ⟨?_, rfl⟩, Or.inr ⟨_, _, hvalue, rfl, rfl⟩⟩⟩
        · intro after hopen
          exact hvalue.starts.not_lexeme (by decide) hopen
        · intro word after hword
          refine hword.starts_first.not_starts (fun c hc => ?_) hvalue.starts
          exact isValueOpen_eq_false_of_isAlphanum (by simp [Char.isAlphanum, hc])
    | name hname =>
        have hstarts := Word.starts_first hname
        refine Or.inl ⟨?_, Or.inl ⟨_, ⟨?_, rfl⟩, Or.inl
          ⟨_, ⟨?_, rfl⟩, _, _, hname, rfl, rfl⟩⟩⟩
        · intro after hopen
          exact hstarts.not_lexeme (by decide) hopen
        · intro word after hword
          exact hstarts.not_starts (fun _ => isDigit_eq_false_of_isAlpha)
            hword.starts_first
        · refine hstarts.not_starts fun c hc => ?_
          exact isValueOpen_eq_false_of_isAlphanum (by simp [Char.isAlphanum, hc])

theorem takes_suffix? {found : Option Suffix} :
    Takes limit depth (suffix? (Inner.ofLevels mode n)) text found rest ↔
      EndsMember text ∧ found = none ∧ text = rest ∨
        ∃ suffix, found = some suffix ∧
          SuffixText .possiblyEmpty mode n text suffix rest := by
  have hinner := Inner.steady_ofLevels mode n
  rw [suffix?]
  simp only [takes_choice_bind Token.found_attributeDot,
    takes_choice_bind Token.found_attributeIndexOpen,
    takes_choice_bind Token.found_propertyDot,
    takes_choice_bind Token.found_propertyIndexOpen,
    takes_choice_bind Token.found_callOpen, Option.isSome_none,
    Option.isSome_some, if_true, Bool.false_eq_true, if_false, bind_pure_comp,
    takes_map (steady_name _), takes_map (steady_index hinner),
    takes_map (steady_arguments hinner), takes_name, takes_index hn ih,
    takes_arguments hn ih, takes_pure, List.cons_append, List.nil_append]
  constructor
  · rintro (⟨-, ⟨-, ⟨hdot, ⟨hindex, ⟨hcall, rfl, rfl⟩ | ⟨a, rfl, es, hes, rfl⟩⟩ |
      ⟨a, rfl, e, ⟨m, b, rfl, he, hclose⟩, rfl⟩⟩ | ⟨a, rfl, key, hkey, rfl⟩⟩ |
      ⟨a, rfl, e, ⟨m, b, rfl, he, hclose⟩, rfl⟩⟩ | ⟨a, rfl, key, hkey, rfl⟩)
    · exact Or.inl ⟨endsMember_iff.2 ⟨hdot, hindex, hcall⟩, rfl, rfl⟩
    · exact Or.inr ⟨_, rfl, .call hes⟩
    · exact Or.inr ⟨_, rfl, .propAt he hclose⟩
    · exact Or.inr ⟨_, rfl, .prop hkey⟩
    · exact Or.inr ⟨_, rfl, .attrAt he hclose⟩
    · exact Or.inr ⟨_, rfl, .attr hkey⟩
  · rintro (⟨hends, rfl, rfl⟩ | ⟨suffix, rfl, hsuffix⟩)
    · obtain ⟨hdot, hindex, hcall⟩ := endsMember_iff.1 hends
      exact Or.inl ⟨fun a => hdot ('.' :: a), Or.inl ⟨fun a => hindex ('.' :: a),
        Or.inl ⟨hdot, Or.inl ⟨hindex, Or.inl ⟨hcall, rfl, rfl⟩⟩⟩⟩⟩
    · cases hsuffix with
      | attr hkey => exact Or.inr ⟨_, rfl, _, hkey, rfl⟩
      | attrAt he hclose =>
          exact Or.inl ⟨by simp, Or.inr ⟨_, rfl, _, ⟨_, _, rfl, he, hclose⟩, rfl⟩⟩
      | prop hkey =>
          refine Or.inl ⟨fun after heq => ?_,
            Or.inl ⟨by simp, Or.inr ⟨_, rfl, _, hkey, rfl⟩⟩⟩
          have hstarts := Word.starts_first hkey
          exact hstarts.ne_cons rfl rfl after (List.cons.inj heq).2
      | propAt he hclose =>
          refine Or.inl ⟨by simp, Or.inl ⟨fun after heq => ?_, Or.inl ⟨by simp,
            Or.inr ⟨_, rfl, _, ⟨_, _, rfl, he, hclose⟩, rfl⟩⟩⟩⟩
          exact he.starts.ne_cons rfl rfl after (List.cons.inj heq).2
      | call hes =>
          exact Or.inl ⟨by simp, Or.inl ⟨by simp, Or.inl ⟨by simp, Or.inl
            ⟨by simp, Or.inr ⟨_, rfl, _, hes, rfl⟩⟩⟩⟩⟩

theorem length_lt_of_suffixText {suffix : Suffix}
    (h : SuffixText .possiblyEmpty mode n text suffix rest) :
    rest.length < text.length := by
  have hinner := Inner.steady_ofLevels mode n
  cases h with
  | attr hkey =>
      have hlt := Word.length_lt hkey
      simp only [List.length_cons]
      omega
  | attrAt he hclose =>
      have hindex := (takes_index hn ih).2 ⟨_, _, rfl, he, hclose⟩
      have hle := ((steady_index hinner).suffix_of_takes hindex).length_le
      simp only [List.length_cons]
      omega
  | prop hkey =>
      have hlt := Word.length_lt hkey
      simp only [List.length_cons]
      omega
  | propAt he hclose =>
      have hindex := (takes_index hn ih).2 ⟨_, _, rfl, he, hclose⟩
      have hle := ((steady_index hinner).suffix_of_takes hindex).length_le
      simp only [List.length_cons]
      omega
  | call hes =>
      have harguments := (takes_arguments hn ih).2 hes
      have hle := ((steady_arguments hinner).suffix_of_takes harguments).length_le
      simp only [List.length_cons]
      omega

theorem takes_suffix?_some {suffix : Suffix} :
    Takes limit depth (suffix? (Inner.ofLevels mode n)) text (some suffix) rest ↔
      SuffixText .possiblyEmpty mode n text suffix rest := by
  simp [takes_suffix? hn ih]

theorem takes_suffix?_none :
    Takes limit depth (suffix? (Inner.ofLevels mode n)) text none rest ↔
      EndsMember text ∧ text = rest := by
  simp [takes_suffix? hn ih]

theorem progressing_suffix? :
    Progressing limit depth (suffix? (Inner.ofLevels mode n)) where
  steady := steady_suffix? (Inner.steady_ofLevels mode n)
  shorter := fun h =>
    length_lt_of_suffixText hn ih ((takes_suffix?_some hn ih).1 h)
  stays := fun h => ((takes_suffix?_none hn ih).1 h).2
  ends := (takes_suffix?_none hn ih).2 ⟨by simp [EndsMember], rfl⟩

theorem takes_chain_some {e : Expr} :
    Takes limit depth (chain mode (Inner.ofLevels mode n)) text (some e) rest ↔
      MemberText .possiblyEmpty mode n text e rest ∧ EndsMember rest := by
  have hinner := Inner.steady_ofLevels mode n
  have hsuffix := progressing_suffix? hn ih
  rw [chain, takes_optional_bind (steady_primary hinner)]
  simp only [takes_primary_some hn ih, bind_pure_comp,
    takes_map hsuffix.steady.many, hsuffix.takes_many, takes_suffix?_some hn ih,
    takes_suffix?_none hn ih, takes_pure, ← suffixesText_iff]
  constructor
  · rintro (⟨_, -, hnone, -⟩ | ⟨base, a, hbase, suffixes, ⟨hmore, hends, -⟩, heq⟩)
    · cases hnone
    · obtain rfl := Option.some.inj heq
      exact ⟨.chain hbase hmore, hends⟩
  · rintro ⟨⟨hbase, hmore⟩, hends⟩
    exact Or.inr ⟨_, _, hbase, _, ⟨hmore, hends, trivial⟩, rfl⟩

theorem takes_unary_some {e : Expr} :
    Takes limit depth (unary mode (Inner.ofLevels mode n)) text (some e) rest ↔
      UnaryText .possiblyEmpty mode n text e rest ∧ EndsMember rest := by
  have hchain : Steady (chain mode (Inner.ofLevels mode n)) :=
    steady_chain (Inner.steady_ofLevels mode n)
  rw [unary, takes_operator Token.found_unaryOp]
  simp only [Option.bind_none, Option.bind_some, UnaryOp.ofSymbol?_symbol,
    bind_pure_comp, takes_map (hchain.required _), takes_required hchain,
    takes_chain_some hn ih]
  constructor
  · rintro (⟨-, hmember, hends⟩ | ⟨op, a, hop, e, ⟨hmember, hends⟩, heq⟩)
    · exact ⟨.operand hmember, hends⟩
    · obtain rfl := Option.some.inj heq
      exact ⟨.operator op hop hmember, hends⟩
  · rintro ⟨hunary, hends⟩
    cases hunary with
    | operand hmember =>
        refine Or.inl ⟨fun op after hop => ?_, hmember, hends⟩
        cases op <;> exact hmember.starts.not_lexeme (by decide) hop
    | operator op hop hmember =>
        exact Or.inr ⟨op, _, hop, _, ⟨hmember, hends⟩, rfl⟩

theorem takes_binary_some {e : Expr} :
    Takes limit depth (binary mode (Inner.ofLevels mode n)) text (some e) rest ↔
      BinaryText .possiblyEmpty mode n text e rest ∧ EndsBinary rest := by
  have hinner := Inner.steady_ofLevels mode n
  rw [binary, takes_optional_bind (steady_unary hinner)]
  simp only [takes_operator Token.found_binaryOp, Option.bind_none,
    Option.bind_some, BinaryOp.ofSymbol?_symbol, bind_pure_comp,
    takes_map hinner.binary.operand, takes_operand_binary hn ih,
    takes_unary_some hn ih, takes_pure]
  constructor
  · rintro (⟨_, -, hnone, -⟩ | ⟨left, a, ⟨hleft, hends⟩, ⟨hnone, heq, rfl⟩ |
      ⟨op, b, hop, right, ⟨m, rfl, hright, hends'⟩, heq⟩⟩)
    · cases hnone
    · obtain rfl := Option.some.inj heq
      exact ⟨.operand hleft, hends, hnone⟩
    · obtain rfl := Option.some.inj heq
      exact ⟨.operator op hleft hop hright, hends'⟩
  · rintro ⟨hbinary, hends⟩
    cases hbinary with
    | operand hunary =>
        exact Or.inr ⟨_, _, ⟨hunary, hends.1⟩, Or.inl ⟨hends.2, rfl, rfl⟩⟩
    | operator op hleft hop hright =>
        exact Or.inr ⟨_, _, ⟨hleft, endsMember_of_binaryOp hop⟩,
          Or.inr ⟨op, _, hop, _, ⟨_, rfl, hright, hends⟩, rfl⟩⟩

theorem takes_logical_some {e : Expr} :
    Takes limit depth (logical mode (Inner.ofLevels mode n)) text (some e) rest ↔
      LogicalText .possiblyEmpty mode n text e rest ∧ EndsLogical rest := by
  have hinner := Inner.steady_ofLevels mode n
  rw [logical, takes_optional_bind (steady_binary hinner)]
  simp only [takes_operator Token.found_logicalOp, Option.bind_none,
    Option.bind_some, LogicalOp.ofSymbol?_symbol, bind_pure_comp,
    takes_map hinner.logical.operand, takes_operand_logical hn ih,
    takes_binary_some hn ih, takes_pure]
  constructor
  · rintro (⟨_, -, hnone, -⟩ | ⟨left, a, ⟨hleft, hends⟩, ⟨hnone, heq, rfl⟩ |
      ⟨op, b, hop, right, ⟨m, rfl, hright, hends'⟩, heq⟩⟩)
    · cases hnone
    · obtain rfl := Option.some.inj heq
      exact ⟨.operand hleft, hends, hnone⟩
    · obtain rfl := Option.some.inj heq
      exact ⟨.operator op hleft hop hright, hends'⟩
  · rintro ⟨hlogical, hends⟩
    cases hlogical with
    | operand hbinary =>
        exact Or.inr ⟨_, _, ⟨hbinary, hends.1⟩, Or.inl ⟨hends.2, rfl, rfl⟩⟩
    | operator op hleft hop hright =>
        exact Or.inr ⟨_, _, ⟨hleft, endsBinary_of_logicalOp hop⟩,
          Or.inr ⟨op, _, hop, _, ⟨_, rfl, hright, hends⟩, rfl⟩⟩

theorem takes_conditional_some {e : Expr} :
    Takes limit depth (conditional mode (Inner.ofLevels mode n)) text (some e)
        rest ↔
      ConditionalText .possiblyEmpty mode n text e rest ∧ EndsConditional rest := by
  have hinner := Inner.steady_ofLevels mode n
  rw [conditional, takes_optional_bind (steady_logical hinner)]
  simp only [takes_logical_some hn ih, takes_question_bind,
    takes_bind hinner.conditional.operand, takes_operand_conditional hn ih,
    takes_colon_bind, conditionalText_trimStart, takes_pure]
  constructor
  · rintro (⟨_, -, hnone, -⟩ | ⟨test, a, ⟨htest, hends⟩, ⟨hnone, heq, rfl⟩ |
      ⟨b, hquestion, yes, c, ⟨m, rfl, hyes, -⟩, d, hcolon, no, last,
        ⟨m', hm', hno, hends'⟩, heq, rfl⟩⟩)
    · cases hnone
    · obtain rfl := Option.some.inj heq
      exact ⟨.test htest, hends, hnone⟩
    · obtain rfl := Option.some.inj heq
      obtain rfl : m = m' := by omega
      exact ⟨.branches htest hquestion hyes hcolon hno, hends'⟩
  · rintro ⟨hconditional, hends⟩
    cases hconditional with
    | test hlogical =>
        exact Or.inr ⟨_, _, ⟨hlogical, hends.1⟩, Or.inl ⟨hends.2, rfl, rfl⟩⟩
    | branches htest hquestion hyes hcolon hno =>
        have htestEnds := endsLogical_of_lexeme hquestion (by decide)
        have hyesEnds := endsConditional_of_lexeme hcolon (by decide)
        exact Or.inr ⟨_, _, ⟨htest, htestEnds⟩, Or.inr ⟨_, hquestion, _, _,
          ⟨_, rfl, hyes, hyesEnds⟩, _, hcolon, _, _, ⟨_, rfl, hno, hends⟩, rfl, rfl⟩⟩

end Levels

/-- One level: the rules read what the grammar derives if what they nest
does. -/
theorem reads_of_inner (ih : ∀ m, n = m + 1 → Inner.Reads mode m) :
    Inner.Reads mode n where
  array hn := takes_array hn ih
  object hn := takes_object hn ih
  conditional hn := takes_conditional_some hn ih
  logical hn := takes_logical_some hn ih
  binary hn := takes_binary_some hn ih

/-- With any number of levels left, the rules read what the grammar derives. -/
theorem reads_ofLevels (mode : StringMode) (n : Nat) : Inner.Reads mode n := by
  induction n with
  | zero =>
      apply reads_of_inner
      intro m hm
      cases hm
  | succ n ih =>
      apply reads_of_inner
      intro m hm
      obtain rfl : n = m := by omega
      exact ih

end Reader

end L20n
