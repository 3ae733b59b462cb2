import L20n.Proofs.Viable

/-!
Every rule for values and expressions fails at a place up to which its text is
viable.  The proof goes by induction on the levels left: a rule fails in the
part that it reads next, or where that part is missing, and both are completed
by the shortest text that the grammar allows there.
-/

namespace L20n

open Text Grammar Reader

section Defaults

variable {mode : StringMode} {lists : ListRule} {n : Nat} {rest : List Char}

theorem nameText_spaced (h : Neutral rest) :
    NameText (' ' :: 'a' :: rest) (String.ofList ['a']) rest := by
  rw [NameText, String.toList_ofList]
  have hword : Word Char.isAlpha (['a'] ++ rest) ['a'] rest :=
    word_cons (by decide) (by decide) (by simp) h.stops
  exact hword.congr (trimStart_space _).symm

theorem literalText_spaced (h : Neutral rest) :
    LiteralText mode (' ' :: '"' :: '"' :: rest) (Value.ofPieces mode []) rest := by
  obtain ⟨delimiter, body, pieces, hdelimiter, hbody, heq⟩ :=
    literalText_of_bodyText mode (.close rest) h.stops
  exact ⟨delimiter, body, pieces,
    ⟨lexeme_space hdelimiter.ahead, hdelimiter.longest⟩, hbody, heq⟩

theorem memberText_spaced (h : Neutral rest) :
    MemberText lists mode n (' ' :: 'a' :: rest) (.name (String.ofList ['a'])) rest :=
  .chain (.name (nameText_spaced h)) .nil

theorem binaryText_spaced (h : Neutral rest) :
    BinaryText lists mode n (' ' :: 'a' :: rest) (.name (String.ofList ['a'])) rest :=
  .operand (.operand (memberText_spaced h))

theorem logicalText_spaced (h : Neutral rest) :
    LogicalText lists mode n (' ' :: 'a' :: rest) (.name (String.ofList ['a'])) rest :=
  .operand (binaryText_spaced h)

theorem conditionalText_spaced (h : Neutral rest) :
    ConditionalText lists mode n (' ' :: 'a' :: rest) (.name (String.ofList ['a']))
      rest :=
  .test (logicalText_spaced h)

end Defaults

section Literals

variable {delimiter text place rest : List Char} {mode : StringMode} {e : ReadError}
  {limit depth : Int}

theorem Body.push_eq_openPlaceholder_iff {piece : Piece} {body : Body} :
    body.push piece = .openPlaceholder place ↔ body = .openPlaceholder place := by
  cases body <;> simp [push]

/-- A blank and the delimiter close a literal. -/
theorem bodyText_blank (hspace : ' ' ∉ delimiter) (hne : delimiter ≠ [])
    (rest : List Char) :
    BodyText delimiter (' ' :: (delimiter ++ rest)) [.plain ' '] rest := by
  refine .plain (by decide) ?_ (by simp) (.close rest)
  intro after heq
  cases delimiter with
  | nil => exact hne rfl
  | cons quote more =>
      obtain ⟨rfl, -⟩ := List.cons.inj heq
      exact hspace List.mem_cons_self

/-- Where a placeholder has no end, a literal can be closed instead of opening
it. -/
theorem Body.bodyText_of_openPlaceholder (hspace : ' ' ∉ delimiter)
    (hne : delimiter ≠ []) (h : scan delimiter text = openPlaceholder place) :
    ∃ front, text = front ++ place ∧ ∀ rest, ∃ pieces,
      BodyText delimiter (front ++ ' ' :: (delimiter ++ rest)) pieces rest := by
  fun_induction scan delimiter text with
  | case1 | case2 | case3 => cases h
  | case4 c tail _ ih =>
      obtain ⟨front, rfl, hbody⟩ := ih (push_eq_openPlaceholder_iff.1 h)
      refine ⟨'\\' :: c :: front, rfl, fun rest => ?_⟩
      obtain ⟨pieces, hpieces⟩ := hbody rest
      exact ⟨_, .escaped c hpieces⟩
  | case5 tail =>
      cases h
      exact ⟨[], rfl, fun rest => ⟨_, bodyText_blank hspace hne rest⟩⟩
  | case6 tail inner after hthrough _ ih =>
      obtain ⟨front, rfl, hbody⟩ := ih (push_eq_openPlaceholder_iff.1 h)
      have hinner := (through?_eq_some_iff (by simp)).1 hthrough
      refine ⟨'\x7b' :: '\x7b' :: (inner ++ front), ?_, fun rest => ?_⟩
      · rw [hinner.split]
        simp
      · obtain ⟨pieces, hpieces⟩ := hbody rest
        have hinner' := hinner.self.append (front ++ ' ' :: (delimiter ++ rest))
        rw [← List.append_assoc] at hinner'
        exact ⟨_, .placeholder hinner' hpieces⟩
  | case7 c tail hlone hescape hopen hnone ih =>
      obtain ⟨front, rfl, hbody⟩ := ih (push_eq_openPlaceholder_iff.1 h)
      refine ⟨c :: front, rfl, fun rest => ?_⟩
      obtain ⟨pieces, hpieces⟩ := hbody rest
      have hplain : ∀ after, c :: front ++ place ≠ delimiter ++ after :=
        fun after heq => Token.after?_eq_none_iff.1 hnone after heq.symm
      have hbraces : ∀ after, c :: front ++ place ≠ ['\x7b', '\x7b'] ++ after := by
        intro after heq
        obtain ⟨hc, htail⟩ := List.cons.inj heq
        exact hopen after hc htail
      refine ⟨_, .plain ?_ (ne_append_space delimiter hplain hspace)
        (ne_append_space ['\x7b', '\x7b'] hbraces (by decide)) hpieces⟩
      rintro rfl
      cases htail : front ++ place with
      | nil => exact hlone rfl htail
      | cons d tail => exact hescape d tail rfl htail

theorem Delimiter.space_notMem (h : Delimiter text delimiter rest) :
    ' ' ∉ delimiter := by
  obtain ⟨quote, hkind, rfl | ⟨rfl, -⟩⟩ := h.longest <;>
    rcases hkind with rfl | rfl <;> decide

/-- A blank behind some of the text keeps the delimiter as it is. -/
theorem Delimiter.splice {front : List Char}
    (h : Delimiter text delimiter (front ++ place)) (rest : List Char) :
    ∃ text', SameFront text place text' (' ' :: rest) ∧
      Delimiter text' delimiter (front ++ ' ' :: rest) := by
  obtain ⟨quote, more, hquote, -⟩ := h.quote
  obtain ⟨text', hfront, hahead⟩ :=
    h.ahead.splice_of_ne_nil (by simp [hquote]) (front ++ ' ' :: rest)
  refine ⟨text', hfront.trans ⟨front, rfl, rfl⟩, hahead, ?_⟩
  obtain ⟨quote, hkind, hlong | ⟨hshort, hrest⟩⟩ := h.longest
  · exact ⟨quote, hkind, Or.inl hlong⟩
  · refine ⟨quote, hkind, Or.inr ⟨hshort, ?_⟩⟩
    apply ne_append_space [quote, quote] hrest
    rcases hkind with rfl | rfl <;> decide

theorem viable_literal (h : Fails limit depth (literal mode) text e) :
    Viable (LiteralText mode) text e := by
  rw [fails_literal] at h
  rcases h with ⟨rfl, -⟩ | ⟨delimiter, body, hdelimiter, h⟩
  · exact viable_missing fun rest hrest =>
      ⟨_, _, neutral_space _, literalText_spaced hrest⟩
  · have hspace := hdelimiter.space_notMem
    obtain ⟨quote, more, hquote, -⟩ := hdelimiter.quote
    have hne : delimiter ≠ [] := by simp [hquote]
    -- In both cases the body has a front that a blank and the delimiter close.
    obtain ⟨place, front, hlies, rfl, hbody⟩ : ∃ place front, e.LiesAt place ∧
        body = front ++ place ∧ ∀ rest, ∃ pieces,
          BodyText delimiter (front ++ ' ' :: (delimiter ++ rest)) pieces rest := by
      rcases h with ⟨place, hscan, rfl⟩ | ⟨-, rfl⟩
      · obtain ⟨front, hsplit, hbody⟩ :=
          Body.bodyText_of_openPlaceholder hspace hne hscan
        exact ⟨place, front, rfl, hsplit, hbody⟩
      · exact ⟨body, [], rfl, rfl, fun rest => ⟨_, bodyText_blank hspace hne rest⟩⟩
    have hsuffix := (List.suffix_append front place).trans hdelimiter.ahead.suffix
    refine ⟨place, hlies, hsuffix, Or.inr fun rest hrest => ?_⟩
    obtain ⟨text', hfront, hdelimiter'⟩ := hdelimiter.splice (delimiter ++ rest)
    obtain ⟨pieces, hpieces⟩ := hbody rest
    exact ⟨text', _, _, hfront, neutral_space _, delimiter, _, pieces, hdelimiter',
      hpieces, rfl⟩

end Literals

/-- What is read inside a level with `n` levels left fails where its text is
viable. -/
structure Inner.Viable (mode : StringMode) (n : Nat) : Prop where
  array : ∀ {limit depth : Int} {text e}, (limit - depth).toNat = n →
    Fails limit depth (Reader.array mode (ofLevels mode n)) text e →
    L20n.Viable (ArrayText mode n) text e
  object : ∀ {limit depth : Int} {text e}, (limit - depth).toNat = n →
    Fails limit depth (Reader.object mode (ofLevels mode n)) text e →
    L20n.Viable (ObjectText mode n) text e
  conditional : ∀ {limit depth : Int} {text e}, (limit - depth).toNat = n →
    Fails limit depth (Reader.conditional mode (ofLevels mode n)) text e →
    L20n.Viable (ConditionalText .possiblyEmpty mode n) text e
  logical : ∀ {limit depth : Int} {text e}, (limit - depth).toNat = n →
    Fails limit depth (Reader.logical mode (ofLevels mode n)) text e →
    L20n.Viable (LogicalText .possiblyEmpty mode n) text e
  binary : ∀ {limit depth : Int} {text e}, (limit - depth).toNat = n →
    Fails limit depth (Reader.binary mode (ofLevels mode n)) text e →
    L20n.Viable (BinaryText .possiblyEmpty mode n) text e

def InnerText {α : Type} (R : Nat → List Char → α → List Char → Prop) (n : Nat)
    (text : List Char) (a : α) (rest : List Char) : Prop :=
  ∃ m, n = m + 1 ∧ R m text a rest

section Inside

variable {α : Type} {R : Nat → List Char → α → List Char → Prop} {n : Nat}
  {limit depth : Int} {text : List Char} {e : ReadError}

theorem local_innerText (h : ∀ m, Local (R m)) : Local (InnerText R n) := by
  intro text a rest hinner rest' hjoins
  obtain ⟨m, rfl, ha⟩ := hinner
  obtain ⟨text', hfront, ha'⟩ := h m ha hjoins
  exact ⟨text', hfront, m, rfl, ha'⟩

/-- A nested rule is refused, or fails with one level less. -/
theorem viable_nested (hn : (limit - depth).toNat = n) {x : Reader α}
    (hx : ∀ m, n = m + 1 → (limit - (depth + 1)).toNat = m →
      Fails limit (depth + 1) x text e → Viable (R m) text e)
    (h : Fails limit depth (nested x) text e) : Viable (InnerText R n) text e := by
  rw [fails_nested] at h
  rcases h with ⟨-, rfl⟩ | ⟨hlt, h⟩
  · exact viable_tooDeep
  · have hm : n = (limit - (depth + 1)).toNat + 1 := by omega
    exact (hx _ hm rfl h).mono fun text' a rest ha => ⟨a, _, hm, ha⟩

end Inside

section Values

variable {mode : StringMode} {n : Nat} {limit depth : Int} {text : List Char}
  {e : ReadError}

theorem fails_value? {inner : Inner} (hinner : inner.Steady)
    (h : Fails limit depth (value? mode inner) text e) :
    Fails limit depth (nested inner.array) text e ∨
      Fails limit depth (nested inner.object) text e ∨
        Fails limit depth (literal mode) text e := by
  rw [value?, fails_peek?_bind] at h
  split at h
  · exact absurd h not_fails_pure
  · rw [bind_pure_comp, fails_map hinner.array.nested] at h
    exact Or.inl h
  · rw [bind_pure_comp, fails_map hinner.object.nested] at h
    exact Or.inr (Or.inl h)
  · rw [bind_pure_comp, fails_map (steady_literal mode)] at h
    exact Or.inr (Or.inr h)

section Levels

variable (hn : (limit - depth).toNat = n)
  (ih : ∀ m, n = m + 1 → Inner.Viable mode m)

include hn ih

theorem viable_value?
    (h : Fails limit depth (value? mode (Inner.ofLevels mode n)) text e) :
    Viable (ValueText mode n) text e := by
  rcases fails_value? (Inner.steady_ofLevels mode n) h with h | h | h
  · have hinner : Viable (InnerText (ArrayText mode) n) text e := by
      refine viable_nested hn (fun m hm hlevels hfails => ?_) h
      subst hm
      exact (ih m rfl).array hlevels hfails
    refine hinner.mono fun text' v rest hv => ?_
    obtain ⟨m, rfl, hv⟩ := hv
    exact ⟨v, .array hv⟩
  · have hinner : Viable (InnerText (ObjectText mode) n) text e := by
      refine viable_nested hn (fun m hm hlevels hfails => ?_) h
      subst hm
      exact (ih m rfl).object hlevels hfails
    refine hinner.mono fun text' v rest hv => ?_
    obtain ⟨m, rfl, hv⟩ := hv
    exact ⟨v, .object hv⟩
  · exact (viable_literal h).mono fun text' v rest hv => ⟨v, .literal hv⟩

theorem viable_value
    (h : Fails limit depth (value mode (Inner.ofLevels mode n)) text e) :
    Viable (ValueText mode n) text e := by
  have hinner := Inner.steady_ofLevels mode n
  rw [value, fails_required (steady_value? hinner)] at h
  rcases h with h | ⟨middle, hnone, rfl⟩
  · exact viable_value? hn ih h
  · obtain rfl := ((takes_value?_none hinner).1 hnone).2
    exact viable_missing fun rest hrest =>
      ⟨_, _, neutral_space _, .literal (literalText_spaced hrest)⟩

/-- After the name of a member, the colon or the value is at fault. -/
theorem viable_member_of_name {α : Type} {key : String} {start : List Char}
    {f : Value → α} (hname : NameText start key text)
    (h : Fails limit depth (do
      let _ ← expect .colon "':'"
      return f (← value mode (Inner.ofLevels mode n))) text e) :
    Viable (PairText mode n) start e := by
  have hvalue : Steady (value mode (Inner.ofLevels mode n)) :=
    steady_value (Inner.steady_ofLevels mode n)
  have hafter : Viable (fun text v rest => ∃ start, Lexeme [':'] text start ∧
      ValueText mode n start v rest) text e := by
    rw [fails_colon_bind] at h
    rcases h with ⟨rfl, -⟩ | ⟨middle, hcolon, h⟩
    · exact viable_missing fun rest hrest => ⟨_, _, neutral_space _, _,
        lexeme_spaced (by decide) _, .literal (literalText_spaced hrest)⟩
    · rw [bind_pure_comp, fails_map hvalue] at h
      have hv : Viable (ValueText mode n) middle e :=
        (viable_value hn ih h).of_trimStart fun heq hv => hv.congr heq
      exact hv.afterLexeme hcolon (by simp) fun _ middle' v _ hcolon hv =>
        ⟨v, middle', hcolon, hv⟩
  refine hafter.after local_nameText hname ?_
  intro text' middle' v rest hname hrest
  obtain ⟨start', hcolon, hv⟩ := hrest
  exact ⟨_, .pair hname hcolon hv⟩

theorem viable_member {what : String}
    (h : Fails limit depth (member mode (Inner.ofLevels mode n) what) text e) :
    Viable (PairText mode n) text e := by
  rw [member, fails_bind (steady_name what)] at h
  rcases h with h | ⟨key, middle, hname, h⟩
  · obtain ⟨rfl, -⟩ := fails_name.1 h
    refine viable_missing fun rest hrest => ⟨_, _, neutral_space _, .pair
      (nameText_spaced (neutral_space _)) (lexeme_spaced (c := ':') (by decide) _)
      (.literal (literalText_spaced hrest))⟩
  · exact viable_member_of_name hn ih (takes_name.1 hname) h

theorem viable_array
    (h : Fails limit depth (array mode (Inner.ofLevels mode n)) text e) :
    Viable (ArrayText mode n) text e := by
  have hreads := fun m (_ : n = m + 1) => reads_ofLevels mode m
  have hvalue : Steady (value mode (Inner.ofLevels mode n)) :=
    steady_value (Inner.steady_ofLevels mode n)
  have hlocal := local_valueText mode n
  have htakes : ∀ {text v rest}, Takes limit depth
      (value mode (Inner.ofLevels mode n)) text v rest → ValueText mode n text v rest :=
    fun h => (takes_value hn hreads).1 h
  have hcongr : ∀ {text other v rest}, trimStart text = trimStart other →
      ValueText mode n text v rest → ValueText mode n other v rest :=
    fun heq hv => hv.congr heq
  rw [array, fails_expect_bind Token.found_arrayOpen] at h
  rcases h with ⟨rfl, -⟩ | ⟨middle, hopen, h⟩
  · exact viable_missing fun rest _ => ⟨_, _, neutral_space _, .empty
      (lexeme_spaced (by decide) _) (lexeme_spaced (c := ']') (by decide) rest)⟩
  · rw [fails_choice_bind Token.found_arrayClose] at h
    rcases h with ⟨-, h⟩ | ⟨_, -, h⟩
    · have hitems := viable_closedList htakes hcongr Token.found_arrayClose (by decide)
        hvalue hlocal (viable_value hn ih) (fun _ _ => not_fails_pure) h
      refine hitems.afterLexeme hopen (by simp) ?_
      intro text' middle' vs rest hopen hclosed
      obtain ⟨last, ⟨v, vs, start, -, hv, hvs⟩, hclose⟩ := hclosed
      exact ⟨_, .items hopen hv (moreValues_iff.2 hvs) hclose⟩
    · exact absurd h not_fails_pure

theorem viable_object
    (h : Fails limit depth (object mode (Inner.ofLevels mode n)) text e) :
    Viable (ObjectText mode n) text e := by
  have hreads := fun m (_ : n = m + 1) => reads_ofLevels mode m
  have hmember : Steady (member mode (Inner.ofLevels mode n) "a key name") :=
    steady_member (Inner.steady_ofLevels mode n) _
  have hlocal := local_pairText (local_valueText mode n)
  have htakes : ∀ {text pair rest}, Takes limit depth
      (member mode (Inner.ofLevels mode n) "a key name") text pair rest →
      PairText mode n text pair rest :=
    fun h => (takes_member hn hreads).1 h
  have hcongr : ∀ {text other pair rest}, trimStart text = trimStart other →
      PairText mode n text pair rest → PairText mode n other pair rest :=
    fun heq hpair => hpair.congr heq
  rw [object, fails_expect_bind Token.found_objectOpen] at h
  rcases h with ⟨rfl, -⟩ | ⟨middle, hopen, h⟩
  · exact viable_missing fun rest _ => ⟨_, _, neutral_space _, .empty
      (lexeme_spaced (by decide) _) (lexeme_spaced (c := '\x7d') (by decide) rest)⟩
  · rw [fails_choice_bind Token.found_objectClose] at h
    rcases h with ⟨-, h⟩ | ⟨_, -, h⟩
    · have hitems := viable_closedList htakes hcongr Token.found_objectClose (by decide)
        hmember hlocal (viable_member hn ih) (fun _ _ => not_fails_pure) h
      refine hitems.afterLexeme hopen (by simp) ?_
      intro text' middle' pairs rest hopen hclosed
      obtain ⟨last, ⟨pair, pairs, start, -, hpair, hpairs⟩, hclose⟩ := hclosed
      exact ⟨_, .members hopen hpair (morePairs_iff.2 hpairs) hclose⟩
    · exact absurd h not_fails_pure

end Levels

end Values

section Absent

variable {mode : StringMode} {inner : Inner} (hinner : inner.Steady)
  {limit depth : Int} {text rest : List Char}

include hinner

theorem eq_of_primary_none
    (h : Takes limit depth (primary mode inner) text none rest) : text = rest := by
  rw [primary, takes_choice_bind Token.found_parenOpen] at h
  simp only [takes_optional_bind steady_number?, takes_number?_none,
    takes_optional_bind (steady_value? hinner), takes_value?_none hinner,
    takes_optional_bind steady_name?, takes_name?_none, takes_pure,
    takes_bind (steady_expression hinner),
    takes_expect_bind Token.found_parenClose, Option.map_none, Option.map_some,
    reduceCtorEq, false_and, and_false, exists_false, or_false, true_and] at h
  obtain ⟨-, _, ⟨-, rfl⟩, _, ⟨-, rfl⟩, _, ⟨-, rfl⟩, rfl⟩ := h
  rfl

theorem eq_of_chain_none
    (h : Takes limit depth (chain mode inner) text none rest) : text = rest := by
  rw [chain, takes_optional_bind (steady_primary hinner)] at h
  simp only [bind_pure_comp, takes_map (steady_suffix? hinner).many, takes_pure,
    reduceCtorEq, and_false, exists_false, or_false, true_and] at h
  obtain ⟨_, hnone, rfl⟩ := h
  exact eq_of_primary_none hinner hnone

theorem eq_of_unary_none
    (h : Takes limit depth (unary mode inner) text none rest) : text = rest := by
  have hchain : Steady (chain mode inner) := steady_chain hinner
  rw [unary, takes_operator Token.found_unaryOp] at h
  simp only [Option.bind_none, Option.bind_some, UnaryOp.ofSymbol?_symbol,
    bind_pure_comp, takes_map (hchain.required _), reduceCtorEq, and_false,
    exists_false, or_false] at h
  exact eq_of_chain_none hinner h.2

theorem eq_of_binary_none
    (h : Takes limit depth (binary mode inner) text none rest) : text = rest := by
  rw [binary, takes_optional_bind (steady_unary hinner)] at h
  simp only [takes_operator Token.found_binaryOp, Option.bind_none,
    Option.bind_some, BinaryOp.ofSymbol?_symbol, bind_pure_comp,
    takes_map hinner.binary.operand, takes_pure, reduceCtorEq, and_false, false_and,
    exists_false, or_false, true_and] at h
  obtain ⟨_, hnone, rfl⟩ := h
  exact eq_of_unary_none hinner hnone

theorem eq_of_logical_none
    (h : Takes limit depth (logical mode inner) text none rest) : text = rest := by
  rw [logical, takes_optional_bind (steady_binary hinner)] at h
  simp only [takes_operator Token.found_logicalOp, Option.bind_none,
    Option.bind_some, LogicalOp.ofSymbol?_symbol, bind_pure_comp,
    takes_map hinner.logical.operand, takes_pure, reduceCtorEq, and_false, false_and,
    exists_false, or_false, true_and] at h
  obtain ⟨_, hnone, rfl⟩ := h
  exact eq_of_binary_none hinner hnone

theorem eq_of_conditional_none
    (h : Takes limit depth (conditional mode inner) text none rest) : text = rest := by
  rw [conditional, takes_optional_bind (steady_logical hinner)] at h
  simp only [takes_question_bind, takes_bind hinner.conditional.operand,
    takes_colon_bind, takes_pure, reduceCtorEq, and_false, false_and, exists_false,
    or_false, true_and] at h
  obtain ⟨_, hnone, rfl⟩ := h
  exact eq_of_logical_none hinner hnone

end Absent

section Expressions

variable {mode : StringMode} {n : Nat} {limit depth : Int}
  {text middle : List Char} {e : ReadError}

def BranchesText (mode : StringMode) (n : Nat) (text : List Char)
    (branches : Expr × Expr) (rest : List Char) : Prop :=
  ∃ b c, ConditionalText .possiblyEmpty mode n text branches.1 b ∧ Lexeme [':'] b c ∧
    ConditionalText .possiblyEmpty mode n c branches.2 rest

/-- It makes no difference whether an expression is missed before its level is
entered or after. -/
theorem fails_expression_iff_operand {inner : Inner} (hinner : inner.Steady) :
    Fails limit depth (expression inner) text e ↔
      Fails limit depth (operand inner.conditional) text e := by
  rw [expression, expression?, operand, fails_required hinner.conditional.nested,
    fails_nested, fails_nested, fails_required hinner.conditional]
  simp only [takes_nested]
  constructor
  · intro h
    rcases h with (hdeep | ⟨hlt, hfails⟩) | ⟨middle, ⟨hlt, hnone⟩, heq⟩
    · exact Or.inl hdeep
    · exact Or.inr ⟨hlt, Or.inl hfails⟩
    · exact Or.inr ⟨hlt, Or.inr ⟨middle, hnone, heq⟩⟩
  · intro h
    rcases h with hdeep | ⟨hlt, hfails | ⟨middle, hnone, heq⟩⟩
    · exact Or.inl (Or.inl hdeep)
    · exact Or.inl (Or.inr ⟨hlt, hfails⟩)
    · exact Or.inr ⟨middle, ⟨hlt, hnone⟩, heq⟩

/-- Where an operand is missing, a name can be put in. -/
theorem viable_operand (hn : (limit - depth).toNat = n)
    {R : Nat → List Char → Expr → List Char → Prop} {x : Reader (Option Expr)}
    (hsteady : Steady x)
    (hname : ∀ m {rest}, Neutral rest →
      R m (' ' :: 'a' :: rest) (.name (String.ofList ['a'])) rest)
    (hx : ∀ m, n = m + 1 → (limit - (depth + 1)).toNat = m →
      (Fails limit (depth + 1) x text e → Viable (R m) text e) ∧
        ∀ {middle}, Takes limit (depth + 1) x text none middle → text = middle)
    (h : Fails limit depth (operand x) text e) : Viable (InnerText R n) text e := by
  refine viable_nested hn (fun m hm hlevels hfails => ?_) h
  obtain ⟨hviable, hstays⟩ := hx m hm hlevels
  rw [fails_required hsteady] at hfails
  rcases hfails with hfails | ⟨middle, hnone, rfl⟩
  · exact hviable hfails
  · obtain rfl := hstays hnone
    exact viable_missing fun rest hrest => ⟨_, _, neutral_space _, hname m hrest⟩

section Levels

variable (hn : (limit - depth).toNat = n)
  (ih : ∀ m, n = m + 1 → Inner.Viable mode m)

include hn ih

theorem viable_operand_conditional
    (h : Fails limit depth (operand (Inner.ofLevels mode n).conditional) text e) :
    Viable (InnerText (ConditionalText .possiblyEmpty mode) n) text e := by
  refine viable_operand hn (Inner.steady_ofLevels mode n).conditional
    (fun _ _ => conditionalText_spaced) (fun m hm hlevels => ?_) h
  subst hm
  exact ⟨(ih m rfl).conditional hlevels,
    eq_of_conditional_none (Inner.steady_ofLevels mode m)⟩

theorem viable_operand_logical
    (h : Fails limit depth (operand (Inner.ofLevels mode n).logical) text e) :
    Viable (InnerText (LogicalText .possiblyEmpty mode) n) text e := by
  refine viable_operand hn (Inner.steady_ofLevels mode n).logical
    (fun _ _ => logicalText_spaced) (fun m hm hlevels => ?_) h
  subst hm
  exact ⟨(ih m rfl).logical hlevels, eq_of_logical_none (Inner.steady_ofLevels mode m)⟩

theorem viable_operand_binary
    (h : Fails limit depth (operand (Inner.ofLevels mode n).binary) text e) :
    Viable (InnerText (BinaryText .possiblyEmpty mode) n) text e := by
  refine viable_operand hn (Inner.steady_ofLevels mode n).binary
    (fun _ _ => binaryText_spaced) (fun m hm hlevels => ?_) h
  subst hm
  exact ⟨(ih m rfl).binary hlevels, eq_of_binary_none (Inner.steady_ofLevels mode m)⟩

theorem viable_expression
    (h : Fails limit depth (expression (Inner.ofLevels mode n)) text e) :
    Viable (InnerText (ConditionalText .possiblyEmpty mode) n) text e :=
  viable_operand_conditional hn ih
    ((fails_expression_iff_operand (Inner.steady_ofLevels mode n)).1 h)

omit ih in
theorem innerText_of_expression {rest : List Char} {expr : Expr}
    (h : Takes limit depth (expression (Inner.ofLevels mode n)) text expr rest) :
    InnerText (ConditionalText .possiblyEmpty mode) n text expr rest := by
  obtain ⟨m, hm, hexpr, -⟩ :=
    (takes_expression hn fun m _ => reads_ofLevels mode m).1 h
  exact ⟨m, hm, hexpr⟩

omit hn ih in
theorem local_innerText_conditional :
    Local (InnerText (ConditionalText .possiblyEmpty mode) n) :=
  local_innerText fun m => (expressionsLocal .possiblyEmpty mode m).conditional

omit hn ih in
theorem innerText_conditional_congr {text other rest : List Char} {expr : Expr}
    (heq : trimStart text = trimStart other)
    (h : InnerText (ConditionalText .possiblyEmpty mode) n text expr rest) :
    InnerText (ConditionalText .possiblyEmpty mode) n other expr rest := by
  obtain ⟨m, hm, hexpr⟩ := h
  exact ⟨m, hm, hexpr.congr heq⟩

/-- An expression up to a closing mark fails inside, or where the mark is
missing. -/
theorem viable_closed_expression {α : Type} {close : Token} {what : String}
    {mark : Char}
    (hfound : ∀ {text lexeme rest}, close.Found text lexeme rest ↔
      lexeme = [mark] ∧ Lexeme [mark] text rest)
    (hmark : isBlank mark = false) {f : Expr → α}
    (h : Fails limit depth (do
      let expr ← expression (Inner.ofLevels mode n)
      let _ ← expect close what
      return f expr) text e) :
    Viable (ClosedText (InnerText (ConditionalText .possiblyEmpty mode) n) mark)
      text e :=
  viable_closed hfound hmark (steady_expression (Inner.steady_ofLevels mode n))
    local_innerText_conditional (innerText_of_expression hn)
    (viable_expression hn ih) (fun _ _ => not_fails_pure) h

theorem viable_expressions {close : Token} {what : String} {mark : Char}
    (hfound : ∀ {text lexeme rest}, close.Found text lexeme rest ↔
      lexeme = [mark] ∧ Lexeme [mark] text rest)
    (hmark : isBlank mark = false)
    (h : Fails limit depth (expressions (Inner.ofLevels mode n) close what) text e) :
    Viable (ClosedText (ExpressionsText .possiblyEmpty mode n) mark) text e := by
  have hitems := viable_closedList (innerText_of_expression hn)
    innerText_conditional_congr hfound hmark
    (steady_expression (Inner.steady_ofLevels mode n)) local_innerText_conditional
    (viable_expression hn ih) (fun _ _ => not_fails_pure) h
  refine hitems.mono fun text' es rest hclosed => ?_
  obtain ⟨last, ⟨expr, es, start, -, ⟨m, rfl, hexpr⟩, hes⟩, hclose⟩ := hclosed
  refine ⟨expr :: es, last, .list hexpr (moreExpressions_iff.2 (hes.mono ?_)), hclose⟩
  intro text expr rest hitem
  obtain ⟨start, hcomma, m', hm', hexpr⟩ := hitem
  obtain rfl : m = m' := by omega
  exact ⟨start, hcomma, hexpr⟩

theorem viable_arguments
    (h : Fails limit depth (arguments (Inner.ofLevels mode n)) text e) :
    Viable (ClosedText (ExpressionsText .possiblyEmpty mode n) ')') text e := by
  rw [arguments, fails_choice_bind Token.found_parenClose] at h
  rcases h with ⟨-, h⟩ | ⟨_, -, h⟩
  · exact viable_expressions hn ih Token.found_parenClose (by decide) h
  · exact absurd h not_fails_pure

theorem viable_primary
    (h : Fails limit depth (primary mode (Inner.ofLevels mode n)) text e) :
    Viable (PrimaryText .possiblyEmpty mode n) text e := by
  have hinner := Inner.steady_ofLevels mode n
  rw [primary, fails_choice_bind Token.found_parenOpen] at h
  rcases h with ⟨-, h⟩ | ⟨middle, hopen, h⟩
  · rw [fails_optional_bind steady_number?] at h
    rcases h with h | ⟨middle, hnone, h⟩ | ⟨k, middle, -, h⟩
    · obtain ⟨digits, hlong, rfl⟩ := fails_number?.1 h
      refine ⟨text, hlong, List.suffix_rfl, Or.inr fun rest hrest => ?_⟩
      exact ⟨_, _, _, .refl text _, neutral_space _, .name (nameText_spaced hrest)⟩
    · obtain rfl := (takes_number?_none.1 hnone).2
      rw [fails_optional_bind (steady_value? hinner)] at h
      rcases h with h | ⟨middle, -, h⟩ | ⟨v, middle, -, h⟩
      · exact (viable_value? hn ih h).mono fun text' v rest hv => ⟨_, .value hv⟩
      · rw [bind_pure_comp, fails_map steady_name?] at h
        exact absurd h not_fails_name?
      · exact absurd h not_fails_pure
    · exact absurd h not_fails_pure
  · have hinside := viable_closed_expression hn ih Token.found_parenClose (by decide) h
    refine hinside.afterLexeme hopen (by simp) ?_
    intro text' middle' expr rest hopen hclosed
    obtain ⟨last, ⟨m, rfl, hexpr⟩, hclose⟩ := hclosed
    exact ⟨_, .paren hopen hexpr hclose⟩

omit hn ih in
/-- A name that is missing after a dot. -/
theorem viable_name {what : String} (h : Fails limit depth (name what) text e) :
    Viable NameText text e := by
  obtain ⟨rfl, -⟩ := fails_name.1 h
  exact viable_missing fun rest hrest => ⟨_, _, neutral_space _, nameText_spaced hrest⟩

theorem viable_suffix?
    (h : Fails limit depth (suffix? (Inner.ofLevels mode n)) text e) :
    Viable (SuffixText .possiblyEmpty mode n) text e := by
  have hinner := Inner.steady_ofLevels mode n
  rw [suffix?] at h
  simp only [fails_choice_bind Token.found_attributeDot,
    fails_choice_bind Token.found_attributeIndexOpen,
    fails_choice_bind Token.found_propertyDot,
    fails_choice_bind Token.found_propertyIndexOpen,
    fails_choice_bind Token.found_callOpen, Option.isSome_none, Option.isSome_some,
    if_true, Bool.false_eq_true, if_false, bind_pure_comp, fails_map (steady_name _),
    fails_map (steady_index hinner), fails_map (steady_arguments hinner),
    not_fails_pure, and_false, false_or, List.cons_append, List.nil_append] at h
  rcases h with ⟨-, ⟨-, ⟨-, ⟨-, a, rfl, h⟩ | ⟨a, rfl, h⟩⟩ | ⟨a, rfl, h⟩⟩ |
    ⟨a, rfl, h⟩⟩ | ⟨a, rfl, h⟩
  · refine (viable_arguments hn ih h).afterMark ['('] fun text' es rest hclosed => ?_
    obtain ⟨last, hes, hclose⟩ := hclosed
    exact ⟨_, .call (.filled hes hclose)⟩
  · have hinside := viable_closed_expression hn ih Token.found_arrayClose (by decide) h
    refine hinside.afterMark ['['] fun text' expr rest hclosed => ?_
    obtain ⟨last, ⟨m, rfl, hexpr⟩, hclose⟩ := hclosed
    exact ⟨_, .propAt hexpr hclose⟩
  · exact (viable_name h).afterMark ['.'] fun _ _ _ hkey => ⟨_, .prop hkey⟩
  · have hinside := viable_closed_expression hn ih Token.found_arrayClose (by decide) h
    refine hinside.afterMark ['[', '.'] fun text' expr rest hclosed => ?_
    obtain ⟨last, ⟨m, rfl, hexpr⟩, hclose⟩ := hclosed
    exact ⟨_, .attrAt hexpr hclose⟩
  · exact (viable_name h).afterMark ['.', '.'] fun _ _ _ hkey => ⟨_, .attr hkey⟩

theorem viable_chain
    (h : Fails limit depth (chain mode (Inner.ofLevels mode n)) text e) :
    Viable (MemberText .possiblyEmpty mode n) text e := by
  have hreads := fun m (_ : n = m + 1) => reads_ofLevels mode m
  have hlocals := fun m (_ : n = m + 1) => expressionsLocal .possiblyEmpty mode m
  have hsuffix := progressing_suffix? hn hreads
  rw [chain, fails_optional_bind (steady_primary (Inner.steady_ofLevels mode n))] at h
  simp only [bind_pure_comp, fails_map hsuffix.steady.many, hsuffix.fails_many,
    takes_suffix?_some hn hreads, ← suffixesText_iff, not_fails_pure, and_false,
    exists_false, false_or] at h
  rcases h with h | ⟨base, middle, hbase, suffixes, last, hsuffixes, h⟩
  · exact (viable_primary hn ih h).mono fun _ _ _ hbase => ⟨_, .chain hbase .nil⟩
  · have hmember := MemberText.chain ((takes_primary_some hn hreads).1 hbase) hsuffixes
    refine (viable_suffix? hn ih h).after (local_memberText hlocals) hmember ?_
    intro text' last' suffix rest hmember hsuffix
    exact ⟨_, hmember.extend hsuffix⟩

theorem viable_unary
    (h : Fails limit depth (unary mode (Inner.ofLevels mode n)) text e) :
    Viable (UnaryText .possiblyEmpty mode n) text e := by
  have hinner := Inner.steady_ofLevels mode n
  have hchain : Steady (chain mode (Inner.ofLevels mode n)) := steady_chain hinner
  rw [unary, fails_operator Token.found_unaryOp] at h
  simp only [Option.bind_none, Option.bind_some, UnaryOp.ofSymbol?_symbol,
    bind_pure_comp, fails_map (hchain.required _), fails_required hchain] at h
  rcases h with ⟨-, h⟩ | ⟨op, middle, hop, h⟩
  · exact (viable_chain hn ih h).mono fun _ _ _ hmember => ⟨_, .operand hmember⟩
  · have hmember : Viable (MemberText .possiblyEmpty mode n) middle e := by
      rcases h with h | ⟨last, hnone, rfl⟩
      · exact viable_chain hn ih h
      · obtain rfl := eq_of_chain_none hinner hnone
        exact viable_missing fun rest hrest =>
          ⟨_, _, neutral_space _, memberText_spaced hrest⟩
    exact hmember.afterLexeme hop op.symbol_ne_nil fun _ _ _ _ hop hmember =>
      ⟨_, .operator op hop hmember⟩

theorem viable_binary
    (h : Fails limit depth (binary mode (Inner.ofLevels mode n)) text e) :
    Viable (BinaryText .possiblyEmpty mode n) text e := by
  have hinner := Inner.steady_ofLevels mode n
  have hreads := fun m (_ : n = m + 1) => reads_ofLevels mode m
  have hlocals := fun m (_ : n = m + 1) => expressionsLocal .possiblyEmpty mode m
  rw [binary, fails_optional_bind (steady_unary hinner)] at h
  simp only [fails_operator Token.found_binaryOp, Option.bind_none, Option.bind_some,
    BinaryOp.ofSymbol?_symbol, bind_pure_comp, fails_map hinner.binary.operand,
    not_fails_pure, and_false, exists_false, false_or] at h
  rcases h with h | ⟨left, middle, hleft, op, last, hop, h⟩
  · exact (viable_unary hn ih h).mono fun _ _ _ hunary => ⟨_, .operand hunary⟩
  · have hleft := ((takes_unary_some hn hreads).1 hleft).1
    refine (viable_operand_binary hn ih h).behind (local_unaryText hlocals) hleft hop
      op.symbol_ne_nil ?_
    intro text' middle' last' right rest hleft hop hright
    obtain ⟨m, rfl, hright⟩ := hright
    exact ⟨_, .operator op hleft hop hright⟩

theorem viable_logical
    (h : Fails limit depth (logical mode (Inner.ofLevels mode n)) text e) :
    Viable (LogicalText .possiblyEmpty mode n) text e := by
  have hinner := Inner.steady_ofLevels mode n
  have hreads := fun m (_ : n = m + 1) => reads_ofLevels mode m
  have hlocals := fun m (_ : n = m + 1) => expressionsLocal .possiblyEmpty mode m
  rw [logical, fails_optional_bind (steady_binary hinner)] at h
  simp only [fails_operator Token.found_logicalOp, Option.bind_none, Option.bind_some,
    LogicalOp.ofSymbol?_symbol, bind_pure_comp, fails_map hinner.logical.operand,
    not_fails_pure, and_false, exists_false, false_or] at h
  rcases h with h | ⟨left, middle, hleft, op, last, hop, h⟩
  · exact (viable_binary hn ih h).mono fun _ _ _ hbinary => ⟨_, .operand hbinary⟩
  · have hleft := ((takes_binary_some hn hreads).1 hleft).1
    refine (viable_operand_logical hn ih h).behind (local_binaryText hlocals) hleft hop
      op.symbol_ne_nil ?_
    intro text' middle' last' right rest hleft hop hright
    obtain ⟨m, rfl, hright⟩ := hright
    exact ⟨_, .operator op hleft hop hright⟩

/-- After the question mark of a conditional, one of the branches or the colon
between them is at fault. -/
theorem viable_branches {α : Type} {f : Expr → Expr → α}
    (h : Fails limit depth (do
      let consequent ← operand (Inner.ofLevels mode n).conditional
      let _ ← expect .colon "':'"
      let alternate ← operand (Inner.ofLevels mode n).conditional
      return f consequent alternate) (trimStart text) e) :
    Viable (InnerText (BranchesText mode) n) text e := by
  have hinner := Inner.steady_ofLevels mode n
  have hreads := fun m (_ : n = m + 1) => reads_ofLevels mode m
  rw [fails_bind hinner.conditional.operand] at h
  rcases h with h | ⟨yes, middle, hyes, h⟩
  · refine Viable.before ((viable_operand_conditional hn ih h).of_trimStart
      innerText_conditional_congr) fun rest hrest =>
        ⟨' ' :: ':' :: ' ' :: 'a' :: rest, neutral_space _, fun text' yes hyes => ?_⟩
    obtain ⟨m, rfl, hyes⟩ := hyes
    exact ⟨(yes, _), m, rfl, _, _, hyes, lexeme_spaced (by decide) _,
      conditionalText_spaced hrest⟩
  · obtain ⟨m, rfl, hyes, -⟩ := (takes_operand_conditional hn hreads).1 hyes
    have hafter : Viable (fun text no rest => ∃ last, Lexeme [':'] text last ∧
        InnerText (ConditionalText .possiblyEmpty mode) (m + 1) last no rest)
        middle e := by
      rw [fails_colon_bind] at h
      rcases h with ⟨rfl, -⟩ | ⟨last, hcolon, h⟩
      · exact viable_missing fun rest hrest => ⟨_, _, neutral_space _, _,
          lexeme_spaced (by decide) _, m, rfl, conditionalText_spaced hrest⟩
      · rw [bind_pure_comp, fails_map hinner.conditional.operand] at h
        refine Viable.afterLexeme ((viable_operand_conditional hn ih h).of_trimStart
          innerText_conditional_congr) hcolon (by simp) ?_
        exact fun _ last' no _ hcolon hno => ⟨no, last', hcolon, hno⟩
    refine hafter.after (expressionsLocal .possiblyEmpty mode m).conditional
      (conditionalText_trimStart.1 hyes) ?_
    intro text' middle' no rest hyes hafter
    obtain ⟨last, hcolon, m', hm', hno⟩ := hafter
    obtain rfl : m = m' := by omega
    exact ⟨(yes, no), m, rfl, middle', last, hyes, hcolon, hno⟩

theorem viable_conditional
    (h : Fails limit depth (conditional mode (Inner.ofLevels mode n)) text e) :
    Viable (ConditionalText .possiblyEmpty mode n) text e := by
  have hinner := Inner.steady_ofLevels mode n
  have hreads := fun m (_ : n = m + 1) => reads_ofLevels mode m
  have hlocals := fun m (_ : n = m + 1) => expressionsLocal .possiblyEmpty mode m
  rw [conditional, fails_optional_bind (steady_logical hinner)] at h
  rcases h with h | ⟨_, -, h⟩ | ⟨test, middle, htest, h⟩
  · exact (viable_logical hn ih h).mono fun _ _ _ hlogical => ⟨_, .test hlogical⟩
  · exact absurd h not_fails_pure
  · have h := (fails_separator_bind Token.found_question (x := do
      let consequent ← operand (Inner.ofLevels mode n).conditional
      let _ ← expect .colon "':'"
      let alternate ← operand (Inner.ofLevels mode n).conditional
      return some (.conditional test consequent alternate)) fun _ => rfl).1 h
    rcases h with ⟨-, h⟩ | ⟨last, hquestion, h⟩
    · exact absurd h not_fails_pure
    · have htest := ((takes_logical_some hn hreads).1 htest).1
      refine (viable_branches hn ih h).behind (local_logicalText hlocals) htest hquestion
        (by simp) ?_
      intro text' middle' last' branches rest htest hquestion hbranches
      obtain ⟨m, rfl, b, c, hyes, hcolon, hno⟩ := hbranches
      exact ⟨_, .branches htest hquestion hyes hcolon hno⟩

end Levels

/-- One level: the rules fail where their texts are viable if what they nest
does. -/
theorem viable_of_inner (ih : ∀ m, n = m + 1 → Inner.Viable mode m) :
    Inner.Viable mode n where
  array hn := viable_array hn ih
  object hn := viable_object hn ih
  conditional hn := viable_conditional hn ih
  logical hn := viable_logical hn ih
  binary hn := viable_binary hn ih

/-- With any number of levels left, the rules fail where their texts are
viable. -/
theorem viable_ofLevels (mode : StringMode) (n : Nat) : Inner.Viable mode n := by
  induction n with
  | zero =>
      apply viable_of_inner
      intro m hm
      cases hm
  | succ n ih =>
      apply viable_of_inner
      intro m hm
      obtain rfl : n = m := by omega
      exact ih

end Expressions

end L20n
