import L20n.Proofs.Acceptance
import L20n.Proofs.Shape

/-!
What the grammar derives.  Every part of a resource that is read has the shape
of its kind, and no part is nested deeper than the levels it was derived with.
The proof follows the derivation of the source, level by level.
-/

namespace L20n

open Text Grammar Node

theorem isName_of_nameText {text rest : List Char} {key : String}
    (h : NameText text key rest) : isName key.toList = true := by
  obtain ⟨c, tail, hkey, hc, htail⟩ := h.starts
  rw [hkey, isName, hc, Bool.true_and, List.all_eq_true]
  exact htail

theorem ofDigitChars_lt {digits : List Char} (h : ∀ c ∈ digits, c.isDigit = true) :
    Nat.ofDigitChars 10 digits 0 < 10 ^ digits.length := by
  induction digits with
  | nil => simp
  | cons c digits ih =>
      have hrest := ih fun d hd => h d (List.mem_cons_of_mem c hd)
      have hc := h c List.mem_cons_self
      simp only [Char.isDigit, Bool.and_eq_true, decide_eq_true_eq,
        UInt32.le_iff_toNat_le] at hc
      have hhigh : c.toNat ≤ 57 := hc.2
      have hzero : '0'.toNat = 48 := rfl
      have hmul : 10 ^ digits.length * (c.toNat - 48) ≤ 10 ^ digits.length * 9 :=
        Nat.mul_le_mul_left _ (by omega)
      rw [Nat.ofDigitChars_cons, Nat.ofDigitChars_eq_ofDigitChars_zero, hzero,
        List.length_cons, Nat.pow_succ, Nat.mul_zero, Nat.zero_add]
      omega

theorem lt_of_numberText {text rest : List Char} {k : Nat}
    (h : NumberText text k rest) : k < 10 ^ maxDigits := by
  obtain ⟨word, -, hdigits, rfl⟩ := h
  have hlt := @ofDigitChars_lt (word.takeWhile Char.isDigit) fun c hc =>
    List.all_eq_true.1 List.all_takeWhile c hc
  exact Nat.lt_of_lt_of_le hlt (Nat.pow_le_pow_right (by decide) hdigits)

theorem Table.wellNamed_ofPairs {α : Type} {pairs : List (String × α)}
    (h : ∀ pair ∈ pairs, isName pair.1.toList = true) :
    WellNamed (ofPairs pairs) := by
  refine ⟨fun name hname => ?_, unique_ofPairs pairs⟩
  obtain ⟨pair, hpair, rfl⟩ := List.mem_map.1 hname
  exact h pair (mem_of_mem_ofPairs hpair)

theorem Table.wellNamed_ofRegistered {α : Type} {pairs : List (String × α)}
    (h : ∀ pair ∈ pairs, isName pair.1.toList = true) :
    WellNamed (ofRegistered pairs) := by
  refine ⟨fun name hname => ?_, unique_ofRegistered pairs⟩
  obtain ⟨pair, hpair, rfl⟩ := List.mem_map.1 hname
  exact h pair (mem_of_mem_ofRegistered hpair)

section Derivations

variable {lists : ListRule} {mode : StringMode} {n : Nat} {text rest : List Char}

/-- The items of an array are derived inside it. -/
theorem Grammar.ArrayText.items_derived {v : Value}
    (h : ArrayText mode n text v rest) :
    ∃ items, v = .array items ∧
      ∀ item ∈ items, ∃ start after, ValueText mode n start item after := by
  cases h with
  | empty _ _ => exact ⟨[], rfl, fun _ hitem => absurd hitem List.not_mem_nil⟩
  | items _ hfirst hmore _ =>
      refine ⟨_, rfl, fun item hitem => ?_⟩
      rcases List.mem_cons.1 hitem with rfl | hitem
      · exact ⟨_, _, hfirst⟩
      · obtain ⟨start, after, middle, -, hvalue⟩ :=
          (moreValues_iff.1 hmore).exists_step hitem
        exact ⟨middle, after, hvalue⟩

/-- The members of an object are those of its pairs, derived inside it. -/
theorem Grammar.ObjectText.members_derived {v : Value}
    (h : ObjectText mode n text v rest) :
    ∃ pairs, v = .object (Table.ofPairs pairs) ∧
      ∀ pair ∈ pairs, ∃ start after, PairText mode n start pair after := by
  cases h with
  | empty _ _ => exact ⟨[], rfl, fun _ hpair => absurd hpair List.not_mem_nil⟩
  | members _ hfirst hmore _ =>
      refine ⟨_, rfl, fun pair hpair => ?_⟩
      rcases List.mem_cons.1 hpair with rfl | hpair
      · exact ⟨_, _, hfirst⟩
      · obtain ⟨start, after, middle, -, hpair⟩ :=
          (morePairs_iff.1 hmore).exists_step hpair
        exact ⟨middle, after, hpair⟩

theorem Grammar.PairText.derived {pair : String × Value}
    (h : PairText mode n text pair rest) :
    isName pair.1.toList = true ∧ ∃ start, ValueText mode n start pair.2 rest := by
  cases h with
  | pair hname _ hvalue => exact ⟨isName_of_nameText hname, _, hvalue⟩

theorem within_of_literalText {v : Value} (h : LiteralText mode text v rest) :
    v.Within mode n := by
  refine ⟨everywhere_shaped_literal h, ?_⟩
  obtain ⟨delimiter, body, pieces, -, -, rfl⟩ := h
  rw [Value.ofPieces]
  split <;> exact Nat.zero_le n

theorem Grammar.ValueText.within {v : Value} (h : ValueText mode n text v rest) :
    v.Within mode n := by
  induction n generalizing text v rest with
  | zero =>
      cases h with
      | literal hliteral => exact within_of_literalText hliteral
  | succ n ih =>
      cases h with
      | literal hliteral => exact within_of_literalText hliteral
      | array harray =>
          obtain ⟨items, rfl, hitems⟩ := harray.items_derived
          have hwithin : ∀ item ∈ items, item.Within mode n := by
            intro item hitem
            obtain ⟨start, after, hvalue⟩ := hitems item hitem
            exact ih hvalue
          refine ⟨everywhere_array.2 ⟨trivial, fun v hv => (hwithin v hv).shaped⟩, ?_⟩
          exact Nat.succ_le_succ
            (valuesNesting_le_iff.2 fun v hv => (hwithin v hv).nesting)
      | object hobject =>
          obtain ⟨pairs, rfl, hpairs⟩ := hobject.members_derived
          have hnamed : ∀ pair ∈ pairs, isName pair.1.toList = true := by
            intro pair hpair
            obtain ⟨start, after, hderived⟩ := hpairs pair hpair
            exact hderived.derived.1
          have hwithin : ∀ pair ∈ Table.ofPairs pairs, pair.2.Within mode n := by
            intro pair hpair
            obtain ⟨start, after, hderived⟩ :=
              hpairs pair (Table.mem_of_mem_ofPairs hpair)
            obtain ⟨-, start, hvalue⟩ := hderived.derived
            exact ih hvalue
          refine ⟨everywhere_object.2 ⟨Table.wellNamed_ofPairs hnamed,
            fun pair hpair => (hwithin pair hpair).shaped⟩, ?_⟩
          exact Nat.succ_le_succ
            (membersNesting_le_iff.2 fun pair hpair => (hwithin pair hpair).nesting)

/-- What is derived with `n` levels stays within them, and binds as its rule
says. -/
structure DerivesWithin (lists : ListRule) (mode : StringMode) (n : Nat) :
    Prop where
  conditional : ∀ {text e rest}, ConditionalText lists mode n text e rest →
    e.Within mode n
  logical : ∀ {text e rest}, LogicalText lists mode n text e rest →
    e.Within mode n ∧ e.level ≤ .logical
  binary : ∀ {text e rest}, BinaryText lists mode n text e rest →
    e.Within mode n ∧ e.level ≤ .binary

/-- The expressions of a list stay within `n` levels when each of them is one
level further in. -/
def ExprsWithin (mode : StringMode) (n : Nat) (es : List Expr) : Prop :=
  (∀ e ∈ es, Everywhere (Shaped mode) (.expr e)) ∧ exprsNesting es ≤ n

def Suffix.Within (mode : StringMode) (n : Nat) : Suffix → Prop
  | .attr key | .prop key => isName key.toList = true
  | .attrAt index | .propAt index =>
    Everywhere (Shaped mode) (.expr index) ∧ index.nesting + 1 ≤ n
  | .call arguments => ExprsWithin mode n arguments

theorem Expr.Within.extend {base : Expr} {suffix : Suffix}
    (hbase : base.Within mode n) (hlevel : base.level = .member)
    (hsuffix : suffix.Within mode n) :
    (base.extend suffix).Within mode n ∧ (base.extend suffix).level = .member := by
  obtain ⟨hshaped, hnesting⟩ := hbase
  cases suffix with
  | attr key =>
      exact ⟨⟨everywhere_attr.2 ⟨⟨hlevel, hsuffix⟩, hshaped⟩, hnesting⟩, rfl⟩
  | attrAt index =>
      exact ⟨⟨everywhere_attrAt.2 ⟨⟨hlevel, trivial⟩, hshaped, hsuffix.1⟩,
        Nat.max_le.2 ⟨hnesting, hsuffix.2⟩⟩, rfl⟩
  | prop key =>
      exact ⟨⟨everywhere_prop.2 ⟨⟨hlevel, hsuffix⟩, hshaped⟩, hnesting⟩, rfl⟩
  | propAt index =>
      exact ⟨⟨everywhere_propAt.2 ⟨⟨hlevel, trivial⟩, hshaped, hsuffix.1⟩,
        Nat.max_le.2 ⟨hnesting, hsuffix.2⟩⟩, rfl⟩
  | call arguments =>
      exact ⟨⟨everywhere_call.2 ⟨⟨hlevel, trivial⟩, hshaped, hsuffix.1⟩,
        Nat.max_le.2 ⟨hnesting, hsuffix.2⟩⟩, rfl⟩

theorem Expr.Within.extend_all {base : Expr} (hbase : base.Within mode n)
    (hlevel : base.level = .member) {suffixes : List Suffix}
    (hsuffixes : ∀ suffix ∈ suffixes, suffix.Within mode n) :
    (suffixes.foldl Expr.extend base).Within mode n ∧
      (suffixes.foldl Expr.extend base).level = .member := by
  induction suffixes generalizing base with
  | nil => exact ⟨hbase, hlevel⟩
  | cons suffix suffixes ih =>
      obtain ⟨hnext, hnextLevel⟩ :=
        hbase.extend hlevel (hsuffixes suffix List.mem_cons_self)
      exact ih hnext hnextLevel fun other hother =>
        hsuffixes other (List.mem_cons_of_mem suffix hother)

section Levels

variable (ih : ∀ m, n = m + 1 → DerivesWithin lists mode m)

include ih

theorem exprsWithin_of_expressionsText {es : List Expr}
    (h : ExpressionsText lists mode n text es rest) : ExprsWithin mode n es := by
  cases h with
  | @list m _ _ _ first more hfirst hmore =>
      have hwithin : ∀ e ∈ first :: more, e.Within mode m := by
        intro e he
        rcases List.mem_cons.1 he with rfl | he
        · exact (ih _ rfl).conditional hfirst
        · obtain ⟨start, after, middle, -, hexpr⟩ :=
            (moreExpressions_iff.1 hmore).exists_step he
          exact (ih _ rfl).conditional hexpr
      exact ⟨fun e he => (hwithin e he).shaped, exprsNesting_le_iff.2 fun e he =>
        Nat.succ_le_succ (hwithin e he).nesting⟩

theorem exprsWithin_of_argumentsText {es : List Expr}
    (h : ArgumentsText lists mode n text es rest) : ExprsWithin mode n es := by
  cases h with
  | empty _ _ => exact ⟨fun _ he => absurd he List.not_mem_nil, Nat.zero_le n⟩
  | filled hes _ => exact exprsWithin_of_expressionsText ih hes

theorem Grammar.PrimaryText.within {e : Expr}
    (h : PrimaryText lists mode n text e rest) :
    e.Within mode n ∧ e.level = .member := by
  cases h with
  | paren _ hexpr _ =>
      have hwithin := (ih _ rfl).conditional hexpr
      exact ⟨⟨everywhere_paren.2 ⟨⟨trivial, trivial⟩, hwithin.shaped⟩,
        Nat.succ_le_succ hwithin.nesting⟩, rfl⟩
  | number hnumber =>
      refine ⟨⟨everywhere_number.2 ⟨trivial, Int.natCast_nonneg _, ?_⟩,
        Nat.zero_le n⟩, rfl⟩
      exact Int.ofNat_lt.2 (lt_of_numberText hnumber)
  | value hvalue =>
      have hwithin := hvalue.within
      exact ⟨⟨everywhere_value.2 ⟨⟨trivial, trivial⟩, hwithin.shaped⟩,
        hwithin.nesting⟩, rfl⟩
  | name hname =>
      exact ⟨⟨everywhere_name.2 ⟨trivial, isName_of_nameText hname⟩,
        Nat.zero_le n⟩, rfl⟩

theorem Grammar.SuffixText.within {suffix : Suffix}
    (h : SuffixText lists mode n text suffix rest) : suffix.Within mode n := by
  cases h with
  | attr hname => exact isName_of_nameText hname
  | attrAt hexpr _ =>
      have hwithin := (ih _ rfl).conditional hexpr
      exact ⟨hwithin.shaped, Nat.succ_le_succ hwithin.nesting⟩
  | prop hname => exact isName_of_nameText hname
  | propAt hexpr _ =>
      have hwithin := (ih _ rfl).conditional hexpr
      exact ⟨hwithin.shaped, Nat.succ_le_succ hwithin.nesting⟩
  | call hes => exact exprsWithin_of_argumentsText ih hes

theorem Grammar.MemberText.within {e : Expr}
    (h : MemberText lists mode n text e rest) :
    e.Within mode n ∧ e.level = .member := by
  cases h with
  | @chain _ _ _ _ base suffixes hbase hsuffixes =>
      have hsuffix : ∀ suffix ∈ suffixes, suffix.Within mode n := by
        intro suffix hmem
        obtain ⟨start, after, hderived⟩ :=
          (suffixesText_iff.1 hsuffixes).exists_step hmem
        exact hderived.within ih
      obtain ⟨hwithin, hlevel⟩ := hbase.within ih
      exact hwithin.extend_all hlevel hsuffix

theorem Grammar.UnaryText.within {e : Expr}
    (h : UnaryText lists mode n text e rest) :
    e.Within mode n ∧ e.level ≤ .unary := by
  cases h with
  | operand hmember =>
      obtain ⟨hwithin, hlevel⟩ := hmember.within ih
      exact ⟨hwithin, by rw [hlevel]; decide⟩
  | operator op _ hmember =>
      obtain ⟨hwithin, hlevel⟩ := hmember.within ih
      exact ⟨⟨everywhere_unary.2 ⟨⟨hlevel, trivial⟩, hwithin.shaped⟩,
        hwithin.nesting⟩, Nat.le_refl _⟩

theorem Grammar.BinaryText.within {e : Expr}
    (h : BinaryText lists mode n text e rest) :
    e.Within mode n ∧ e.level ≤ .binary := by
  cases h with
  | operand hunary =>
      obtain ⟨hwithin, hlevel⟩ := hunary.within ih
      exact ⟨hwithin, Nat.le_trans hlevel (by decide)⟩
  | operator op hleft _ hright =>
      obtain ⟨hleft, hleftLevel⟩ := hleft.within ih
      obtain ⟨hright, hrightLevel⟩ := (ih _ rfl).binary hright
      refine ⟨⟨everywhere_binary.2 ⟨⟨⟨hleftLevel, hrightLevel⟩, trivial⟩,
        hleft.shaped, hright.shaped⟩, ?_⟩, Nat.le_refl _⟩
      exact Nat.max_le.2 ⟨hleft.nesting, Nat.succ_le_succ hright.nesting⟩

theorem Grammar.LogicalText.within {e : Expr}
    (h : LogicalText lists mode n text e rest) :
    e.Within mode n ∧ e.level ≤ .logical := by
  cases h with
  | operand hbinary =>
      obtain ⟨hwithin, hlevel⟩ := hbinary.within ih
      exact ⟨hwithin, Nat.le_trans hlevel (by decide)⟩
  | operator op hleft _ hright =>
      obtain ⟨hleft, hleftLevel⟩ := hleft.within ih
      obtain ⟨hright, hrightLevel⟩ := (ih _ rfl).logical hright
      refine ⟨⟨everywhere_logical.2 ⟨⟨⟨hleftLevel, hrightLevel⟩, trivial⟩,
        hleft.shaped, hright.shaped⟩, ?_⟩, Nat.le_refl _⟩
      exact Nat.max_le.2 ⟨hleft.nesting, Nat.succ_le_succ hright.nesting⟩

theorem Grammar.ConditionalText.within {e : Expr}
    (h : ConditionalText lists mode n text e rest) : e.Within mode n := by
  cases h with
  | test hlogical => exact (hlogical.within ih).1
  | branches htest _ hyes _ hno =>
      obtain ⟨htest, htestLevel⟩ := htest.within ih
      have hyes := (ih _ rfl).conditional hyes
      have hno := (ih _ rfl).conditional hno
      refine ⟨everywhere_conditional.2 ⟨⟨htestLevel, trivial⟩, htest.shaped,
        hyes.shaped, hno.shaped⟩, Nat.max_le.2 ⟨htest.nesting, ?_⟩⟩
      exact Nat.succ_le_succ (Nat.max_le.2 ⟨hyes.nesting, hno.nesting⟩)

end Levels

/-- One level: what is derived stays within its levels if what it nests
does. -/
theorem derivesWithin_of_inner (ih : ∀ m, n = m + 1 → DerivesWithin lists mode m) :
    DerivesWithin lists mode n where
  conditional h := h.within ih
  logical h := h.within ih
  binary h := h.within ih

theorem derivesWithin (lists : ListRule) (mode : StringMode) (n : Nat) :
    DerivesWithin lists mode n := by
  induction n with
  | zero =>
      apply derivesWithin_of_inner
      intro m hm
      cases hm
  | succ n ih =>
      apply derivesWithin_of_inner
      intro m hm
      obtain rfl : n = m := by omega
      exact ih

theorem Grammar.HeadText.within {key : String} {index : Option (List Expr)}
    (h : HeadText lists mode n text key index rest) :
    isName key.toList = true ∧ index ≠ some [] ∧
      ExprsWithin mode n (index.getD []) := by
  have ih := fun m (_ : n = m + 1) => derivesWithin lists mode m
  cases h with
  | plain hname _ =>
      refine ⟨isName_of_nameText hname, ?_, ?_, Nat.zero_le n⟩
      · simp
      · simp
  | index hname hes _ =>
      refine ⟨isName_of_nameText hname, ?_, exprsWithin_of_expressionsText ih hes⟩
      cases hes
      simp

theorem Grammar.OptionalValueText.within {v : Option Value}
    (h : OptionalValueText mode n text v rest) :
    (∀ w, v = some w → Everywhere (Shaped mode) (.value w)) ∧
      valuesNesting v.toList ≤ n := by
  cases h with
  | absent =>
      refine ⟨?_, Nat.zero_le n⟩
      simp
  | present hv =>
      have hwithin := hv.within
      refine ⟨fun w hw => ?_, valuesNesting_le_iff.2 fun w hw => ?_⟩
      · obtain rfl := Option.some.inj hw
        exact hwithin.shaped
      · obtain rfl := List.mem_singleton.1 hw
        exact hwithin.nesting

theorem Grammar.AttributesText.within {pairs : List (String × Value)}
    (h : AttributesText mode n text pairs rest) :
    Table.WellNamed (Table.ofPairs pairs) ∧
      (∀ pair ∈ Table.ofPairs pairs, Everywhere (Shaped mode) (.value pair.2)) ∧
      membersNesting (Table.ofPairs pairs) ≤ n := by
  have hderived : ∀ pair ∈ pairs, isName pair.1.toList = true ∧
      pair.2.Within mode n := by
    intro pair hpair
    obtain ⟨start, after, hpair⟩ := (attributesText_iff.1 h).exists_step hpair
    obtain ⟨hname, start, hvalue⟩ := hpair.derived
    exact ⟨hname, hvalue.within⟩
  have hmem : ∀ pair ∈ Table.ofPairs pairs, pair ∈ pairs :=
    fun pair hpair => Table.mem_of_mem_ofPairs hpair
  exact ⟨Table.wellNamed_ofPairs fun pair hpair => (hderived pair hpair).1,
    fun pair hpair => (hderived pair (hmem pair hpair)).2.shaped,
    membersNesting_le_iff.2 fun pair hpair => (hderived pair (hmem pair hpair)).2.nesting⟩

theorem entityOf_cases (index : Option (List Expr)) (v : Option Value)
    (pairs : List (String × Value)) :
    index = none ∧ pairs = [] ∧ entityOf index v pairs = .plain v ∨
      ∃ attributes, entityOf index v pairs = .complex index v attributes ∧
        (index.isSome ∨ attributes.isSome) ∧
        (attributes = none ∨
          attributes = some (Table.ofPairs pairs) ∧ pairs ≠ []) := by
  cases index with
  | none =>
      cases pairs with
      | nil => exact Or.inl ⟨rfl, rfl, rfl⟩
      | cons pair pairs =>
          exact Or.inr ⟨_, rfl, Or.inr rfl, Or.inr ⟨rfl, List.cons_ne_nil _ _⟩⟩
  | some es =>
      cases pairs with
      | nil => exact Or.inr ⟨_, rfl, Or.inl rfl, Or.inl rfl⟩
      | cons pair pairs =>
          exact Or.inr ⟨_, rfl, Or.inl rfl, Or.inr ⟨rfl, List.cons_ne_nil _ _⟩⟩

/-- An entry that is derived is shaped everywhere, stays within its levels, and
has a name for a key. -/
theorem Grammar.EntryText.within {pair : String × Entry}
    (h : EntryText lists mode n text pair rest) :
    isName pair.1.toList = true ∧ Everywhere (Shaped mode) (.entry pair.2) ∧
      pair.2.nesting ≤ n := by
  cases h with
  | entity hhead hv hpairs _ =>
      obtain ⟨hname, hindex, hes, hesNesting⟩ := hhead.within
      obtain ⟨hvalue, hvalueNesting⟩ := hv.within
      obtain ⟨hnamed, hmembers, hmembersNesting⟩ := hpairs.within
      refine ⟨hname, ?_⟩
      rcases entityOf_cases _ _ _ with ⟨-, -, heq⟩ |
        ⟨attributes, heq, hsome, rfl | ⟨rfl, hne⟩⟩
      · rw [heq, everywhere_plain]
        exact ⟨⟨trivial, hvalue⟩, hvalueNesting⟩
      · rw [heq, everywhere_complex]
        refine ⟨⟨⟨hsome, hindex, ?_⟩, hes, hvalue, ?_⟩,
          Nat.max_le.2 ⟨hesNesting, Nat.max_le.2 ⟨hvalueNesting, Nat.zero_le _⟩⟩⟩
        · simp
        · simp
      · rw [heq, everywhere_complex]
        refine ⟨⟨⟨hsome, hindex, fun table htable => ?_⟩, hes, hvalue, hmembers⟩,
          Nat.max_le.2 ⟨hesNesting, Nat.max_le.2 ⟨hvalueNesting, hmembersNesting⟩⟩⟩
        obtain rfl := Option.some.inj htable
        exact ⟨Table.ofPairs_ne_nil hne, hnamed⟩
  | @macroDef m _ _ _ _ _ _ _ _ _ _ hname hparams _ hbody _ _ =>
      have ih := fun k (_ : m + 1 = k + 1) => derivesWithin lists mode k
      obtain ⟨hes, hesNesting⟩ := exprsWithin_of_argumentsText ih hparams
      have hwithin := (derivesWithin lists mode m).conditional hbody
      exact ⟨isName_of_nameText hname,
        everywhere_macroDef.2 ⟨trivial, hes, hwithin.shaped⟩,
        Nat.max_le.2 ⟨hesNesting, Nat.succ_le_succ hwithin.nesting⟩⟩

/-- The entries of a source. -/
theorem Grammar.ItemsText.entry_of_mem {α : Type}
    {entry : List Char → α → List Char → Prop} {items : List α}
    (h : ItemsText entry text items rest) {item : α} (hitem : item ∈ items) :
    ∃ start after, entry start item after := by
  induction h with
  | done => cases hitem
  | comment _ _ ih => exact ih hitem
  | entry _ hentry _ ih =>
      rcases List.mem_cons.1 hitem with rfl | hitem
      · exact ⟨_, _, hentry⟩
      · exact ih hitem

/-- A source that is read is within the size limit and derived by the grammar. -/
theorem Resource.derived_of_read {options : ReadOptions} {source : String}
    {path : Option String} {r : Resource}
    (h : (Resource.read options source path).outcome = .ok r) :
    ∃ pairs, SourceText (EntryText .possiblyEmpty options.mode
      (StackBudget.reading.clamp options.maxDepth).1.toNat) source.toList pairs ∧
      r = ⟨Table.ofRegistered pairs⟩ := by
  have hsize : ¬ (0 < options.maxSize ∧
      options.maxSize < source.toList.length) := by
    intro hlarge
    rw [Resource.read, if_pos hlarge] at h
    cases h
  exact (outcome_eq_ok_iff hsize).1 h

/-- The entries of a resource that is read, with the levels that were open to
them. -/
theorem Resource.entries_within {options : ReadOptions} {source : String}
    {path : Option String} {r : Resource}
    (h : (Resource.read options source path).outcome = .ok r) :
    Table.WellNamed r.entries ∧
      ∀ pair ∈ r.entries, Everywhere (Shaped options.mode) (.entry pair.2) ∧
        pair.2.nesting ≤ (StackBudget.reading.clamp options.maxDepth).1.toNat := by
  obtain ⟨pairs, ⟨tail, hitems, -⟩, rfl⟩ := derived_of_read h
  have hnamed : ∀ pair ∈ pairs, isName pair.1.toList = true := by
    intro pair hpair
    obtain ⟨start, after, hentry⟩ := hitems.entry_of_mem hpair
    exact hentry.within.1
  refine ⟨Table.wellNamed_ofRegistered hnamed, fun pair hpair => ?_⟩
  obtain ⟨start, after, hentry⟩ :=
    hitems.entry_of_mem (Table.mem_of_mem_ofRegistered hpair)
  exact hentry.within.2

/-- Whatever the options, every part of a resource that is read has its
shape. -/
theorem Resource.shaped_of_read {options : ReadOptions} {source : String}
    {path : Option String} {r : Resource}
    (h : (Resource.read options source path).outcome = .ok r) :
    Everywhere (Shaped options.mode) (.resource r) := by
  obtain ⟨hnamed, hentries⟩ := entries_within h
  exact everywhere_resource.2 ⟨hnamed, fun pair hpair => (hentries pair hpair).1⟩

/-- An indexed entity with a placeholder and an attribute, and a macro. -/
theorem Resource.shaped_of_read_parts :
    ∃ r, (Resource.read { mode := .split }
      "<k[n.a] 'x\x7b\x7by\x7d\x7d' t: ['z']> <f(n) \x7b !n == 1 ? n : -n \x7d>"
      none).outcome = .ok r ∧ Everywhere (Shaped .split) (.resource r) := by
  obtain ⟨r, hr⟩ := exists_ok_of_isOk (x := (Resource.read { mode := .split }
    "<k[n.a] 'x\x7b\x7by\x7d\x7d' t: ['z']> <f(n) \x7b !n == 1 ? n : -n \x7d>"
    none).outcome) (by decide +kernel)
  exact ⟨r, hr, shaped_of_read hr⟩

end Derivations

end L20n
