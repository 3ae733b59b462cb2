import L20n.Proofs.Rules
import L20n.Resource.Read

/-!
A source is read exactly when the grammar derives it.  An entry is read as the
grammar derives it, a step of a run takes the comments and the entry that come
next, and so a whole run collects the entries of a derivation and stops where
neither a comment nor an entry starts.
-/

namespace L20n

open Text Grammar

namespace Reader

variable {mode : StringMode} {n : Nat} {limit depth : Int}
  {text rest : List Char}

theorem entityOf_eq (index : Option (List Expr)) (v : Option Value)
    (pairs : List (String × Value)) :
    (if (if pairs.isEmpty then none else some (Table.ofPairs pairs)).isNone
        && index.isNone then .plain v
      else .complex index v
        (if pairs.isEmpty then none else some (Table.ofPairs pairs))) =
      entityOf index v pairs := by
  cases index <;> cases pairs <;> rfl

/-- What follows the value of an entity is no value. -/
theorem starts_of_attributesText {text rest after : List Char}
    {pairs : List (String × Value)} (h : AttributesText mode n text pairs rest)
    (hclose : Lexeme ['>'] rest after) :
    Starts (fun c => c == '>' || c.isAlpha) text := by
  cases h with
  | nil => exact hclose.starts (by decide)
  | cons hpair _ => exact hpair.starts.mono fun c hc => by simp [hc]

section Levels

variable (hn : (limit - depth).toNat = n)

include hn

theorem takes_header {head : Header} :
    Takes limit depth (header (Inner.ofLevels mode n)) text head rest ↔
      (∃ key index, head = { key, index } ∧
        HeadText .possiblyEmpty mode n text key index rest) ∨
      ∃ key params a, head = { key, params := some params } ∧
        NameText text key ('(' :: a) ∧
        ArgumentsText .possiblyEmpty mode n a params rest := by
  have ih := fun m (_ : n = m + 1) => reads_ofLevels mode m
  have hinner := Inner.steady_ofLevels mode n
  rw [header, takes_bind (steady_name _)]
  simp only [takes_name, takes_choice_bind Token.found_propertyIndexOpen,
    takes_choice_bind Token.found_callOpen, Option.isSome_none,
    Option.isSome_some, if_true, Bool.false_eq_true, if_false, bind_pure_comp,
    takes_map (steady_expressions hinner _ _), takes_map (steady_arguments hinner),
    takes_expressions hn ih Token.found_arrayClose (Or.inr rfl),
    takes_arguments hn ih, takes_pure, List.cons_append, List.nil_append]
  constructor
  · rintro ⟨key, a, hkey, ⟨hindex, ⟨hcall, rfl, rfl⟩ | ⟨b, rfl, es, hes, rfl⟩⟩ |
      ⟨b, rfl, es, ⟨c, hes, hclose⟩, rfl⟩⟩
    · exact Or.inl ⟨key, none, rfl, .plain hkey fun c hc =>
        ⟨forall_ne_cons_iff.1 hindex c hc, forall_ne_cons_iff.1 hcall c hc⟩⟩
    · exact Or.inr ⟨key, es, b, rfl, hkey, hes⟩
    · exact Or.inl ⟨key, some es, rfl, .index hkey hes hclose⟩
  · rintro (⟨key, index, rfl, hhead⟩ | ⟨key, params, a, rfl, hkey, hes⟩)
    · cases hhead with
      | plain hkey hfree =>
          exact ⟨key, rest, hkey, Or.inl
            ⟨forall_ne_cons_iff.2 fun c hc => (hfree c hc).1, Or.inl
              ⟨forall_ne_cons_iff.2 fun c hc => (hfree c hc).2, rfl, rfl⟩⟩⟩
      | index hkey hes hclose =>
          exact ⟨key, _, hkey, Or.inr ⟨_, rfl, _, ⟨_, hes, hclose⟩, rfl⟩⟩
    · exact ⟨key, _, hkey, Or.inl ⟨by simp, Or.inr ⟨a, rfl, params, hes, rfl⟩⟩⟩

def attribute? (mode : StringMode) (inner : Inner) :
    Reader (Option (String × Value)) := do
  match ← name? with
  | none => return none
  | some key =>
    let _ ← expect .colon "':'"
    return some (key, ← value mode inner)

theorem takes_attribute? {found : Option (String × Value)} :
    Takes limit depth (attribute? mode (Inner.ofLevels mode n)) text found rest ↔
      (∀ key after, ¬ NameText text key after) ∧ found = none ∧ text = rest ∨
        ∃ pair, found = some pair ∧ PairText mode n text pair rest := by
  have ih := fun m (_ : n = m + 1) => reads_ofLevels mode m
  have hvalue : Steady (value mode (Inner.ofLevels mode n)) :=
    steady_value (Inner.steady_ofLevels mode n)
  rw [attribute?, takes_optional_bind steady_name?]
  simp only [takes_name?_none, takes_name?_some, takes_colon_bind, takes_pure,
    bind_pure_comp, takes_map hvalue, takes_value hn ih, valueText_trimStart]
  constructor
  · rintro (⟨_, ⟨hnone, rfl⟩, rfl, rfl⟩ |
      ⟨key, a, hkey, b, hcolon, v, hv, rfl⟩)
    · exact Or.inl ⟨hnone, rfl, rfl⟩
    · exact Or.inr ⟨_, rfl, .pair hkey hcolon hv⟩
  · rintro (⟨hnone, rfl, rfl⟩ | ⟨pair, rfl, hkey, hcolon, hv⟩)
    · exact Or.inl ⟨_, ⟨hnone, rfl⟩, rfl, rfl⟩
    · exact Or.inr ⟨_, _, hkey, _, hcolon, _, hv, rfl⟩

theorem takes_attribute?_some {pair : String × Value} :
    Takes limit depth (attribute? mode (Inner.ofLevels mode n)) text (some pair)
        rest ↔
      PairText mode n text pair rest := by
  simp [takes_attribute? hn]

theorem takes_attribute?_none :
    Takes limit depth (attribute? mode (Inner.ofLevels mode n)) text none rest ↔
      (∀ key after, ¬ NameText text key after) ∧ text = rest := by
  simp [takes_attribute? hn]

theorem progressing_attribute? :
    Progressing limit depth (attribute? mode (Inner.ofLevels mode n)) where
  steady := by
    have hvalue := @steady_value mode _ (Inner.steady_ofLevels mode n)
    refine steady_name?.bind fun found => ?_
    cases found with
    | none => exact steady_pure none
    | some key =>
        exact (steady_expect .colon _).bind fun _ => hvalue.bind fun _ => steady_pure _
  shorter := by
    intro text pair rest h
    have ih := fun m (_ : n = m + 1) => reads_ofLevels mode m
    have hvalue := @steady_value mode _ (Inner.steady_ofLevels mode n)
    obtain ⟨hkey, hcolon, hv⟩ := (takes_attribute?_some hn).1 h
    have hlt := Word.length_lt hkey
    have hmiddle := hcolon.suffix.length_le
    have hle := (hvalue.suffix_of_takes ((takes_value hn ih).2 hv)).length_le
    omega
  stays := fun h => ((takes_attribute?_none hn).1 h).2
  ends := by
    refine (takes_attribute?_none hn).2 ⟨fun key after hkey => ?_, rfl⟩
    have hlt := Word.length_lt hkey
    simp at hlt

theorem takes_attributes? {found : Option (List (String × Value))} :
    Takes limit depth (attributes? mode (Inner.ofLevels mode n)) text found rest ↔
      ∃ pairs, AttributesText mode n text pairs rest ∧
        (∀ key after, ¬ NameText rest key after) ∧
        found = if pairs.isEmpty then none else some (Table.ofPairs pairs) := by
  have hstep : Progressing limit depth
      (attribute? mode (Inner.ofLevels mode n)) :=
    progressing_attribute? hn
  change Takes limit depth (many (attribute? mode (Inner.ofLevels mode n)) >>=
    fun pairs => pure (if pairs.isEmpty then none else some (Table.ofPairs pairs)))
    text found rest ↔ _
  rw [bind_pure_comp, takes_map hstep.steady.many]
  simp only [hstep.takes_many, takes_attribute?_some hn, takes_attribute?_none hn,
    attributesText_iff, and_true, and_assoc]

theorem takes_entryBody_params {key : String} {params : List Expr} {e : Entry} :
    Takes limit depth (entryBody mode (Inner.ofLevels mode n)
        { key, params := some params }) text e rest ↔
      ∃ m a b body, n = m + 1 ∧ Lexeme ['\x7b'] text a ∧
        ConditionalText .possiblyEmpty mode m a body b ∧
        Lexeme ['\x7d'] b rest ∧ e = .macroDef params body := by
  have ih := fun m (_ : n = m + 1) => reads_ofLevels mode m
  have hinner := Inner.steady_ofLevels mode n
  rw [entryBody]
  simp only [takes_expect_bind Token.found_objectOpen,
    takes_expect_bind Token.found_objectClose,
    takes_bind (steady_expression hinner), takes_expression hn ih, takes_pure]
  constructor
  · rintro ⟨a, hopen, body, b, ⟨m, hm, hbody, -⟩, _, hclose, rfl, rfl⟩
    exact ⟨m, a, b, body, hm, hopen, hbody, hclose, rfl⟩
  · rintro ⟨m, a, b, body, hm, hopen, hbody, hclose, rfl⟩
    have hends := endsConditional_of_lexeme hclose (by decide)
    exact ⟨a, hopen, body, b, ⟨m, hm, hbody, hends⟩, rest, hclose, rfl, rfl⟩

theorem takes_entryBody_entity {key : String} {index : Option (List Expr)}
    {e : Entry} :
    Takes limit depth (entryBody mode (Inner.ofLevels mode n) { key, index }) text
        e rest ↔
      ∃ v pairs a, OptionalValueText mode n text v a ∧
        (v = none → ¬ Starts isValueOpen text) ∧
        AttributesText mode n a pairs rest ∧
        (∀ key after, ¬ NameText rest key after) ∧ e = entityOf index v pairs := by
  have ih := fun m (_ : n = m + 1) => reads_ofLevels mode m
  have hinner := Inner.steady_ofLevels mode n
  rw [entryBody]
  simp only [takes_optional_bind (steady_value? hinner), takes_value?_none hinner,
    takes_value?_some hn ih, takes_bind (steady_attributes? hinner),
    takes_attributes? hn, ← apply_ite (pure : Entry → Reader Entry), takes_pure]
  constructor
  · rintro (⟨_, ⟨hnone, rfl⟩, _, a, ⟨pairs, hpairs, hend, rfl⟩, rfl, rfl⟩ |
      ⟨v, a, hv, _, b, ⟨pairs, hpairs, hend, rfl⟩, rfl, rfl⟩)
    · exact ⟨none, pairs, _, .absent, fun _ => hnone, hpairs, hend,
        entityOf_eq index none pairs⟩
    · exact ⟨some v, pairs, a, .present hv, fun h => absurd h (Option.some_ne_none v),
        hpairs, hend,
        entityOf_eq index (some v) pairs⟩
  · rintro ⟨v, pairs, a, hv, hnone, hpairs, hend, rfl⟩
    cases hv with
    | absent =>
        exact Or.inl ⟨_, ⟨hnone rfl, rfl⟩, _, _, ⟨pairs, hpairs, hend, rfl⟩,
          entityOf_eq index none pairs, rfl⟩
    | present hv =>
        exact Or.inr ⟨_, _, hv, _, _, ⟨pairs, hpairs, hend, rfl⟩,
          entityOf_eq index (some _) pairs, rfl⟩

theorem takes_entry {pair : String × Entry} :
    Takes limit depth (entry mode (Inner.ofLevels mode n)) text pair rest ↔
      EntryText .possiblyEmpty mode n text pair rest := by
  have hinner := Inner.steady_ofLevels mode n
  rw [entry, takes_bind (steady_header hinner)]
  simp only [takes_header hn, takes_bind (steady_entryBody hinner _),
    takes_expect_bind Token.found_entryClose, takes_pure]
  constructor
  · rintro ⟨head, a, hhead, e, b, hbody, _, hclose, rfl, rfl⟩
    rcases hhead with ⟨key, index, rfl, hhead⟩ | ⟨key, params, c, rfl, hkey, hparams⟩
    · obtain ⟨v, pairs, c, hv, -, hpairs, -, rfl⟩ :=
        (takes_entryBody_entity hn).1 hbody
      exact .entity hhead hv hpairs hclose
    · obtain ⟨m, d, e, body, rfl, hopen, hexpr, hend, rfl⟩ :=
        (takes_entryBody_params hn).1 hbody
      exact .macroDef hkey hparams hopen hexpr hend hclose
  · intro h
    cases h with
    | entity hhead hv hpairs hclose =>
        refine ⟨_, _, Or.inl ⟨_, _, rfl, hhead⟩, _, _,
          (takes_entryBody_entity hn).2 ⟨_, _, _, hv, ?_, hpairs, ?_, rfl⟩, _,
          hclose, rfl, rfl⟩
        · rintro rfl
          cases hv
          refine (starts_of_attributesText hpairs hclose).not_starts fun c hc => ?_
          rw [Bool.or_eq_true, beq_iff_eq] at hc
          rcases hc with rfl | hc
          · rfl
          · exact isValueOpen_eq_false_of_isAlphanum (by simp [Char.isAlphanum, hc])
        · intro key after hkey
          exact (Word.starts_first hkey).not_lexeme (by decide) hclose
    | macroDef hkey hparams hopen hexpr hend hclose =>
        exact ⟨_, _, Or.inr ⟨_, _, _, rfl, hkey, hparams⟩, _, _,
          (takes_entryBody_params hn).2 ⟨_, _, _, _, rfl, hopen, hexpr, hend, rfl⟩, _,
          hclose, rfl, rfl⟩

end Levels

theorem takes_comment? {found : Option Unit} :
    Takes limit depth comment? text found rest ↔
      (∀ after, ¬ Lexeme ['/', '*'] text after) ∧ found = none ∧ text = rest ∨
        found = some () ∧ CommentText text rest := by
  rw [comment?, takes_choice_bind Token.found_commentOpen]
  simp only [takes_optional_bind (steady_seek? _), not_takes_fail, and_false,
    exists_false, false_or, takes_pure, takes_seek?_some, CommentText]
  constructor
  · rintro (⟨hnone, rfl, rfl⟩ |
      ⟨body, hopen, _, _, ⟨found, hfind, -, hrest⟩, rfl, rfl⟩)
    · exact Or.inl ⟨hnone, rfl, rfl⟩
    · obtain ⟨front, hthrough⟩ := Token.find?_commentClose.1 ⟨found, hfind, hrest⟩
      exact Or.inr ⟨rfl, body, front, hopen, hthrough⟩
  · rintro (⟨hnone, rfl, rfl⟩ | ⟨rfl, body, front, hopen, hthrough⟩)
    · exact Or.inl ⟨hnone, rfl, rfl⟩
    · obtain ⟨found, hfind, hrest⟩ := Token.find?_commentClose.2 ⟨front, hthrough⟩
      exact Or.inr ⟨body, hopen, _, _, ⟨found, hfind, rfl, hrest⟩, rfl, rfl⟩

theorem takes_comment?_some {u : Unit} :
    Takes limit depth comment? text (some u) rest ↔ CommentText text rest := by
  simp [takes_comment?]

theorem takes_comment?_none :
    Takes limit depth comment? text none rest ↔
      (∀ after, ¬ Lexeme ['/', '*'] text after) ∧ text = rest := by
  simp [takes_comment?]

theorem progressing_comment? : Progressing limit depth comment? where
  steady := steady_comment?
  shorter := by
    intro text u rest h
    obtain ⟨body, front, hopen, hthrough⟩ := takes_comment?_some.1 h
    have hlt := hopen.length_lt (by simp)
    have hle := hthrough.suffix.length_le
    omega
  stays := fun h => (takes_comment?_none.1 h).2
  ends := takes_comment?_none.2 ⟨fun after h => by simp [Lexeme] at h, rfl⟩

def SkipsComments (text rest : List Char) : Prop :=
  ∃ row : List Unit,
    Iterates (fun text _ rest => CommentText text rest) row text rest

theorem SkipsComments.suffix (h : SkipsComments text rest) : rest <:+ text := by
  obtain ⟨row, hrow⟩ := h
  induction row generalizing text with
  | nil =>
      obtain rfl : text = rest := hrow
      exact List.suffix_rfl
  | cons _ row ih =>
      obtain ⟨a, ⟨body, front, hopen, hthrough⟩, hmore⟩ := hrow
      exact (ih hmore).trans (hthrough.suffix.trans hopen.suffix)

theorem takes_comments {u : Unit} :
    Takes limit depth comments text u rest ↔
      SkipsComments text rest ∧ ∀ after, ¬ Lexeme ['/', '*'] rest after := by
  have hcomments := @progressing_comment? limit depth
  rw [comments, bind_pure_comp, takes_map hcomments.steady.many]
  simp only [hcomments.takes_many, takes_comment?_some, takes_comment?_none,
    and_true, exists_and_right, SkipsComments]

theorem takes_entryOpen {opened : Bool} :
    Takes limit depth entryOpen text opened rest ↔
      ∃ a, SkipsComments text a ∧ (∀ after, ¬ Lexeme ['/', '*'] a after) ∧
        ((∀ after, ¬ Lexeme ['<'] a after) ∧ opened = false ∧ a = rest ∨
          Lexeme ['<'] a rest ∧ opened = true) := by
  have hskip : Steady comments := steady_comment?.many.bind fun _ => steady_pure _
  rw [entryOpen, takes_bind hskip]
  simp only [takes_comments, takes_choice_bind Token.found_entryOpen, takes_pure,
    Option.isSome_none, Option.isSome_some]
  constructor
  · rintro ⟨_, a, ⟨hskip, hend⟩, ⟨hnone, rfl, rfl⟩ | ⟨_, hopen, rfl, rfl⟩⟩
    · exact ⟨a, hskip, hend, Or.inl ⟨hnone, rfl, rfl⟩⟩
    · exact ⟨a, hskip, hend, Or.inr ⟨hopen, rfl⟩⟩
  · rintro ⟨a, hskip, hend, ⟨hnone, rfl, rfl⟩ | ⟨hopen, rfl⟩⟩
    · exact ⟨(), a, ⟨hskip, hend⟩, Or.inl ⟨hnone, rfl, rfl⟩⟩
    · exact ⟨(), a, ⟨hskip, hend⟩, Or.inr ⟨rest, hopen, rfl, rfl⟩⟩

theorem takes_withLevels {α : Type} {rule : Inner → Reader α} {a : α} :
    Takes limit depth (withLevels mode rule) text a rest ↔
      Takes limit depth (rule (Inner.ofLevels mode (limit - depth).toNat)) text a
        rest :=
  Iff.rfl

/-- The next step of a run: comments, and then an entry or a tail. -/
theorem takes_entryAhead? {found : Option (String × Entry)} :
    Takes limit depth (entryAhead? mode) text found rest ↔
      ∃ a, SkipsComments text a ∧
        (IsTail a ∧ found = none ∧ a = rest ∨
          ∃ b pair, Lexeme ['<'] a b ∧
            EntryText .possiblyEmpty mode (limit - depth).toNat b pair rest ∧
            found = some pair) := by
  have hentry : Steady (withLevels mode (entry mode)) :=
    steady_withLevels fun n => steady_entry (Inner.steady_ofLevels mode n)
  rw [entryAhead?, takes_bind steady_entryOpen]
  simp only [takes_entryOpen]
  constructor
  · rintro ⟨opened, b, ⟨a, hskip, hend, ⟨hnone, rfl, rfl⟩ | ⟨hopen, rfl⟩⟩, h⟩
    · obtain ⟨rfl, rfl⟩ := takes_pure.1 h
      exact ⟨a, hskip, Or.inl ⟨⟨hnone, hend⟩, rfl, rfl⟩⟩
    · rw [if_pos rfl, bind_pure_comp, takes_map hentry] at h
      obtain ⟨pair, hpair, rfl⟩ := h
      have hderived := (takes_entry rfl).1 (takes_withLevels.1 hpair)
      exact ⟨a, hskip, Or.inr ⟨b, pair, hopen, hderived, rfl⟩⟩
  · rintro ⟨a, hskip, ⟨htail, rfl, rfl⟩ | ⟨b, pair, hopen, hpair, rfl⟩⟩
    · exact ⟨false, a, ⟨a, hskip, htail.2, Or.inl ⟨htail.1, rfl, rfl⟩⟩,
        takes_pure.2 ⟨rfl, rfl⟩⟩
    · refine ⟨true, b, ⟨a, hskip, ?_, Or.inr ⟨hopen, rfl⟩⟩, ?_⟩
      · intro after hcomment
        exact absurd (hopen.head_eq hcomment) (by decide)
      · rw [if_pos rfl, bind_pure_comp, takes_map hentry]
        exact ⟨pair, takes_withLevels.2 ((takes_entry rfl).2 hpair), rfl⟩

end Reader

section Runs

variable {mode : StringMode} {limit : Int} {text rest : List Char}
  {pairs : List (String × Entry)}

/-- What is derived after skipped comments is derived before them. -/
theorem Grammar.ItemsText.of_skipsComments {α : Type}
    {entry : List Char → α → List Char → Prop} {items : List α} {a : List Char}
    (hskip : Reader.SkipsComments text a) (h : ItemsText entry a items rest) :
    ItemsText entry text items rest := by
  obtain ⟨row, hrow⟩ := hskip
  induction row generalizing text with
  | nil =>
      obtain rfl : text = a := hrow
      exact h
  | cons _ row ih =>
      obtain ⟨b, hcomment, hmore⟩ := hrow
      exact .comment hcomment (ih hmore)

/-- One step of a run: a derivation up to a tail starts with the next entry, or
has none. -/
theorem items_iff_step :
    ItemsText (EntryText .possiblyEmpty mode limit.toNat) text pairs rest ∧ IsTail rest ↔
      pairs = [] ∧ Reader.Takes limit 0 (Reader.entryAhead? mode) text none rest ∨
        ∃ pair more a, pairs = pair :: more ∧
          Reader.Takes limit 0 (Reader.entryAhead? mode) text (some pair) a ∧
          ItemsText (EntryText .possiblyEmpty mode limit.toNat) a more rest ∧
            IsTail rest := by
  simp only [Reader.takes_entryAhead?, Int.sub_zero]
  constructor
  · rintro ⟨hitems, htail⟩
    induction hitems with
    | done => exact Or.inl ⟨rfl, _, ⟨[], rfl⟩, Or.inl ⟨htail, trivial, rfl⟩⟩
    | comment hcomment _ ih =>
        rcases ih htail with ⟨rfl, a, ⟨row, hrow⟩, hnext⟩ |
          ⟨pair, more, b, rfl, ⟨a, ⟨row, hrow⟩, hnext⟩, hmore⟩
        · exact Or.inl ⟨rfl, a, ⟨() :: row, _, hcomment, hrow⟩, hnext⟩
        · exact Or.inr ⟨pair, more, b, rfl,
            ⟨a, ⟨() :: row, _, hcomment, hrow⟩, hnext⟩, hmore⟩
    | entry hopen hpair hmore _ =>
        exact Or.inr ⟨_, _, _, rfl,
          ⟨_, ⟨[], rfl⟩, Or.inr ⟨_, _, hopen, hpair, rfl⟩⟩, hmore, htail⟩
  · rintro (⟨rfl, a, hskip, ⟨htail, -, rfl⟩ | ⟨_, _, -, -, hnone⟩⟩ |
      ⟨pair, more, b, rfl, ⟨a, hskip, ⟨-, hsome, -⟩ | ⟨c, _, hopen, hpair, hsome⟩⟩,
        hmore, htail⟩)
    · exact ⟨.of_skipsComments hskip .done, htail⟩
    · cases hnone
    · cases hsome
    · obtain rfl := Option.some.inj hsome
      exact ⟨.of_skipsComments hskip (.entry hopen hpair hmore), htail⟩

theorem takes_entryAhead?_nil :
    Reader.Takes limit 0 (Reader.entryAhead? mode) [] none [] := by
  refine Reader.takes_entryAhead?.2 ⟨[], ⟨[], rfl⟩, Or.inl ⟨⟨?_, ?_⟩, rfl, rfl⟩⟩
  · intro after hopen
    simp [Lexeme] at hopen
  · intro after hcomment
    simp [Lexeme] at hcomment

theorem length_lt_of_entryAhead? {depth : Int} {pair : String × Entry}
    (h : Reader.Takes limit depth (Reader.entryAhead? mode) text (some pair) rest) :
    rest.length < text.length := by
  obtain ⟨a, hskip, ⟨-, hnone, -⟩ | ⟨b, _, hopen, hpair, -⟩⟩ :=
    Reader.takes_entryAhead?.1 h
  · cases hnone
  · have hskipped := hskip.suffix.length_le
    have hlt := hopen.length_lt (by simp)
    have hentry := (Reader.takes_entry rfl).2 hpair
    have hsteady := Inner.steady_ofLevels mode (limit - depth).toNat
    have hle := ((Reader.steady_entry hsteady).suffix_of_takes hentry).length_le
    omega

/-- A run with enough rounds ends without an error exactly when the grammar
derives its entries up to a tail. -/
theorem Run.upTo_iff {n : Nat} (hn : text.length ≤ n) :
    ((Run.upTo mode n ⟨text, guardAt limit 0⟩).error = none ∧
      (Run.upTo mode n ⟨text, guardAt limit 0⟩).registered = pairs ∧
      (Run.upTo mode n ⟨text, guardAt limit 0⟩).state.data = rest) ↔
    ItemsText (EntryText .possiblyEmpty mode limit.toNat) text pairs rest ∧ IsTail rest := by
  induction n generalizing text pairs with
  | zero =>
      obtain rfl : text = [] := List.eq_nil_of_length_eq_zero (by omega)
      have hnext := @takes_entryAhead?_nil mode limit
      rw [items_iff_step]
      constructor
      · rintro ⟨-, rfl, rfl⟩
        exact Or.inl ⟨rfl, hnext⟩
      · rintro (⟨rfl, hnone⟩ | ⟨pair, more, a, rfl, hsome, -⟩)
        · exact ⟨rfl, rfl, (hnext.unique hnone).2⟩
        · cases (hnext.unique hsome).1
  | succ n ih =>
      rw [items_iff_step, Run.upTo]
      cases hrun : Reader.entryAhead? mode ⟨text, guardAt limit 0⟩ with
      | error e s =>
          constructor
          · rintro ⟨herror, -⟩
            cases herror
          · rintro (⟨-, hnone⟩ | ⟨pair, more, a, -, hsome, -⟩)
            · rw [Reader.Takes, hrun] at hnone
              cases hnone
            · rw [Reader.Takes, hrun] at hsome
              cases hsome
      | ok found s =>
          obtain ⟨hnext, hs⟩ := Reader.steady_entryAhead?.takes_of_ok hrun
          cases found with
          | none =>
              constructor
              · rintro ⟨-, rfl, rfl⟩
                exact Or.inl ⟨rfl, hnext⟩
              · rintro (⟨rfl, hnone⟩ | ⟨pair, more, a, rfl, hsome, -⟩)
                · exact ⟨rfl, rfl, (hnext.unique hnone).2⟩
                · cases (hnext.unique hsome).1
          | some pair =>
              have hlt := length_lt_of_entryAhead? hnext
              rw [hs]
              constructor
              · rintro ⟨herror, rfl, hrest⟩
                have hmore := (ih (by omega)).1 ⟨herror, rfl, hrest⟩
                exact Or.inr ⟨pair, _, s.data, rfl, hnext, hmore⟩
              · rintro (⟨-, hnone⟩ | ⟨other, more, a, rfl, hsome, hmore⟩)
                · cases (hnext.unique hnone).1
                · obtain ⟨heq, rfl⟩ := hnext.unique hsome
                  obtain rfl := Option.some.inj heq
                  obtain ⟨herror, hregistered, hrest⟩ := (ih (by omega)).2 hmore
                  exact ⟨herror, by rw [← hregistered], hrest⟩

theorem Run.ofSource_iff :
    (Run.ofSource mode limit text).error = none ∧
      (Run.ofSource mode limit text).registered = pairs ↔
    SourceText (EntryText .possiblyEmpty mode limit.toNat) text pairs := by
  rw [SourceText]
  simp only [← Run.upTo_iff (Nat.le_refl text.length)]
  constructor
  · rintro ⟨herror, rfl⟩
    exact ⟨_, herror, rfl, rfl⟩
  · rintro ⟨_, herror, rfl, rfl⟩
    exact ⟨herror, rfl⟩

/-- The outcome of reading a source of permitted size is that of its run. -/
theorem Resource.outcome_eq_ok_iff {options : ReadOptions} {source : String}
    {path : Option String} {r : Resource}
    (hsize : ¬ (0 < options.maxSize ∧ options.maxSize < source.toList.length)) :
    (Resource.read options source path).outcome = .ok r ↔
      ∃ pairs, SourceText (EntryText .possiblyEmpty options.mode
        (StackBudget.reading.clamp options.maxDepth).1.toNat) source.toList pairs ∧
        r = ⟨Table.ofRegistered pairs⟩ := by
  simp only [← Run.ofSource_iff, Resource.read, hsize, if_false]
  cases hrun : (Run.ofSource options.mode
      (StackBudget.reading.clamp options.maxDepth).1 source.toList).error with
  | some e => simp
  | none => simp [Run.resource, eq_comm]

theorem exists_ok_of_isOk {ε α : Type} {x : Except ε α} (h : x.isOk = true) :
    ∃ a, x = .ok a := by
  cases x with
  | ok a => exact ⟨a, rfl⟩
  | error e => cases h

theorem exists_ok_of_any {ε α : Type} {x : Except ε α} {p : α → Bool}
    (h : x.toOption.any p = true) : ∃ a, x = .ok a ∧ p a = true := by
  cases x with
  | error e => cases h
  | ok a => exact ⟨a, rfl, h⟩

/-- With the size limit off, a source is accepted exactly when the grammar
derives it within the levels of the depth limit. -/
theorem Resource.accepted_iff_derivable (options : ReadOptions)
    (hoff : options.maxSize ≤ 0) (source : String) (path : Option String) :
    (∃ r, (Resource.read options source path).outcome = .ok r) ↔
      ∃ pairs, SourceText (EntryText .possiblyEmpty options.mode
        (StackBudget.reading.clamp options.maxDepth).1.toNat) source.toList
        pairs := by
  have hsize : ¬ (0 < options.maxSize ∧
      options.maxSize < source.toList.length) := by omega
  simp only [outcome_eq_ok_iff hsize]
  constructor
  · rintro ⟨r, pairs, hsource, -⟩
    exact ⟨pairs, hsource⟩
  · rintro ⟨pairs, hsource⟩
    exact ⟨_, pairs, hsource, rfl⟩

/-- A comment, a macro whose body holds every kind of suffix, and a tail. -/
theorem Resource.derivable_macro_of_accepted :
    (0 : Int) ≤ 0 ∧ ∃ pairs, SourceText (EntryText .possiblyEmpty .split 4)
      "/**/ <m() \x7b f(a..b, -2 + 3)[.x] ? y.z : (1)[0] \x7d> tail".toList pairs := by
  refine ⟨by decide, ?_⟩
  apply (accepted_iff_derivable { maxSize := 0, maxDepth := 4, mode := .split }
    (by decide) _ none).1
  exact exists_ok_of_isOk (by decide +kernel)

end Runs

end L20n
