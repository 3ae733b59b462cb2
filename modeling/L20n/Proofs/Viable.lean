import L20n.Proofs.Runs
import L20n.Proofs.Spelling

/-!
Where a rule fails, the text up to that place can still be completed.  The text
is *viable* for a relation and an error if the error lies in it and, unless a
level was refused, what comes before the error goes on to a text that the
relation takes.  Every completion begins with a blank, so that no word, no
delimiter and no head of an entity in front of it reads on into it.
-/

namespace L20n

open Text Grammar Reader

/-- The error points at the place, given by the text ahead of it: at the fault,
or at the number that is too long. -/
def ReadError.LiesAt (place : List Char) : ReadError → Prop
  | .fault _ shown => shown = some place
  | .numberTooLong e => LongNumber place e.digits

def ReadError.TooDeep : ReadError → Prop
  | .fault (.tooDeep _) _ => True
  | _ => False

section Theory

variable {α β γ : Type} {R : List Char → α → List Char → Prop}
  {S : List Char → β → List Char → Prop} {T : List Char → γ → List Char → Prop}
  {text middle rest place : List Char} {e : ReadError}

/-- The text up to the place goes on to a text that the relation takes, with
any neutral rest behind it. -/
def Completable (R : List Char → α → List Char → Prop) (text place : List Char) :
    Prop :=
  ∀ rest, Neutral rest → ∃ text' middle a,
    SameFront text place text' middle ∧ Neutral middle ∧ R text' a rest

/-- The error lies in the text and, unless a level was refused, the text up to
it can be completed. -/
def Viable (R : List Char → α → List Char → Prop) (text : List Char)
    (e : ReadError) : Prop :=
  ∃ place, e.LiesAt place ∧ place <:+ text ∧ (e.TooDeep ∨ Completable R text place)

theorem neutral_space (rest : List Char) : Neutral (' ' :: rest) :=
  neutral_cons (by decide) rest

theorem Neutral.stops (h : Neutral rest) : Stops rest := by
  intro c hc
  refine ⟨isWordChar_eq_false_of_isNeutral (h c hc), ?_⟩
  rintro rfl
  exact absurd (h '"' hc) (by decide)

theorem Local.suffix (h : Local R) {a : α} (ha : R text a rest) : rest <:+ text := by
  obtain ⟨text', ⟨front, rfl, -⟩, -⟩ := h ha fun c hc => Or.inl hc
  exact List.suffix_append front rest

/-- Where something is missing, it can be put in. -/
theorem viable_missing {cause : Cause}
    (h : ∀ rest, Neutral rest → ∃ middle a, Neutral middle ∧ R middle a rest) :
    Viable R text (.fault cause (some text)) := by
  refine ⟨text, rfl, List.suffix_rfl, Or.inr ?_⟩
  intro rest hrest
  obtain ⟨middle, a, hmiddle, ha⟩ := h rest hrest
  exact ⟨middle, middle, a, .refl text middle, hmiddle, ha⟩

theorem viable_tooDeep {limit : Int} :
    Viable R text (.fault (.tooDeep limit) (some text)) :=
  ⟨text, rfl, List.suffix_rfl, Or.inl trivial⟩

/-- What was taken before the error is taken again before the completion. -/
theorem Viable.after (h : Viable S middle e) (hlocal : Local R) {a : α}
    (hfirst : R text a middle)
    (hjoin : ∀ ⦃text' middle' b rest⦄, R text' a middle' → S middle' b rest →
      ∃ c, T text' c rest) : Viable T text e := by
  obtain ⟨place, hlies, hsuffix, hend⟩ := h
  refine ⟨place, hlies, hsuffix.trans (hlocal.suffix hfirst), hend.imp_right ?_⟩
  intro hcompletable rest hrest
  obtain ⟨middle', last, b, hfront, hlast, hb⟩ := hcompletable rest hrest
  obtain ⟨text', htext, ha⟩ := hlocal hfirst (hfront.joins (hlast.joins place))
  obtain ⟨c, hc⟩ := hjoin ha hb
  exact ⟨text', last, c, htext.trans hfront, hlast, hc⟩

/-- What has to follow the completion is added to it. -/
theorem Viable.before (h : Viable R text e)
    (hjoin : ∀ ⦃rest⦄, Neutral rest → ∃ middle, Neutral middle ∧
      ∀ ⦃text' a⦄, R text' a middle → ∃ c, T text' c rest) : Viable T text e := by
  obtain ⟨place, hlies, hsuffix, hend⟩ := h
  refine ⟨place, hlies, hsuffix, hend.imp_right ?_⟩
  intro hcompletable rest hrest
  obtain ⟨middle, hmiddle, hclose⟩ := hjoin hrest
  obtain ⟨text', last, a, hfront, hlast, ha⟩ := hcompletable middle hmiddle
  obtain ⟨c, hc⟩ := hclose ha
  exact ⟨text', last, c, hfront, hlast, hc⟩

theorem Viable.mono (h : Viable R text e)
    (hjoin : ∀ ⦃text' a rest⦄, R text' a rest → ∃ c, T text' c rest) :
    Viable T text e :=
  h.before fun rest hrest => ⟨rest, hrest, fun _ _ ha => hjoin ha⟩

/-- A separator leaves its blanks out of the error; they are put back. -/
theorem Viable.of_trimStart (h : Viable R (trimStart text) e)
    (hcongr : ∀ {text other a rest}, trimStart text = trimStart other →
      R text a rest → R other a rest) : Viable R text e := by
  obtain ⟨place, hlies, hsuffix, hend⟩ := h
  refine ⟨place, hlies, hsuffix.trans (suffix_trimStart text), hend.imp_right ?_⟩
  intro hcompletable rest hrest
  obtain ⟨text', middle, a, hfront, hmiddle, ha⟩ := hcompletable rest hrest
  have hblanks : SameFront text (trimStart text)
      (text.takeWhile isBlank ++ text') text' :=
    ⟨_, (takeWhile_append_trimStart text).symm, rfl⟩
  refine ⟨_, middle, a, hblanks.trans hfront, hmiddle, hcongr ?_ ha⟩
  rw [trimStart, trimStart, List.dropWhile_append_of_pos]
  exact List.all_eq_true.1 List.all_takeWhile

end Theory

section Marks

variable {α β : Type} {R : List Char → α → List Char → Prop}
  {S : List Char → β → List Char → Prop}
  {limit depth : Int} {text middle rest : List Char} {e : ReadError}

/-- A lexeme as a relation with nothing to tell. -/
def LexemeText (lexeme text : List Char) (_ : Unit) (rest : List Char) : Prop :=
  Lexeme lexeme text rest

theorem local_lexemeText {lexeme : List Char} (hne : lexeme ≠ []) :
    Local (LexemeText lexeme) :=
  fun _ _ _ h rest' _ => h.splice_of_ne_nil hne rest'

theorem lexeme_spaced {c : Char} (hc : isBlank c = false) (rest : List Char) :
    Lexeme [c] (' ' :: c :: rest) rest :=
  lexeme_space (lexeme_cons hc)

theorem Viable.afterLexeme {lexeme : List Char} (h : Viable R middle e)
    (hfirst : Lexeme lexeme text middle) (hne : lexeme ≠ [])
    (hjoin : ∀ ⦃text' middle' a rest⦄, Lexeme lexeme text' middle' →
      R middle' a rest → ∃ b, S text' b rest) : Viable S text e :=
  Viable.after (a := ()) h (local_lexemeText hne) hfirst
    fun _ _ _ _ hlexeme ha => hjoin hlexeme ha

/-- The same for something taken with a lexeme behind it. -/
theorem Viable.behind {γ : Type} {T : List Char → γ → List Char → Prop} {a : α}
    {lexeme last : List Char} (h : Viable S last e) (hlocal : Local R)
    (hfirst : R text a middle) (hlexeme : Lexeme lexeme middle last)
    (hne : lexeme ≠ [])
    (hjoin : ∀ ⦃text' middle' last' b rest⦄, R text' a middle' →
      Lexeme lexeme middle' last' → S last' b rest → ∃ c, T text' c rest) :
    Viable T text e := by
  have hafter : Viable (fun text b rest => ∃ last, Lexeme lexeme text last ∧
      S last b rest) middle e :=
    h.afterLexeme hlexeme hne fun _ last' b _ hlexeme hb => ⟨b, last', hlexeme, hb⟩
  refine hafter.after hlocal hfirst ?_
  intro text' middle' b rest ha hb
  obtain ⟨last', hlexeme, hb⟩ := hb
  exact hjoin ha hlexeme hb

/-- A mark that has to stand directly in front of the text. -/
theorem Viable.afterMark (h : Viable R text e) (mark : List Char)
    (hjoin : ∀ ⦃text' a rest⦄, R text' a rest → ∃ b, S (mark ++ text') b rest) :
    Viable S (mark ++ text) e := by
  obtain ⟨place, hlies, hsuffix, hend⟩ := h
  refine ⟨place, hlies, hsuffix.trans (List.suffix_append mark text),
    hend.imp_right ?_⟩
  intro hcompletable rest hrest
  obtain ⟨text', middle, a, hfront, hmiddle, ha⟩ := hcompletable rest hrest
  obtain ⟨b, hb⟩ := hjoin ha
  have hmark : SameFront (mark ++ text) text (mark ++ text') text' := ⟨mark, rfl, rfl⟩
  exact ⟨mark ++ text', middle, b, hmark.trans hfront, hmiddle, hb⟩

def ClosedText (R : List Char → α → List Char → Prop) (mark : Char)
    (text : List Char) (a : α) (rest : List Char) : Prop :=
  ∃ middle, R text a middle ∧ Lexeme [mark] middle rest

theorem Viable.closed {mark : Char} (h : Viable R text e)
    (hmark : isBlank mark = false) : Viable (ClosedText R mark) text e := by
  refine h.before fun rest _ => ⟨' ' :: mark :: rest, neutral_space _, ?_⟩
  intro text' a ha
  exact ⟨a, _, ha, lexeme_spaced hmark rest⟩

theorem viable_unclosed {mark : Char} {cause : Cause} {a : α} (hlocal : Local R)
    (h : R text a middle) (hmark : isBlank mark = false) :
    Viable (ClosedText R mark) text (.fault cause (some middle)) := by
  have hmissing : Viable (LexemeText [mark]) middle (.fault cause (some middle)) :=
    viable_missing fun rest _ => ⟨_, (), neutral_space _, lexeme_spaced hmark rest⟩
  refine hmissing.after hlocal h ?_
  intro text' middle' _ rest ha hclose
  exact ⟨a, middle', ha, hclose⟩

/-- A reader that closes what it reads fails inside, or where the mark is
missing. -/
theorem viable_closed {x : Reader α} {f : α → Reader β} {close : Token}
    {what : String} {mark : Char}
    (hfound : ∀ {text lexeme rest}, close.Found text lexeme rest ↔
      lexeme = [mark] ∧ Lexeme [mark] text rest)
    (hmark : isBlank mark = false) (hsteady : Steady x) (hlocal : Local R)
    (htakes : ∀ {text a rest}, Takes limit depth x text a rest → R text a rest)
    (hfails : Fails limit depth x text e → Viable R text e)
    (hlast : ∀ a rest, ¬ Fails limit depth (f a) rest e)
    (h : Fails limit depth (do let a ← x; let _ ← expect close what; f a) text e) :
    Viable (ClosedText R mark) text e := by
  rw [fails_bind hsteady] at h
  rcases h with h | ⟨a, middle, ha, h⟩
  · exact (hfails h).closed hmark
  · rw [fails_expect_bind hfound] at h
    rcases h with ⟨rfl, -⟩ | ⟨last, -, h⟩
    · exact viable_unclosed hlocal (htakes ha) hmark
    · exact absurd h (hlast a last)

def ListText (R : List Char → α → List Char → Prop) (text : List Char)
    (as : List α) (rest : List Char) : Prop :=
  ∃ a tail middle, as = a :: tail ∧ R text a middle ∧
    Iterates (fun text a rest => ∃ start, Lexeme [','] text start ∧ R start a rest)
      tail middle rest

theorem Iterates.concat {step : List Char → α → List Char → Prop} {as : List α}
    {a : α} (h : Iterates step as text middle) (ha : step middle a rest) :
    Iterates step (as ++ [a]) text rest := by
  induction as generalizing text with
  | nil =>
      obtain rfl : text = middle := h
      exact ⟨rest, ha, rfl⟩
  | cons first as ih =>
      obtain ⟨start, hfirst, hmore⟩ := h
      exact ⟨start, hfirst, ih hmore⟩

theorem local_listText (hlocal : Local R) : Local (ListText R) := by
  intro text as rest h rest' hjoins
  obtain ⟨a, tail, middle, rfl, ha, htail⟩ := h
  obtain ⟨middle', hrest, htail'⟩ := hlocal.afterComma.iterates htail hjoins
  obtain ⟨text', hfront, ha'⟩ := hlocal ha (hrest.joins hjoins)
  exact ⟨text', hfront.trans hrest, a, tail, middle', rfl, ha', htail'⟩

section Items

variable {item : Reader α}
  (htakes : ∀ {text a rest}, Takes limit depth item text a rest → R text a rest)
  (hcongr : ∀ {text other a rest}, trimStart text = trimStart other →
    R text a rest → R other a rest)

include htakes hcongr

/-- The items that a loop has read behind commas. -/
theorem iterates_of_takes {as : List α}
    (h : Iterates (fun text a rest => ∃ start, Lexeme [','] text start ∧
      Takes limit depth item (trimStart start) a rest) as text rest) :
    Iterates (fun text a rest => ∃ start, Lexeme [','] text start ∧ R start a rest)
      as text rest := by
  refine h.mono fun text a rest hitem => ?_
  obtain ⟨start, hcomma, ha⟩ := hitem
  exact ⟨start, hcomma, hcongr (trimStart_trimStart start) (htakes ha)⟩

theorem listText_of_takes (hsteady : Steady item) {as : List α}
    (h : Takes limit depth (commaSeparated item) text as rest) :
    ListText R text as rest := by
  obtain ⟨a, tail, middle, rfl, ha, htail, -⟩ := (takes_commaSeparated hsteady).1 h
  exact ⟨a, tail, middle, rfl, htakes ha, iterates_of_takes htakes hcongr htail⟩

theorem viable_listText (hsteady : Steady item) (hlocal : Local R)
    (hfails : ∀ {text}, Fails limit depth item text e → Viable R text e)
    (h : Fails limit depth (commaSeparated item) text e) :
    Viable (ListText R) text e := by
  rw [fails_commaSeparated hsteady] at h
  rcases h with h | ⟨a, tail, middle, start, ha, last, htail, hcomma, h⟩
  · refine (hfails h).mono fun text' a rest ha => ?_
    exact ⟨[a], a, [], rest, rfl, ha, rfl⟩
  · have hlist : ListText R text (a :: tail) last :=
      ⟨a, tail, middle, rfl, htakes ha, iterates_of_takes htakes hcongr htail⟩
    have hitem : Viable R start e := (hfails h).of_trimStart hcongr
    refine hitem.behind (local_listText hlocal) hlist hcomma (by simp) ?_
    intro text' last' start' b rest hlist hcomma hb
    obtain ⟨a', tail', middle', -, ha', htail'⟩ := hlist
    exact ⟨a' :: (tail' ++ [b]), a', tail' ++ [b], middle', rfl, ha',
      htail'.concat ⟨start', hcomma, hb⟩⟩

/-- A list up to a closing mark fails in an item, or where the mark is missing. -/
theorem viable_closedList {f : List α → Reader β} {close : Token} {what : String}
    {mark : Char}
    (hfound : ∀ {text lexeme rest}, close.Found text lexeme rest ↔
      lexeme = [mark] ∧ Lexeme [mark] text rest)
    (hmark : isBlank mark = false) (hsteady : Steady item) (hlocal : Local R)
    (hfails : ∀ {text}, Fails limit depth item text e → Viable R text e)
    (hlast : ∀ as rest, ¬ Fails limit depth (f as) rest e)
    (h : Fails limit depth (do
      let as ← commaSeparated item
      let _ ← expect close what
      f as) text e) :
    Viable (ClosedText (ListText R) mark) text e :=
  viable_closed hfound hmark hsteady.commaSeparated (local_listText hlocal)
    (listText_of_takes htakes hcongr hsteady)
    (viable_listText htakes hcongr hsteady hlocal hfails) hlast h

end Items

end Marks

end L20n
