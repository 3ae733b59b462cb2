import L20n.Proofs.Steady

/-!
What a reader takes from the text when it succeeds.  `Takes limit depth x text
a rest` says that the reader `x`, started at `text` with `depth` of `limit`
levels entered, gives `a` and leaves `rest`.  Each combinator has one lemma
that says exactly when it succeeds, in terms of its parts, so that the success
of a rule unfolds into the success of the tokens and rules it is made of.
-/

namespace L20n

namespace Text

@[simp]
theorem trimStart_nil : trimStart [] = [] :=
  rfl

theorem trimStart_cons (c : Char) (text : List Char) :
    trimStart (c :: text) = if isBlank c then trimStart text else c :: text := by
  by_cases hc : isBlank c <;> simp [trimStart, hc]

@[simp]
theorem trimStart_trimStart (text : List Char) :
    trimStart (trimStart text) = trimStart text := by
  induction text with
  | nil => rfl
  | cons c text ih =>
      by_cases hc : isBlank c
      · simpa [trimStart_cons, hc] using ih
      · simp [trimStart_cons, hc]

theorem suffix_trimStart (text : List Char) : trimStart text <:+ text :=
  ⟨_, takeWhile_append_trimStart text⟩

end Text

def Token.Found (token : Token) (text lexeme rest : List Char) : Prop :=
  ∃ found, token.match? text = some found ∧ found.lexeme = lexeme ∧
    found.rest = rest

theorem Token.match?_eq_none_iff {token : Token} {text : List Char} :
    token.match? text = none ↔ ∀ lexeme rest, ¬ token.Found text lexeme rest := by
  cases hat : token.match? text with
  | none => simp [Found, hat]
  | some found =>
      simp only [reduceCtorEq, false_iff]
      intro h
      exact h found.lexeme found.rest ⟨found, hat, rfl, rfl⟩

/-- Runs of a step one after the other, each from where the one before it
stopped. -/
def Iterates {α : Type} (step : List Char → α → List Char → Prop) :
    List α → List Char → List Char → Prop
  | [], text, rest => text = rest
  | a :: as, text, rest =>
    ∃ middle, step text a middle ∧ Iterates step as middle rest

theorem Iterates.mono {α : Type}
    {step other : List Char → α → List Char → Prop}
    (h : ∀ text a rest, step text a rest → other text a rest)
    {as : List α} {text rest : List Char} (hrun : Iterates step as text rest) :
    Iterates other as text rest := by
  induction as generalizing text with
  | nil => exact hrun
  | cons a as ih =>
      obtain ⟨middle, hstep, hmore⟩ := hrun
      exact ⟨middle, h _ _ _ hstep, ih hmore⟩

theorem Iterates.exists_step {α : Type}
    {step : List Char → α → List Char → Prop} {as : List α}
    {text rest : List Char} (h : Iterates step as text rest) {a : α}
    (ha : a ∈ as) : ∃ start after, step start a after := by
  induction as generalizing text with
  | nil => cases ha
  | cons b as ih =>
      obtain ⟨middle, hstep, hmore⟩ := h
      rcases List.mem_cons.1 ha with rfl | ha
      · exact ⟨text, middle, hstep⟩
      · exact ih hmore ha

/-- A relation with the two rules of a repetition is one. -/
theorem iterates_iff {α : Type} {step : List Char → α → List Char → Prop}
    {relation : List Char → List α → List Char → Prop}
    (hnil : ∀ {text rest}, relation text [] rest ↔ text = rest)
    (hcons : ∀ {text a as rest}, relation text (a :: as) rest ↔
      ∃ middle, step text a middle ∧ relation middle as rest)
    {as : List α} {text rest : List Char} :
    relation text as rest ↔ Iterates step as text rest := by
  induction as generalizing text with
  | nil => exact hnil
  | cons a as ih => simp only [hcons, Iterates, ih]

namespace Reader

variable {α β : Type} {limit depth : Int} {text rest : List Char}

/-- The reader succeeds with a result and a rest, its guard as it was. -/
def Takes (limit depth : Int) (x : Reader α) (text : List Char) (a : α)
    (rest : List Char) : Prop :=
  x ⟨text, guardAt limit depth⟩ = .ok a ⟨rest, guardAt limit depth⟩

/-- The end state of a steady reader that succeeds is known up to its text. -/
theorem Steady.takes_of_ok {x : Reader α} (hx : Steady x) {a : α}
    {s : Guarded (List Char) (List Char)}
    (h : x ⟨text, guardAt limit depth⟩ = .ok a s) :
    Takes limit depth x text a s.data ∧ s = ⟨s.data, guardAt limit depth⟩ := by
  obtain ⟨rest, _, heq⟩ := hx text limit depth
  simp only [final, h] at heq
  subst heq
  exact ⟨h, rfl⟩

theorem Steady.suffix_of_takes {x : Reader α} (hx : Steady x) {a : α}
    (h : Takes limit depth x text a rest) : rest <:+ text := by
  obtain ⟨last, hlast, heq⟩ := hx text limit depth
  rw [Takes] at h
  simp only [final, h, Guarded.mk.injEq, and_true] at heq
  exact heq ▸ hlast

theorem Takes.unique {x : Reader α} {a b : α} {rest' : List Char}
    (h : Takes limit depth x text a rest)
    (h' : Takes limit depth x text b rest') : a = b ∧ rest = rest' := by
  rw [Takes, h] at h'
  simpa using h'

@[simp]
theorem takes_pure {a b : α} :
    Takes limit depth (pure a) text b rest ↔ a = b ∧ text = rest := by
  change EStateM.Result.ok a _ = EStateM.Result.ok b _ ↔ _
  simp

@[simp]
theorem not_takes_fail {cause : Cause} {a : α} :
    ¬ Takes limit depth (fail cause) text a rest := by
  intro h
  cases h

@[simp]
theorem not_takes_throw {e : ReadError} {a : α} :
    ¬ Takes limit depth (throw e) text a rest := by
  intro h
  cases h

theorem takes_bind {x : Reader α} {f : α → Reader β} (hx : Steady x) {b : β} :
    Takes limit depth (x >>= f) text b rest ↔
      ∃ a middle, Takes limit depth x text a middle ∧
        Takes limit depth (f a) middle b rest := by
  constructor
  · intro h
    cases hrun : x ⟨text, guardAt limit depth⟩ with
    | error e s => simp [Takes, Bind.bind, EStateM.bind, hrun] at h
    | ok a s =>
        obtain ⟨htakes, hs⟩ := hx.takes_of_ok hrun
        refine ⟨a, s.data, htakes, ?_⟩
        rw [hs] at hrun
        simpa [Takes, Bind.bind, EStateM.bind, hrun] using h
  · rintro ⟨a, middle, hx, hf⟩
    rw [Takes] at hx hf ⊢
    simp [Bind.bind, EStateM.bind, hx, hf]

/-- An optional construct decides between two ways to go on. -/
theorem takes_optional_bind {x : Reader (Option α)} {f : Option α → Reader β}
    (hx : Steady x) {b : β} :
    Takes limit depth (x >>= f) text b rest ↔
      (∃ middle, Takes limit depth x text none middle ∧
        Takes limit depth (f none) middle b rest) ∨
      ∃ a middle, Takes limit depth x text (some a) middle ∧
        Takes limit depth (f (some a)) middle b rest := by
  rw [takes_bind hx, Option.exists]

theorem takes_map {x : Reader α} {f : α → β} (hx : Steady x) {b : β} :
    Takes limit depth (f <$> x) text b rest ↔
      ∃ a, Takes limit depth x text a rest ∧ b = f a := by
  rw [← bind_pure_comp, takes_bind hx]
  simp only [takes_pure]
  constructor
  · rintro ⟨a, middle, hx, rfl, rfl⟩
    exact ⟨a, hx, rfl⟩
  · rintro ⟨a, hx, rfl⟩
    exact ⟨a, rest, hx, rfl, rfl⟩

theorem takes_ahead_bind {f : List Char → Reader α} {a : α} :
    Takes limit depth (ahead >>= f) text a rest ↔
      Takes limit depth (f text) text a rest :=
  Iff.rfl

@[simp]
theorem takes_token?_some {token : Token} {lexeme : List Char} :
    Takes limit depth (token? token) text (some lexeme) rest ↔
      token.Found text lexeme rest := by
  cases hat : token.match? text <;> simp [Takes, token?, Token.Found, hat]

@[simp]
theorem takes_token?_none {token : Token} :
    Takes limit depth (token? token) text none rest ↔
      (∀ lexeme after, ¬ token.Found text lexeme after) ∧ text = rest := by
  rw [← Token.match?_eq_none_iff]
  cases hat : token.match? text <;> simp [Takes, token?, hat]

/-- An optional token decides between two ways to go on. -/
theorem takes_token?_bind {token : Token} {f : Option (List Char) → Reader α}
    {a : α} :
    Takes limit depth (token? token >>= f) text a rest ↔
      (∀ lexeme after, ¬ token.Found text lexeme after) ∧
          Takes limit depth (f none) text a rest ∨
        ∃ lexeme middle, token.Found text lexeme middle ∧
          Takes limit depth (f (some lexeme)) middle a rest := by
  rw [takes_optional_bind (steady_token? token)]
  simp only [takes_token?_none, takes_token?_some]
  constructor
  · rintro (⟨_, ⟨hnone, rfl⟩, htakes⟩ | hsome)
    · exact Or.inl ⟨hnone, htakes⟩
    · exact Or.inr hsome
  · rintro (⟨hnone, htakes⟩ | hsome)
    · exact Or.inl ⟨text, ⟨hnone, rfl⟩, htakes⟩
    · exact Or.inr hsome

@[simp]
theorem takes_seek?_some {token : Token} {lexeme : List Char} :
    Takes limit depth (seek? token) text (some lexeme) rest ↔
      ∃ found, token.find? text = some found ∧ found.source = lexeme ∧
        found.rest = rest := by
  cases hat : token.find? text <;> simp [Takes, seek?, hat]

theorem takes_peek?_bind {token : Token} {f : Option (List Char) → Reader α}
    {a : α} :
    Takes limit depth (peek? token >>= f) text a rest ↔
      Takes limit depth (f ((token.match? text).map Token.Match.lexeme)) text a
        rest :=
  Iff.rfl

@[simp]
theorem takes_expect {token : Token} {what : String} {lexeme : List Char} :
    Takes limit depth (expect token what) text lexeme rest ↔
      token.Found text lexeme rest := by
  rw [expect, takes_bind (steady_token? token),
    ← @takes_token?_some limit depth]
  constructor
  · rintro ⟨found, middle, htoken, hfound⟩
    cases found with
    | none => exact absurd hfound not_takes_fail
    | some other =>
        obtain ⟨rfl, rfl⟩ := takes_pure.1 hfound
        exact htoken
  · intro h
    exact ⟨some lexeme, rest, h, takes_pure.2 ⟨rfl, rfl⟩⟩

theorem takes_required {x : Reader (Option α)} (hx : Steady x) {cause : Cause}
    {a : α} :
    Takes limit depth (required cause x) text a rest ↔
      Takes limit depth x text (some a) rest := by
  rw [required, takes_bind hx]
  constructor
  · rintro ⟨found, middle, hx, hfound⟩
    cases found with
    | none => exact absurd hfound not_takes_fail
    | some other =>
        obtain ⟨rfl, rfl⟩ := takes_pure.1 hfound
        exact hx
  · intro h
    exact ⟨some a, rest, h, takes_pure.2 ⟨rfl, rfl⟩⟩

theorem takes_nested {x : Reader α} {a : α} :
    Takes limit depth (nested x) text a rest ↔
      depth < limit ∧ Takes limit (depth + 1) x text a rest := by
  by_cases hlimit : limit ≤ depth
  · have hnot : ¬ depth < limit := by omega
    simp [Takes, nested, atLevel, DepthGuard.entering, DepthGuard.enter,
      guardAt, hlimit, hnot]
  · have hlt : depth < limit := by omega
    simp only [Takes, nested, atLevel, DepthGuard.entering, DepthGuard.enter,
      guardAt, hlimit, if_false, hlt, true_and]
    cases hrun : x ⟨text, guardAt limit (depth + 1)⟩ with
    | error e s =>
        simp only [guardAt] at hrun
        simp [hrun]
    | ok b s =>
        obtain ⟨data, inner, entered, pending⟩ := s
        simp only [guardAt] at hrun
        simp only [hrun, DepthGuard.exit, EStateM.Result.ok.injEq,
          Guarded.mk.injEq, DepthGuard.mk.injEq]
        constructor
        · rintro ⟨rfl, rfl, rfl, hdepth, rfl⟩
          exact ⟨rfl, rfl, rfl, by omega, rfl⟩
        · rintro ⟨rfl, rfl, rfl, rfl, rfl⟩
          exact ⟨rfl, rfl, rfl, by omega, rfl⟩

-- A step that takes text with everything it reads, and reads nothing where no
-- text is left, is repeated as often as it succeeds: the bound on the number of
-- rounds is never what ends the repetition.

/-- What the body of a loop has to do for the loop to be read to its end. -/
structure Progressing (limit depth : Int) (step : Reader (Option α)) :
    Prop where
  steady : Steady step
  shorter : ∀ {text a rest},
    Takes limit depth step text (some a) rest → rest.length < text.length
  stays : ∀ {text rest}, Takes limit depth step text none rest → text = rest
  ends : Takes limit depth step [] none []

theorem Progressing.takes_manyUpTo {step : Reader (Option α)}
    (hstep : Progressing limit depth step) {n : Nat} {as : List α}
    (hn : text.length ≤ n) :
    Takes limit depth (manyUpTo n step) text as rest ↔
      Iterates (fun text a rest => Takes limit depth step text (some a) rest)
          as text rest ∧
        Takes limit depth step rest none rest := by
  induction n generalizing text as with
  | zero =>
      obtain rfl : text = [] := List.eq_nil_of_length_eq_zero (by omega)
      rw [manyUpTo, takes_pure]
      constructor
      · rintro ⟨rfl, rfl⟩
        exact ⟨rfl, hstep.ends⟩
      · rintro ⟨hiterates, hnone⟩
        cases as with
        | nil => exact ⟨rfl, hiterates⟩
        | cons a as =>
            obtain ⟨middle, htakes, _⟩ := hiterates
            have := hstep.shorter htakes
            simp at this
  | succ n ih =>
      rw [manyUpTo, takes_bind hstep.steady]
      constructor
      · rintro ⟨found, middle, hfound, hmore⟩
        cases found with
        | none =>
            obtain ⟨rfl, rfl⟩ := takes_pure.1 hmore
            obtain rfl := hstep.stays hfound
            exact ⟨rfl, hfound⟩
        | some a =>
            have hshort := hstep.shorter hfound
            rw [takes_bind (hstep.steady.manyUpTo n)] at hmore
            obtain ⟨tail, last, htail, hpure⟩ := hmore
            obtain ⟨rfl, rfl⟩ := takes_pure.1 hpure
            obtain ⟨hiterates, hnone⟩ := (ih (by omega)).1 htail
            exact ⟨⟨middle, hfound, hiterates⟩, hnone⟩
      · rintro ⟨hiterates, hnone⟩
        cases as with
        | nil =>
            have heq : text = rest := hiterates
            subst heq
            exact ⟨none, text, hnone, takes_pure.2 ⟨rfl, rfl⟩⟩
        | cons a as =>
            obtain ⟨middle, htakes, hiterates⟩ := hiterates
            have hshort := hstep.shorter htakes
            refine ⟨some a, middle, htakes, ?_⟩
            rw [takes_bind (hstep.steady.manyUpTo n)]
            exact ⟨as, rest, (ih (by omega)).2 ⟨hiterates, hnone⟩,
              takes_pure.2 ⟨rfl, rfl⟩⟩

theorem Progressing.takes_many {step : Reader (Option α)}
    (hstep : Progressing limit depth step) {as : List α} :
    Takes limit depth (many step) text as rest ↔
      Iterates (fun text a rest => Takes limit depth step text (some a) rest)
          as text rest ∧
        Takes limit depth step rest none rest := by
  rw [many, takes_ahead_bind]
  exact hstep.takes_manyUpTo (Nat.le_refl _)

end Reader

end L20n
