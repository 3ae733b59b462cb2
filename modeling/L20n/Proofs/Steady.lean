import L20n.Resource.Run

/-!
Steady readers.  However a steady reader ends, its guard is as it was before,
and what is left of the text is an end of the text it began with.  All readers
of the grammar are steady: each combinator keeps the property, and the rules
are built from one another level by level.
-/

namespace L20n

/-- A guard with some levels entered and no place pending. -/
def guardAt {Place : Type} (limit depth : Int) : DepthGuard Place :=
  { limit, depth }

theorem Token.suffix_of_match? {token : Token} {text : List Char}
    {found : Token.Match} (h : token.match? text = some found) :
    found.rest <:+ text :=
  ⟨found.source, append_of_match? h⟩

theorem Token.suffix_of_find? {token : Token} {text : List Char}
    {found : Token.Match} (h : token.find? text = some found) :
    found.rest <:+ text := by
  induction text with
  | nil => exact suffix_of_match? (by simpa [find?] using h)
  | cons c text ih =>
      cases hat : token.match? (c :: text) with
      | some here =>
          simp only [find?, hat, Option.some.injEq] at h
          subst h
          exact suffix_of_match? hat
      | none =>
          simp only [find?, hat] at h
          exact (ih h).trans (List.suffix_cons c text)

/-- A literal that stops at an open placeholder stops inside its text. -/
theorem Body.suffix_of_openPlaceholder {delimiter text place : List Char}
    (h : scan delimiter text = openPlaceholder place) : place <:+ text := by
  have hpush : ∀ {piece : Piece} {body : Body},
      body.push piece = openPlaceholder place → body = openPlaceholder place := by
    intro piece body hbody
    cases body <;> simp_all [push]
  fun_induction scan delimiter text with
  | case1 | case2 | case3 => cases h
  | case4 c tail _ ih =>
      exact (ih (hpush h)).trans ⟨['\\', c], rfl⟩
  | case5 tail _ _ =>
      cases h
      exact List.suffix_rfl
  | case6 tail inner after hthrough _ ih =>
      have hafter : after <:+ tail := ⟨inner, Text.append_of_through? hthrough⟩
      exact ((ih (hpush h)).trans hafter).trans ⟨['\x7b', '\x7b'], rfl⟩
  | case7 c tail _ _ _ _ ih =>
      exact (ih (hpush h)).trans (List.suffix_cons c tail)

namespace Reader

variable {α β : Type}

/-- The state in which a reader stops, with a result or at an error. -/
def final (x : Reader α) (s : Guarded (List Char) (List Char)) :
    Guarded (List Char) (List Char) :=
  match x s with
  | .ok _ s' => s'
  | .error _ s' => s'

/-- The reader leaves the guard as it was, and only takes text away from the
front. -/
def Steady (x : Reader α) : Prop :=
  ∀ text limit depth, ∃ rest, rest <:+ text ∧
    x.final ⟨text, guardAt limit depth⟩ = ⟨rest, guardAt limit depth⟩

@[simp]
theorem steady_pure (a : α) : Steady (pure a) :=
  fun text _ _ => ⟨text, List.suffix_rfl, rfl⟩

@[simp]
theorem steady_fail (cause : Cause) : Steady (fail cause : Reader α) :=
  fun text _ _ => ⟨text, List.suffix_rfl, rfl⟩

@[simp]
theorem steady_throw (e : ReadError) : Steady (throw e : Reader α) :=
  fun text _ _ => ⟨text, List.suffix_rfl, rfl⟩

@[simp]
theorem steady_ahead : Steady ahead :=
  fun text _ _ => ⟨text, List.suffix_rfl, rfl⟩

theorem Steady.bind {x : Reader α} {f : α → Reader β} (hx : Steady x)
    (hf : ∀ a, Steady (f a)) : Steady (x >>= f) := by
  intro text limit depth
  obtain ⟨rest, hrest, heq⟩ := hx text limit depth
  cases hrun : x ⟨text, guardAt limit depth⟩ with
  | ok a s' =>
      simp only [final, hrun] at heq
      subst heq
      obtain ⟨last, hlast, hfinal⟩ := hf a rest limit depth
      refine ⟨last, hlast.trans hrest, ?_⟩
      rw [← hfinal]
      simp [final, Bind.bind, EStateM.bind, hrun]
  | error e s' =>
      simp only [final, hrun] at heq
      subst heq
      refine ⟨rest, hrest, ?_⟩
      simp [final, Bind.bind, EStateM.bind, hrun]

@[simp]
theorem steady_token? (token : Token) : Steady (token? token) := by
  intro text limit depth
  cases hat : token.match? text with
  | none => exact ⟨text, List.suffix_rfl, by simp [final, token?, hat]⟩
  | some found =>
      exact ⟨found.rest, Token.suffix_of_match? hat,
        by simp [final, token?, hat]⟩

@[simp]
theorem steady_seek? (token : Token) : Steady (seek? token) := by
  intro text limit depth
  cases hat : token.find? text with
  | none => exact ⟨text, List.suffix_rfl, by simp [final, seek?, hat]⟩
  | some found =>
      exact ⟨found.rest, Token.suffix_of_find? hat,
        by simp [final, seek?, hat]⟩

@[simp]
theorem steady_peek? (token : Token) : Steady (peek? token) :=
  steady_ahead.bind fun _ => steady_pure _

theorem Steady.required {x : Reader (Option α)} (hx : Steady x)
    (cause : Cause) : Steady (required cause x) := by
  refine hx.bind fun found => ?_
  cases found with
  | none => exact steady_fail cause
  | some a => exact steady_pure a

@[simp]
theorem steady_expect (token : Token) (what : String) :
    Steady (expect token what) := by
  refine (steady_token? token).bind fun found => ?_
  cases found with
  | none => exact steady_fail _
  | some lexeme => exact steady_pure lexeme

/-- A refused level leaves the state alone; an entered one is left again
however the inner reader ends. -/
theorem Steady.nested {x : Reader α} (hx : Steady x) : Steady (nested x) := by
  intro text limit depth
  by_cases hlimit : limit ≤ depth
  · refine ⟨text, List.suffix_rfl, ?_⟩
    simp [final, Reader.nested, atLevel, DepthGuard.entering, DepthGuard.enter,
      guardAt, hlimit]
  · obtain ⟨rest, hrest, heq⟩ := hx text limit (depth + 1)
    refine ⟨rest, hrest, ?_⟩
    cases hrun : x ⟨text, guardAt limit (depth + 1)⟩ <;>
      simp only [final, hrun] at heq <;>
      subst heq <;>
      simp only [guardAt] at hrun <;>
      simp [final, Reader.nested, atLevel, DepthGuard.entering,
        DepthGuard.enter, DepthGuard.exit, guardAt, hlimit, hrun]

theorem Steady.manyUpTo {step : Reader (Option α)} (hstep : Steady step)
    (n : Nat) : Steady (manyUpTo n step) := by
  induction n with
  | zero => exact steady_pure []
  | succ n ih =>
      refine hstep.bind fun found => ?_
      cases found with
      | none => exact steady_pure []
      | some a => exact ih.bind fun _ => steady_pure _

theorem Steady.many {step : Reader (Option α)} (hstep : Steady step) :
    Steady (many step) :=
  steady_ahead.bind fun text => hstep.manyUpTo text.length

theorem Steady.commaSeparated {item : Reader α} (hitem : Steady item) :
    Steady (commaSeparated item) := by
  refine hitem.bind fun first => Steady.bind (Steady.many ?_) fun more =>
    steady_pure _
  refine (steady_token? .comma).bind fun found => ?_
  cases found with
  | none => exact steady_pure none
  | some _ => exact hitem.bind fun _ => steady_pure _

@[simp]
theorem steady_name? : Steady name? :=
  (steady_token? .name).bind fun _ => steady_pure _

@[simp]
theorem steady_name (what : String) : Steady (name what) :=
  (steady_expect .name what).bind fun _ => steady_pure _

@[simp]
theorem steady_number? : Steady number? := by
  refine (steady_token? .number).bind fun found => ?_
  cases found with
  | none => exact steady_pure none
  | some token =>
      cases hvalue : Text.numberValue token with
      | ok n => simp [hvalue]
      | error e => simp [hvalue]

theorem final_ahead_bind (f : List Char → Reader α)
    (s : Guarded (List Char) (List Char)) :
    final (ahead >>= f) s = final (f s.data) s :=
  rfl

@[simp]
theorem steady_literal (mode : StringMode) : Steady (literal mode) := by
  refine (steady_expect .delimiter _).bind fun delimiter => ?_
  intro text limit depth
  simp only [final_ahead_bind]
  cases hscan : Body.scan delimiter text with
  | closed pieces rest =>
      exact ⟨rest, ⟨_, Body.append_of_scan hscan⟩, rfl⟩
  | openPlaceholder place =>
      exact ⟨place, Body.suffix_of_openPlaceholder hscan, rfl⟩
  | openLiteral => exact ⟨text, List.suffix_rfl, rfl⟩

-- Each rule is steady when the readers of the next level inwards are.

end Reader

structure Inner.Steady (inner : Inner) : Prop where
  array : Reader.Steady inner.array
  object : Reader.Steady inner.object
  conditional : Reader.Steady inner.conditional
  logical : Reader.Steady inner.logical
  binary : Reader.Steady inner.binary

namespace Reader

variable {mode : StringMode} {inner : Inner}

@[simp]
theorem steady_value? (h : inner.Steady) : Steady (value? mode inner) := by
  refine (steady_peek? .valueOpen).bind fun found => ?_
  split
  · exact steady_pure none
  · exact h.array.nested.bind fun _ => steady_pure _
  · exact h.object.nested.bind fun _ => steady_pure _
  · exact (steady_literal mode).bind fun _ => steady_pure _

@[simp]
theorem steady_value (h : inner.Steady) : Steady (value mode inner) :=
  (steady_value? h).required _

@[simp]
theorem steady_member (h : inner.Steady) (what : String) :
    Steady (member mode inner what) :=
  (steady_name what).bind fun _ => (steady_expect .colon _).bind fun _ =>
    (steady_value h).bind fun _ => steady_pure _

theorem steady_array (h : inner.Steady) : Steady (array mode inner) := by
  refine (steady_expect .arrayOpen _).bind fun _ =>
    (steady_token? .arrayClose).bind fun found => ?_
  cases found with
  | some _ => exact steady_pure _
  | none =>
      exact (steady_value h).commaSeparated.bind fun _ =>
        (steady_expect .arrayClose _).bind fun _ => steady_pure _

theorem steady_object (h : inner.Steady) : Steady (object mode inner) := by
  refine (steady_expect .objectOpen _).bind fun _ =>
    (steady_token? .objectClose).bind fun found => ?_
  cases found with
  | some _ => exact steady_pure _
  | none =>
      exact (steady_member h _).commaSeparated.bind fun _ =>
        (steady_expect .objectClose _).bind fun _ => steady_pure _

@[simp]
theorem steady_expression (h : inner.Steady) : Steady (expression inner) :=
  h.conditional.nested.required _

theorem Steady.operand {x : Reader (Option Expr)} (hx : Steady x) :
    Steady (operand x) :=
  (hx.required _).nested

@[simp]
theorem steady_expressions (h : inner.Steady) (close : Token) (what : String) :
    Steady (expressions inner close what) :=
  (steady_expression h).commaSeparated.bind fun _ =>
    (steady_expect close what).bind fun _ => steady_pure _

@[simp]
theorem steady_arguments (h : inner.Steady) : Steady (arguments inner) := by
  refine (steady_token? .parenClose).bind fun found => ?_
  cases found with
  | some _ => exact steady_pure []
  | none => exact steady_expressions h _ _

@[simp]
theorem steady_index (h : inner.Steady) : Steady (index inner) :=
  (steady_expression h).bind fun _ => (steady_expect .arrayClose _).bind
    fun _ => steady_pure _

@[simp]
theorem steady_primary (h : inner.Steady) : Steady (primary mode inner) := by
  refine (steady_token? .parenOpen).bind fun found => ?_
  cases found with
  | some _ =>
      exact (steady_expression h).bind fun _ =>
        (steady_expect .parenClose _).bind fun _ => steady_pure _
  | none =>
      refine steady_number?.bind fun number => ?_
      cases number with
      | some n => exact steady_pure _
      | none =>
          refine (steady_value? h).bind fun found => ?_
          cases found with
          | some v => exact steady_pure _
          | none => exact steady_name?.bind fun _ => steady_pure _

@[simp]
theorem steady_suffix? (h : inner.Steady) : Steady (suffix? inner) := by
  refine (steady_token? .attributeDot).bind fun _ => ?_
  split
  · exact (steady_name _).bind fun _ => steady_pure _
  refine (steady_token? .attributeIndexOpen).bind fun _ => ?_
  split
  · exact (steady_index h).bind fun _ => steady_pure _
  refine (steady_token? .propertyDot).bind fun _ => ?_
  split
  · exact (steady_name _).bind fun _ => steady_pure _
  refine (steady_token? .propertyIndexOpen).bind fun _ => ?_
  split
  · exact (steady_index h).bind fun _ => steady_pure _
  refine (steady_token? .callOpen).bind fun _ => ?_
  split
  · exact (steady_arguments h).bind fun _ => steady_pure _
  · exact steady_pure none

@[simp]
theorem steady_chain (h : inner.Steady) : Steady (chain mode inner) := by
  refine (steady_primary h).bind fun found => ?_
  cases found with
  | none => exact steady_pure none
  | some base => exact (steady_suffix? h).many.bind fun _ => steady_pure _

@[simp]
theorem steady_unary (h : inner.Steady) : Steady (unary mode inner) := by
  refine (steady_token? .unaryOp).bind fun found => ?_
  split
  · exact steady_chain h
  · exact ((steady_chain h).required _).bind fun _ => steady_pure _

theorem steady_binary (h : inner.Steady) : Steady (binary mode inner) := by
  refine (steady_unary h).bind fun found => ?_
  cases found with
  | none => exact steady_pure none
  | some left =>
      refine (steady_token? .binaryOp).bind fun found => ?_
      split
      · exact steady_pure _
      · exact h.binary.operand.bind fun _ => steady_pure _

theorem steady_logical (h : inner.Steady) : Steady (logical mode inner) := by
  refine (steady_binary h).bind fun found => ?_
  cases found with
  | none => exact steady_pure none
  | some left =>
      refine (steady_token? .logicalOp).bind fun found => ?_
      split
      · exact steady_pure _
      · exact h.logical.operand.bind fun _ => steady_pure _

theorem steady_conditional (h : inner.Steady) :
    Steady (conditional mode inner) := by
  refine (steady_logical h).bind fun found => ?_
  cases found with
  | none => exact steady_pure none
  | some test =>
      refine (steady_token? .question).bind fun found => ?_
      cases found with
      | none => exact steady_pure _
      | some _ =>
          exact h.conditional.operand.bind fun _ =>
            (steady_expect .colon _).bind fun _ =>
              h.conditional.operand.bind fun _ => steady_pure _

end Reader

@[simp]
theorem Inner.steady_ofLevels (mode : StringMode) (n : Nat) :
    (ofLevels mode n).Steady := by
  induction n with
  | zero =>
      have hrefused : ∀ α : Type, Reader.Steady
          (do Reader.fail (.tooDeep (← get).guard.limit) : Reader α) :=
        fun _ text _ _ => ⟨text, List.suffix_rfl, rfl⟩
      exact ⟨hrefused _, hrefused _, hrefused _, hrefused _, hrefused _⟩
  | succ n ih =>
      exact ⟨Reader.steady_array ih, Reader.steady_object ih,
        Reader.steady_conditional ih, Reader.steady_logical ih,
        Reader.steady_binary ih⟩

namespace Reader

variable {α : Type} {mode : StringMode} {inner : Inner}

@[simp]
theorem steady_header (h : inner.Steady) : Steady (header inner) := by
  refine (steady_name _).bind fun key =>
    (steady_token? .propertyIndexOpen).bind fun found => ?_
  split
  · exact (steady_expressions h _ _).bind fun _ => steady_pure _
  refine (steady_token? .callOpen).bind fun found => ?_
  split
  · exact (steady_arguments h).bind fun _ => steady_pure _
  · exact steady_pure _

@[simp]
theorem steady_attributes? (h : inner.Steady) :
    Steady (attributes? mode inner) := by
  refine Steady.bind (Steady.many ?_) fun _ => steady_pure _
  refine steady_name?.bind fun found => ?_
  cases found with
  | none => exact steady_pure none
  | some key =>
      exact (steady_expect .colon _).bind fun _ =>
        (steady_value h).bind fun _ => steady_pure _

@[simp]
theorem steady_entryBody (h : inner.Steady) (head : Header) :
    Steady (entryBody mode inner head) := by
  unfold entryBody
  split
  · exact (steady_expect .objectOpen _).bind fun _ =>
      (steady_expression h).bind fun _ =>
        (steady_expect .objectClose _).bind fun _ => steady_pure _
  · refine (steady_value? h).bind fun _ =>
      (steady_attributes? h).bind fun _ => ?_
    split <;> exact steady_pure _

@[simp]
theorem steady_entry (h : inner.Steady) : Steady (entry mode inner) :=
  (steady_header h).bind fun head => (steady_entryBody h head).bind fun _ =>
    (steady_expect .entryClose _).bind fun _ => steady_pure _

@[simp]
theorem steady_comment? : Steady comment? := by
  refine (steady_token? .commentOpen).bind fun found => ?_
  cases found with
  | none => exact steady_pure none
  | some _ =>
      refine (steady_seek? .commentClose).bind fun found => ?_
      cases found with
      | none => exact steady_fail _
      | some _ => exact steady_pure _

@[simp]
theorem steady_entryOpen : Steady entryOpen :=
  (steady_comment?.many.bind fun _ => steady_pure _).bind fun _ =>
    (steady_token? .entryOpen).bind fun _ => steady_pure _

theorem final_withLevels (rule : Inner → Reader α)
    (s : Guarded (List Char) (List Char)) :
    final (withLevels mode rule) s =
      final (rule (Inner.ofLevels mode s.guard.levels)) s :=
  rfl

theorem steady_withLevels {rule : Inner → Reader α}
    (hrule : ∀ n, Steady (rule (Inner.ofLevels mode n))) :
    Steady (withLevels mode rule) := by
  intro text limit depth
  rw [final_withLevels]
  exact hrule _ text limit depth

@[simp]
theorem steady_entryAhead? : Steady (entryAhead? mode) := by
  refine steady_entryOpen.bind fun found => ?_
  split
  · refine Steady.bind ?_ fun _ => steady_pure _
    exact steady_withLevels fun n => steady_entry (Inner.steady_ofLevels mode n)
  · exact steady_pure none

end Reader

end L20n
