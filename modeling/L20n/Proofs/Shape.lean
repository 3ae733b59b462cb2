import L20n.Proofs.Literal
import L20n.Proofs.Parts
import Mathlib.Algebra.Group.Nat.Defs

/-!
The shape of trees, part by part, and how deeply they are nested.  Names are
names and stand once in their table, operands bind as tightly as their place
asks, and placeholders alternate with texts.  The pieces of a literal give
segments of this shape.
-/

namespace L20n

open Text Node

def Table.WellNamed {α : Type} (table : List (String × α)) : Prop :=
  (∀ name ∈ Table.names table, isName name.toList = true) ∧ Table.Unique table

/-- A placeholder starts with two opening braces, is at least four characters
long, and the first two closing braces after the opening ones end it. -/
def PlaceholderForm (source : List Char) : Prop :=
  4 ≤ source.length ∧ ∃ inner, source = '\x7b' :: '\x7b' :: inner ∧
    Through ['\x7d', '\x7d'] inner inner []

def Separated (segments : List Segment) : Prop :=
  ∀ before first second after,
    segments ≠ before ++ .text first :: .text second :: after

/-- Segments as they come from a literal with placeholders. -/
structure Alternating (segments : List Segment) : Prop where
  placeholder : ∃ source, Segment.placeholder source ∈ segments
  filled : Segment.text "" ∉ segments
  separated : Separated segments

/-- Operands bind at least as tightly as their place asks. -/
def Expr.Leveled : Expr → Prop
  | .attr base _ | .attrAt base _ | .prop base _ | .propAt base _
  | .call base _ | .unary _ base => base.level = .member
  | .binary _ left right => left.level ≤ .unary ∧ right.level ≤ .binary
  | .logical _ left right => left.level ≤ .binary ∧ right.level ≤ .logical
  | .conditional test _ _ => test.level ≤ .logical
  | .number _ | .value _ | .name _ | .paren _ => True

/-- The name or number of an expression can be written: a name is a name, and a
number is not negative and within the digit limit. -/
def Expr.Legible : Expr → Prop
  | .name key | .attr _ key | .prop _ key => isName key.toList = true
  | .number k => 0 ≤ k ∧ k < (10 ^ maxDigits : Nat)
  | _ => True

/-- The shape of a part by itself, when strings are read in the given mode. -/
def Node.Shaped (mode : StringMode) : Node → Prop
  | .resource r => Table.WellNamed r.entries
  | .entry (.complex index _ attributes) =>
    (index.isSome ∨ attributes.isSome) ∧ index ≠ some [] ∧
      ∀ table, attributes = some table → table ≠ [] ∧ Table.WellNamed table
  | .entry _ => True
  | .value (.parts segments) => mode = .split ∧ Alternating segments
  | .value (.object members) => Table.WellNamed members
  | .value _ => True
  | .segment (.placeholder source) => PlaceholderForm source.toList
  | .segment (.text _) => True
  | .expr e => e.Leveled ∧ e.Legible

-- Levels are counted as in a source: an array or object, parentheses, an index, a
-- parameter or argument, the body of a macro, and what stands to the right of an
-- operator or a question mark.

mutual

def Value.nesting : Value → Nat
  | .string _ | .parts _ => 0
  | .array items => valuesNesting items + 1
  | .object members => membersNesting members + 1

def valuesNesting : List Value → Nat
  | [] => 0
  | v :: rest => max v.nesting (valuesNesting rest)

def membersNesting : List (String × Value) → Nat
  | [] => 0
  | (_, v) :: rest => max v.nesting (membersNesting rest)

end

mutual

def Expr.nesting : Expr → Nat
  | .number _ | .name _ => 0
  | .value v => v.nesting
  | .paren e => e.nesting + 1
  | .attr base _ | .prop base _ => base.nesting
  | .attrAt base index | .propAt base index => max base.nesting (index.nesting + 1)
  | .call base arguments => max base.nesting (exprsNesting arguments)
  | .unary _ operand => operand.nesting
  | .binary _ left right | .logical _ left right =>
    max left.nesting (right.nesting + 1)
  | .conditional test consequent alternate =>
    max test.nesting (max consequent.nesting alternate.nesting + 1)

def exprsNesting : List Expr → Nat
  | [] => 0
  | e :: rest => max (e.nesting + 1) (exprsNesting rest)

end

def Entry.nesting : Entry → Nat
  | .plain v => valuesNesting v.toList
  | .complex index v attributes =>
    max (exprsNesting (index.getD []))
      (max (valuesNesting v.toList) (membersNesting (attributes.getD [])))
  | .macroDef params body => max (exprsNesting params) (body.nesting + 1)

theorem valuesNesting_le_iff {items : List Value} {n : Nat} :
    valuesNesting items ≤ n ↔ ∀ v ∈ items, v.nesting ≤ n := by
  induction items with
  | nil => simp [valuesNesting]
  | cons v items ih =>
      simp only [valuesNesting, Nat.max_le, ih, List.mem_cons, forall_eq_or_imp]

theorem membersNesting_le_iff {members : List (String × Value)} {n : Nat} :
    membersNesting members ≤ n ↔ ∀ pair ∈ members, pair.2.nesting ≤ n := by
  induction members with
  | nil => simp [membersNesting]
  | cons pair members ih =>
      simp only [membersNesting, Nat.max_le, ih, List.mem_cons, forall_eq_or_imp]

theorem exprsNesting_le_iff {exprs : List Expr} {n : Nat} :
    exprsNesting exprs ≤ n ↔ ∀ e ∈ exprs, e.nesting + 1 ≤ n := by
  induction exprs with
  | nil => simp [exprsNesting]
  | cons e exprs ih =>
      simp only [exprsNesting, Nat.max_le, ih, List.mem_cons, forall_eq_or_imp]

/-- Shaped everywhere, and nested in at most `n` levels. -/
structure Value.Within (mode : StringMode) (n : Nat) (v : Value) : Prop where
  shaped : Everywhere (Shaped mode) (.value v)
  nesting : v.nesting ≤ n

structure Expr.Within (mode : StringMode) (n : Nat) (e : Expr) : Prop where
  shaped : Everywhere (Shaped mode) (.expr e)
  nesting : e.nesting ≤ n

theorem Text.replaceEscape_ne_nil {letter meaning : Char} {text : List Char}
    (h : text ≠ []) : replaceEscape letter meaning text ≠ [] := by
  fun_cases replaceEscape letter meaning text with
  | case1 => exact absurd rfl h
  | case2 | case3 | case4 => simp

theorem Text.decode_ne_nil {text : List Char} (h : text ≠ []) :
    decode text ≠ [] :=
  foldl_ne_nil (fun _ _ htext => replaceEscape_ne_nil htext) escapes h

theorem Text.Through.self {mark text front rest : List Char}
    (h : Through mark text front rest) : Through mark front front [] := by
  obtain ⟨hsplit, body, hfront, hfirst⟩ := h
  refine ⟨by simp, body, hfront, fun before after heq => ?_⟩
  apply hfirst before (after ++ rest)
  rw [hsplit, heq]
  simp

theorem placeholderForm_of_through {text inner after : List Char}
    (h : Through ['\x7d', '\x7d'] text inner after) :
    PlaceholderForm ('\x7b' :: '\x7b' :: inner) := by
  refine ⟨?_, inner, rfl, h.self⟩
  obtain ⟨-, body, rfl, -⟩ := h
  simp

/-- The placeholders among the pieces of a literal. -/
theorem BodyText.placeholderForm {delimiter text rest : List Char}
    {pieces : List Piece} (h : BodyText delimiter text pieces rest)
    {source : List Char} (hmem : Piece.placeholder source ∈ pieces) :
    PlaceholderForm source := by
  induction h with
  | close => cases hmem
  | escaped c _ ih =>
      rcases List.mem_cons.1 hmem with heq | hmem
      · cases heq
      · exact ih hmem
  | placeholder hthrough _ ih =>
      rcases List.mem_cons.1 hmem with heq | hmem
      · cases heq
        exact placeholderForm_of_through hthrough
      · exact ih hmem
  | plain _ _ _ _ ih =>
      rcases List.mem_cons.1 hmem with heq | hmem
      · cases heq
      · exact ih hmem

/-- A text segment of a run is filled, since decoding leaves something of
every text. -/
theorem mem_textSegment {run : List Char} {segment : Segment}
    (h : segment ∈ textSegment run) : ∃ text, segment = .text text ∧ text ≠ "" := by
  cases run with
  | nil => cases h
  | cons c run =>
      simp only [textSegment, List.mem_singleton] at h
      refine ⟨_, h, fun hempty => ?_⟩
      have hnil := congrArg String.toList hempty
      rw [String.toList_ofList] at hnil
      exact decode_ne_nil (List.cons_ne_nil c run) hnil

theorem placeholder_mem_of_mem_runs {pieces : List Piece}
    {source run : List Char} (h : (source, run) ∈ (runs pieces).2) :
    Piece.placeholder source ∈ pieces := by
  induction pieces with
  | nil => cases h
  | cons piece pieces ih =>
      cases piece with
      | plain c => exact List.mem_cons_of_mem _ (ih h)
      | escaped c => exact List.mem_cons_of_mem _ (ih h)
      | placeholder source' =>
          simp only [runs, List.mem_cons, Prod.mk.injEq] at h
          rcases h with ⟨rfl, -⟩ | h
          · exact List.mem_cons_self
          · exact List.mem_cons_of_mem _ (ih h)

theorem mem_segments {pieces : List Piece} {segment : Segment}
    (h : segment ∈ segments pieces) :
    (∃ text, segment = .text text ∧ text ≠ "") ∨
      ∃ source, segment = .placeholder (String.ofList source) ∧
        Piece.placeholder source ∈ pieces := by
  rw [segments, List.mem_append, List.mem_flatMap] at h
  rcases h with h | ⟨⟨source, run⟩, hmem, h⟩
  · exact Or.inl (mem_textSegment h)
  · rcases List.mem_cons.1 h with rfl | h
    · exact Or.inr ⟨source, rfl, placeholder_mem_of_mem_runs hmem⟩
    · exact Or.inl (mem_textSegment h)

theorem separated_nil : Separated [] := by
  intro before first second after
  simp

theorem separated_cons {segment : Segment} {segments : List Segment} :
    Separated (segment :: segments) ↔
      (∀ first second after, segment = .text first →
        segments ≠ .text second :: after) ∧ Separated segments := by
  constructor
  · intro h
    refine ⟨?_, fun before first second after heq => ?_⟩
    · rintro first second after rfl rfl
      exact h [] first second after rfl
    · exact h (segment :: before) first second after (by rw [heq]; rfl)
  · rintro ⟨hhead, htail⟩ before first second after heq
    cases before with
    | nil =>
        obtain ⟨rfl, rfl⟩ := List.cons.inj heq
        exact hhead first second after rfl rfl
    | cons other before => exact htail before first second after (List.cons.inj heq).2

/-- A text in front of placeholders, each with its text, is separated. -/
theorem separated_runs (run : List Char) (more : List (List Char × List Char)) :
    Separated (textSegment run ++ more.flatMap fun (source, run) =>
      .placeholder (String.ofList source) :: textSegment run) := by
  induction more generalizing run with
  | nil =>
      cases run with
      | nil => exact separated_nil
      | cons c run =>
          refine separated_cons.2 ⟨fun first second after _ heq => ?_, separated_nil⟩
          simp at heq
  | cons pair more ih =>
      have htail : Separated (.placeholder (String.ofList pair.1) ::
          (textSegment pair.2 ++ more.flatMap fun (source, run) =>
            .placeholder (String.ofList source) :: textSegment run)) :=
        separated_cons.2 ⟨fun _ _ _ heq => absurd heq (by simp), ih pair.2⟩
      cases run with
      | nil => exact htail
      | cons c run =>
          refine separated_cons.2 ⟨fun first second after _ heq => ?_, htail⟩
          simp at heq

theorem placeholder_mem_segments {pieces : List Piece}
    (h : pieces.any Piece.isPlaceholder = true) :
    ∃ source, Segment.placeholder source ∈ segments pieces := by
  have hruns : (runs pieces).2 ≠ [] := by
    induction pieces with
    | nil => cases h
    | cons piece pieces ih =>
        cases piece with
        | plain c => exact ih h
        | escaped c => exact ih h
        | placeholder source => simp [runs]
  obtain ⟨⟨source, run⟩, hmem⟩ := List.exists_mem_of_ne_nil _ hruns
  refine ⟨String.ofList source, ?_⟩
  rw [segments, List.mem_append, List.mem_flatMap]
  exact Or.inr ⟨(source, run), hmem, List.mem_cons_self⟩

theorem alternating_segments {pieces : List Piece}
    (h : pieces.any Piece.isPlaceholder = true) : Alternating (segments pieces) where
  placeholder := placeholder_mem_segments h
  filled := by
    intro hmem
    rcases mem_segments hmem with ⟨text, heq, hne⟩ | ⟨source, heq, -⟩
    · exact hne (Segment.text.inj heq).symm
    · cases heq
  separated := separated_runs _ _

/-- A string that is read has its shape. -/
theorem everywhere_shaped_literal {mode : StringMode} {text rest : List Char}
    {v : Value} (h : LiteralText mode text v rest) :
    Everywhere (Shaped mode) (.value v) := by
  obtain ⟨delimiter, body, pieces, -, hbody, rfl⟩ := h
  rw [Value.ofPieces]
  split
  · next hsplit =>
      rw [everywhere_parts]
      refine ⟨⟨hsplit.1, alternating_segments hsplit.2⟩, fun segment hmem => ?_⟩
      rcases mem_segments hmem with ⟨text, rfl, -⟩ | ⟨source, rfl, hpiece⟩
      · trivial
      · rw [Shaped, String.toList_ofList]
        exact hbody.placeholderForm hpiece
  · rw [everywhere_string]
    trivial

end L20n
