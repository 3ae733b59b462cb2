import L20n.Diagnostic.Layout
import Mathlib.Data.List.Forall2
import Mathlib.Data.Option.Basic

/-!
What a sanitizing layout hides.  Two diagnostics that agree on the first characters of
their texts, and on which texts go on after these, cannot be told apart by anything that
is clipped.  Two things are not clipped: the message in the title of a report, and the
expected tokens in JSON.
-/

namespace L20n

namespace Text

/-- A row of texts determines each of them when the others are known. -/
theorem intercalate_inj {divider a b : String} (front back : List String) :
    divider.intercalate (front ++ a :: back) =
      divider.intercalate (front ++ b :: back) ↔ a = b := by
  induction front with
  | nil =>
      cases back with
      | nil => simp only [List.nil_append, String.intercalate_singleton]
      | cons other back =>
          simp only [List.nil_append, String.intercalate_cons_cons,
            String.append_left_inj]
  | cons other front ih =>
      rw [List.cons_append, List.cons_append,
        String.intercalate_cons_of_ne_nil (by simp),
        String.intercalate_cons_of_ne_nil (by simp), String.append_right_inj]
      exact ih

def jsonEscaped : List Char :=
  '"' :: '\\' :: (List.range 0x20).map Char.ofNat

theorem mem_jsonEscaped_of_toNat_lt {c : Char} (h : c.toNat < 0x20) :
    c ∈ jsonEscaped := by
  refine List.mem_cons_of_mem _ (List.mem_cons_of_mem _ (List.mem_map.2 ?_))
  exact ⟨c.toNat, List.mem_range.2 h, Char.ofNat_toNat c⟩

theorem jsonChar_of_notMem {c : Char} (h : c ∉ jsonEscaped) : jsonChar c = [c] := by
  have hne : ∀ d ∈ jsonEscaped, c ≠ d := fun d hd heq => h (heq ▸ hd)
  have hlarge : ¬ c.toNat < 0x20 := fun hlt => h (mem_jsonEscaped_of_toNat_lt hlt)
  rw [jsonChar, if_neg (not_or.2 ⟨hne '"' (by decide), hne '\\' (by decide)⟩),
    if_neg (hne '\n' (by decide)), if_neg (hne '\r' (by decide)),
    if_neg (hne '\t' (by decide)), if_neg (hne '\x08' (by decide)),
    if_neg (hne '\x0c' (by decide)), if_neg hlarge]

/-- What is written for an escaped character starts with a backslash, and is no beginning
of what is written for another one. -/
theorem jsonChar_prefix_free :
    ∀ c ∈ jsonEscaped, (jsonChar c).head? = some '\\' ∧
      ∀ d ∈ jsonEscaped, jsonChar c <+: jsonChar d → c = d := by
  have hall : (jsonEscaped.all fun c => (jsonChar c).head? == some '\\' &&
      jsonEscaped.all fun d => !(jsonChar c).isPrefixOf (jsonChar d) || c == d) = true := by
    decide +kernel
  intro c hc
  have hchar := List.all_eq_true.1 hall c hc
  rw [Bool.and_eq_true, beq_iff_eq, List.all_eq_true] at hchar
  refine ⟨hchar.1, fun d hd hprefix => ?_⟩
  have hothers := hchar.2 d hd
  rw [List.isPrefixOf_iff_prefix.2 hprefix] at hothers
  exact eq_of_beq hothers

/-- Where a character starts with a backslash in a JSON string, it is escaped. -/
theorem head?_jsonChar (c : Char) :
    (jsonChar c).head? = some (if c ∈ jsonEscaped then '\\' else c) := by
  by_cases hc : c ∈ jsonEscaped
  · rw [if_pos hc]
    exact (jsonChar_prefix_free c hc).1
  · rw [if_neg hc, jsonChar_of_notMem hc]
    rfl

theorem jsonChar_append_inj {c d : Char} {text other : List Char}
    (h : jsonChar c ++ text = jsonChar d ++ other) : c = d ∧ text = other := by
  have hhead : (jsonChar c).head? = (jsonChar d).head? := by
    have heq := congrArg List.head? h
    rwa [List.head?_append, List.head?_append, head?_jsonChar, head?_jsonChar,
      Option.some_or, Option.some_or, ← head?_jsonChar, ← head?_jsonChar] at heq
  have hcd : c = d := by
    rw [head?_jsonChar, head?_jsonChar, Option.some.injEq] at hhead
    by_cases hc : c ∈ jsonEscaped <;> by_cases hd : d ∈ jsonEscaped
    · have hprefix : jsonChar d <+: jsonChar c ++ text := ⟨other, h.symm⟩
      rcases List.prefix_or_prefix_of_prefix (List.prefix_append _ text) hprefix with
        hcd | hdc
      · exact (jsonChar_prefix_free c hc).2 d hd hcd
      · exact ((jsonChar_prefix_free d hd).2 c hc hdc).symm
    · rw [if_pos hc, if_neg hd] at hhead
      exact absurd (hhead ▸ by decide) hd
    · rw [if_neg hc, if_pos hd] at hhead
      exact absurd (hhead ▸ by decide) hc
    · rwa [if_neg hc, if_neg hd] at hhead
  subst hcd
  exact ⟨rfl, List.append_cancel_left h⟩

/-- A JSON string ends at its quote, whatever follows. -/
theorem flatMap_jsonChar_inj {text other rest after : List Char}
    (h : text.flatMap jsonChar ++ '"' :: rest = other.flatMap jsonChar ++ '"' :: after) :
    text = other ∧ rest = after := by
  have hquote : ∀ {c : Char} {tail back : List Char},
      '"' :: back ≠ jsonChar c ++ tail := by
    intro c tail back heq
    have hhead := congrArg List.head? heq
    rw [List.head?_append, head?_jsonChar, Option.some_or, List.head?_cons,
      Option.some.injEq] at hhead
    split at hhead
    · exact absurd hhead (by decide)
    · next hc => exact hc (hhead ▸ by decide)
  induction text generalizing other with
  | nil =>
      cases other with
      | nil => exact ⟨rfl, (List.cons.inj h).2⟩
      | cons d other =>
          rw [List.flatMap_cons, List.append_assoc] at h
          exact absurd h hquote
  | cons c text ih =>
      cases other with
      | nil =>
          rw [List.flatMap_cons, List.append_assoc] at h
          exact absurd h.symm hquote
      | cons d other =>
          rw [List.flatMap_cons, List.flatMap_cons, List.append_assoc,
            List.append_assoc] at h
          obtain ⟨rfl, htail⟩ := jsonChar_append_inj h
          obtain ⟨rfl, hrest⟩ := ih htail
          exact ⟨rfl, hrest⟩

theorem jsonString_append_inj {a b rest after : String}
    (h : jsonString a ++ rest = jsonString b ++ after) : a = b ∧ rest = after := by
  have hlist := congrArg String.toList h
  simp only [jsonString, String.toList_append, String.toList_ofList, List.cons_append,
    List.append_assoc, List.nil_append, List.cons.injEq, true_and] at hlist
  obtain ⟨htext, hrest⟩ := flatMap_jsonChar_inj hlist
  exact ⟨String.toList_inj.1 htext, String.toList_inj.1 hrest⟩

/-- A JSON list of as many strings determines the strings. -/
theorem jsonStrings_inj {texts others : List String}
    (hlength : texts.length = others.length)
    (h : ", ".intercalate (texts.map jsonString) =
      ", ".intercalate (others.map jsonString)) : texts = others := by
  induction texts generalizing others with
  | nil => exact (List.eq_nil_of_length_eq_zero hlength.symm).symm
  | cons text texts ih =>
      obtain ⟨other, others, rfl⟩ := List.exists_cons_of_length_eq_add_one hlength.symm
      have hmore : texts.length = others.length := Nat.succ.inj hlength
      cases texts with
      | nil =>
          obtain rfl := List.eq_nil_of_length_eq_zero hmore.symm
          rw [List.map_singleton, List.map_singleton, String.intercalate_singleton,
            String.intercalate_singleton, ← String.append_left_inj ""] at h
          rw [(jsonString_append_inj h).1]
      | cons second texts =>
          obtain ⟨second', others, rfl⟩ := List.exists_cons_of_length_eq_add_one hmore.symm
          rw [List.map_cons, List.map_cons, List.map_cons, List.map_cons,
            String.intercalate_cons_cons, String.intercalate_cons_cons,
            String.append_assoc, String.append_assoc] at h
          obtain ⟨rfl, hrest⟩ := jsonString_append_inj h
          rw [ih hmore ((String.append_right_inj ", ").1 hrest)]

theorem render_texts_inj {texts others : List String}
    (hlength : texts.length = others.length) :
    (JsonField.texts texts).render = (JsonField.texts others).render ↔
      texts = others := by
  refine ⟨fun h => jsonStrings_inj hlength ?_, fun h => by rw [h]⟩
  simpa only [JsonField.render, String.append_left_inj, String.append_right_inj] using h

/-- An object determines the text of each of its fields when the others are known. -/
theorem jsonObject_inj (front back : List (String × JsonField)) (name : String)
    {value other : JsonField} :
    jsonObject (front ++ (name, value) :: back) =
      jsonObject (front ++ (name, other) :: back) ↔ value.render = other.render := by
  rw [jsonObject, jsonObject, String.append_left_inj, String.append_right_inj,
    List.map_append, List.map_append, List.map_cons, List.map_cons, intercalate_inj,
    String.append_right_inj]

/-- The texts agree on their first `k` characters, and on whether they go on after
these. -/
def SameUpTo (k : Nat) (a b : String) : Prop :=
  a.toList.take k = b.toList.take k ∧ (k < a.toList.length ↔ k < b.toList.length)

theorem clip_natCast (k : Nat) (text : String) :
    clip k text =
      if k < text.toList.length then String.ofList (text.toList.take k) ++ "..."
      else text := by
  have hsign : ¬ (k : Int) < 0 := Int.not_lt.2 (Int.natCast_nonneg k)
  rw [clip, takeSigned, if_neg hsign, Int.natAbs_natCast]
  simp only [gt_iff_lt, Int.ofNat_lt]

theorem SameUpTo.clip_eq {k : Nat} {a b : String} (h : SameUpTo k a b) :
    clip k a = clip k b := by
  obtain ⟨htake, hlength⟩ := h
  rw [clip_natCast, clip_natCast, htake]
  by_cases ha : k < a.toList.length
  · rw [if_pos ha, if_pos (hlength.1 ha)]
  · have hb : ¬ k < b.toList.length := fun hlt => ha (hlength.2 hlt)
    rw [if_neg ha, if_neg hb, ← String.toList_inj]
    rwa [List.take_of_length_le (Nat.not_lt.1 ha),
      List.take_of_length_le (Nat.not_lt.1 hb)] at htake

/-- An empty text can be told from any other, even by no characters at all. -/
theorem SameUpTo.eq_empty_iff {k : Nat} {a b : String} (h : SameUpTo k a b) :
    a = "" ↔ b = "" := by
  obtain ⟨htake, hlength⟩ := h
  rw [← String.toList_eq_nil_iff, ← String.toList_eq_nil_iff,
    ← List.length_eq_zero_iff, ← List.length_eq_zero_iff]
  have hmin := congrArg List.length htake
  rw [List.length_take, List.length_take] at hmin
  omega

end Text

/-- The windows lie at one place, and their halves agree up to `k` characters. -/
structure Window.SameUpTo (k : Nat) (window other : Window) : Prop where
  position : window.position = other.position
  consumed : Text.SameUpTo k window.consumed other.consumed
  remaining : Text.SameUpTo k window.remaining other.remaining

/-- The diagnostics have the same code and the same parts, and their texts agree up to
`k` characters. -/
structure Diagnostic.SameUpTo (k : Nat) (d other : Diagnostic) : Prop where
  code : d.code = other.code
  message : Text.SameUpTo k d.message other.message
  window : Option.Rel (Window.SameUpTo k) d.window other.window
  expected : List.Forall₂ (Text.SameUpTo k) d.expected other.expected
  hint : Option.Rel (Text.SameUpTo k) d.hint other.hint

namespace Layout

structure ClipsAt (layout : Layout) (k : Nat) : Prop where
  sanitize : layout.sanitize = true
  maxLength : layout.maxLength = k

/-- The layout puts the message into the title of a report. -/
def Titles (layout : Layout) (d : Diagnostic) : Prop :=
  layout.style = .report ∨ layout.style = .window ∧ d.window = none

def placeLines (layout : Layout) : Option Window → List String
  | none => []
  | some window =>
    ["  --> offset " ++ Text.integer window.position,
      "  = near: " ++ escapeControl (layout.halves window)]

def helpLines (layout : Layout) : Option String → List String
  | none => []
  | some hint => ["  = help: " ++ layout.shown hint]

def placeFields (layout : Layout) : Option Window → List (String × Text.JsonField)
  | none => []
  | some window =>
    [("position", .number window.position),
      ("consumed", .text (layout.shown window.consumed)),
      ("remaining", .text (layout.shown window.remaining))]

def expectedFields : List String → List (String × Text.JsonField)
  | [] => []
  | token :: tokens => [("expected", .texts (token :: tokens))]

def helpFields (layout : Layout) : Option String → List (String × Text.JsonField)
  | none => []
  | some hint => [("hint", .text (layout.shown hint))]

variable {layout : Layout} {k : Nat} {d e : Diagnostic}

theorem report_eq (layout : Layout) (d : Diagnostic) :
    layout.report d =
      layout.severity ++ "[" ++ d.code.label ++ "]: " ++ "\n".intercalate
        (d.message :: (layout.placeLines d.window ++ layout.helpLines (hint? d))) := by
  rw [← String.intercalate_cons_append, report, placeLines.eq_def, helpLines.eq_def]
  rfl

theorem fields_eq (layout : Layout) (d : Diagnostic) :
    layout.fields d =
      [("code", .text d.code.label), ("code_value", .number d.code.number),
        ("message", .text (layout.shown d.message))] ++ layout.placeFields d.window ++
        expectedFields d.expected ++ layout.helpFields (hint? d) := by
  rw [fields, placeFields.eq_def, helpFields.eq_def]
  cases d.expected <;> rfl

theorem ClipsAt.shown_eq (hlayout : layout.ClipsAt k) {a b : String}
    (h : Text.SameUpTo k a b) : layout.shown a = layout.shown b := by
  rw [shown, shown, if_pos hlayout.sanitize, if_pos hlayout.sanitize, hlayout.maxLength]
  exact h.clip_eq

theorem ClipsAt.halves_eq (hlayout : layout.ClipsAt k) {window other : Window}
    (h : window.SameUpTo k other) : layout.halves window = layout.halves other := by
  rw [halves, halves, hlayout.shown_eq h.consumed, hlayout.shown_eq h.remaining]

theorem ClipsAt.placeLines_eq (hlayout : layout.ClipsAt k) {place other : Option Window}
    (h : Option.Rel (Window.SameUpTo k) place other) :
    layout.placeLines place = layout.placeLines other := by
  cases h with
  | none => rfl
  | some h => rw [placeLines, placeLines, h.position, hlayout.halves_eq h]

theorem ClipsAt.helpLines_eq (hlayout : layout.ClipsAt k) {hint other : Option String}
    (h : Option.Rel (Text.SameUpTo k) hint other) :
    layout.helpLines hint = layout.helpLines other := by
  cases h with
  | none => rfl
  | some h => rw [helpLines, helpLines, hlayout.shown_eq h]

theorem ClipsAt.placeFields_eq (hlayout : layout.ClipsAt k) {place other : Option Window}
    (h : Option.Rel (Window.SameUpTo k) place other) :
    layout.placeFields place = layout.placeFields other := by
  cases h with
  | none => rfl
  | some h =>
      rw [placeFields, placeFields, h.position, hlayout.shown_eq h.consumed,
        hlayout.shown_eq h.remaining]

theorem ClipsAt.helpFields_eq (hlayout : layout.ClipsAt k) {hint other : Option String}
    (h : Option.Rel (Text.SameUpTo k) hint other) :
    layout.helpFields hint = layout.helpFields other := by
  cases h with
  | none => rfl
  | some h => rw [helpFields, helpFields, hlayout.shown_eq h]

/-- Hints that say nothing are left out of both. -/
theorem hint?_rel (h : Option.Rel (Text.SameUpTo k) d.hint e.hint) :
    Option.Rel (Text.SameUpTo k) (hint? d) (hint? e) := by
  rw [hint?, hint?]
  generalize d.hint = a at h
  generalize e.hint = b at h
  cases h with
  | none => exact .none
  | @some a b hab =>
      by_cases ha : a = ""
      · have hb := hab.eq_empty_iff.1 ha
        rw [Option.filter_some_neg (by simpa using ha),
          Option.filter_some_neg (by simpa using hb)]
        exact .none
      · have hb : b ≠ "" := fun hb => ha (hab.eq_empty_iff.2 hb)
        rw [Option.filter_some_pos (by simpa using ha),
          Option.filter_some_pos (by simpa using hb)]
        exact .some hab

/-- A report shows its message as a whole and clips the rest. -/
theorem ClipsAt.report_eq_iff (hlayout : layout.ClipsAt k) (h : d.SameUpTo k e) :
    layout.report d = layout.report e ↔ d.message = e.message := by
  rw [report_eq, report_eq, h.code, hlayout.placeLines_eq h.window,
    hlayout.helpLines_eq (hint?_rel h.hint), String.append_right_inj]
  exact Text.intercalate_inj [] _

/-- JSON shows the expected tokens as a whole and clips the rest. -/
theorem ClipsAt.jsonObject_eq_iff (hlayout : layout.ClipsAt k) (h : d.SameUpTo k e) :
    Text.jsonObject (layout.fields d) = Text.jsonObject (layout.fields e) ↔
      d.expected = e.expected := by
  rw [fields_eq, fields_eq, h.code, hlayout.shown_eq h.message,
    hlayout.placeFields_eq h.window, hlayout.helpFields_eq (hint?_rel h.hint)]
  refine ⟨fun heq => ?_, fun heq => by rw [heq]⟩
  have hlength := h.expected.length_eq
  generalize d.expected = tokens at heq hlength
  generalize e.expected = others at heq hlength
  cases tokens with
  | nil => exact (List.eq_nil_of_length_eq_zero hlength.symm).symm
  | cons token tokens =>
      obtain ⟨other, others, rfl⟩ := List.exists_cons_of_length_eq_add_one hlength.symm
      rw [expectedFields, expectedFields, ← List.append_cons, ← List.append_cons] at heq
      exact (Text.render_texts_inj hlength).1 ((Text.jsonObject_inj _ _ _).1 heq)

/-- Diagnostics that agree up to the clipping length of a layout are laid out alike
exactly if they have the same message, where it is the title of a report, and the same
expected tokens, where the layout is JSON. -/
theorem render_eq_iff (hlayout : layout.ClipsAt k) (h : d.SameUpTo k e) :
    layout.render d = layout.render e ↔
      (layout.Titles d → d.message = e.message) ∧
        (layout.style = .json → d.expected = e.expected) := by
  rw [render, render, Titles]
  cases layout.style with
  | window =>
      have hreport := hlayout.report_eq_iff h
      have hwindow := h.window
      generalize d.window = place at hwindow ⊢
      generalize e.window = other at hwindow ⊢
      cases hwindow with
      | none => simpa using hreport
      | some hwindow => simp [hlayout.halves_eq hwindow]
  | report => simpa using hlayout.report_eq_iff h
  | line => simp [h.code, hlayout.shown_eq h.message]
  | json => simpa using hlayout.jsonObject_eq_iff h

/-- A layout that clips to three characters. -/
def clipping (style : Style) : Layout :=
  { style, sanitize := true, maxLength := 3 }

/-- Two missing tokens that agree on their first three characters are told apart by a
report, by its bare window where there is none, and by JSON, and not by one line. -/
theorem render_tells_tokens_apart :
    ∃ d e : Diagnostic, d.SameUpTo 3 e ∧ d.window = none ∧
      (clipping .report).render d ≠ (clipping .report).render e ∧
      (clipping .window).render d ≠ (clipping .window).render e ∧
      (clipping .json).render d ≠ (clipping .json).render e ∧
      (clipping .line).render d = (clipping .line).render e := by
  have hclips : ∀ style, (clipping style).ClipsAt 3 := fun _ => ⟨rfl, rfl⟩
  have hsame : ((Cause.expectedToken "an apple").diagnostic none).SameUpTo 3
      ((Cause.expectedToken "an orange").diagnostic none) :=
    { code := rfl
      message := ⟨by decide +kernel, by decide +kernel⟩
      window := .none
      expected := .cons ⟨by decide +kernel, by decide +kernel⟩ .nil
      hint := .none }
  refine ⟨_, _, hsame, rfl, fun h => ?_, fun h => ?_, fun h => ?_, ?_⟩
  · have hmessage := ((render_eq_iff (hclips .report) hsame).1 h).1 (Or.inl rfl)
    exact absurd hmessage (by decide +kernel)
  · have hmessage := ((render_eq_iff (hclips .window) hsame).1 h).1 (Or.inr ⟨rfl, rfl⟩)
    exact absurd hmessage (by decide +kernel)
  · have hexpected := ((render_eq_iff (hclips .json) hsame).1 h).2 rfl
    exact absurd hexpected (by decide +kernel)
  · refine (render_eq_iff (hclips .line) hsame).2 ⟨fun htitles => ?_, fun hstyle => ?_⟩
    · rcases htitles with hstyle | ⟨hstyle, -⟩ <;> cases hstyle
    · cases hstyle

end Layout

end L20n
