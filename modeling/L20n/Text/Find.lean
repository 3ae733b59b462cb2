/-!
Finding fixed texts: at the front of a text, or at their first occurrence.
-/

namespace L20n.Text

/-- What follows `mark`, when the text starts with it. -/
def after? : List Char → List Char → Option (List Char)
  | [], text => some text
  | _ :: _, [] => none
  | a :: mark, b :: text => if a = b then after? mark text else none

/-- Splits the text right after the first occurrence of `mark`. -/
def through? (mark : List Char) : List Char → Option (List Char × List Char)
  | [] => none
  | c :: text =>
    match after? mark (c :: text) with
    | some rest => some (mark, rest)
    | none => (through? mark text).map fun (front, rest) => (c :: front, rest)

theorem after?_eq_some_iff {mark text rest : List Char} :
    after? mark text = some rest ↔ mark ++ rest = text := by
  induction mark generalizing text with
  | nil => simp [after?, eq_comm]
  | cons a mark ih =>
      cases text with
      | nil => simp [after?]
      | cons b text =>
          by_cases hab : a = b
          · simp [after?, hab, ih]
          · simp [after?, hab]

/-- Nothing is lost where a text is split. -/
theorem append_of_through? {mark text front rest : List Char}
    (h : through? mark text = some (front, rest)) : front ++ rest = text := by
  induction text generalizing front with
  | nil => simp [through?] at h
  | cons c text ih =>
      cases hat : after? mark (c :: text) with
      | some found =>
          simp only [through?, hat, Option.some.injEq, Prod.mk.injEq] at h
          rw [← h.1, ← h.2]
          exact after?_eq_some_iff.1 hat
      | none =>
          simp only [through?, hat, Option.map_eq_some_iff] at h
          obtain ⟨⟨inner, tail⟩, hinner, heq⟩ := h
          obtain ⟨rfl, rfl⟩ := Prod.mk.inj heq
          rw [List.cons_append, ih hinner]

theorem length_le_of_through? {mark text front rest : List Char}
    (h : through? mark text = some (front, rest)) :
    rest.length ≤ text.length := by
  have := congrArg List.length (append_of_through? h)
  simp only [List.length_append] at this
  omega

end L20n.Text
