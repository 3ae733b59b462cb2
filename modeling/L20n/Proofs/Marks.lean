import L20n.Proofs.Outcome
import Mathlib.Data.List.Forall2

/-!
Which parentheses are added.  In a marked text the parentheses that the writer adds of
its own accord are told apart from those that the tree asks for.  The marked writer goes
the way of the writer and marks what it adds, so it gives the same text under the same
guard.  Loosening a marked text leaves some of the added pairs out.
-/

namespace L20n

/-- A character of a text, or a pair of added parentheses with what it encloses. -/
inductive Glyph where
  | char (c : Char)
  | added (inner : List Glyph)

namespace Glyph

def plain (text : List Char) : List Glyph :=
  text.map char

mutual

def text : Glyph → List Char
  | char c => [c]
  | added inner => '(' :: texts inner ++ [')']

/-- A marked text as it is written. -/
def texts : List Glyph → List Char
  | [] => []
  | glyph :: rest => glyph.text ++ texts rest

end

/-- One pair of added parentheses is left out, wherever it stands. -/
inductive Drops : List Glyph → List Glyph → Prop
  | here (front inner back : List Glyph) :
      Drops (front ++ added inner :: back) (front ++ (inner ++ back))
  | inside (front back : List Glyph) {inner inner' : List Glyph} :
      Drops inner inner' →
      Drops (front ++ added inner :: back) (front ++ added inner' :: back)

/-- Some pairs of added parentheses are left out, and everything else stays. -/
inductive Loosens : List Glyph → List Glyph → Prop
  | nil : Loosens [] []
  | char (c : Char) {row row' : List Glyph} :
      Loosens row row' → Loosens (char c :: row) (char c :: row')
  | kept {inner inner' row row' : List Glyph} :
      Loosens inner inner' → Loosens row row' →
      Loosens (added inner :: row) (added inner' :: row')
  | dropped {inner inner' row row' : List Glyph} :
      Loosens inner inner' → Loosens row row' →
      Loosens (added inner :: row) (inner' ++ row')

@[simp]
theorem texts_append (row row' : List Glyph) :
    texts (row ++ row') = texts row ++ texts row' := by
  induction row with
  | nil => rfl
  | cons glyph row ih => rw [List.cons_append, texts, ih, texts, List.append_assoc]

@[simp]
theorem texts_plain (text : List Char) : texts (plain text) = text := by
  induction text with
  | nil => rfl
  | cons c text ih =>
      change c :: texts (plain text) = c :: text
      rw [ih]

@[simp]
theorem texts_added (inner : List Glyph) :
    texts [added inner] = '(' :: texts inner ++ [')'] :=
  List.append_nil _

theorem Loosens.refl : ∀ row : List Glyph, Loosens row row
  | [] => .nil
  | .char c :: row => .char c (Loosens.refl row)
  | .added inner :: row => .kept (Loosens.refl inner) (Loosens.refl row)

theorem Loosens.behind (front : List Glyph) {row row' : List Glyph}
    (h : Loosens row row') : Loosens (front ++ row) (front ++ row') := by
  induction front with
  | nil => exact h
  | cons glyph front ih =>
      cases glyph with
      | char c => exact .char c ih
      | added inner => exact .kept (Loosens.refl inner) ih

theorem Drops.loosens {row row' : List Glyph} (h : Drops row row') : Loosens row row' := by
  induction h with
  | here front inner back =>
      exact Loosens.behind front (.dropped (Loosens.refl inner) (Loosens.refl back))
  | inside front back _ ih => exact Loosens.behind front (.kept ih (Loosens.refl back))

/-- The text lacks two characters then. -/
theorem Drops.length_eq {row row' : List Glyph} (h : Drops row row') :
    (texts row).length = (texts row').length + 2 := by
  induction h with
  | here front inner back =>
      simp only [texts_append, texts, text, List.length_append, List.length_cons,
        List.length_nil]
      omega
  | inside front back _ ih =>
      simp only [texts_append, texts, text, List.length_append, List.length_cons,
        List.length_nil]
      omega

theorem Loosens.append {row row' loose : List Glyph} (h : Loosens (row ++ row') loose) :
    ∃ front back, loose = front ++ back ∧ Loosens row front ∧ Loosens row' back := by
  induction row generalizing loose with
  | nil => exact ⟨[], loose, rfl, .nil, h⟩
  | cons glyph row ih =>
      cases h with
      | char c hrow =>
          obtain ⟨front, back, rfl, hfront, hback⟩ := ih hrow
          exact ⟨.char c :: front, back, rfl, .char c hfront, hback⟩
      | kept hinner hrow =>
          obtain ⟨front, back, rfl, hfront, hback⟩ := ih hrow
          exact ⟨_ :: front, back, rfl, .kept hinner hfront, hback⟩
      | dropped hinner hrow =>
          obtain ⟨front, back, rfl, hfront, hback⟩ := ih hrow
          exact ⟨_ ++ front, back, (List.append_assoc _ _ _).symm,
            .dropped hinner hfront, hback⟩

theorem Loosens.eq_plain {text : List Char} {loose : List Glyph}
    (h : Loosens (plain text) loose) : loose = plain text := by
  induction text generalizing loose with
  | nil =>
      cases h
      rfl
  | cons c text ih =>
      cases h with
      | char _ hrow => rw [ih hrow]; rfl

theorem Loosens.added {inner loose : List Glyph} (h : Loosens [added inner] loose) :
    ∃ inner', Loosens inner inner' ∧ (loose = [Glyph.added inner'] ∨ loose = inner') := by
  cases h with
  | @kept _ inner' _ _ hinner hrow =>
      cases hrow
      exact ⟨inner', hinner, Or.inl rfl⟩
  | @dropped _ inner' _ _ hinner hrow =>
      cases hrow
      exact ⟨inner', hinner, Or.inr (List.append_nil inner')⟩

/-- What stands between plain texts is loosened by itself. -/
theorem Loosens.enclosed {front back : List Char} {row loose : List Glyph}
    (h : Loosens (plain front ++ (row ++ plain back)) loose) :
    ∃ row', loose = plain front ++ (row' ++ plain back) ∧ Loosens row row' := by
  obtain ⟨first, inside, rfl, hfirst, hinside⟩ := h.append
  obtain ⟨row', last, rfl, hrow, hlast⟩ := hinside.append
  rw [hfirst.eq_plain, hlast.eq_plain]
  exact ⟨row', rfl, hrow⟩

end Glyph

open Glyph

namespace Writer

def markedCommas (rows : List (List Glyph)) : List Glyph :=
  (plain [',', ' ']).intercalate rows

/-- Adds parentheses around an operand where `operand` does. -/
def markedOperand (allowed : Level) (expr : Expr) (writer : Writer (List Glyph)) :
    Writer (List Glyph) :=
  calls 1 do
    if expr.level ≤ allowed then calls 1 writer
    else return [.added (← nested writer)]

def markedInner (allowed : Level) (expr : Expr) (writer : Writer (List Glyph)) :
    Writer (List Glyph) :=
  calls 1 do
    if expr.level ≤ allowed then nested writer
    else return [.added (← nested writer)]

mutual

/-- Writes an expression and marks the parentheses that are added. -/
def marked : Expr → Writer (List Glyph)
  | .number n => return plain (← number n)
  | .value v => return plain (← calls 1 (value v))
  | .name key => return plain (← name .identifier key)
  | .paren e => return plain ['('] ++ (← nested (marked e)) ++ plain [')']
  | .attr base key => do
    let base ← markedOperand .member base (marked base)
    return base ++ plain ('.' :: '.' :: (← name .attribute key))
  | .attrAt base index => do
    let base ← markedOperand .member base (marked base)
    return base ++ plain ['[', '.'] ++ (← nested (marked index)) ++ plain [']']
  | .prop base key => do
    let base ← markedOperand .member base (marked base)
    return base ++ plain ('.' :: (← name .property key))
  | .propAt base index => do
    let base ← markedOperand .member base (marked base)
    return base ++ plain ['['] ++ (← nested (marked index)) ++ plain [']']
  | .call base arguments => do
    let base ← markedOperand .member base (marked base)
    return base ++ plain ['('] ++ markedCommas (← markedExprs arguments) ++ plain [')']
  | .unary op e => return plain op.symbol ++ (← markedOperand .member e (marked e))
  | .binary op left right => do
    let left ← markedOperand .unary left (marked left)
    let right ← markedInner .binary right (marked right)
    return left ++ plain (' ' :: op.symbol ++ [' ']) ++ right
  | .logical op left right => do
    let left ← markedOperand .binary left (marked left)
    let right ← markedInner .logical right (marked right)
    return left ++ plain (' ' :: op.symbol ++ [' ']) ++ right
  | .conditional test consequent alternate => do
    let test ← markedOperand .logical test (marked test)
    let consequent ← nested (marked consequent)
    let alternate ← nested (marked alternate)
    return test ++ plain [' ', '?', ' '] ++ consequent ++ plain [' ', ':', ' '] ++ alternate

def markedExprs : List Expr → Writer (List (List Glyph))
  | [] => return []
  | e :: rest => return (← calls 1 (nested (marked e))) :: (← markedExprs rest)

end

/-- Writes a macro and marks the parentheses that are added in its body. -/
def markedMacro (key : String) (params : List Expr) (body : Expr) :
    Writer (List Glyph) := do
  let keyText ← name .entity key
  let params ← exprs params
  let body ← nested (marked body)
  return plain ('<' :: keyText ++ '(' :: commas params ++ [')', ' ', '\x7b', ' '])
    ++ body ++ plain [' ', '\x7d', '>', '\n']

theorem map_calls {α β : Type} (f : α → β) (n : Nat) (x : Writer α) :
    f <$> calls n x = calls n (f <$> x) := by
  funext monitor s
  cases monitor with
  | none => rfl
  | some monitor =>
      change EStateM.map f (calls n x (some monitor)) s = calls n (f <$> x) (some monitor) s
      rw [EStateM.map, calls, calls, inCalls, inCalls]
      by_cases hbroken : monitor.breaks (monitor.frames + n) s.guard.depth = true
      · simp only [if_pos hbroken]
      · simp only [if_neg hbroken]
        rfl

theorem map_deeper {α β : Type} (f : α → β) (x : Writer α) :
    f <$> deeper x = deeper (f <$> x) := by
  funext monitor ⟨⟨⟩, limit, depth, pending⟩
  change EStateM.map f (deeper x monitor) _ = _
  rw [EStateM.map, deeper, deeper]
  by_cases hlimit : limit ≤ depth
  · rw [inLevel_of_le hlimit, inLevel_of_le hlimit]
    by_cases hbroken : Monitor.breaksOff monitor
        (Monitor.inUse monitor + Monitor.refusing) depth = true
    · rw [if_pos hbroken, if_pos hbroken]
    · rw [if_neg hbroken, if_neg hbroken]
  · rw [inLevel_of_lt (Int.not_le.1 hlimit), inLevel_of_lt (Int.not_le.1 hlimit),
      ← map_calls]
    have hinside : (f <$> calls 1 x) monitor ⟨(), limit, depth + 1, none⟩ =
        EStateM.map f (calls 1 x monitor) ⟨(), limit, depth + 1, none⟩ := rfl
    rw [hinside, EStateM.map]
    cases calls 1 x monitor ⟨(), limit, depth + 1, none⟩ <;> rfl

theorem map_nested {α β : Type} (f : α → β) (x : Writer α) :
    f <$> nested x = nested (f <$> x) := by
  rw [nested, map_calls, map_deeper]
  rfl

theorem markedCommas_cons_cons (row row' : List Glyph) (rows : List (List Glyph)) :
    markedCommas (row :: row' :: rows) =
      row ++ (plain [',', ' '] ++ markedCommas (row' :: rows)) := by
  rw [markedCommas, List.intercalate, List.intersperse_cons_cons, List.flatten_cons,
    List.flatten_cons]
  rfl

/-- The rows between the commas are loosened one by one. -/
theorem loosens_markedCommas {rows : List (List Glyph)} {loose : List Glyph}
    (h : Loosens (markedCommas rows) loose) :
    ∃ rows', loose = markedCommas rows' ∧ List.Forall₂ Loosens rows rows' := by
  induction rows generalizing loose with
  | nil =>
      cases h
      exact ⟨[], rfl, .nil⟩
  | cons row rows ih =>
      cases rows with
      | nil =>
          rw [markedCommas, List.intercalate_singleton] at h
          exact ⟨[loose], (List.intercalate_singleton ..).symm, .cons h .nil⟩
      | cons next rows =>
          rw [markedCommas_cons_cons] at h
          obtain ⟨row', rest, rfl, hrow, hrest⟩ := h.append
          obtain ⟨comma, more, rfl, hcomma, hmore⟩ := hrest.append
          obtain ⟨rows', rfl, hrows⟩ := ih hmore
          rw [hcomma.eq_plain]
          cases hrows with
          | cons hnext hothers =>
              exact ⟨row' :: _ :: _, (markedCommas_cons_cons ..).symm,
                .cons hrow (.cons hnext hothers)⟩

theorem texts_markedCommas (rows : List (List Glyph)) :
    texts (markedCommas rows) = commas (rows.map texts) := by
  rw [markedCommas, commas]
  induction rows with
  | nil => rfl
  | cons row rows ih =>
      cases rows with
      | nil => simp [List.intercalate]
      | cons row' rows =>
          simpa [List.intercalate] using ih

theorem texts_markedOperand (allowed : Level) (e : Expr) (x : Writer (List Glyph)) :
    texts <$> markedOperand allowed e x = operand allowed e (texts <$> x) := by
  rw [markedOperand, operand, map_calls]
  split
  · rw [map_calls]
  · simp [← map_nested]

theorem texts_markedInner (allowed : Level) (e : Expr) (x : Writer (List Glyph)) :
    texts <$> markedInner allowed e x = innerOperand allowed e (texts <$> x) := by
  rw [markedInner, innerOperand, map_calls]
  split
  · rw [map_nested]
  · simp [← map_nested]

mutual

theorem texts_marked : ∀ e : Expr, texts <$> marked e = expr e
  | .number k => by simp [marked, expr]
  | .value v => by simp [marked, expr]
  | .name key => by simp [marked, expr]
  | .paren e => by
      rw [expr, ← texts_marked e, ← map_nested]
      simp [marked]
  | .attr base key => by
      rw [expr, ← texts_marked base, ← texts_markedOperand]
      simp [marked]
  | .attrAt base index => by
      rw [expr, ← texts_marked base, ← texts_markedOperand, ← texts_marked index,
        ← map_nested]
      simp [marked]
  | .prop base key => by
      rw [expr, ← texts_marked base, ← texts_markedOperand]
      simp [marked]
  | .propAt base index => by
      rw [expr, ← texts_marked base, ← texts_markedOperand, ← texts_marked index,
        ← map_nested]
      simp [marked]
  | .call base arguments => by
      rw [expr, ← texts_marked base, ← texts_markedOperand, ← texts_markedExprs arguments]
      simp [marked, texts_markedCommas]
  | .unary op e => by
      rw [expr, ← texts_marked e, ← texts_markedOperand]
      simp [marked]
  | .binary op left right => by
      rw [expr, ← texts_marked left, ← texts_markedOperand, ← texts_marked right,
        ← texts_markedInner]
      simp [marked]
  | .logical op left right => by
      rw [expr, ← texts_marked left, ← texts_markedOperand, ← texts_marked right,
        ← texts_markedInner]
      simp [marked]
  | .conditional test consequent alternate => by
      rw [expr, ← texts_marked test, ← texts_markedOperand, ← texts_marked consequent,
        ← map_nested, ← texts_marked alternate, ← map_nested]
      simp [marked]

theorem texts_markedExprs : ∀ es : List Expr, List.map texts <$> markedExprs es = exprs es
  | [] => by simp [markedExprs, exprs]
  | e :: es => by
      rw [exprs, ← texts_marked e, ← map_nested, ← map_calls, ← texts_markedExprs es]
      simp [markedExprs]

end

theorem texts_markedMacro (key : String) (params : List Expr) (body : Expr) :
    texts <$> markedMacro key params body = entry key (.macroDef params body) := by
  rw [entry, entryBody, ← texts_marked body, ← map_nested]
  simp [markedMacro]

section Outcomes

variable {α β : Type} {limit depth : Int} {f : α → β} {x : Writer α}

theorem outcome_map : outcome limit depth (f <$> x) = (outcome limit depth x).map f := by
  simp only [outcome, Functor.map, EStateM.map]
  cases x none ⟨(), guardAt limit depth⟩ <;> rfl

theorem Steady.of_map (h : Steady (f <$> x)) : Steady x := by
  intro monitor limit depth
  have hguard := h monitor limit depth
  simp only [final, Functor.map, EStateM.map] at hguard ⊢
  cases hrun : x monitor ⟨(), guardAt limit depth⟩ <;> simpa [hrun] using hguard

theorem steady_marked (e : Expr) : Steady (marked e) :=
  Steady.of_map (texts_marked e ▸ steady_expr e)

theorem steady_markedExprs (es : List Expr) : Steady (markedExprs es) :=
  Steady.of_map (texts_markedExprs es ▸ steady_exprs es)

theorem Steady.markedOperand {allowed : Level} {e : Expr} {x : Writer (List Glyph)}
    (hx : Steady x) : Steady (markedOperand allowed e x) := by
  refine Steady.calls ?_
  split
  · exact hx.calls
  · exact hx.nested.bind fun _ => steady_pure _

theorem Steady.markedInner {allowed : Level} {e : Expr} {x : Writer (List Glyph)}
    (hx : Steady x) : Steady (markedInner allowed e x) := by
  refine Steady.calls ?_
  split
  · exact hx.nested
  · exact hx.nested.bind fun _ => steady_pure _

/-- Whatever is written has its marks. -/
theorem exists_marks {y : Writer β} (hxy : f <$> x = y) {b : β}
    (h : outcome limit depth y = .ok b) :
    ∃ a, outcome limit depth x = .ok a ∧ b = f a := by
  rw [← hxy, outcome_map] at h
  cases hx : outcome limit depth x with
  | error e =>
      rw [hx] at h
      cases h
  | ok a =>
      rw [hx] at h
      cases h
      exact ⟨a, rfl, rfl⟩

end Outcomes

end Writer

end L20n
