import L20n.Proofs.Marks
import L20n.Proofs.Rereading
import L20n.Proofs.Unambiguity

/-!
Written expressions with added parentheses left out.  Whichever are left out, the text
still has the form of a tree, and this differs from the one that was written in its
parentheses and values only.  An operand whose parentheses were left out binds less
tightly than its place allows, so the tree does not fit unless nothing was left out.
-/

namespace L20n

open Text Node Grammar Glyph

/-- Whatever is left out of the text of the expression, it has the form of a tree like
this one, which fits only if nothing was left out. -/
def Expr.Loosened (mode : StringMode) (e : Expr) : Prop :=
  ∀ ⦃limit depth : Int⦄ ⦃gs gs' : List Glyph⦄,
    Writer.outcome limit depth (Writer.marked e) = .ok gs → Loosens gs gs' →
    ∃ f, f.skeleton = e.skeleton ∧ f.level = e.level ∧
      Spells (LooseText mode) (texts gs') f ∧ (Everywhere Fits (.expr f) → gs' = gs)

/-- Whatever is left out of the text of an operand, it has the form of a tree like this
one.  A tree that is allowed in the place of the operand and fits is there only if
nothing was left out. -/
def Expr.LoosenedUnder (mode : StringMode) (allowed : Level) (e : Expr)
    (operand : Writer (List Glyph)) : Prop :=
  ∀ ⦃limit depth : Int⦄ ⦃gs gs' : List Glyph⦄,
    Writer.outcome limit depth operand = .ok gs → Loosens gs gs' →
    ∃ f, f.skeleton = e.skeleton ∧ Spells (LooseText mode) (texts gs') f ∧
      (f.level ≤ allowed → Everywhere Fits (.expr f) → gs' = gs)

namespace Writer

variable {mode : StringMode} {limit depth : Int} {gs gs' : List Glyph}

section Places

variable {allowed : Level} {e base : Expr} {text : List Char}

theorem looseText_space {rest : List Char} (h : LooseText mode text e rest) :
    LooseText mode (' ' :: text) e rest :=
  h.congr (trimStart_space text).symm

theorem spells_looseParen (h : Spells (LooseText mode) text e) :
    Spells (LooseText mode) ('(' :: text ++ [')']) (.paren e) := by
  intro rest hrest
  rw [List.append_assoc]
  exact ⟨_, _, lexeme_cons (by decide), h _ (stops_cons (by decide)),
    lexeme_cons (by decide)⟩

theorem loosened_nested (he : e.Loosened mode)
    (h : outcome limit depth (nested (marked e)) = .ok gs) (hloose : Loosens gs gs') :
    ∃ f, f.skeleton = e.skeleton ∧ f.level = e.level ∧
      Spells (LooseText mode) (texts gs') f ∧ (Everywhere Fits (.expr f) → gs' = gs) :=
  he (outcome_nested_eq_ok.1 h).2 hloose

/-- Without its added parentheses an operand is out of place. -/
theorem loosened_added (he : e.Loosened mode) (hlevel : ¬ e.level ≤ allowed) :
    e.LoosenedUnder mode allowed (do return [.added (← nested (marked e))]) := by
  intro limit depth gs gs' h hloose
  obtain ⟨inner, hinner, h⟩ := (outcome_bind_eq_ok (steady_marked e).nested).1 h
  cases h
  obtain ⟨inner', hloose, hkept | hdropped⟩ := hloose.added
  · obtain ⟨f, hsame, -, hspells, hfits⟩ := loosened_nested he hinner hloose
    subst hkept
    refine ⟨.paren f, hsame, ?_, fun _ hall => ?_⟩
    · rw [texts_added]
      exact spells_looseParen hspells
    · rw [hfits (everywhere_paren.1 hall).2]
  · obtain ⟨f, hsame, hlevels, hspells, -⟩ := loosened_nested he hinner hloose
    subst hdropped
    exact ⟨f, hsame, hspells, fun hle => absurd (hlevels ▸ hle) hlevel⟩

theorem loosened_operand (he : e.Loosened mode) :
    e.LoosenedUnder mode allowed (markedOperand allowed e (marked e)) := by
  rw [markedOperand]
  split
  · intro limit depth gs gs' h hloose
    obtain ⟨f, hsame, -, hspells, hfits⟩ := he h hloose
    exact ⟨f, hsame, hspells, fun _ => hfits⟩
  · next hlevel => exact loosened_added he hlevel

theorem loosened_inner (he : e.Loosened mode) :
    e.LoosenedUnder mode allowed (markedInner allowed e (marked e)) := by
  rw [markedInner]
  split
  · intro limit depth gs gs' h hloose
    obtain ⟨f, hsame, -, hspells, hfits⟩ := loosened_nested he h hloose
    exact ⟨f, hsame, hspells, fun _ => hfits⟩
  · next hlevel => exact loosened_added he hlevel

/-- The operands beside an operator are loosened one by one. -/
theorem loosened_infix {left right : Expr} {before behind : Level} {symbol : List Char}
    (hleft : left.Loosened mode) (hright : right.Loosened mode)
    (h : outcome limit depth (do
      let front ← markedOperand before left (marked left)
      let back ← markedInner behind right (marked right)
      return front ++ plain (' ' :: symbol ++ [' ']) ++ back) = .ok gs)
    (hloose : Loosens gs gs') :
    ∃ f g front back, f.skeleton = left.skeleton ∧ g.skeleton = right.skeleton ∧
      Spells (LooseText mode) front f ∧ Spells (LooseText mode) back g ∧
      texts gs' = front ++ ' ' :: (symbol ++ ' ' :: back) ∧
      (f.level ≤ before → g.level ≤ behind → Everywhere Fits (.expr f) →
        Everywhere Fits (.expr g) → gs' = gs) := by
  obtain ⟨front, back, hfront, hback, rfl⟩ :=
    then_eq_ok (steady_marked left).markedOperand (steady_marked right).markedInner h
  rw [List.append_assoc] at hloose ⊢
  obtain ⟨front', tail, rfl, hfront', htail⟩ := hloose.append
  obtain ⟨written, back', rfl, hwritten, hback'⟩ := htail.append
  obtain rfl := hwritten.eq_plain
  obtain ⟨f, hsame, hspells, hfits⟩ := loosened_operand hleft hfront hfront'
  obtain ⟨g, hsame', hspells', hfits'⟩ := loosened_inner hright hback hback'
  refine ⟨f, g, texts front', texts back', hsame, hsame', hspells, hspells', ?_, ?_⟩
  · simp
  · intro hlevel hlevel' hall hall'
    rw [hfits hlevel hall, hfits' hlevel' hall']

/-- Behind the base of a member chain the rest is loosened by itself. -/
theorem loosened_chain {α : Type} {y : Writer α} {tail : α → List Glyph}
    {join : List Glyph → α → List Glyph} (hbase : base.Loosened mode) (hy : Steady y)
    (hjoin : ∀ front back, join front back = front ++ tail back)
    (h : outcome limit depth (do
      let front ← markedOperand .member base (marked base)
      let back ← y
      return join front back) = .ok gs) (hloose : Loosens gs gs') :
    ∃ f front back tail', f.skeleton = base.skeleton ∧
      Spells (LooseText mode) (texts front) f ∧ outcome limit depth y = .ok back ∧
      Loosens (tail back) tail' ∧ gs' = front ++ tail' ∧
      (f.level = .member → Everywhere Fits (.expr f) → tail' = tail back → gs' = gs) := by
  obtain ⟨front, back, hfront, hback, rfl⟩ :=
    then_eq_ok (steady_marked base).markedOperand hy h
  rw [hjoin] at hloose ⊢
  obtain ⟨front', tail', rfl, hfront', htail'⟩ := hloose.append
  obtain ⟨f, hsame, hspells, hfits⟩ := loosened_operand hbase hfront hfront'
  refine ⟨f, front', back, tail', hsame, hspells, hback, htail', rfl, ?_⟩
  intro hlevel hall htail
  rw [hfits (by rw [hlevel]; decide) hall, htail]

/-- The expressions of a list are loosened one by one. -/
theorem loosened_exprs {es : List Expr} {rows rows' : List (List Glyph)}
    (hes : ∀ e ∈ es, e.Loosened mode)
    (h : outcome limit depth (markedExprs es) = .ok rows)
    (hloose : List.Forall₂ Loosens rows rows') :
    ∃ fs, skeletons fs = skeletons es ∧
      SpellsEach (LooseText mode) fs (rows'.map texts) ∧
      ((∀ f ∈ fs, Everywhere Fits (.expr f)) → rows' = rows) := by
  induction es generalizing rows rows' with
  | nil =>
      rw [markedExprs] at h
      cases h
      cases hloose
      exact ⟨[], rfl, .nil, fun _ => rfl⟩
  | cons e es ih =>
      rw [markedExprs] at h
      obtain ⟨first, more, hfirst, hmore, rfl⟩ :=
        then_eq_ok (steady_marked e).nested (steady_markedExprs es) h
      cases hloose with
      | cons hfirst' hmore' =>
          obtain ⟨hexpr, hexprs⟩ := List.forall_mem_cons.1 hes
          obtain ⟨f, hsame, -, hspells, hfits⟩ := loosened_nested hexpr hfirst hfirst'
          obtain ⟨fs, hsames, heach, hfitss⟩ := ih hexprs hmore hmore'
          refine ⟨f :: fs, ?_, .cons hspells heach, fun hall => ?_⟩
          · rw [skeletons, skeletons, hsame, hsames]
          · obtain ⟨hhead, htail⟩ := List.forall_mem_cons.1 hall
            rw [hfits hhead, hfitss htail]

theorem moreLooseArguments_of_iterates {es : List Expr} {start middle rest : List Char}
    (h : Iterates (fun text e rest => ∃ a, Lexeme [','] text a ∧ LooseText mode a e rest)
      es start middle) (hclose : Lexeme [')'] middle rest) :
    MoreLooseArguments mode start es rest := by
  induction es generalizing start with
  | nil =>
      obtain rfl : start = middle := h
      exact hclose
  | cons e es ih =>
      obtain ⟨b, ⟨a, hcomma, he⟩, hmore⟩ := h
      exact ⟨a, b, hcomma, he, ih hmore⟩

theorem spells_looseArguments {es : List Expr} {written : List (List Char)}
    (h : SpellsEach (LooseText mode) es written) :
    Spells (LooseArguments mode) (commas written ++ [')']) es := by
  intro rest hrest
  rw [List.append_assoc]
  cases es with
  | nil =>
      cases h
      exact lexeme_cons (by decide)
  | cons e es =>
      have hclose : Stops (')' :: rest) := stops_cons (by decide)
      obtain ⟨middle, hfirst, hmore⟩ := spells_commas looseText_space h hclose
      exact ⟨middle, hfirst, moreLooseArguments_of_iterates hmore (lexeme_cons (by decide))⟩

end Places

section Forms

variable {e base index left right : Expr}

theorem loosened_number (k : Int) : (Expr.number k).Loosened mode := by
  intro limit depth gs gs' h hloose
  rw [marked] at h
  obtain ⟨written, hwritten, h⟩ := (outcome_bind_eq_ok (steady_number k)).1 h
  cases h
  obtain rfl := hloose.eq_plain
  obtain ⟨n, rfl, hdigits, rfl⟩ := number_eq_ok hwritten
  refine ⟨.number n, rfl, rfl, fun rest hrest => ?_, fun _ => rfl⟩
  rw [texts_plain]
  exact ⟨n, rfl, numberText_decimal hdigits hrest⟩

theorem loosened_value {v : Value} (hkeyed : Everywhere Keyed (.value v)) :
    (Expr.value v).Loosened mode := by
  intro limit depth gs gs' h hloose
  rw [marked] at h
  obtain ⟨written, hwritten, h⟩ := (outcome_bind_eq_ok (steady_value v)).1 h
  cases h
  obtain rfl := hloose.eq_plain
  have hspellable : Everywhere (Spellable mode Value.SameNesting) (.value v) :=
    hkeyed.mono fun _ => Keyed.spellable
  obtain ⟨w, -, hspells⟩ := spells_value v hspellable (Nat.le_refl _) hwritten
  refine ⟨.value w, rfl, rfl, fun rest hrest => ?_, fun _ => rfl⟩
  rw [texts_plain]
  exact ⟨_, hspells rest hrest⟩

theorem loosened_name (key : String) : (Expr.name key).Loosened mode := by
  intro limit depth gs gs' h hloose
  rw [marked] at h
  obtain ⟨written, hwritten, h⟩ :=
    (outcome_bind_eq_ok (steady_name .identifier key)).1 h
  cases h
  obtain rfl := hloose.eq_plain
  obtain ⟨hname, rfl⟩ := name_eq_ok hwritten
  refine ⟨.name key, rfl, rfl, fun rest hrest => ?_, fun _ => rfl⟩
  rw [texts_plain]
  exact nameText_of_isName hname hrest

theorem loosened_paren (he : e.Loosened mode) : e.paren.Loosened mode := by
  intro limit depth gs gs' h hloose
  rw [marked] at h
  obtain ⟨inner, hinner, h⟩ := (outcome_bind_eq_ok (steady_marked e).nested).1 h
  cases h
  rw [List.append_assoc] at hloose ⊢
  obtain ⟨inner', rfl, hinner'⟩ := hloose.enclosed
  obtain ⟨f, hsame, -, hspells, hfits⟩ := loosened_nested he hinner hinner'
  refine ⟨.paren f, hsame, rfl, ?_, fun hall => ?_⟩
  · simpa using spells_looseParen hspells
  · rw [hfits (everywhere_paren.1 hall).2]

theorem loosened_attr (hbase : base.Loosened mode) (key : String) :
    (base.attr key).Loosened mode := by
  intro limit depth gs gs' h hloose
  rw [marked] at h
  obtain ⟨f, front, written, tail, hsame, hspells, hwritten, htail, rfl, hfits⟩ :=
    loosened_chain hbase (steady_name .attribute key) (fun _ _ => rfl) h hloose
  obtain rfl := htail.eq_plain
  obtain ⟨hname, rfl⟩ := name_eq_ok hwritten
  refine ⟨.attr f key, ?_, rfl, fun rest hrest => ?_, fun hall => ?_⟩
  · rw [Expr.skeleton, Expr.skeleton, hsame]
  · rw [texts_append, texts_plain, List.append_assoc]
    exact ⟨_, hspells _ (stops_cons (by decide)), nameText_of_isName hname hrest⟩
  · obtain ⟨hlevel, hall⟩ := everywhere_attr.1 hall
    exact hfits hlevel hall rfl

theorem loosened_prop (hbase : base.Loosened mode) (key : String) :
    (base.prop key).Loosened mode := by
  intro limit depth gs gs' h hloose
  rw [marked] at h
  obtain ⟨f, front, written, tail, hsame, hspells, hwritten, htail, rfl, hfits⟩ :=
    loosened_chain hbase (steady_name .property key) (fun _ _ => rfl) h hloose
  obtain rfl := htail.eq_plain
  obtain ⟨hname, rfl⟩ := name_eq_ok hwritten
  refine ⟨.prop f key, ?_, rfl, fun rest hrest => ?_, fun hall => ?_⟩
  · rw [Expr.skeleton, Expr.skeleton, hsame]
  · rw [texts_append, texts_plain, List.append_assoc]
    exact ⟨_, hspells _ (stops_cons (by decide)), nameText_of_isName hname hrest⟩
  · obtain ⟨hlevel, hall⟩ := everywhere_prop.1 hall
    exact hfits hlevel hall rfl

theorem loosened_attrAt (hbase : base.Loosened mode) (hindex : index.Loosened mode) :
    (base.attrAt index).Loosened mode := by
  intro limit depth gs gs' h hloose
  rw [marked] at h
  obtain ⟨f, front, inner, tail, hsame, hspells, hinner, htail, rfl, hfits⟩ :=
    loosened_chain hbase (steady_marked index).nested
      (fun _ _ => by rw [List.append_assoc, List.append_assoc]) h hloose
  obtain ⟨inner', rfl, hinner'⟩ := htail.enclosed
  obtain ⟨g, hsame', -, hspells', hfits'⟩ := loosened_nested hindex hinner hinner'
  refine ⟨.attrAt f g, ?_, rfl, fun rest hrest => ?_, fun hall => ?_⟩
  · rw [Expr.skeleton, Expr.skeleton, hsame, hsame']
  · have hinside := hspells' (']' :: rest) (stops_cons (by decide))
    simpa using ⟨_, _, hspells _ (stops_cons (by decide)), hinside,
      lexeme_cons (by decide)⟩
  · obtain ⟨hlevel, hall, hall'⟩ := everywhere_attrAt.1 hall
    exact hfits hlevel hall (by rw [hfits' hall'])

theorem loosened_propAt (hbase : base.Loosened mode) (hindex : index.Loosened mode) :
    (base.propAt index).Loosened mode := by
  intro limit depth gs gs' h hloose
  rw [marked] at h
  obtain ⟨f, front, inner, tail, hsame, hspells, hinner, htail, rfl, hfits⟩ :=
    loosened_chain hbase (steady_marked index).nested
      (fun _ _ => by rw [List.append_assoc, List.append_assoc]) h hloose
  obtain ⟨inner', rfl, hinner'⟩ := htail.enclosed
  obtain ⟨g, hsame', -, hspells', hfits'⟩ := loosened_nested hindex hinner hinner'
  refine ⟨.propAt f g, ?_, rfl, fun rest hrest => ?_, fun hall => ?_⟩
  · rw [Expr.skeleton, Expr.skeleton, hsame, hsame']
  · have hinside := hspells' (']' :: rest) (stops_cons (by decide))
    simpa using ⟨_, _, hspells _ (stops_cons (by decide)), hinside,
      lexeme_cons (by decide)⟩
  · obtain ⟨hlevel, hall, hall'⟩ := everywhere_propAt.1 hall
    exact hfits hlevel hall (by rw [hfits' hall'])

theorem loosened_call {arguments : List Expr} (hbase : base.Loosened mode)
    (harguments : ∀ e ∈ arguments, e.Loosened mode) :
    (base.call arguments).Loosened mode := by
  intro limit depth gs gs' h hloose
  rw [marked] at h
  obtain ⟨f, front, rows, tail, hsame, hspells, hrows, htail, rfl, hfits⟩ :=
    loosened_chain hbase (steady_markedExprs arguments)
      (fun _ _ => by rw [List.append_assoc, List.append_assoc]) h hloose
  obtain ⟨inside, rfl, hinside⟩ := htail.enclosed
  obtain ⟨rows', rfl, hrows'⟩ := loosens_markedCommas hinside
  obtain ⟨fs, hsames, heach, hfitss⟩ := loosened_exprs harguments hrows hrows'
  refine ⟨.call f fs, ?_, rfl, fun rest hrest => ?_, fun hall => ?_⟩
  · rw [Expr.skeleton, Expr.skeleton, hsame, hsames]
  · have hlist := spells_looseArguments heach rest hrest
    rw [List.append_assoc] at hlist
    simpa [texts_markedCommas] using ⟨_, hspells _ (stops_cons (by decide)), hlist⟩
  · obtain ⟨hlevel, hall, hall'⟩ := everywhere_call.1 hall
    exact hfits hlevel hall (by rw [hfitss hall'])

theorem loosened_unary (op : UnaryOp) (he : e.Loosened mode) :
    (e.unary op).Loosened mode := by
  intro limit depth gs gs' h hloose
  rw [marked] at h
  obtain ⟨inner, hinner, h⟩ := (outcome_bind_eq_ok (steady_marked e).markedOperand).1 h
  cases h
  obtain ⟨symbol, inner', rfl, hsymbol, hinner'⟩ := hloose.append
  obtain rfl := hsymbol.eq_plain
  obtain ⟨f, hsame, hspells, hfits⟩ := loosened_operand he hinner hinner'
  refine ⟨.unary op f, ?_, rfl, fun rest hrest => ?_, fun hall => ?_⟩
  · rw [Expr.skeleton, Expr.skeleton, hsame]
  · rw [texts_append, texts_plain, List.append_assoc]
    exact ⟨_, lexeme_unaryOp op _, hspells rest hrest⟩
  · obtain ⟨hlevel, hall⟩ := everywhere_unary.1 hall
    rw [hfits (by rw [hlevel]; decide) hall]

theorem loosened_binary (op : BinaryOp) (hleft : left.Loosened mode)
    (hright : right.Loosened mode) : (Expr.binary op left right).Loosened mode := by
  intro limit depth gs gs' h hloose
  rw [marked] at h
  obtain ⟨f, g, front, back, hsame, hsame', hspells, hspells', htexts, hfits⟩ :=
    loosened_infix hleft hright h hloose
  refine ⟨.binary op f g, ?_, rfl, fun rest hrest => ?_, fun hall => ?_⟩
  · rw [Expr.skeleton, Expr.skeleton, hsame, hsame']
  · have hbefore := hspells (' ' :: op.symbol ++ (' ' :: (back ++ rest)))
      (stops_cons (by decide))
    simpa [htexts] using
      ⟨_, _, hbefore, lexeme_binaryOp op _, looseText_space (hspells' rest hrest)⟩
  · obtain ⟨hlevels, hall, hall'⟩ := everywhere_binary.1 hall
    exact hfits hlevels.1 hlevels.2 hall hall'

theorem loosened_logical (op : LogicalOp) (hleft : left.Loosened mode)
    (hright : right.Loosened mode) : (Expr.logical op left right).Loosened mode := by
  intro limit depth gs gs' h hloose
  rw [marked] at h
  obtain ⟨f, g, front, back, hsame, hsame', hspells, hspells', htexts, hfits⟩ :=
    loosened_infix hleft hright h hloose
  refine ⟨.logical op f g, ?_, rfl, fun rest hrest => ?_, fun hall => ?_⟩
  · rw [Expr.skeleton, Expr.skeleton, hsame, hsame']
  · have hbefore := hspells (' ' :: op.symbol ++ (' ' :: (back ++ rest)))
      (stops_cons (by decide))
    simpa [htexts] using
      ⟨_, _, hbefore, lexeme_logicalOp op _, looseText_space (hspells' rest hrest)⟩
  · obtain ⟨hlevels, hall, hall'⟩ := everywhere_logical.1 hall
    exact hfits hlevels.1 hlevels.2 hall hall'

theorem loosened_conditional {test consequent alternate : Expr}
    (htest : test.Loosened mode) (hyes : consequent.Loosened mode)
    (hno : alternate.Loosened mode) :
    (Expr.conditional test consequent alternate).Loosened mode := by
  intro limit depth gs gs' h hloose
  rw [marked] at h
  obtain ⟨front, hfront, h⟩ := (outcome_bind_eq_ok (steady_marked test).markedOperand).1 h
  obtain ⟨yes, no, hyesText, hnoText, rfl⟩ :=
    then_eq_ok (steady_marked consequent).nested (steady_marked alternate).nested h
  simp only [List.append_assoc] at hloose ⊢
  obtain ⟨front', tail, rfl, hfront', htail⟩ := hloose.append
  obtain ⟨question, tail', rfl, hquestion, htail'⟩ := htail.append
  obtain ⟨yes', last, rfl, hyes', hlast⟩ := htail'.append
  obtain ⟨colon, no', rfl, hcolon, hno'⟩ := hlast.append
  obtain rfl := hquestion.eq_plain
  obtain rfl := hcolon.eq_plain
  obtain ⟨f, hsame, hspells, hfits⟩ := loosened_operand htest hfront hfront'
  obtain ⟨y, hsameYes, -, hspellsYes, hfitsYes⟩ := loosened_nested hyes hyesText hyes'
  obtain ⟨z, hsameNo, -, hspellsNo, hfitsNo⟩ := loosened_nested hno hnoText hno'
  refine ⟨.conditional f y z, ?_, rfl, fun rest hrest => ?_, fun hall => ?_⟩
  · rw [Expr.skeleton, Expr.skeleton, hsame, hsameYes, hsameNo]
  · simp only [texts_append, texts_plain, List.append_assoc]
    exact ⟨_, _, _, _, hspells _ (stops_cons (by decide)),
      lexeme_space (lexeme_cons (by decide)),
      looseText_space (hspellsYes _ (stops_cons (by decide))),
      lexeme_space (lexeme_cons (by decide)), looseText_space (hspellsNo rest hrest)⟩
  · obtain ⟨hlevel, hallTest, hallYes, hallNo⟩ := everywhere_conditional.1 hall
    rw [hfits hlevel hallTest, hfitsYes hallYes, hfitsNo hallNo]

end Forms

mutual

/-- Added parentheses that are left out leave a tree that does not fit. -/
theorem loosened_expr (mode : StringMode) : ∀ e : Expr, Everywhere Keyed (.expr e) →
    e.Loosened mode
  | .number k, _ => loosened_number k
  | .value v, h => loosened_value (everywhere_value.1 h).2
  | .name key, _ => loosened_name key
  | .paren e, h => loosened_paren (loosened_expr mode e (everywhere_paren.1 h).2)
  | .attr base key, h =>
      loosened_attr (loosened_expr mode base (everywhere_attr.1 h).2) key
  | .attrAt base index, h => by
      obtain ⟨-, hbase, hindex⟩ := everywhere_attrAt.1 h
      exact loosened_attrAt (loosened_expr mode base hbase)
        (loosened_expr mode index hindex)
  | .prop base key, h =>
      loosened_prop (loosened_expr mode base (everywhere_prop.1 h).2) key
  | .propAt base index, h => by
      obtain ⟨-, hbase, hindex⟩ := everywhere_propAt.1 h
      exact loosened_propAt (loosened_expr mode base hbase)
        (loosened_expr mode index hindex)
  | .call base arguments, h => by
      obtain ⟨-, hbase, harguments⟩ := everywhere_call.1 h
      exact loosened_call (loosened_expr mode base hbase)
        (loosened_each mode arguments harguments)
  | .unary op e, h => loosened_unary op (loosened_expr mode e (everywhere_unary.1 h).2)
  | .binary op left right, h => by
      obtain ⟨-, hleft, hright⟩ := everywhere_binary.1 h
      exact loosened_binary op (loosened_expr mode left hleft)
        (loosened_expr mode right hright)
  | .logical op left right, h => by
      obtain ⟨-, hleft, hright⟩ := everywhere_logical.1 h
      exact loosened_logical op (loosened_expr mode left hleft)
        (loosened_expr mode right hright)
  | .conditional test consequent alternate, h => by
      obtain ⟨-, htest, hyes, hno⟩ := everywhere_conditional.1 h
      exact loosened_conditional (loosened_expr mode test htest)
        (loosened_expr mode consequent hyes) (loosened_expr mode alternate hno)

theorem loosened_each (mode : StringMode) : ∀ es : List Expr,
    (∀ e ∈ es, Everywhere Keyed (.expr e)) → ∀ e ∈ es, e.Loosened mode
  | [], _ => by simp
  | e :: es, h => by
      obtain ⟨he, hes⟩ := List.forall_mem_cons.1 h
      exact List.forall_mem_cons.2 ⟨loosened_expr mode e he, loosened_each mode es hes⟩

end

end Writer

end L20n
