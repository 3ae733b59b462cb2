import L20n.Proofs.Grouping
import L20n.Proofs.Lockstep
import L20n.Proofs.Loose
import L20n.Proofs.Rules
import L20n.Tree.Equality

/-!
Parentheses decide.  Of all trees that differ in their parentheses and values only, a
text has the form of at most one, and there is one place where it ends.  Two such trees
agree from their innermost operands outwards: where the operands are the same up to the
parentheses around them, the token behind them tells how many of these are closed.
-/

namespace L20n

open Text Grammar

mutual

/-- The expression without its parentheses, and with nothing in its values. -/
@[simp]
def Expr.skeleton : Expr → Expr
  | .number k => .number k
  | .value _ => .value (.string "")
  | .name key => .name key
  | .paren e => e.skeleton
  | .attr base key => .attr base.skeleton key
  | .attrAt base index => .attrAt base.skeleton index.skeleton
  | .prop base key => .prop base.skeleton key
  | .propAt base index => .propAt base.skeleton index.skeleton
  | .call base arguments => .call base.skeleton (skeletons arguments)
  | .unary op e => .unary op e.skeleton
  | .binary op left right => .binary op left.skeleton right.skeleton
  | .logical op left right => .logical op left.skeleton right.skeleton
  | .conditional test consequent alternate =>
    .conditional test.skeleton consequent.skeleton alternate.skeleton

@[simp]
def skeletons : List Expr → List Expr
  | [] => []
  | e :: rest => e.skeleton :: skeletons rest

end

def Expr.wrapped : Nat → Expr → Expr
  | 0, e => e
  | n + 1, e => .paren (wrapped n e)

/-- After its blanks the text goes on with the character, as often as this. -/
def Lexemes (c : Char) : Nat → List Char → List Char → Prop
  | 0, text, rest => text = rest
  | n + 1, text, rest => ∃ a, Lexeme [c] text a ∧ Lexemes c n a rest

section Rows

variable {c : Char} {m n : Nat} {text middle rest rest' : List Char}

theorem Lexeme.unique {lexeme : List Char} (h : Lexeme lexeme text rest)
    (h' : Lexeme lexeme text rest') : rest = rest' := by
  rw [Lexeme, h] at h'
  exact List.append_cancel_left h'

theorem Lexeme.not_lexeme {d : Char} {more after : List Char}
    (h : Lexeme (d :: more) text rest) (hdc : d ≠ c) : ¬ Lexeme [c] text after :=
  fun h' => hdc (h.head_eq h')

theorem not_lexeme_of_cons {d : Char} (hblank : isBlank d = false) (hdc : d ≠ c)
    {after : List Char} : ¬ Lexeme [c] (d :: text) after := by
  rw [lexeme_cons_iff hblank]
  exact fun h => hdc h.1

theorem Lexemes.append (h : Lexemes c m text middle) (h' : Lexemes c n middle rest) :
    Lexemes c (m + n) text rest := by
  induction m generalizing text with
  | zero =>
      obtain rfl : text = middle := h
      rwa [Nat.zero_add]
  | succ m ih =>
      obtain ⟨a, ha, hmore⟩ := h
      rw [Nat.succ_add]
      exact ⟨a, ha, ih hmore⟩

theorem Lexemes.one (h : Lexeme [c] text rest) : Lexemes c 1 text rest :=
  ⟨rest, h, rfl⟩

theorem Lexemes.determined (h : Lexemes c n text rest) (h' : Lexemes c n text rest') :
    rest = rest' := by
  induction n generalizing text with
  | zero => exact Eq.trans h.symm h'
  | succ n ih =>
      obtain ⟨a, ha, hmore⟩ := h
      obtain ⟨b, hb, hmore'⟩ := h'
      obtain rfl := ha.unique hb
      exact ih hmore hmore'

/-- A row of characters is as long as it can be where none of them follows. -/
theorem Lexemes.unique (h : Lexemes c m text rest) (h' : Lexemes c n text rest')
    (hend : ∀ after, ¬ Lexeme [c] rest after)
    (hend' : ∀ after, ¬ Lexeme [c] rest' after) :
    m = n ∧ rest = rest' := by
  induction m generalizing n text with
  | zero =>
      obtain rfl : text = rest := h
      cases n with
      | zero => exact ⟨rfl, h'⟩
      | succ n =>
          obtain ⟨a, ha, -⟩ := h'
          exact absurd ha (hend a)
  | succ m ih =>
      obtain ⟨a, ha, hmore⟩ := h
      cases n with
      | zero =>
          obtain rfl : text = rest' := h'
          exact absurd ha (hend' a)
      | succ n =>
          obtain ⟨b, hb, hmore'⟩ := h'
          obtain rfl := ha.unique hb
          obtain ⟨rfl, hrest⟩ := ih hmore hmore'
          exact ⟨rfl, hrest⟩

end Rows

section Tokens

variable {text rest after : List Char} {c : Char}

theorem Lexeme.unaryOp_not_paren {op : UnaryOp} (h : Lexeme op.symbol text rest) :
    ¬ Lexeme ['('] text after := by
  cases op <;> exact h.not_lexeme (by decide)

theorem Lexeme.binaryOp_not_paren {op : BinaryOp} (h : Lexeme op.symbol text rest) :
    ¬ Lexeme [')'] text after := by
  cases op <;> exact h.not_lexeme (by decide)

theorem Lexeme.logicalOp_not_paren {op : LogicalOp} (h : Lexeme op.symbol text rest) :
    ¬ Lexeme [')'] text after := by
  cases op <;> exact h.not_lexeme (by decide)

theorem NumberText.not_paren {k : Nat} (h : NumberText text k rest) :
    ¬ Lexeme ['('] text after := by
  obtain ⟨word, hword, -⟩ := h
  exact hword.starts_first.not_lexeme (by decide)

end Tokens

theorem Expr.exists_wrapped : ∀ e : Expr,
    ∃ n core, e = wrapped n core ∧ ∀ f : Expr, core ≠ .paren f
  | .paren e => by
      obtain ⟨n, core, rfl, hcore⟩ := Expr.exists_wrapped e
      exact ⟨n + 1, core, rfl, hcore⟩
  | .number _ | .value _ | .name _ | .attr .. | .attrAt .. | .prop .. | .propAt ..
  | .call .. | .unary .. | .binary .. | .logical .. | .conditional .. =>
      ⟨0, _, rfl, fun _ => nofun⟩

theorem Expr.skeleton_wrapped (n : Nat) (e : Expr) :
    (wrapped n e).skeleton = e.skeleton := by
  induction n with
  | zero => rfl
  | succ n ih => rw [wrapped, skeleton, ih]

theorem Grammar.LooseText.unwrap {mode : StringMode} {n : Nat} {e : Expr}
    {text rest : List Char} (h : LooseText mode text (Expr.wrapped n e) rest) :
    ∃ a b, Lexemes '(' n text a ∧ LooseText mode a e b ∧ Lexemes ')' n b rest := by
  induction n generalizing text rest with
  | zero => exact ⟨text, rest, rfl, h, rfl⟩
  | succ n ih =>
      obtain ⟨a, b, hopen, hinner, hclose⟩ := h
      obtain ⟨c, d, hopens, he, hcloses⟩ := ih hinner
      exact ⟨c, d, ⟨a, hopen, hopens⟩, he, hcloses.append (.one hclose)⟩

section Limits

variable {mode : StringMode} {n m : Nat} {text rest rest' : List Char}

/-- What a reader takes is taken by one in lockstep with it that has more levels. -/
theorem Reader.Lockstep.takes {α β : Type} {R : α → β → Prop} {limit limit' depth : Int}
    {x : Reader α} {y : Reader β} (h : Lockstep limit limit' depth R x y) (hy : Steady y)
    {a : α} (hx : Takes limit depth x text a rest) :
    ∃ b, R a b ∧ Takes limit' depth y text b rest := by
  have hagrees : Agrees limit limit' depth R (x ⟨text, guardAt limit depth⟩)
      (y ⟨text, guardAt limit' depth⟩) := h ⟨text, none, none, rfl, rfl⟩
  rw [Takes] at hx
  rw [hx] at hagrees
  cases hrun : y ⟨text, guardAt limit' depth⟩ with
  | error e t =>
      rw [hrun] at hagrees
      cases hagrees
  | ok b t =>
      rw [hrun] at hagrees
      cases hagrees with
      | ok hab habreast =>
          obtain ⟨htakes, -⟩ := hy.takes_of_ok hrun
          obtain ⟨rest', pending, pending', hs, rfl⟩ := habreast
          obtain rfl : rest = rest' := congrArg Guarded.data hs
          exact ⟨b, hab, htakes⟩

theorem takes_value_iff {v : Value} :
    Reader.Takes n 0 (Reader.value mode (Inner.ofLevels mode n)) text v rest ↔
      ValueText mode n text v rest :=
  Reader.takes_value (by omega) fun k _ => Reader.reads_ofLevels mode k

theorem takes_arguments_iff {es : List Expr} :
    Reader.Takes n 0 (Reader.arguments (Inner.ofLevels mode n)) text es rest ↔
      ArgumentsText .possiblyEmpty mode n text es rest :=
  Reader.takes_arguments (by omega) fun k _ => Reader.reads_ofLevels mode k

theorem Inner.lockstep_of_le (hle : n ≤ m) (h : (0 : Int) < n) :
    Inner.Lockstep n m (0 + 1) Eq (Inner.ofLevels mode n) (Inner.ofLevels mode m) :=
  Inner.lockstep_ofLevels (by omega) (StringMode.pairs_eq mode) n (by omega) h

theorem Grammar.ValueText.lift {v : Value} (h : ValueText mode n text v rest)
    (hle : n ≤ m) : ValueText mode m text v rest := by
  have hlockstep := Reader.lockstep_value (by omega) (StringMode.pairs_eq mode)
    (@Inner.lockstep_of_le mode n m hle)
  have hsteady : Reader.Steady (Reader.value mode (Inner.ofLevels mode m)) :=
    Reader.steady_value (Inner.steady_ofLevels mode m)
  obtain ⟨w, hvw, htakes⟩ := hlockstep.takes hsteady (takes_value_iff.2 h)
  rw [Value.eq_of_alike hvw]
  exact takes_value_iff.1 htakes

theorem Grammar.ArgumentsText.lift {es : List Expr}
    (h : ArgumentsText .possiblyEmpty mode n text es rest) (hle : n ≤ m) :
    ArgumentsText .possiblyEmpty mode m text es rest := by
  have hlockstep := Reader.lockstep_arguments (by omega)
    (@Inner.lockstep_of_le mode n m hle)
  have hsteady : Reader.Steady (Reader.arguments (Inner.ofLevels mode m)) :=
    Reader.steady_arguments (Inner.steady_ofLevels mode m)
  obtain ⟨fs, hfs, htakes⟩ := hlockstep.takes hsteady (takes_arguments_iff.2 h)
  rw [Expr.eq_of_alike_row hfs]
  exact takes_arguments_iff.1 htakes

/-- However many levels there are, one value is read from a text. -/
theorem Grammar.ValueText.unique {v w : Value} (h : ValueText mode n text v rest)
    (h' : ValueText mode m text w rest') : v = w ∧ rest = rest' := by
  have htakes := takes_value_iff.2 (h.lift (Nat.le_max_left n m))
  have htakes' := takes_value_iff.2 (h'.lift (Nat.le_max_right n m))
  exact htakes.unique htakes'

theorem Grammar.ArgumentsText.unique {es fs : List Expr}
    (h : ArgumentsText .possiblyEmpty mode n text es rest)
    (h' : ArgumentsText .possiblyEmpty mode m text fs rest') :
    es = fs ∧ rest = rest' := by
  have htakes := takes_arguments_iff.2 (h.lift (Nat.le_max_left n m))
  have htakes' := takes_arguments_iff.2 (h'.lift (Nat.le_max_right n m))
  exact htakes.unique htakes'

end Limits

section Determined

variable {mode : StringMode}

/-- A tree whose form a text has, some opening parentheses into it, is told from every
other one by its operands: both are the same within some parentheses, and the text has as
many of these for the one as for the other. -/
def Expr.Determined (mode : StringMode) (x : Expr) : Prop :=
  ∀ ⦃y : Expr⦄ ⦃m n : Nat⦄ ⦃start text text' rest rest' : List Char⦄,
    x.skeleton = y.skeleton →
    Lexemes '(' m start text → LooseText mode text x rest →
    Lexemes '(' n start text' → LooseText mode text' y rest' →
    ∃ core i j middle, x = wrapped i core ∧ y = wrapped j core ∧ m + i = n + j ∧
      Lexemes ')' i middle rest ∧ Lexemes ')' j middle rest'

/-- The same where neither tree is in parentheses as a whole. -/
def Expr.BareDetermined (mode : StringMode) (x : Expr) : Prop :=
  ∀ ⦃y : Expr⦄ ⦃m n : Nat⦄ ⦃start text text' rest rest' : List Char⦄,
    (∀ f, y ≠ .paren f) → x.skeleton = y.skeleton →
    Lexemes '(' m start text → LooseText mode text x rest →
    Lexemes '(' n start text' → LooseText mode text' y rest' →
    m = n ∧ x = y ∧ rest = rest'

namespace Expr

theorem BareDetermined.determined {x : Expr} (hx : x.BareDetermined mode) :
    x.Determined mode := by
  intro y m n start text text' rest rest' hsame hopens h hopens' h'
  obtain ⟨j, core, rfl, hcore⟩ := y.exists_wrapped
  obtain ⟨a, b, hinner, hbody, hcloses⟩ := h'.unwrap
  rw [skeleton_wrapped] at hsame
  obtain ⟨hm, rfl, rfl⟩ := hx hcore hsame hopens h (hopens'.append hinner) hbody
  exact ⟨x, 0, j, rest, rfl, rfl, hm, rfl, hcloses⟩

theorem Determined.paren {e : Expr} (he : e.Determined mode) :
    (Expr.paren e).Determined mode := by
  intro y m n start text text' rest rest' hsame hopens h hopens' h'
  obtain ⟨a, b, hopen, hbody, hclose⟩ := h
  obtain ⟨core, i, j, middle, rfl, rfl, hcount, hcloses, hcloses'⟩ :=
    he hsame (hopens.append (.one hopen)) hbody hopens' h'
  exact ⟨core, i + 1, j, middle, rfl, rfl, by omega, hcloses.append (.one hclose),
    hcloses'⟩

section Consequences

variable {x y : Expr} {m n : Nat} {start text text' rest rest' : List Char}

/-- Before anything but a closing parenthesis all parentheses are told apart. -/
theorem Determined.before (hx : x.Determined mode) (hsame : x.skeleton = y.skeleton)
    (hopens : Lexemes '(' m start text) (h : LooseText mode text x rest)
    (hopens' : Lexemes '(' n start text') (h' : LooseText mode text' y rest')
    (hend : ∀ after, ¬ Lexeme [')'] rest after)
    (hend' : ∀ after, ¬ Lexeme [')'] rest' after) : m = n ∧ x = y ∧ rest = rest' := by
  obtain ⟨core, i, j, middle, rfl, rfl, hcount, hcloses, hcloses'⟩ :=
    hx hsame hopens h hopens' h'
  obtain ⟨rfl, rfl⟩ := hcloses.unique hcloses' hend hend'
  exact ⟨by omega, rfl, rfl⟩

theorem Determined.beforeSuffix {c : Char} {a a' : List Char} (hx : x.Determined mode)
    (hsame : x.skeleton = y.skeleton)
    (hopens : Lexemes '(' m start text) (h : LooseText mode text x (c :: a))
    (hopens' : Lexemes '(' n start text') (h' : LooseText mode text' y (c :: a'))
    (hblank : isBlank c = false) (hc : c ≠ ')') : m = n ∧ x = y ∧ a = a' := by
  obtain ⟨hcount, htree, hrest⟩ := hx.before hsame hopens h hopens' h'
    (fun _ => not_lexeme_of_cons hblank hc) (fun _ => not_lexeme_of_cons hblank hc)
  exact ⟨hcount, htree, List.tail_eq_of_cons_eq hrest⟩

theorem Determined.unique (hx : x.Determined mode) (hsame : x.skeleton = y.skeleton)
    (h : LooseText mode text x rest) (h' : LooseText mode text y rest') :
    x = y ∧ rest = rest' := by
  obtain ⟨core, i, j, middle, rfl, rfl, hcount, hcloses, hcloses'⟩ :=
    @hx y 0 0 text text text rest rest' hsame rfl h rfl h'
  obtain rfl : i = j := by omega
  exact ⟨rfl, hcloses.determined hcloses'⟩

end Consequences

theorem bareDetermined_number (k : Int) : (Expr.number k).BareDetermined mode := by
  intro y m n start text text' rest rest' hy hsame hopens h hopens' h'
  cases y with
  | number k' =>
      obtain rfl : k = k' := by simpa using hsame
      obtain ⟨i, rfl, hnumber⟩ := h
      obtain ⟨j, hj, hnumber'⟩ := h'
      obtain rfl : i = j := by omega
      obtain ⟨rfl, rfl⟩ := hopens.unique hopens' (fun _ => hnumber.not_paren)
        (fun _ => hnumber'.not_paren)
      exact ⟨rfl, rfl, (hnumber.unique hnumber').2⟩
  | paren f => exact absurd rfl (hy f)
  | _ => cases hsame

theorem bareDetermined_value (v : Value) : (Expr.value v).BareDetermined mode := by
  intro y m n start text text' rest rest' hy hsame hopens h hopens' h'
  cases y with
  | value w =>
      obtain ⟨i, hv⟩ := h
      obtain ⟨j, hw⟩ := h'
      obtain ⟨rfl, rfl⟩ := hopens.unique hopens'
        (fun _ => hv.starts.not_lexeme (by decide))
        (fun _ => hw.starts.not_lexeme (by decide))
      obtain ⟨rfl, rfl⟩ := hv.unique hw
      exact ⟨rfl, rfl, rfl⟩
  | paren f => exact absurd rfl (hy f)
  | _ => cases hsame

theorem bareDetermined_name (key : String) : (Expr.name key).BareDetermined mode := by
  intro y m n start text text' rest rest' hy hsame hopens h hopens' h'
  cases y with
  | name key' =>
      obtain rfl : key = key' := by simpa using hsame
      have hkey : NameText text key rest := h
      have hkey' : NameText text' key rest' := h'
      obtain ⟨rfl, rfl⟩ := hopens.unique hopens'
        (fun _ => (Word.starts_first hkey).not_lexeme (by decide))
        (fun _ => (Word.starts_first hkey').not_lexeme (by decide))
      exact ⟨rfl, rfl, (hkey.unique hkey').2⟩
  | paren f => exact absurd rfl (hy f)
  | _ => cases hsame

section Suffixes

variable {base index : Expr}

theorem Determined.attr (hbase : base.Determined mode) (key : String) :
    (Expr.attr base key).BareDetermined mode := by
  intro y m n start text text' rest rest' hy hsame hopens h hopens' h'
  cases y with
  | attr base' key' =>
      obtain ⟨hbases, rfl⟩ : base.skeleton = base'.skeleton ∧ key = key' := by
        simpa using hsame
      obtain ⟨a, htext, hkey⟩ := h
      obtain ⟨a', htext', hkey'⟩ := h'
      obtain ⟨rfl, rfl, hrests⟩ := hbase.beforeSuffix hbases hopens htext hopens' htext'
        rfl (by decide)
      obtain rfl := List.tail_eq_of_cons_eq hrests
      exact ⟨rfl, rfl, (hkey.unique hkey').2⟩
  | paren f => exact absurd rfl (hy f)
  | _ => cases hsame

theorem Determined.prop (hbase : base.Determined mode) (key : String) :
    (Expr.prop base key).BareDetermined mode := by
  intro y m n start text text' rest rest' hy hsame hopens h hopens' h'
  cases y with
  | prop base' key' =>
      obtain ⟨hbases, rfl⟩ : base.skeleton = base'.skeleton ∧ key = key' := by
        simpa using hsame
      obtain ⟨a, htext, hkey⟩ := h
      obtain ⟨a', htext', hkey'⟩ := h'
      obtain ⟨rfl, rfl, rfl⟩ := hbase.beforeSuffix hbases hopens htext hopens' htext' rfl
        (by decide)
      exact ⟨rfl, rfl, (hkey.unique hkey').2⟩
  | paren f => exact absurd rfl (hy f)
  | _ => cases hsame

theorem Determined.attrAt (hbase : base.Determined mode)
    (hindex : index.Determined mode) : (Expr.attrAt base index).BareDetermined mode := by
  intro y m n start text text' rest rest' hy hsame hopens h hopens' h'
  cases y with
  | attrAt base' index' =>
      obtain ⟨hbases, hindices⟩ : base.skeleton = base'.skeleton ∧
          index.skeleton = index'.skeleton := by simpa using hsame
      obtain ⟨a, b, htext, hat, hclose⟩ := h
      obtain ⟨a', b', htext', hat', hclose'⟩ := h'
      obtain ⟨rfl, rfl, hrests⟩ := hbase.beforeSuffix hbases hopens htext hopens' htext'
        rfl (by decide)
      obtain rfl := List.tail_eq_of_cons_eq hrests
      obtain ⟨rfl, rfl⟩ := hindex.unique hindices hat hat'
      exact ⟨rfl, rfl, hclose.unique hclose'⟩
  | paren f => exact absurd rfl (hy f)
  | _ => cases hsame

theorem Determined.propAt (hbase : base.Determined mode)
    (hindex : index.Determined mode) : (Expr.propAt base index).BareDetermined mode := by
  intro y m n start text text' rest rest' hy hsame hopens h hopens' h'
  cases y with
  | propAt base' index' =>
      obtain ⟨hbases, hindices⟩ : base.skeleton = base'.skeleton ∧
          index.skeleton = index'.skeleton := by simpa using hsame
      obtain ⟨a, b, htext, hat, hclose⟩ := h
      obtain ⟨a', b', htext', hat', hclose'⟩ := h'
      obtain ⟨rfl, rfl, rfl⟩ := hbase.beforeSuffix hbases hopens htext hopens' htext' rfl
        (by decide)
      obtain ⟨rfl, rfl⟩ := hindex.unique hindices hat hat'
      exact ⟨rfl, rfl, hclose.unique hclose'⟩
  | paren f => exact absurd rfl (hy f)
  | _ => cases hsame

theorem moreLooseArguments_unique {es : List Expr} (hes : ∀ e ∈ es, e.Determined mode)
    {fs : List Expr} {text rest rest' : List Char} (hsame : skeletons es = skeletons fs)
    (h : MoreLooseArguments mode text es rest)
    (h' : MoreLooseArguments mode text fs rest') : es = fs ∧ rest = rest' := by
  induction es generalizing fs text with
  | nil =>
      cases fs with
      | nil => exact ⟨rfl, h.unique h'⟩
      | cons f fs => cases hsame
  | cons e es ih =>
      cases fs with
      | nil => cases hsame
      | cons f fs =>
          obtain ⟨hhead, htail⟩ := List.cons.inj hsame
          obtain ⟨a, b, hcomma, he, hmore⟩ := h
          obtain ⟨a', b', hcomma', hf, hmore'⟩ := h'
          obtain rfl := hcomma.unique hcomma'
          obtain ⟨rfl, rfl⟩ := (hes e List.mem_cons_self).unique hhead he hf
          obtain ⟨rfl, rfl⟩ := ih (fun e he => hes e (List.mem_cons_of_mem _ he)) htail
            hmore hmore'
          exact ⟨rfl, rfl⟩

theorem looseArguments_unique {es : List Expr} (hes : ∀ e ∈ es, e.Determined mode)
    {fs : List Expr} {text rest rest' : List Char} (hsame : skeletons es = skeletons fs)
    (h : LooseArguments mode text es rest) (h' : LooseArguments mode text fs rest') :
    es = fs ∧ rest = rest' := by
  cases es with
  | nil =>
      cases fs with
      | nil => exact ⟨rfl, h.unique h'⟩
      | cons f fs => cases hsame
  | cons e es =>
      cases fs with
      | nil => cases hsame
      | cons f fs =>
          obtain ⟨hhead, htail⟩ := List.cons.inj hsame
          obtain ⟨a, he, hmore⟩ := h
          obtain ⟨a', hf, hmore'⟩ := h'
          obtain ⟨rfl, rfl⟩ := (hes e List.mem_cons_self).unique hhead he hf
          obtain ⟨rfl, rfl⟩ := moreLooseArguments_unique
            (fun e he => hes e (List.mem_cons_of_mem _ he)) htail hmore hmore'
          exact ⟨rfl, rfl⟩

theorem Determined.call (hbase : base.Determined mode) {arguments : List Expr}
    (harguments : ∀ e ∈ arguments, e.Determined mode) :
    (Expr.call base arguments).BareDetermined mode := by
  intro y m n start text text' rest rest' hy hsame hopens h hopens' h'
  cases y with
  | call base' arguments' =>
      obtain ⟨hbases, hrow⟩ : base.skeleton = base'.skeleton ∧
          skeletons arguments = skeletons arguments' := by simpa using hsame
      obtain ⟨a, htext, hlist⟩ := h
      obtain ⟨a', htext', hlist'⟩ := h'
      obtain ⟨rfl, rfl, rfl⟩ := hbase.beforeSuffix hbases hopens htext hopens' htext' rfl
        (by decide)
      obtain ⟨rfl, rfl⟩ := looseArguments_unique harguments hrow hlist hlist'
      exact ⟨rfl, rfl, rfl⟩
  | paren f => exact absurd rfl (hy f)
  | _ => cases hsame

end Suffixes

section Operators

variable {e left right : Expr}

theorem Determined.unary (he : e.Determined mode) (op : UnaryOp) :
    (Expr.unary op e).BareDetermined mode := by
  intro y m n start text text' rest rest' hy hsame hopens h hopens' h'
  cases y with
  | unary op' e' =>
      obtain ⟨rfl, hoperands⟩ : op = op' ∧ e.skeleton = e'.skeleton := by
        simpa using hsame
      obtain ⟨a, hop, htext⟩ := h
      obtain ⟨a', hop', htext'⟩ := h'
      obtain ⟨rfl, rfl⟩ := hopens.unique hopens' (fun _ => hop.unaryOp_not_paren)
        (fun _ => hop'.unaryOp_not_paren)
      obtain rfl := hop.unique hop'
      obtain ⟨rfl, rfl⟩ := he.unique hoperands htext htext'
      exact ⟨rfl, rfl, rfl⟩
  | paren f => exact absurd rfl (hy f)
  | _ => cases hsame

theorem Determined.binary (hleft : left.Determined mode) (hright : right.Determined mode)
    (op : BinaryOp) : (Expr.binary op left right).BareDetermined mode := by
  intro y m n start text text' rest rest' hy hsame hopens h hopens' h'
  cases y with
  | binary op' left' right' =>
      obtain ⟨rfl, hlefts, hrights⟩ : op = op' ∧ left.skeleton = left'.skeleton ∧
          right.skeleton = right'.skeleton := by simpa using hsame
      obtain ⟨a, b, htext, hop, hafter⟩ := h
      obtain ⟨a', b', htext', hop', hafter'⟩ := h'
      obtain ⟨rfl, rfl, rfl⟩ := hleft.before hlefts hopens htext hopens' htext'
        (fun _ => hop.binaryOp_not_paren) (fun _ => hop'.binaryOp_not_paren)
      obtain rfl := hop.unique hop'
      obtain ⟨rfl, rfl⟩ := hright.unique hrights hafter hafter'
      exact ⟨rfl, rfl, rfl⟩
  | paren f => exact absurd rfl (hy f)
  | _ => cases hsame

theorem Determined.logical (hleft : left.Determined mode) (hright : right.Determined mode)
    (op : LogicalOp) : (Expr.logical op left right).BareDetermined mode := by
  intro y m n start text text' rest rest' hy hsame hopens h hopens' h'
  cases y with
  | logical op' left' right' =>
      obtain ⟨rfl, hlefts, hrights⟩ : op = op' ∧ left.skeleton = left'.skeleton ∧
          right.skeleton = right'.skeleton := by simpa using hsame
      obtain ⟨a, b, htext, hop, hafter⟩ := h
      obtain ⟨a', b', htext', hop', hafter'⟩ := h'
      obtain ⟨rfl, rfl, rfl⟩ := hleft.before hlefts hopens htext hopens' htext'
        (fun _ => hop.logicalOp_not_paren) (fun _ => hop'.logicalOp_not_paren)
      obtain rfl := hop.unique hop'
      obtain ⟨rfl, rfl⟩ := hright.unique hrights hafter hafter'
      exact ⟨rfl, rfl, rfl⟩
  | paren f => exact absurd rfl (hy f)
  | _ => cases hsame

theorem Determined.conditional {test consequent alternate : Expr}
    (htest : test.Determined mode) (hyes : consequent.Determined mode)
    (hno : alternate.Determined mode) :
    (Expr.conditional test consequent alternate).BareDetermined mode := by
  intro y m n start text text' rest rest' hy hsame hopens h hopens' h'
  cases y with
  | conditional test' consequent' alternate' =>
      obtain ⟨htests, hyeses, hnos⟩ : test.skeleton = test'.skeleton ∧
          consequent.skeleton = consequent'.skeleton ∧
          alternate.skeleton = alternate'.skeleton := by simpa using hsame
      obtain ⟨a, b, c, d, htext, hquestion, hafter, hcolon, hlast⟩ := h
      obtain ⟨a', b', c', d', htext', hquestion', hafter', hcolon', hlast'⟩ := h'
      obtain ⟨rfl, rfl, rfl⟩ := htest.before htests hopens htext hopens' htext'
        (fun _ => hquestion.not_lexeme (by decide))
        (fun _ => hquestion'.not_lexeme (by decide))
      obtain rfl := hquestion.unique hquestion'
      obtain ⟨rfl, rfl⟩ := hyes.unique hyeses hafter hafter'
      obtain rfl := hcolon.unique hcolon'
      obtain ⟨rfl, rfl⟩ := hno.unique hnos hlast hlast'
      exact ⟨rfl, rfl, rfl⟩
  | paren f => exact absurd rfl (hy f)
  | _ => cases hsame

end Operators

mutual

/-- Every text has the form of one tree at most, up to the values in it. -/
theorem determined (mode : StringMode) : ∀ x : Expr, x.Determined mode
  | .number k => (bareDetermined_number k).determined
  | .value v => (bareDetermined_value v).determined
  | .name key => (bareDetermined_name key).determined
  | .paren e => (determined mode e).paren
  | .attr base key => ((determined mode base).attr key).determined
  | .attrAt base index =>
      ((determined mode base).attrAt (determined mode index)).determined
  | .prop base key => ((determined mode base).prop key).determined
  | .propAt base index =>
      ((determined mode base).propAt (determined mode index)).determined
  | .call base arguments =>
      ((determined mode base).call (determined_of_mem mode arguments)).determined
  | .unary op e => ((determined mode e).unary op).determined
  | .binary op left right =>
      ((determined mode left).binary (determined mode right) op).determined
  | .logical op left right =>
      ((determined mode left).logical (determined mode right) op).determined
  | .conditional test consequent alternate =>
      ((determined mode test).conditional (determined mode consequent)
        (determined mode alternate)).determined

theorem determined_of_mem (mode : StringMode) : ∀ es : List Expr,
    ∀ e ∈ es, e.Determined mode
  | [], _, he => nomatch he
  | e :: es, f, hf => by
      rcases List.mem_cons.1 hf with hhead | hf
      · rw [hhead]
        exact determined mode e
      · exact determined_of_mem mode es f hf

end

end Expr

end Determined

mutual

theorem Expr.skeleton_bare : ∀ e : Expr, e.bare.skeleton = e.skeleton
  | .number _ | .value _ | .name _ => rfl
  | .paren e => Expr.skeleton_bare e
  | .attr base _ | .prop base _ => by
      simp only [Expr.bare, Expr.skeleton, Expr.skeleton_bare base]
  | .attrAt base index | .propAt base index => by
      simp only [Expr.bare, Expr.skeleton, Expr.skeleton_bare base,
        Expr.skeleton_bare index]
  | .call base arguments => by
      simp only [Expr.bare, Expr.skeleton, Expr.skeleton_bare base,
        skeletons_bareExprs arguments]
  | .unary _ e => by
      simp only [Expr.bare, Expr.skeleton, Expr.skeleton_bare e]
  | .binary _ left right | .logical _ left right => by
      simp only [Expr.bare, Expr.skeleton, Expr.skeleton_bare left,
        Expr.skeleton_bare right]
  | .conditional test consequent alternate => by
      simp only [Expr.bare, Expr.skeleton, Expr.skeleton_bare test,
        Expr.skeleton_bare consequent, Expr.skeleton_bare alternate]

theorem skeletons_bareExprs : ∀ es : List Expr, skeletons (bareExprs es) = skeletons es
  | [] => rfl
  | e :: es => by
      simp only [bareExprs, skeletons, Expr.skeleton_bare e, skeletons_bareExprs es]

end

mutual

theorem Expr.skeleton_eq_of_same : ∀ {x y : Expr}, x.same y = true →
    x.skeleton = y.skeleton
  | .number a, y, h => by
      cases y with
      | number b =>
          rw [Expr.same, beq_iff_eq] at h
          rw [h]
      | _ => cases h
  | .value _, y, h => by
      cases y with
      | value _ => rfl
      | _ => cases h
  | .name a, y, h => by
      cases y with
      | name b =>
          rw [Expr.same, beq_iff_eq] at h
          rw [h]
      | _ => cases h
  | .paren e, y, h => by
      cases y with
      | paren f =>
          rw [Expr.same] at h
          rw [Expr.skeleton, Expr.skeleton, Expr.skeleton_eq_of_same h]
      | _ => cases h
  | .attr base key, y, h => by
      cases y with
      | attr base' key' =>
          simp only [Expr.same, Bool.and_eq_true, beq_iff_eq] at h
          rw [Expr.skeleton, Expr.skeleton, Expr.skeleton_eq_of_same h.1, h.2]
      | _ => cases h
  | .prop base key, y, h => by
      cases y with
      | prop base' key' =>
          simp only [Expr.same, Bool.and_eq_true, beq_iff_eq] at h
          rw [Expr.skeleton, Expr.skeleton, Expr.skeleton_eq_of_same h.1, h.2]
      | _ => cases h
  | .attrAt base index, y, h => by
      cases y with
      | attrAt base' index' =>
          simp only [Expr.same, Bool.and_eq_true] at h
          rw [Expr.skeleton, Expr.skeleton, Expr.skeleton_eq_of_same h.1,
            Expr.skeleton_eq_of_same h.2]
      | _ => cases h
  | .propAt base index, y, h => by
      cases y with
      | propAt base' index' =>
          simp only [Expr.same, Bool.and_eq_true] at h
          rw [Expr.skeleton, Expr.skeleton, Expr.skeleton_eq_of_same h.1,
            Expr.skeleton_eq_of_same h.2]
      | _ => cases h
  | .call base arguments, y, h => by
      cases y with
      | call base' arguments' =>
          simp only [Expr.same, Bool.and_eq_true] at h
          rw [Expr.skeleton, Expr.skeleton, Expr.skeleton_eq_of_same h.1,
            skeletons_eq_of_sameExprs h.2]
      | _ => cases h
  | .unary op e, y, h => by
      cases y with
      | unary op' f =>
          simp only [Expr.same, Bool.and_eq_true, beq_iff_eq] at h
          rw [Expr.skeleton, Expr.skeleton, h.1, Expr.skeleton_eq_of_same h.2]
      | _ => cases h
  | .binary op left right, y, h => by
      cases y with
      | binary op' left' right' =>
          simp only [Expr.same, Bool.and_eq_true, beq_iff_eq] at h
          rw [Expr.skeleton, Expr.skeleton, h.1.1, Expr.skeleton_eq_of_same h.1.2,
            Expr.skeleton_eq_of_same h.2]
      | _ => cases h
  | .logical op left right, y, h => by
      cases y with
      | logical op' left' right' =>
          simp only [Expr.same, Bool.and_eq_true, beq_iff_eq] at h
          rw [Expr.skeleton, Expr.skeleton, h.1.1, Expr.skeleton_eq_of_same h.1.2,
            Expr.skeleton_eq_of_same h.2]
      | _ => cases h
  | .conditional test consequent alternate, y, h => by
      cases y with
      | conditional test' consequent' alternate' =>
          simp only [Expr.same, Bool.and_eq_true] at h
          rw [Expr.skeleton, Expr.skeleton, Expr.skeleton_eq_of_same h.1.1,
            Expr.skeleton_eq_of_same h.1.2, Expr.skeleton_eq_of_same h.2]
      | _ => cases h

theorem skeletons_eq_of_sameExprs : ∀ {es fs : List Expr}, sameExprs es fs = true →
    skeletons es = skeletons fs
  | [], [], _ => rfl
  | [], _ :: _, h => by cases h
  | _ :: _, [], h => by cases h
  | e :: es, f :: fs, h => by
      rw [sameExprs, Bool.and_eq_true] at h
      rw [skeletons, skeletons, Expr.skeleton_eq_of_same h.1,
        skeletons_eq_of_sameExprs h.2]

end

/-- Trees with other skeletons differ, whatever parentheses are taken off. -/
theorem Expr.same_bare_eq_false {x y : Expr} (h : x.skeleton ≠ y.skeleton) :
    (Node.expr x.bare).same (.expr y.bare) = false := by
  rw [Bool.eq_false_iff]
  intro hsame
  apply h
  rw [← x.skeleton_bare, ← y.skeleton_bare]
  exact Expr.skeleton_eq_of_same hsame

end L20n
