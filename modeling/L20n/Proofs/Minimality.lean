import L20n.Proofs.Enclosure
import L20n.Proofs.Loosening
import L20n.Proofs.ReferenceGrammar
import L20n.Proofs.Refusals

/-!
None of the parentheses that writing adds can be left out.  Without some of them the text
of a macro is refused, or it is read as a macro with another body: what is read fits,
and of the trees that differ in parentheses and values only the text has the form of one,
which does not fit once a pair is left out.
-/

namespace L20n

open Text Node Grammar Glyph

section Macro

variable {mode : StringMode} {n : Nat} {key : String} {a b c d rest : List Char}

/-- A parenthesis right after its name tells an entry for a macro. -/
theorem Grammar.EntryText.macroDef_of_paren {pair : String × Entry}
    (h : EntryText .possiblyEmpty mode n (key.toList ++ '(' :: a) pair rest)
    (hkey : isName key.toList = true) :
    ∃ m params body b c d e, pair = (key, .macroDef params body) ∧
      ArgumentsText .possiblyEmpty mode (m + 1) a params b ∧ Lexeme ['\x7b'] b c ∧
      ConditionalText .possiblyEmpty mode m c body d ∧ Lexeme ['\x7d'] d e ∧
      Lexeme ['>'] e rest := by
  have hname : NameText (key.toList ++ '(' :: a) key ('(' :: a) :=
    nameText_of_isName hkey (stops_cons (by decide))
  cases h with
  | entity hhead _ _ _ =>
      cases hhead with
      | plain hname' hplain =>
          obtain ⟨-, rfl⟩ := hname.unique hname'
          exact absurd rfl (hplain '(' rfl).2
      | index hname' _ _ =>
          obtain ⟨-, hbracket⟩ := hname.unique hname'
          exact absurd (List.cons.inj hbracket).1 (by decide)
  | macroDef hname' hparams hopen hbody hclose hend =>
      obtain ⟨rfl, hparen⟩ := hname.unique hname'
      obtain rfl := List.tail_eq_of_cons_eq hparen
      exact ⟨_, _, _, _, _, _, _, rfl, hparams, hopen, hbody, hclose, hend⟩

theorem Grammar.SourceText.eq_nil {α : Type} {entry : List Char → α → List Char → Prop}
    {items : List α} (h : SourceText entry ['\n'] items) : items = [] := by
  obtain ⟨tail, hitems, -⟩ := h
  cases hitems with
  | done => rfl
  | comment hcomment _ =>
      obtain ⟨body, front, hopen, -⟩ := hcomment
      cases hopen
  | entry hopen _ _ => cases hopen

/-- A source that starts like a macro whose body has some form, and then ends, is read as
a macro alone.  Its body has this form only if it is the tree of the form. -/
theorem Grammar.SourceText.macroDef {m : Nat} {params : List Expr} {f : Expr}
    {pairs : List (String × Entry)} (hkey : isName key.toList = true)
    (hparams : ArgumentsText .possiblyEmpty mode m a params b)
    (hopen : Lexeme ['\x7b'] b c) (hf : LooseText mode c f d)
    (hclose : Lexeme ['\x7d'] d ['>', '\n'])
    (h : SourceText (EntryText .possiblyEmpty mode n)
      ('<' :: (key.toList ++ '(' :: a)) pairs) :
    ∃ body, pairs = [(key, .macroDef params body)] ∧ Everywhere Fits (.expr body) ∧
      (f.skeleton = body.skeleton → f = body) := by
  obtain ⟨pair, more, rest, rfl, hentry, hmore⟩ := h.first
  obtain ⟨k, params', body, b', c', d', e, rfl, hparams', hopen', hbody, hclose', hend⟩ :=
    hentry.macroDef_of_paren hkey
  obtain ⟨rfl, rfl⟩ := hparams.unique hparams'
  obtain rfl := hopen.unique hopen'
  have hloose := (derivesLoose .possiblyEmpty mode k).conditional hbody
  have hshaped := ((derivesWithin .possiblyEmpty mode k).conditional hbody).shaped
  obtain rfl := hf.brace_unique hclose hloose hclose'
  obtain rfl : rest = ['\n'] := (hend.unique rfl)
  obtain rfl := hmore.eq_nil
  refine ⟨body, rfl, hshaped.mono fun _ => Shaped.fits, fun hsame => ?_⟩
  exact ((Expr.determined mode f).unique hsame hf hloose).1

end Macro

section Written

variable {key : String} {params : List Expr} {body : Expr} {limit depth : Int}
  {gs gs' : List Glyph}

theorem Writer.markedMacro_eq_ok
    (h : outcome limit depth (markedMacro key params body) = .ok gs) :
    ∃ written inner, isName key.toList = true ∧
      outcome limit depth (exprs params) = .ok written ∧
      outcome limit depth (nested (marked body)) = .ok inner ∧
      gs = plain ('<' :: key.toList ++ '(' :: commas written ++ [')', ' ', '\x7b', ' ']) ++
        (inner ++ plain [' ', '\x7d', '>', '\n']) := by
  obtain ⟨keyText, hkey, h⟩ := (outcome_bind_eq_ok (steady_name .entity key)).1 h
  obtain ⟨written, inner, hwritten, hinner, rfl⟩ :=
    then_eq_ok (steady_exprs params) (steady_marked body).nested h
  obtain ⟨hname, rfl⟩ := name_eq_ok hkey
  exact ⟨written, inner, hname, hwritten, hinner, List.append_assoc _ _ _⟩

/-- Whatever is left out of a written macro, it is read as a macro with a body that fits;
and this does not differ from the written one by parentheses and values alone, unless
nothing was left out. -/
theorem Writer.read_of_loosened {mode : StringMode} {n : Nat}
    {pairs : List (String × Entry)}
    (hparams : ∀ e ∈ params, Everywhere Keyed (.expr e))
    (hbody : Everywhere Keyed (.expr body))
    (h : outcome limit depth (markedMacro key params body) = .ok gs)
    (hloose : Loosens gs gs')
    (hread : SourceText (EntryText .possiblyEmpty mode n) (texts gs') pairs) :
    ∃ params' body', pairs = [(key, .macroDef params' body')] ∧
      (body'.skeleton = body.skeleton → gs' = gs) := by
  obtain ⟨written, inner, hkey, hwritten, hinner, rfl⟩ := markedMacro_eq_ok h
  obtain ⟨inner', rfl, hinner'⟩ := hloose.enclosed
  have hspellable : ∀ e ∈ params, Everywhere (Spellable mode Value.SameNesting) (.expr e) :=
    fun e he => (hparams e he).mono fun _ => Keyed.spellable
  obtain ⟨es, -, hpos, heach⟩ :=
    spells_exprs (echoed_exprs params hspellable) (Nat.le_refl _) hwritten
  obtain ⟨f, hsame, -, hspells, hfits⟩ :=
    loosened_nested (loosened_expr mode body hbody) hinner hinner'
  have hform := looseText_space (hspells [' ', '\x7d', '>', '\n'] (stops_cons (by decide)))
  have hlist := spells_arguments hpos heach
    (' ' :: '\x7b' :: ' ' :: (texts inner' ++ [' ', '\x7d', '>', '\n']))
    (stops_cons (by decide))
  obtain ⟨body', rfl, hfit, hunique⟩ := SourceText.macroDef hkey hlist rfl hform rfl
    (by simpa using hread)
  refine ⟨es, body', rfl, fun hskeleton => ?_⟩
  obtain rfl := hunique (hsame.trans hskeleton.symm)
  rw [hfits hfit]

end Written

namespace Resource

variable {key : String} {params : List Expr} {body : Expr} {maxDepth : Int}
  {text : String}

/-- A written macro is the text of a marked one. -/
theorem exists_marks_of_written
    (h : Resource.write ⟨[(key, .macroDef params body)]⟩ maxDepth = .ok text) :
    ∃ gs, Writer.outcome (StackBudget.walking.clamp maxDepth).1 0
        (Writer.markedMacro key params body) = .ok gs ∧ texts gs = text.toList := by
  rw [write_eq] at h
  cases hwritten : Writer.outcome (StackBudget.walking.clamp maxDepth).1 0
      (Writer.entries [(key, .macroDef params body)]) with
  | error e =>
      rw [hwritten] at h
      cases h
  | ok written =>
      rw [hwritten] at h
      cases h
      obtain ⟨first, more, hfirst, hmore, rfl⟩ :=
        Writer.then_eq_ok (Writer.steady_entry _ _) (Writer.steady_entries []) hwritten
      cases hmore
      obtain ⟨gs, hgs, rfl⟩ :=
        Writer.exists_marks (Writer.texts_markedMacro key params body) hfirst
      exact ⟨gs, hgs, by simp⟩

/-- Parentheses are added to the body of a macro only where they are needed.  With one of
the added pairs left out the text of the macro is refused, or it is read as a macro whose
body is another one even without any parentheses. -/
theorem parentheses_needed
    (hkeyed : Everywhere Keyed (.resource ⟨[(key, .macroDef params body)]⟩))
    (h : Resource.write ⟨[(key, .macroDef params body)]⟩ maxDepth = .ok text) :
    ∃ gs, Writer.outcome (StackBudget.walking.clamp maxDepth).1 0
        (Writer.markedMacro key params body) = .ok gs ∧ texts gs = text.toList ∧
      ∀ gs', Drops gs gs' →
        ∀ (options : ReadOptions) (path : Option String) (r : Resource),
          (Resource.read options (String.ofList (texts gs')) path).outcome = .ok r →
          ∃ params' body', r.entries = [(key, .macroDef params' body')] ∧
            (Node.expr body'.bare).same (.expr body.bare) = false := by
  obtain ⟨-, hentries⟩ := everywhere_resource.1 hkeyed
  obtain ⟨-, hparams, hbody⟩ := everywhere_macroDef.1 (hentries _ List.mem_cons_self)
  obtain ⟨gs, hgs, htexts⟩ := exists_marks_of_written h
  refine ⟨gs, hgs, htexts, fun gs' hdrops options path r hread => ?_⟩
  obtain ⟨pairs, hsource, rfl⟩ := derived_of_read hread
  rw [String.toList_ofList] at hsource
  obtain ⟨params', body', rfl, hsame⟩ :=
    Writer.read_of_loosened hparams hbody hgs hdrops.loosens hsource
  refine ⟨params', body', rfl, Expr.same_bare_eq_false fun hskeleton => ?_⟩
  have hlength := hdrops.length_eq
  rw [hsame hskeleton] at hlength
  omega

def leftSum : Expr :=
  .binary .add (.binary .add (.number 1) (.number 2)) (.number 3)

/-- Without its parentheses the sum is read with the second sum on its right. -/
theorem parentheses_needed_leftSum :
    ∃ gs gs' r params' body', texts gs = "<m() \x7b (1 + 2) + 3 \x7d>\n".toList ∧
      Drops gs gs' ∧ texts gs' = "<m() \x7b 1 + 2 + 3 \x7d>\n".toList ∧
      (Resource.read {} "<m() \x7b 1 + 2 + 3 \x7d>\n" none).outcome = .ok r ∧
      r.entries = [("m", .macroDef params' body')] ∧
      (Node.expr body'.bare).same (.expr leftSum.bare) = false := by
  have hkeyed : Everywhere Keyed (.resource ⟨[("m", .macroDef [] leftSum)]⟩) := by
    simp [leftSum, Keyed, Table.Unique, Table.names]
  obtain ⟨gs, hgs, htexts, hneeded⟩ := @parentheses_needed "m" [] leftSum 100
    "<m() \x7b (1 + 2) + 3 \x7d>\n" hkeyed rfl
  have hmarks : Writer.outcome (StackBudget.walking.clamp 100).1 0
      (Writer.markedMacro "m" [] leftSum) = .ok (plain "<m() \x7b ".toList ++
        Glyph.added (plain "1 + 2".toList) :: plain " + 3 \x7d>\n".toList) := rfl
  obtain rfl := Except.ok.inj (hmarks.symm.trans hgs)
  have hdrops := Drops.here (plain "<m() \x7b ".toList) (plain "1 + 2".toList)
    (plain " + 3 \x7d>\n".toList)
  have hloose : texts (plain "<m() \x7b ".toList ++ (plain "1 + 2".toList ++
      plain " + 3 \x7d>\n".toList)) = "<m() \x7b 1 + 2 + 3 \x7d>\n".toList := by
    simp
  obtain ⟨r, hread⟩ := exists_ok_of_isOk (x := (Resource.read {}
    "<m() \x7b 1 + 2 + 3 \x7d>\n" none).outcome) (by decide +kernel)
  have hagain : (Resource.read {} (String.ofList (texts (plain "<m() \x7b ".toList ++
      (plain "1 + 2".toList ++ plain " + 3 \x7d>\n".toList)))) none).outcome = .ok r := by
    rw [hloose, String.ofList_toList]
    exact hread
  obtain ⟨params', body', hentries, hother⟩ := hneeded _ hdrops {} none r hagain
  exact ⟨_, _, r, params', body', htexts, hdrops, hloose, hread, hentries, hother⟩

end Resource

end L20n
