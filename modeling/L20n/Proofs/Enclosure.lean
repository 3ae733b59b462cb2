import L20n.Proofs.Unambiguity

/-!
Where an expression in braces ends.  Outside its strings and objects an expression has no
braces, so the first closing brace that stands there is the one after it, however the
expression is read.
-/

namespace L20n.Grammar

open Text

/-- The characters that open a string or an object, and the brace that closes one. -/
def isFence (c : Char) : Bool :=
  c == '\x27' || c == '"' || c == '\x7b' || c == '\x7d'

theorem isFence_iff {c : Char} :
    isFence c = true ↔ c = '\x27' ∨ c = '"' ∨ c = '\x7b' ∨ c = '\x7d' := by
  simp [isFence, or_assoc]

/-- Between the two texts strings and objects stand as wholes, and no braces or quotes
next to them. -/
inductive Sealed (mode : StringMode) : List Char → List Char → Prop
  | done {text} : Sealed mode text text
  | plain {c text rest} :
      isFence c = false → Sealed mode text rest → Sealed mode (c :: text) rest
  | whole {n c text v middle rest} :
      ValueText mode n (c :: text) v middle → isFence c = true →
      Sealed mode middle rest → Sealed mode (c :: text) rest

section Sealed

variable {mode : StringMode} {n : Nat} {text middle rest rest' : List Char}

theorem ValueText.ne_brace {v : Value} (h : ValueText mode n ('\x7d' :: text) v rest) :
    False := by
  have hopen := (starts_cons_iff rfl).1 h.starts
  exact absurd hopen (by decide)

/-- The closing brace that is reached first is always the same one. -/
theorem Sealed.determined (h : Sealed mode text ('\x7d' :: rest))
    (h' : Sealed mode text ('\x7d' :: rest')) : rest = rest' := by
  generalize hend : '\x7d' :: rest = goal at h
  induction h with
  | done =>
      subst hend
      cases h' with
      | done => rfl
      | plain hc _ => cases hc
      | whole hv _ _ => exact hv.ne_brace.elim
  | plain hc _ ih =>
      cases h' with
      | done => cases hc
      | plain _ hmore => exact ih hmore hend
      | whole _ hfence _ => exact absurd (hfence.symm.trans hc) (by decide)
  | whole hv hfence _ ih =>
      cases h' with
      | done => exact hv.ne_brace.elim
      | plain hc _ => exact absurd (hfence.symm.trans hc) (by decide)
      | whole hw _ hmore =>
          obtain ⟨-, rfl⟩ := hv.unique hw
          exact ih hmore hend

theorem Sealed.trans (h : Sealed mode text middle) (h' : Sealed mode middle rest) :
    Sealed mode text rest := by
  induction h with
  | done => exact h'
  | plain hc _ ih => exact .plain hc (ih h')
  | whole hv hfence _ ih => exact .whole hv hfence (ih h')

theorem sealed_append {front : List Char} (h : ∀ c ∈ front, isFence c = false) :
    Sealed mode (front ++ rest) rest := by
  induction front with
  | nil => exact .done
  | cons c front ih =>
      exact .plain (h c List.mem_cons_self) (ih fun d hd => h d (List.mem_cons_of_mem c hd))

theorem sealed_trimStart : Sealed mode text (trimStart text) := by
  have hsealed := @sealed_append mode (trimStart text) (text.takeWhile isBlank)
  rw [takeWhile_append_trimStart] at hsealed
  apply hsealed
  intro c hc
  have hblank : isBlank c = true := List.all_eq_true.1 List.all_takeWhile c hc
  rw [Bool.eq_false_iff]
  intro hfence
  rcases isFence_iff.1 hfence with rfl | rfl | rfl | rfl <;> cases hblank

theorem Sealed.lexeme {lexeme : List Char} (h : Lexeme lexeme text rest)
    (hplain : lexeme.any isFence = false) : Sealed mode text rest := by
  apply sealed_trimStart.trans
  rw [h]
  rw [List.any_eq_false] at hplain
  exact sealed_append fun c hc => Bool.eq_false_iff.2 (hplain c hc)

theorem Sealed.brace (h : Sealed mode text middle) (hclose : Lexeme ['\x7d'] middle rest) :
    Sealed mode text ('\x7d' :: rest) := by
  have hblanks : Sealed mode middle (trimStart middle) := sealed_trimStart
  rw [hclose] at hblanks
  exact h.trans hblanks

theorem isFence_of_isWordChar {c : Char} (h : isWordChar c = true) :
    isFence c = false := by
  rw [Bool.eq_false_iff]
  intro hfence
  rcases isFence_iff.1 hfence with rfl | rfl | rfl | rfl <;> revert h <;> decide

theorem Sealed.word {first : Char → Bool} {word : List Char}
    (hfirst : ∀ c, first c = true → isWordChar c = true)
    (h : Word first text word rest) : Sealed mode text rest := by
  apply Sealed.lexeme h.ahead
  rw [List.any_eq_false]
  intro c hc
  apply Bool.eq_false_iff.1
  apply isFence_of_isWordChar
  obtain ⟨d, tail, rfl, hd, htail⟩ := h.starts
  cases hc with
  | head => exact hfirst _ hd
  | tail _ hc => exact htail c hc

theorem Sealed.name {key : String} (h : NameText text key rest) : Sealed mode text rest :=
  Sealed.word (fun c hc => by simp [isWordChar, Char.isAlphanum, hc]) h

theorem Sealed.number {k : Nat} (h : NumberText text k rest) : Sealed mode text rest := by
  obtain ⟨word, hword, -⟩ := h
  exact Sealed.word (fun c hc => by simp [isWordChar, Char.isAlphanum, hc]) hword

theorem Sealed.of_starts {v : Value} (h : ValueText mode n text v rest)
    (hstarts : Starts isFence text) : Sealed mode text rest := by
  obtain ⟨c, tail, hhead, hc⟩ := hstarts
  have hv := valueText_trimStart.2 h
  apply sealed_trimStart.trans
  rw [hhead] at hv ⊢
  exact .whole hv hc .done

theorem Sealed.literal {v : Value} (h : LiteralText mode text v rest) :
    Sealed mode text rest := by
  apply Sealed.of_starts (ValueText.literal (n := 0) h)
  apply (starts_of_literalText h).mono
  intro c hc
  rw [Bool.or_eq_true, beq_iff_eq, beq_iff_eq] at hc
  rcases hc with rfl | rfl <;> decide

theorem Sealed.moreValues (ih : ∀ {text v rest}, ValueText mode n text v rest →
    Sealed mode text rest) {vs : List Value} (h : MoreValues mode n text vs rest) :
    Sealed mode text rest := by
  induction vs generalizing text with
  | nil =>
      cases h
      exact .done
  | cons v vs ihvs =>
      cases h with
      | cons hcomma hv hmore =>
          exact (Sealed.lexeme hcomma (by decide)).trans ((ih hv).trans (ihvs hmore))

theorem Sealed.array (ih : ∀ {text v rest}, ValueText mode n text v rest →
    Sealed mode text rest) {v : Value} (h : ArrayText mode n text v rest) :
    Sealed mode text rest := by
  cases h with
  | empty hopen hclose =>
      exact (Sealed.lexeme hopen (by decide)).trans (Sealed.lexeme hclose (by decide))
  | items hopen hfirst hmore hclose =>
      exact (Sealed.lexeme hopen (by decide)).trans ((ih hfirst).trans
        ((Sealed.moreValues ih hmore).trans (Sealed.lexeme hclose (by decide))))

theorem Sealed.value {v : Value} (h : ValueText mode n text v rest) :
    Sealed mode text rest := by
  induction n generalizing text v rest with
  | zero =>
      cases h with
      | literal hliteral => exact Sealed.literal hliteral
  | succ n ih =>
      cases h with
      | literal hliteral => exact Sealed.literal hliteral
      | array harray => exact Sealed.array ih harray
      | object hobject =>
          obtain ⟨after, hopen⟩ := hobject.lexeme
          exact Sealed.of_starts (.object hobject) (hopen.starts (by decide))

theorem Sealed.unaryOp {op : UnaryOp} (h : Lexeme op.symbol text rest) :
    Sealed mode text rest :=
  Sealed.lexeme h (by cases op <;> decide)

theorem Sealed.binaryOp {op : BinaryOp} (h : Lexeme op.symbol text rest) :
    Sealed mode text rest :=
  Sealed.lexeme h (by cases op <;> decide)

theorem Sealed.logicalOp {op : LogicalOp} (h : Lexeme op.symbol text rest) :
    Sealed mode text rest :=
  Sealed.lexeme h (by cases op <;> decide)

theorem Sealed.close (h : Lexeme [')'] text rest) : Sealed mode text rest :=
  Sealed.lexeme h (by decide)

mutual

theorem LooseText.sealed : ∀ {e : Expr} {text rest : List Char},
    LooseText mode text e rest → Sealed mode text rest
  | .number _, _, _, ⟨_, _, hnumber⟩ => Sealed.number hnumber
  | .value _, _, _, ⟨_, hv⟩ => Sealed.value hv
  | .name _, _, _, hname => Sealed.name hname
  | .paren _, _, _, ⟨_, _, hopen, he, hclose⟩ =>
      (Sealed.lexeme hopen (by decide)).trans (he.sealed.trans (Sealed.close hclose))
  | .attr _ _, _, _, ⟨_, hbase, hname⟩ =>
      hbase.sealed.trans (.plain (by decide) (.plain (by decide) (Sealed.name hname)))
  | .attrAt _ _, _, _, ⟨_, _, hbase, hindex, hclose⟩ =>
      hbase.sealed.trans (.plain (by decide) (.plain (by decide)
        (hindex.sealed.trans (Sealed.lexeme hclose (by decide)))))
  | .prop _ _, _, _, ⟨_, hbase, hname⟩ =>
      hbase.sealed.trans (.plain (by decide) (Sealed.name hname))
  | .propAt _ _, _, _, ⟨_, _, hbase, hindex, hclose⟩ =>
      hbase.sealed.trans (.plain (by decide)
        (hindex.sealed.trans (Sealed.lexeme hclose (by decide))))
  | .call _ _, _, _, ⟨_, hbase, harguments⟩ =>
      hbase.sealed.trans (.plain (by decide) harguments.sealed)
  | .unary _ _, _, _, ⟨_, hop, he⟩ => (Sealed.unaryOp hop).trans he.sealed
  | .binary _ _ _, _, _, ⟨_, _, hleft, hop, hright⟩ =>
      hleft.sealed.trans ((Sealed.binaryOp hop).trans hright.sealed)
  | .logical _ _ _, _, _, ⟨_, _, hleft, hop, hright⟩ =>
      hleft.sealed.trans ((Sealed.logicalOp hop).trans hright.sealed)
  | .conditional _ _ _, _, _, ⟨_, _, _, _, htest, hquestion, hyes, hcolon, hno⟩ =>
      htest.sealed.trans ((Sealed.lexeme hquestion (by decide)).trans
        (hyes.sealed.trans ((Sealed.lexeme hcolon (by decide)).trans hno.sealed)))

theorem LooseArguments.sealed : ∀ {es : List Expr} {text rest : List Char},
    LooseArguments mode text es rest → Sealed mode text rest
  | [], _, _, hclose => Sealed.close hclose
  | _ :: _, _, _, ⟨_, he, hmore⟩ => he.sealed.trans hmore.sealed

theorem MoreLooseArguments.sealed : ∀ {es : List Expr} {text rest : List Char},
    MoreLooseArguments mode text es rest → Sealed mode text rest
  | [], _, _, hclose => Sealed.close hclose
  | _ :: _, _, _, ⟨_, _, hcomma, he, hmore⟩ =>
      (Sealed.lexeme hcomma (by decide)).trans (he.sealed.trans hmore.sealed)

end

/-- However an expression is read, the brace that closes it is the same. -/
theorem LooseText.brace_unique {e f : Expr} {after after' : List Char}
    (he : LooseText mode text e rest) (hclose : Lexeme ['\x7d'] rest after)
    (hf : LooseText mode text f rest') (hclose' : Lexeme ['\x7d'] rest' after') :
    after = after' :=
  (he.sealed.brace hclose).determined (hf.sealed.brace hclose')

end Sealed

end L20n.Grammar
