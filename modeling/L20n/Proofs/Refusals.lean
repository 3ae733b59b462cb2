import L20n.Proofs.Derived
import L20n.Proofs.Flaws

/-!
What writing refuses of the trees that are read.  A shaped tree whose nesting
fits is written unless some text in it has a backslash that would be read as an
escape, and then this is why it is refused.  Trees that are read are shaped and
fit, so a text with such a backslash is all that can stop them.
-/

namespace L20n

open Text Node

/-- The part is not a text in which a backslash would be read as an escape. -/
def Node.Unambiguous : Node → Prop
  | .value (.string content) | .segment (.text content) =>
    hasAmbiguousBackslash content.toList = false
  | _ => True

section Shaped

variable {mode : StringMode} {part : Node} {e : WriteError}

theorem Node.Shaped.fits (h : part.Shaped mode) : part.Fits := by
  cases part with
  | expr e => exact h.1
  | resource | entry | value | segment => trivial

/-- A text that is ambiguous is a flaw. -/
theorem Node.exists_flaw (h : ¬ part.Unambiguous) : ∃ e, part.Flaw e := by
  have hletters (content : String)
      (hcontent : ¬ hasAmbiguousBackslash content.toList = false) :
      ∃ e, (Node.segment (.text content)).Flaw e :=
    ⟨_, hasAmbiguousBackslash_iff.1 (eq_true_of_ne_false hcontent), rfl⟩
  unfold Unambiguous at h
  split at h
  · exact hletters _ h
  · exact hletters _ h
  · exact absurd trivial h

theorem not_misnamed {role : NameRole} {key : String} (h : isName key.toList = true) :
    ¬ Misnamed role key e := by
  rintro ⟨hname, -⟩
  rw [h] at hname
  cases hname

theorem Table.WellNamed.not_misnamed {α : Type} {table : List (String × α)}
    {role : NameRole} (h : Table.WellNamed table) :
    ¬ ∃ key ∈ Table.names table, Misnamed role key e := by
  rintro ⟨key, hkey, hname⟩
  exact L20n.not_misnamed (h.1 key hkey) hname

/-- A resource has no flaw of its own if its keys are names and its entries shaped. -/
theorem Node.not_flaw_resource {r : Resource}
    (hnames : ∀ pair ∈ r.entries, isName pair.1.toList = true)
    (hshaped : ∀ pair ∈ r.entries, Shaped mode (.entry pair.2)) :
    ¬ (Node.resource r).Flaw e := by
  rintro ⟨pair, hpair, hname | ⟨⟨v, attributes, hempty⟩, -⟩⟩
  · exact not_misnamed (hnames pair hpair) hname
  · have hentry := hshaped pair hpair
    rw [hempty] at hentry
    exact hentry.2.1 rfl

/-- Of the flaws that a part can have, its shape leaves only ambiguous text. -/
theorem Node.ambiguous_of_flaw (hall : Everywhere (Shaped mode) part) (h : part.Flaw e) :
    ¬ part.Unambiguous ∧ ∃ content, e = .ambiguousText content := by
  have hshaped := hall part (.self part)
  have hletters (content : String) (hcontent : (Node.segment (.text content)).Flaw e) :
      ¬ (Node.segment (.text content)).Unambiguous ∧
        ∃ content, e = .ambiguousText content := by
    refine ⟨fun hfalse => ?_, content, hcontent.2⟩
    rw [Unambiguous, hasAmbiguousBackslash_iff.2 hcontent.1] at hfalse
    cases hfalse
  match part, hall, hshaped, h with
  | .resource r, hall, ⟨hnames, _⟩, h =>
      have hentries := (everywhere_resource.1 hall).2
      exact absurd h (not_flaw_resource
        (fun pair hpair => hnames pair.1 (List.mem_map_of_mem hpair))
        fun pair hpair => hentries pair hpair _ (.self _))
  | .entry (.complex _ _ none), _, _, h => exact absurd h (by simp [Flaw, Table.names])
  | .entry (.complex _ _ (some table)), _, hshaped, h =>
      exact absurd h (hshaped.2.2 table rfl).2.not_misnamed
  | .value (.object _), _, hshaped, h =>
      exact absurd h (Table.WellNamed.not_misnamed hshaped)
  | .value (.string content), _, _, h | .segment (.text content), _, _, h =>
      exact hletters content h
  | .segment (.placeholder _), _, hshaped, h => exact absurd hshaped h.1
  | .expr (.number _), _, hshaped, h =>
      obtain ⟨hnonneg, hlt⟩ := hshaped.2
      rcases h with ⟨hnegative, -⟩ | ⟨hlong, -⟩ <;> omega
  | .expr (.name _), _, hshaped, h | .expr (.attr _ _), _, hshaped, h
  | .expr (.prop _ _), _, hshaped, h => exact absurd h (not_misnamed hshaped.2)
  | .entry (.plain _), _, _, h | .entry (.macroDef _ _), _, _, h
  | .value (.parts _), _, _, h | .value (.array _), _, _, h
  | .expr (.value _), _, _, h | .expr (.paren _), _, _, h
  | .expr (.attrAt _ _), _, _, h | .expr (.propAt _ _), _, _, h
  | .expr (.call _ _), _, _, h | .expr (.unary _ _), _, _, h
  | .expr (.binary _ _ _), _, _, h | .expr (.logical _ _ _), _, _, h
  | .expr (.conditional _ _ _), _, _, h => exact False.elim h

end Shaped

namespace Writer

variable {α : Type} {limit depth : Int} {mode : StringMode} {p : Prop}

/-- The writer gives a text if `p` holds, and refuses an ambiguous text
otherwise. -/
def Answers (limit depth : Int) (p : Prop) (x : Writer α) : Prop :=
  p ∧ (∃ a, outcome limit depth x = .ok a) ∨
    ¬ p ∧ ∃ content, outcome limit depth x = .error (.ambiguousText content)

theorem answers_entries {pairs : List (String × Entry)}
    (h : ∀ pair ∈ pairs, isName pair.1.toList = true ∧
      Everywhere (Shaped mode) (.entry pair.2) ∧
      pair.2.nesting ≤ (limit - depth).toNat) :
    Answers limit depth (∀ pair ∈ pairs, Everywhere Unambiguous (.entry pair.2))
      (entries pairs) := by
  have hlevels : entriesLevels pairs ≤ (limit - depth).toNat := by
    apply entriesLevels_le_iff.2
    intro pair hpair
    obtain ⟨-, hshaped, hnesting⟩ := h pair hpair
    have hfits := hshaped.mono fun _ => Shaped.fits
    exact Nat.le_trans (Entry.levels_le_nesting hfits) hnesting
  have hscreened := screens_entries pairs limit depth
  rw [Answers]
  generalize outcome limit depth (entries pairs) = result at hscreened ⊢
  cases hscreened with
  | tooDeep refusal hlt => exact absurd hlevels (Nat.not_le.2 hlt)
  | ok text _ hclear =>
      refine Or.inl ⟨fun pair hpair part hpart => ?_, text, rfl⟩
      by_cases hambiguous : part.Unambiguous
      · exact hambiguous
      · obtain ⟨e, hflaw⟩ := exists_flaw hambiguous
        have hentry := (everywhere_resource.1 (hclear e)).2 pair hpair
        exact absurd hflaw (hentry part hpart)
  | @flawed e hflaw =>
      obtain ⟨part, hpart, hflaw⟩ := not_clear_iff.1 hflaw
      cases hpart with
      | self =>
          exact absurd hflaw (not_flaw_resource (fun pair hpair => (h pair hpair).1)
            fun pair hpair => (h pair hpair).2.1 _ (.self _))
      | inside hchild hpart =>
          obtain ⟨pair, hpair, rfl⟩ := List.mem_map.1 hchild
          obtain ⟨hambiguous, content, rfl⟩ :=
            ambiguous_of_flaw ((h pair hpair).2.1.part hpart) hflaw
          exact Or.inr ⟨fun hall => hambiguous (hall pair hpair part hpart), content, rfl⟩

end Writer

/-- A resource that was read is written again exactly when no text in it has a
backslash that would be read as an escape, and such a text is the only reason
to refuse it.  The stack has to have room for it (`Resource.writeUnder_stack`). -/
theorem Resource.written_iff_unambiguous {options : ReadOptions} {source : String}
    {path : Option String} {r : Resource} (hdepth : options.maxDepth ≤ 105)
    (h : (Resource.read options source path).outcome = .ok r) :
    ((∃ text, r.write options.maxDepth = .ok text) ↔
        Everywhere Unambiguous (.resource r)) ∧
      ∀ e, r.write options.maxDepth = .error e →
        ∃ content, e = .ambiguousText content := by
  obtain ⟨hnamed, hentries⟩ := entries_within h
  obtain ⟨hreading, hwriting⟩ := StackBudget.clamp_of_le hdepth
  rw [hreading] at hentries
  have hanswers := @Writer.answers_entries options.maxDepth 0 options.mode r.entries
    fun pair hpair => by
      rw [Int.sub_zero]
      exact ⟨hnamed.1 pair.1 (List.mem_map_of_mem hpair), hentries pair hpair⟩
  have heverywhere : Everywhere Unambiguous (.resource r) ↔
      ∀ pair ∈ r.entries, Everywhere Unambiguous (.entry pair.2) := by
    rw [everywhere_resource]
    exact and_iff_right trivial
  rw [Resource.write_eq, hwriting, heverywhere]
  rcases hanswers with ⟨hclear, text, htext⟩ | ⟨hclear, content, herror⟩
  · rw [htext]
    refine ⟨⟨fun _ => hclear, fun _ => ⟨_, rfl⟩⟩, fun e he => ?_⟩
    cases he
  · rw [herror]
    refine ⟨⟨?_, fun hall => absurd hall hclear⟩, fun e he => ?_⟩
    · rintro ⟨text, htext⟩
      cases htext
    · cases he
      exact ⟨content, rfl⟩

/-- A literal of which a backslash before a quote is left is refused. -/
theorem Resource.not_written_of_escapedQuote :
    (100 : Int) ≤ 105 ∧
      ∃ r, (Resource.read {} "<a \"\\\\\\\"\">" none).outcome = .ok r ∧
        (¬ ∃ text, r.write 100 = .ok text) ∧
        ¬ Everywhere Unambiguous (.resource r) := by
  refine ⟨by decide, ?_⟩
  obtain ⟨r, hread⟩ := exists_ok_of_isOk
    (x := (Resource.read {} "<a \"\\\\\\\"\">" none).outcome) (by decide +kernel)
  have hrefused : ((Resource.read {} "<a \"\\\\\\\"\">" none).outcome.toOption.bind
      fun r => (r.write 100).toOption) = none := by
    decide +kernel
  have hnone : ¬ ∃ text, r.write 100 = .ok text := by
    rintro ⟨text, htext⟩
    rw [hread] at hrefused
    simp [Except.toOption, htext] at hrefused
  have hiff := (written_iff_unambiguous (by decide) hread).1
  exact ⟨r, hread, hnone, fun hclear => hnone (hiff.2 hclear)⟩

end L20n
