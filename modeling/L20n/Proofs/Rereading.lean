import L20n.Proofs.Options
import L20n.Proofs.RoundTrip
import Mathlib.Algebra.Order.BigOperators.Group.List
import Mathlib.Algebra.Order.Group.Nat

/-!
Trees of any shape, written and read again.  What comes back is the grouped tree,
up to its strings, or a level is refused: exactly where the grouped tree is nested
deeper than the limit.  Writing counts one level for an operand on the right that
it puts in parentheses, where reading enters two.  So a text can be written under a
limit under which it is not read, but not unless there is such an operand.
-/

namespace L20n

open Text Node Grammar

/-- Whatever the strings are, as long as nothing is nested in them. -/
def Value.SameNesting (v w : Value) : Prop :=
  v.nesting = w.nesting

mutual

theorem Value.nesting_of_alike : ∀ {v w : Value},
    v.Alike Value.SameNesting w → v.nesting = w.nesting
  | _, _, .leaf h => h
  | .array _, _, .array h => by
      rw [Value.nesting, Value.nesting, valuesNesting_of_alike h]
  | .object _, _, .object _ h => by
      rw [Value.nesting, Value.nesting, membersNesting_of_alike h]

theorem valuesNesting_of_alike : ∀ {items others : List Value},
    List.Forall₂ (Value.Alike Value.SameNesting) items others →
    valuesNesting items = valuesNesting others
  | [], _, .nil => rfl
  | _ :: _, _, .cons hv h => by
      rw [valuesNesting, valuesNesting, Value.nesting_of_alike hv,
        valuesNesting_of_alike h]

theorem membersNesting_of_alike : ∀ {members others : List (String × Value)},
    List.Forall₂ (Value.Alike Value.SameNesting) (members.map Prod.snd)
      (others.map Prod.snd) →
    membersNesting members = membersNesting others
  | [], [], _ => rfl
  | (_, _) :: _, (_, _) :: _, .cons hv h => by
      rw [membersNesting, membersNesting, Value.nesting_of_alike hv,
        membersNesting_of_alike h]

end

mutual

theorem Expr.nesting_of_alike : ∀ {e f : Expr},
    e.Alike Value.SameNesting f → e.nesting = f.nesting
  | _, _, .number _ => rfl
  | _, _, .value h => Value.nesting_of_alike h
  | _, _, .name _ => rfl
  | .paren _, _, .paren h => by
      rw [Expr.nesting, Expr.nesting, Expr.nesting_of_alike h]
  | .attr _ _, _, .attr _ h => by
      rw [Expr.nesting, Expr.nesting, Expr.nesting_of_alike h]
  | .attrAt _ _, _, .attrAt h h' => by
      rw [Expr.nesting, Expr.nesting, Expr.nesting_of_alike h, Expr.nesting_of_alike h']
  | .prop _ _, _, .prop _ h => by
      rw [Expr.nesting, Expr.nesting, Expr.nesting_of_alike h]
  | .propAt _ _, _, .propAt h h' => by
      rw [Expr.nesting, Expr.nesting, Expr.nesting_of_alike h, Expr.nesting_of_alike h']
  | .call _ _, _, .call h h' => by
      rw [Expr.nesting, Expr.nesting, Expr.nesting_of_alike h, exprsNesting_of_alike h']
  | .unary _ _, _, .unary _ h => by
      rw [Expr.nesting, Expr.nesting, Expr.nesting_of_alike h]
  | .binary _ _ _, _, .binary _ h h' => by
      rw [Expr.nesting, Expr.nesting, Expr.nesting_of_alike h, Expr.nesting_of_alike h']
  | .logical _ _ _, _, .logical _ h h' => by
      rw [Expr.nesting, Expr.nesting, Expr.nesting_of_alike h, Expr.nesting_of_alike h']
  | .conditional _ _ _, _, .conditional htest hyes hno => by
      rw [Expr.nesting, Expr.nesting, Expr.nesting_of_alike htest,
        Expr.nesting_of_alike hyes, Expr.nesting_of_alike hno]

theorem exprsNesting_of_alike : ∀ {es fs : List Expr},
    List.Forall₂ (Expr.Alike Value.SameNesting) es fs → exprsNesting es = exprsNesting fs
  | [], _, .nil => rfl
  | _ :: _, _, .cons he h => by
      rw [exprsNesting, exprsNesting, Expr.nesting_of_alike he, exprsNesting_of_alike h]

end

/-- What is the same of the contents of two options is the same of the options. -/
theorem eq_of_rel_getD {α : Type} {R : List α → List α → Prop} (measure : List α → Nat)
    (hR : ∀ {as bs}, R as bs → measure as = measure bs) {a b : Option (List α)}
    (h : Option.Rel R a b) : measure (a.getD []) = measure (b.getD []) := by
  cases h with
  | none => rfl
  | some hab => exact hR hab

theorem Entry.nesting_of_alike {e f : Entry} (h : e.Alike Value.SameNesting f) :
    e.nesting = f.nesting := by
  have hvalues : ∀ {v w : Option Value}, Option.Rel (Value.Alike Value.SameNesting) v w →
      valuesNesting v.toList = valuesNesting w.toList := by
    intro v w hv
    cases hv with
    | none => rfl
    | some hv => exact valuesNesting_of_alike (.cons hv .nil)
  cases h with
  | plain hv => exact hvalues hv
  | complex hindex hv hattributes =>
      rw [Entry.nesting, Entry.nesting, hvalues hv,
        eq_of_rel_getD exprsNesting exprsNesting_of_alike hindex,
        eq_of_rel_getD membersNesting
          (fun h => membersNesting_of_alike (Table.alike_iff_columns.1 h).2) hattributes]
  | macroDef hparams hbody =>
      rw [Entry.nesting, Entry.nesting, exprsNesting_of_alike hparams,
        Expr.nesting_of_alike hbody]

/-- The levels that are open to a source. -/
def ReadOptions.levels (options : ReadOptions) : Nat :=
  (StackBudget.reading.clamp options.maxDepth).1.toNat

namespace Resource

variable {options : ReadOptions} {text : String} {path : Option String}

/-- A source that is derived under some number of levels is read, unless it is
refused a level. -/
theorem outcome_of_derived {n : Nat} {pairs : List (String × Entry)}
    (hsize : ¬ (0 < options.maxSize ∧ options.maxSize < text.toList.length))
    (h : SourceText (EntryText .possiblyEmpty options.mode n) text.toList pairs) :
    (Resource.read options text path).outcome = .ok ⟨Table.ofRegistered pairs⟩ ∨
      ∃ failure, (Resource.read options text path).outcome = .error failure ∧
        failure.TooDeep := by
  obtain ⟨herror, rfl⟩ := Run.ofSource_iff.2 (Int.toNat_natCast n ▸ h)
  have hmode := StringMode.pairs_eq options.mode
  have hread : ∀ {pairs}, (options.run text).registered = pairs →
      (options.run text).error = none →
      (Resource.read options text path).outcome = .ok ⟨Table.ofRegistered pairs⟩ := by
    rintro _ rfl hnone
    exact (outcome_eq_ok_iff_run hsize).2 ⟨hnone, rfl⟩
  rcases Int.le_total (StackBudget.reading.clamp options.maxDepth).1 n with hle | hle
  · cases Run.agrees_ofSource hle hmode text.toList with
    | alike halike hsame =>
        exact Or.inl (hread (halike.mono Entry.eq_of_alike).eq (hsame.trans herror))
    | refused hlt hrefused hdeep =>
        exact Or.inr ⟨_, (outcome_eq_error_iff hsize).2 ⟨_, hrefused, rfl⟩,
          hdeep.failure _⟩
  · cases Run.agrees_ofSource hle hmode text.toList with
    | alike halike hsame =>
        exact Or.inl (hread (halike.mono Entry.eq_of_alike).eq.symm
          (hsame.symm.trans herror))
    | refused hlt hrefused hdeep =>
        rw [herror] at hrefused
        cases hrefused

/-- The text of a resource is read as one like the grouped resource, if this is
nested within the limit, and refused a level otherwise. -/
theorem reread_of_written (options : ReadOptions) (path : Option String)
    {leaf : Value → Value → Prop} {maxDepth : Int} {r : Resource}
    (hleaf : ∀ {e f : Entry}, e.Alike leaf f → e.nesting = f.nesting)
    (hsize : ¬ (0 < options.maxSize ∧ options.maxSize < text.toList.length))
    (hshape : Everywhere (Spellable options.mode leaf) (.resource r))
    (h : r.write maxDepth = .ok text) :
    ((∀ pair ∈ r.entries, pair.2.grouped.nesting ≤ options.levels) ∧
      ∃ r', r.grouped.Alike leaf r' ∧
        (Resource.read options text path).outcome = .ok r') ∨
    ((∃ pair ∈ r.entries, options.levels < pair.2.grouped.nesting) ∧
      ∃ failure, (Resource.read options text path).outcome = .error failure ∧
        failure.TooDeep) := by
  by_cases hall : ∀ pair ∈ r.entries, pair.2.grouped.nesting ≤ options.levels
  · left
    obtain ⟨r', halike, hunique, hsource⟩ := sourceText_of_written hshape hall h
    refine ⟨hall, r', halike, (outcome_eq_ok_iff hsize).2 ⟨r'.entries, hsource, ?_⟩⟩
    rw [Table.ofRegistered_eq_self hunique]
  · right
    obtain ⟨n, hn⟩ : ∃ n, ∀ pair ∈ r.entries, pair.2.grouped.nesting ≤ n :=
      ⟨(r.entries.map fun pair => pair.2.grouped.nesting).sum,
        fun pair hpair => List.le_sum_of_mem (List.mem_map_of_mem hpair)⟩
    obtain ⟨r', halike, hunique, hsource⟩ := sourceText_of_written hshape hn h
    rcases outcome_of_derived hsize hsource with hok | hdeep
    · -- what is read is nested within the limit, and so would the grouped resource be
      exfalso
      apply hall
      rw [Table.ofRegistered_eq_self hunique] at hok
      have hnesting : ∀ pair ∈ r.grouped.entries, pair.2.nesting ≤ options.levels :=
        halike.forall_left (P := fun e => e.nesting ≤ options.levels)
          (fun hef hle => Nat.le_trans (Nat.le_of_eq (hleaf hef)) hle)
          fun pair hpair => ((entries_within hok).2 pair hpair).2
      intro pair hpair
      exact hnesting (pair.1, pair.2.grouped) (List.mem_map_of_mem hpair)
    · simp only [not_forall, Nat.not_le] at hall
      obtain ⟨pair, hpair, hlt⟩ := hall
      exact ⟨⟨pair, hpair, hlt⟩, hdeep⟩

end Resource

/-- No operand on the right of the part has to be put in parentheses. -/
def Node.RightFits : Node → Prop
  | .expr (.binary _ _ right) => right.level ≤ .binary
  | .expr (.logical _ _ right) => right.level ≤ .logical
  | _ => True

mutual

/-- Where no operand on the right is put in parentheses, each pair of parentheses that
is added is a level of its own. -/
theorem Expr.nesting_grouped_le_levels : ∀ e : Expr, Everywhere RightFits (.expr e) →
    e.grouped.nesting ≤ e.levels
  | .number _, _ | .name _, _ | .value _, _ => Nat.le_refl _
  | .paren e, h =>
      Nat.succ_le_succ (Expr.nesting_grouped_le_levels e (everywhere_paren.1 h).2)
  | .attr base _, h =>
      Expr.nesting_fitted_le .member
        (Expr.nesting_grouped_le_levels base (everywhere_attr.1 h).2)
  | .prop base _, h =>
      Expr.nesting_fitted_le .member
        (Expr.nesting_grouped_le_levels base (everywhere_prop.1 h).2)
  | .attrAt base index, h => by
      obtain ⟨-, hbase, hindex⟩ := everywhere_attrAt.1 h
      have hbase :=
        Expr.nesting_fitted_le .member (Expr.nesting_grouped_le_levels base hbase)
      have hindex := Expr.nesting_grouped_le_levels index hindex
      rw [Expr.levels, Expr.grouped, Expr.nesting]
      omega
  | .propAt base index, h => by
      obtain ⟨-, hbase, hindex⟩ := everywhere_propAt.1 h
      have hbase :=
        Expr.nesting_fitted_le .member (Expr.nesting_grouped_le_levels base hbase)
      have hindex := Expr.nesting_grouped_le_levels index hindex
      rw [Expr.levels, Expr.grouped, Expr.nesting]
      omega
  | .call base arguments, h => by
      obtain ⟨-, hbase, harguments⟩ := everywhere_call.1 h
      have hbase :=
        Expr.nesting_fitted_le .member (Expr.nesting_grouped_le_levels base hbase)
      have harguments := exprsNesting_grouped_le_levels arguments harguments
      rw [Expr.levels, Expr.grouped, Expr.nesting]
      omega
  | .unary _ operand, h =>
      Expr.nesting_fitted_le .member
        (Expr.nesting_grouped_le_levels operand (everywhere_unary.1 h).2)
  | .binary _ left right, h => by
      obtain ⟨hlevel, hleft, hright⟩ := everywhere_binary.1 h
      have hleft :=
        Expr.nesting_fitted_le .unary (Expr.nesting_grouped_le_levels left hleft)
      have hright :=
        Expr.nesting_fitted_le .binary (Expr.nesting_grouped_le_levels right hright)
      rw [Expr.fittedLevels_of_le hlevel] at hright
      rw [Expr.levels, Expr.grouped, Expr.nesting]
      omega
  | .logical _ left right, h => by
      obtain ⟨hlevel, hleft, hright⟩ := everywhere_logical.1 h
      have hleft :=
        Expr.nesting_fitted_le .binary (Expr.nesting_grouped_le_levels left hleft)
      have hright :=
        Expr.nesting_fitted_le .logical (Expr.nesting_grouped_le_levels right hright)
      rw [Expr.fittedLevels_of_le hlevel] at hright
      rw [Expr.levels, Expr.grouped, Expr.nesting]
      omega
  | .conditional test consequent alternate, h => by
      obtain ⟨-, htest, hyes, hno⟩ := everywhere_conditional.1 h
      have htest :=
        Expr.nesting_fitted_le .logical (Expr.nesting_grouped_le_levels test htest)
      have hyes := Expr.nesting_grouped_le_levels consequent hyes
      have hno := Expr.nesting_grouped_le_levels alternate hno
      rw [Expr.levels, Expr.grouped, Expr.nesting]
      omega

theorem exprsNesting_grouped_le_levels : ∀ es : List Expr,
    (∀ e ∈ es, Everywhere RightFits (.expr e)) →
    exprsNesting (groupedExprs es) ≤ exprsLevels es
  | [], _ => Nat.le_refl 0
  | e :: es, h => by
      obtain ⟨he, hes⟩ := List.forall_mem_cons.1 h
      have hfirst := Expr.nesting_grouped_le_levels e he
      have hrest := exprsNesting_grouped_le_levels es hes
      rw [exprsLevels, groupedExprs, exprsNesting]
      omega

end

theorem Entry.nesting_grouped_le_levels {e : Entry}
    (h : Everywhere RightFits (.entry e)) :
    e.grouped.nesting ≤ e.levels := by
  cases e with
  | plain v => exact Nat.le_refl _
  | complex index v attributes =>
      have hindex := exprsNesting_grouped_le_levels _ (everywhere_complex.1 h).2.1
      rw [levels, nesting_grouped_complex]
      omega
  | macroDef params body =>
      obtain ⟨-, hparams, hbody⟩ := everywhere_macroDef.1 h
      have hparams := exprsNesting_grouped_le_levels params hparams
      have hbody := body.nesting_grouped_le_levels hbody
      rw [levels, grouped, nesting]
      omega

/-- Where no operand on the right is put in parentheses, writing counts the levels of
the grouped entry. -/
theorem Writer.needs_groupedEntry {limit : Int} {key : String} {e : Entry}
    (h : Everywhere RightFits (.entry e)) :
    Needs limit e.grouped.nesting (entryBody key e) :=
  (screens_entryBody key e).needs.weaken (Entry.nesting_grouped_le_levels h)

/-- Every string is read as one in which nothing is nested. -/
theorem Node.Keyed.spellable {mode : StringMode} {node : Node} (h : node.Keyed) :
    node.Spellable mode Value.SameNesting where
  keyed := h
  string content _ limit depth text htext := ⟨_, rfl, Writer.spells_string htext⟩
  parts parts _ limit depth text htext := by
    refine ⟨_, ?_, (Writer.spells_parts htext).2⟩
    rw [Value.SameNesting, Value.ofPieces]
    split <;> rfl

/-- The segments of a string alternate as those that are read. -/
def Node.Segmented : Node → Prop
  | .value (.parts parts) => Alternating parts
  | _ => True

theorem Node.Keyed.spellable_of_segmented {node : Node} (hkeyed : node.Keyed)
    (hsegmented : node.Segmented) : node.Spellable .split Eq where
  keyed := hkeyed
  string content _ limit depth text htext := ⟨_, rfl, Writer.spells_string htext⟩
  parts parts hnode := by
    subst hnode
    exact Alternating.echoed hsegmented

namespace Resource

variable {maxDepth : Int} {r : Resource} {text : String}

/-- Whatever is written under a limit is refused a level under the same limit
exactly if the grouped resource is nested deeper; and that takes an operand on the
right that is put in parentheses. -/
theorem refused_iff_of_written (hdepth : maxDepth ≤ 105)
    (hkeyed : Everywhere Keyed (.resource r)) (h : r.write maxDepth = .ok text)
    (path : Option String) :
    ((∃ failure, (Resource.read { maxSize := 0, maxDepth, mode := .split } text
        path).outcome = .error failure ∧ failure.TooDeep) ↔
      ∃ pair ∈ r.entries, maxDepth.toNat < pair.2.grouped.nesting) ∧
    (Everywhere RightFits (.resource r) →
      ∃ r', (Resource.read { maxSize := 0, maxDepth, mode := .split } text path).outcome =
        .ok r') := by
  obtain ⟨hreading, hwriting⟩ := StackBudget.clamp_of_le hdepth
  have hreread := reread_of_written { maxSize := 0, maxDepth, mode := .split } path
    Entry.nesting_of_alike (by simp) (hkeyed.mono fun _ => Keyed.spellable) h
  simp only [ReadOptions.levels, hreading] at hreread
  refine ⟨⟨?_, ?_⟩, fun hfits => ?_⟩
  · rintro ⟨failure, hfailure, hdeep⟩
    rcases hreread with ⟨-, r', -, hok⟩ | ⟨hlt, -⟩
    · rw [hok] at hfailure
      cases hfailure
    · exact hlt
  · rintro ⟨pair, hpair, hlt⟩
    rcases hreread with ⟨hall, -⟩ | ⟨-, hdeep⟩
    · exact absurd (hall pair hpair) (Nat.not_le.2 hlt)
    · exact hdeep
  · rcases hreread with ⟨-, r', -, hok⟩ | ⟨⟨pair, hpair, hlt⟩, -⟩
    · exact ⟨r', hok⟩
    · have hwritten : (r.writeWith (guardAt maxDepth 0)).1 = .ok text := by
        rw [← hwriting]
        exact h
      have hle := le_of_written hwritten hpair
        (Writer.needs_groupedEntry ((everywhere_resource.1 hfits).2 pair hpair))
      exact absurd hle (Nat.not_le.2 hlt)

/-- A macro whose body has a right operand that binds less tightly than its place
allows. -/
def looseRight : Resource :=
  ⟨[("m", .macroDef [] (.binary .add (.number 1)
    (.logical .and (.number 1) (.number 1))))]⟩

/-- Three levels are enough to write the macro and not enough to read it. -/
theorem refused_looseRight :
    ∃ text, looseRight.write 3 = .ok text ∧
      ∃ failure, (Resource.read { maxSize := 0, maxDepth := 3, mode := .split } text
        none).outcome = .error failure ∧ failure.TooDeep := by
  obtain ⟨text, htext⟩ := exists_ok_of_isOk (x := looseRight.write 3) (by decide +kernel)
  have hkeyed : Everywhere Keyed (.resource looseRight) := by
    simp [looseRight, Keyed, Table.Unique, Table.names]
  refine ⟨text, htext, (refused_iff_of_written (by decide) hkeyed htext none).1.2 ?_⟩
  exact ⟨_, List.mem_singleton_self _, by decide⟩

/-- Whatever is written is read as the grouped resource, unless a level is refused,
if its strings are those that are read.  Grouping adds nothing but parentheses to the
expressions of an entry. -/
theorem read_grouped_of_written {options : ReadOptions} (hmode : options.mode = .split)
    (hsize : ¬ (0 < options.maxSize ∧ options.maxSize < text.toList.length))
    (hkeyed : Everywhere Keyed (.resource r))
    (hsegmented : Everywhere Segmented (.resource r)) (h : r.write maxDepth = .ok text)
    (path : Option String)
    (hdeep : ∀ failure, (Resource.read options text path).outcome = .error failure →
      ¬ failure.TooDeep) :
    (Resource.read options text path).outcome = .ok r.grouped ∧
      r.grouped.entries.map (fun pair => (pair.1, bareExprs pair.2.exprs)) =
        r.entries.map fun pair => (pair.1, bareExprs pair.2.exprs) := by
  have hspellable : Everywhere (Spellable options.mode Eq) (.resource r) := by
    rw [hmode]
    exact fun part hpart =>
      (hkeyed part hpart).spellable_of_segmented (hsegmented part hpart)
  constructor
  · rcases reread_of_written options path (fun hef => by rw [Entry.eq_of_alike hef])
      hsize hspellable h with ⟨-, r', halike, hok⟩ | ⟨-, failure, hfailure, htooDeep⟩
    · rw [hok, eq_of_alike halike]
    · exact absurd htooDeep (hdeep failure hfailure)
  · rw [grouped, List.map_map]
    apply List.map_congr_left
    intro pair _
    exact Prod.ext rfl (by simp [Entry.exprs_grouped, bareExprs_grouped])

/-- Operands that bind less tightly than their places allow, on both sides of an
operator, as the base of a member chain and as the test of a conditional. -/
def looseMacro : Resource :=
  ⟨[("m", .macroDef [.name "n"] (.conditional
      (.conditional (.name "n") (.number 1) (.number 2))
      (.prop (.unary .minus (.name "n")) "a")
      (.binary .add (.binary .add (.number 1) (.number 2))
        (.logical .and (.number 1) (.number 1))))),
    ("k", .complex none (some (.parts [.text "x", .placeholder "\x7b\x7by\x7d\x7d"]))
      (some []))]⟩

theorem read_grouped_looseMacro :
    ∃ text, looseMacro.write 100 = .ok text ∧
      (Resource.read { maxSize := 0, mode := .split } text none).outcome =
        .ok looseMacro.grouped := by
  obtain ⟨text, htext, hok⟩ := exists_ok_of_any (x := looseMacro.write 100)
    (p := fun text => (Resource.read { maxSize := 0, mode := .split } text
      none).outcome.isOk) (by decide +kernel)
  obtain ⟨r, hr⟩ := exists_ok_of_isOk hok
  have hkeyed : Everywhere Keyed (.resource looseMacro) := by
    simp [looseMacro, Keyed, Table.Unique, Table.names]
  have hsegmented : Everywhere Segmented (.resource looseMacro) := by
    have halternating : Alternating [.text "x", .placeholder "\x7b\x7by\x7d\x7d"] := by
      refine ⟨⟨_, List.mem_cons_of_mem _ List.mem_cons_self⟩, by simp, ?_⟩
      simp [separated_cons, separated_nil]
    simp [looseMacro, Segmented, halternating]
  refine ⟨text, htext,
    (read_grouped_of_written rfl (by simp) hkeyed hsegmented htext none ?_).1⟩
  intro failure hfailure
  rw [hr] at hfailure
  cases hfailure

end Resource

end L20n
