import L20n.Proofs.Acceptance
import L20n.Proofs.Needs
import L20n.Proofs.Spelling

/-!
Reading what was written.  The text of a resource derives the grouped resource, up
to its strings.  A resource that has the shape of those that are read is grouped
already and comes back from its text, entries and names in the same order, whenever
it can be written at all: writing and reading then count the same levels, so the
same depth limit is enough for both.
-/

namespace L20n

open Text Node Grammar

/-- Nothing, or something after a space. -/
def Spaced (text : List Char) : Prop :=
  text = [] ∨ ∃ tail, text = ' ' :: tail

theorem Spaced.append {text more : List Char} (h : Spaced text) (hmore : Spaced more) :
    Spaced (text ++ more) := by
  rcases h with rfl | ⟨tail, rfl⟩
  · exact hmore
  · exact Or.inr ⟨tail ++ more, rfl⟩

theorem Spaced.stops {text rest : List Char} (h : Spaced text) (hrest : Stops rest) :
    Stops (text ++ rest) := by
  rcases h with rfl | ⟨tail, rfl⟩
  · exact hrest
  · exact stops_cons (by decide)

namespace Writer

variable {limit depth : Int} {mode : StringMode} {leaf : Value → Value → Prop}

theorem spells_spacedValue {v : Option Value} {n : Nat} {text : List Char}
    (hshape : ∀ w, v = some w → Everywhere (Spellable mode leaf) (.value w))
    (hn : valuesNesting v.toList ≤ n)
    (h : outcome limit depth (spacedValue v) = .ok text) :
    ∃ w, Option.Rel (Value.Alike leaf) v w ∧ Spaced text ∧
      Spells (OptionalValueText mode n) text w := by
  cases v with
  | none =>
      cases h
      exact ⟨none, .none, Or.inl rfl, fun _ _ => .absent⟩
  | some v =>
      obtain ⟨written, hwritten, h⟩ := (outcome_bind_eq_ok (steady_value v)).1 h
      cases h
      have hv : v.nesting ≤ n := valuesNesting_le_iff.1 hn v (List.mem_singleton_self v)
      obtain ⟨w, halike, hspells⟩ := spells_value v (hshape v rfl) hv hwritten
      exact ⟨some w, .some halike, Or.inr ⟨written, rfl⟩,
        fun rest hrest => .present (valueText_space (hspells rest hrest))⟩

theorem spells_attributes {n : Nat} {pairs : List (String × Value)}
    {texts : List (List Char)}
    (h : SpellsEach (PairText mode n) pairs texts) :
    Spaced (texts.flatMap (' ' :: ·)) ∧
      Spells (AttributesText mode n) (texts.flatMap (' ' :: ·)) pairs := by
  induction h with
  | nil => exact ⟨Or.inl rfl, fun _ _ => .nil⟩
  | cons hfirst _ ih =>
      refine ⟨Or.inr ⟨_, rfl⟩, ?_⟩
      intro rest hrest
      rw [List.flatMap_cons, List.append_assoc]
      exact .cons (pairText_space (hfirst _ (ih.1.stops hrest))) (ih.2 rest hrest)

/-- What is written after the head of an entity is read as its value and its
attributes, whatever its head. -/
theorem entityTail_eq_ok {v : Option Value} {pairs : List (String × Value)} {n : Nat}
    (front : List Char) {body : List Char}
    (hvalue : ∀ w, v = some w → Everywhere (Spellable mode leaf) (.value w))
    (hpairs : ∀ pair ∈ pairs, Everywhere (Spellable mode leaf) (.value pair.2))
    (hn : valuesNesting v.toList ≤ n) (hn' : membersNesting pairs ≤ n)
    (h : outcome limit depth (do
      let item ← spacedValue v
      let attributes ← members .attribute pairs
      return front ++ item ++ attributes.flatMap (' ' :: ·)) = .ok body) :
    ∃ w others tail, Option.Rel (Value.Alike leaf) v w ∧
      Table.Alike (Value.Alike leaf) pairs others ∧ body = front ++ tail ∧ Spaced tail ∧
      ∀ {text key index rest},
        HeadText .possiblyEmpty mode n text key index (tail ++ '>' :: rest) →
        EntryText .possiblyEmpty mode n text (key, entityOf index w others) rest := by
  obtain ⟨item, hitem, h⟩ := (outcome_bind_eq_ok (steady_spacedValue v)).1 h
  obtain ⟨texts, htexts, h⟩ := (outcome_bind_eq_ok (steady_members .attribute pairs)).1 h
  cases h
  obtain ⟨w, halike, hspaced, hvalue⟩ := spells_spacedValue hvalue hn hitem
  obtain ⟨others, halikes, heach⟩ := spells_members .attribute pairs hpairs hn' htexts
  obtain ⟨hspaces, hattributes⟩ := spells_attributes heach
  refine ⟨w, others, _, halike, halikes, List.append_assoc _ _ _,
    hspaced.append hspaces, ?_⟩
  intro text key index rest hhead
  have hend : Stops ('>' :: rest) := stops_cons (by decide)
  rw [List.append_assoc] at hhead
  exact .entity hhead (hvalue _ (hspaces.stops hend)) (hattributes _ hend)
    (lexeme_cons (by decide))

theorem entityOf_cons (index : Option (List Expr)) (v : Option Value)
    (pair : String × Value) (pairs : List (String × Value)) :
    entityOf index v (pair :: pairs) =
      .complex index v (some (Table.ofPairs (pair :: pairs))) := by
  cases index <;> rfl

/-- A grouped entity is the one that is read from its parts. -/
theorem alike_entityOf {index : Option (List Expr)} {v : Option Value}
    {attributes : Option (List (String × Value))} {index' : Option (List Expr)}
    {w : Option Value} {others : List (String × Value)}
    (hindex : Option.Rel (List.Forall₂ (Expr.Alike leaf)) (index.map groupedExprs) index')
    (hv : Option.Rel (Value.Alike leaf) v w)
    (hothers : Table.Alike (Value.Alike leaf) (attributes.getD []) others)
    (hunique : Table.Unique (attributes.getD [])) :
    (Entry.complex index v attributes).grouped.Alike leaf (entityOf index' w others) := by
  have hself := Table.ofPairs_eq_self (hothers.unique hunique)
  match index, attributes with
  | none, none | none, some [] =>
      cases hindex
      cases hothers
      exact .plain hv
  | some es, none | some es, some [] =>
      cases hindex with
      | some hes =>
          cases hothers
          exact .complex (.some hes) hv .none
  | none, some (pair :: pairs) | some es, some (pair :: pairs) =>
      cases others with
      | nil => cases hothers
      | cons other others =>
          rw [entityOf_cons, hself]
          exact .complex hindex hv (.some hothers)

theorem headText_plain {n : Nat} {key : String} {body rest : List Char}
    (hkey : isName key.toList = true) (hbody : Spaced body) :
    HeadText .possiblyEmpty mode n (key.toList ++ (body ++ '>' :: rest)) key none
      (body ++ '>' :: rest) := by
  refine .plain (nameText_of_isName hkey (hbody.stops (stops_cons (by decide)))) ?_
  intro c hc
  rcases hbody with rfl | ⟨tail, rfl⟩
  · obtain rfl : '>' = c := by simpa using hc
    decide
  · obtain rfl : ' ' = c := by simpa using hc
    decide

theorem headText_index {n : Nat} {key : String} {es : List Expr}
    {texts : List (List Char)}
    (hkey : isName key.toList = true) (hes : es ≠ []) (hn : 0 < n)
    (h : SpellsEach (ConditionalText .possiblyEmpty mode (n - 1)) es texts)
    (rest : List Char) :
    HeadText .possiblyEmpty mode n
      (key.toList ++ ('[' :: commas texts ++ [']'] ++ rest)) key (some es) rest := by
  have hlist := spells_expressions hes hn h (']' :: rest) (stops_cons (by decide))
  rw [List.append_assoc]
  exact .index (nameText_of_isName hkey (stops_cons (by decide))) hlist
    (lexeme_cons (by decide))

/-- What is written for an entry is derived after its `<` and up to its `>` as an
entry like the grouped one. -/
theorem entryText_of_entryBody {key : String} {e : Entry} {n : Nat} {body : List Char}
    (hkey : isName key.toList = true)
    (hshape : Everywhere (Spellable mode leaf) (.entry e)) (hn : e.grouped.nesting ≤ n)
    (h : outcome limit depth (entryBody key e) = .ok body) :
    ∃ f, e.grouped.Alike leaf f ∧ ∀ rest, EntryText .possiblyEmpty mode n
      (key.toList ++ (body ++ '>' :: rest)) (key, f) rest := by
  cases e with
  | plain v =>
      rw [everywhere_plain] at hshape
      obtain ⟨w, halike, hspaced, hvalue⟩ := spells_spacedValue hshape.2 hn h
      exact ⟨.plain w, .plain halike, fun rest => .entity (headText_plain hkey hspaced)
        (hvalue _ (stops_cons (by decide))) .nil (lexeme_cons (by decide))⟩
  | complex index v attributes =>
      obtain ⟨hunique, hes, hvalue, hmembers⟩ := everywhere_complex.1 hshape
      rw [Entry.nesting_grouped_complex, Nat.max_le, Nat.max_le] at hn
      obtain ⟨hindex, hv, hattributes⟩ := hn
      match index with
      | none =>
          obtain ⟨w, others, tail, halike, halikes, rfl, hspaced, htail⟩ :=
            entityTail_eq_ok [] hvalue hmembers hv hattributes h
          exact ⟨_, alike_entityOf .none halike halikes hunique.keyed,
            fun rest => htail (headText_plain hkey hspaced)⟩
      | some [] => cases h
      | some (e :: es) =>
          obtain ⟨texts, htexts, h⟩ := (outcome_bind_eq_ok (steady_exprs _)).1 h
          obtain ⟨w, others, tail, halike, halikes, rfl, -, htail⟩ :=
            entityTail_eq_ok _ hvalue hmembers hv hattributes h
          obtain ⟨fs, halikes', hpos, heach⟩ :=
            spells_exprs (echoed_exprs (e :: es) hes) hindex htexts
          have hne : fs ≠ [] := by
            rintro rfl
            cases halikes'
          refine ⟨_, alike_entityOf (.some halikes') halike halikes hunique.keyed,
            fun rest => htail ?_⟩
          rw [List.append_assoc]
          exact headText_index hkey hne (hpos hne) heach _
  | macroDef params body =>
      obtain ⟨-, hparams, hbody⟩ := everywhere_macroDef.1 hshape
      rw [Entry.grouped, Entry.nesting, Nat.max_le] at hn
      obtain ⟨m, rfl⟩ : ∃ m, n = m + 1 := ⟨n - 1, by omega⟩
      obtain ⟨texts, htexts, h⟩ := (outcome_bind_eq_ok (steady_exprs params)).1 h
      obtain ⟨written, hwritten, h⟩ := (outcome_bind_eq_ok (steady_expr body).nested).1 h
      cases h
      obtain ⟨fs, halikes, hpos, heach⟩ :=
        spells_exprs (echoed_exprs params hparams) hn.1 htexts
      obtain ⟨f, halike, hspells⟩ := spells_nested (echoed_expr body hbody)
        (Nat.le_of_succ_le_succ hn.2) hwritten
      have hlist := spells_arguments hpos heach
      refine ⟨.macroDef fs f, .macroDef halikes halike, fun rest => ?_⟩
      refine .macroDef (a := commas texts ++ [')'] ++ (' ' :: '\x7b' :: ' ' ::
          (written ++ ' ' :: '\x7d' :: '>' :: rest))) ?_
        (hlist _ (stops_cons (by decide))) (lexeme_space (lexeme_cons (by decide)))
        (conditionalText_space (hspells _ (stops_cons (by decide))))
        (lexeme_space (lexeme_cons (by decide))) (lexeme_cons (by decide))
      simpa using nameText_of_isName hkey (stops_cons (by decide))

/-- Written entries are derived in their order, after blanks. -/
theorem sourceText_of_entries (blanks : List Char) {pairs : List (String × Entry)}
    {n : Nat} {text : List Char}
    (hblanks : ∀ c ∈ blanks, isBlank c = true)
    (hshape : ∀ pair ∈ pairs, Everywhere (Spellable mode leaf) (.entry pair.2))
    (hn : ∀ pair ∈ pairs, pair.2.grouped.nesting ≤ n)
    (h : outcome limit depth (entries pairs) = .ok text) :
    ∃ others, Table.Alike (Entry.Alike leaf)
        (pairs.map fun (key, e) => (key, e.grouped)) others ∧
      SourceText (EntryText .possiblyEmpty mode n) (blanks ++ text) others := by
  induction pairs generalizing text blanks with
  | nil =>
      cases h
      have hnil : trimStart (blanks ++ []) = [] := by
        rw [trimStart, List.dropWhile_append_of_pos hblanks]
        rfl
      refine ⟨[], .nil, _, .done, fun after hopen => ?_, fun after hopen => ?_⟩
      · rw [Lexeme, hnil] at hopen
        cases hopen
      · rw [Lexeme, hnil] at hopen
        cases hopen
  | cons pair pairs ih =>
      obtain ⟨key, e⟩ := pair
      obtain ⟨first, hfirst, h⟩ := (outcome_bind_eq_ok (steady_entry key e)).1 h
      obtain ⟨more, hmore, h⟩ := (outcome_bind_eq_ok (steady_entries pairs)).1 h
      cases h
      obtain ⟨keyText, hkey, hfirst⟩ :=
        (outcome_bind_eq_ok (steady_name .entity key)).1 hfirst
      obtain ⟨body, hbody, hfirst⟩ :=
        (outcome_bind_eq_ok (steady_entryBody key e)).1 hfirst
      cases hfirst
      obtain ⟨hname, rfl⟩ := name_eq_ok hkey
      obtain ⟨hfirst, hlater⟩ := List.forall_mem_cons.1 hshape
      obtain ⟨hnesting, hnestings⟩ := List.forall_mem_cons.1 hn
      obtain ⟨others, halikes, tail, hitems, htail⟩ :=
        ih ['\n'] (List.forall_mem_singleton.2 rfl) hlater hnestings hmore
      obtain ⟨f, halike, hentry⟩ := entryText_of_entryBody hname hfirst hnesting hbody
      refine ⟨(key, f) :: others, .cons ⟨rfl, halike⟩ halikes, tail,
        .entry ?_ (hentry ('\n' :: more)) hitems, htail⟩
      rw [Lexeme, trimStart, List.dropWhile_append_of_pos hblanks]
      simp [show isBlank '<' = false by decide]

end Writer

/-- The text of a resource derives one like the grouped resource. -/
theorem Resource.sourceText_of_written {maxDepth : Int} {mode : StringMode}
    {leaf : Value → Value → Prop} {r : Resource} {n : Nat} {text : String}
    (hshape : Everywhere (Spellable mode leaf) (.resource r))
    (hn : ∀ pair ∈ r.entries, pair.2.grouped.nesting ≤ n)
    (h : r.write maxDepth = .ok text) :
    ∃ r' : Resource, r.grouped.Alike leaf r' ∧ Table.Unique r'.entries ∧
      SourceText (EntryText .possiblyEmpty mode n) text.toList r'.entries := by
  obtain ⟨hunique, hentries⟩ := everywhere_resource.1 hshape
  rw [Resource.write_eq] at h
  cases hwritten : Writer.outcome (StackBudget.walking.clamp maxDepth).1 0
      (Writer.entries r.entries) with
  | error e =>
      rw [hwritten] at h
      cases h
  | ok written =>
      rw [hwritten] at h
      cases h
      obtain ⟨others, halikes, hsource⟩ :=
        Writer.sourceText_of_entries [] (by simp) hentries hn hwritten
      refine ⟨⟨others⟩, halikes, halikes.unique ?_, ?_⟩
      · rw [Table.Unique, Table.names, List.map_map]
        exact hunique.keyed
      · rw [String.toList_ofList]
        exact hsource

theorem Node.Formed.keyed {node : Node} (h : node.Formed) : node.Keyed := by
  match node with
  | .resource r => exact h
  | .entry (.complex index v none) => exact List.nodup_nil
  | .entry (.complex index v (some table)) => exact (h.2 table rfl).2
  | .value (.object members) => exact h
  | .entry (.plain _) | .entry (.macroDef _ _) => trivial
  | .value (.string _) | .value (.parts _) | .value (.array _) => trivial
  | .segment _ | .expr _ => trivial

/-- A string with segments as they are read is written as it is read. -/
theorem Alternating.echoed {parts : List Segment} (h : Alternating parts) :
    (Value.parts parts).Echoed .split Eq := by
  intro limit depth text htext
  obtain ⟨hclear, hspells⟩ := Writer.spells_parts htext
  exact ⟨_, (ofPieces_pieces h hclear).symm, hspells⟩

theorem Node.Readable.spellable {mode : StringMode} {node : Node}
    (h : node.Readable mode) : node.Spellable mode Eq where
  keyed := h.1.keyed
  string content _ limit depth text htext := ⟨_, rfl, Writer.spells_string htext⟩
  parts parts hnode := by
    subst hnode
    obtain ⟨hformed, hmode⟩ := h
    obtain rfl : mode = .split := hmode.resolve_right id
    exact Alternating.echoed hformed

theorem Node.Formed.fits {node : Node} (h : node.Formed) : node.Fits := by
  cases node with
  | expr e => exact h.1
  | resource | entry | value | segment => trivial

theorem Entry.grouped_eq_self {e : Entry} (h : Everywhere Formed (.entry e)) :
    e.grouped = e := by
  have hformed := h _ (.self _)
  have hfits : Everywhere Fits (.entry e) := h.mono fun _ => Formed.fits
  match e with
  | .plain v => rfl
  | .complex none v none => exact absurd hformed.1 (by simp)
  | .complex _ v (some []) => exact absurd rfl (hformed.2 [] rfl).1
  | .complex (some es) v none =>
      rw [Entry.grouped, groupedExprs_eq_self es (everywhere_complex.1 hfits).2.1]
  | .complex none v (some (pair :: pairs)) => rfl
  | .complex (some es) v (some (pair :: pairs)) =>
      rw [Entry.grouped, Option.map_some,
        groupedExprs_eq_self es (everywhere_complex.1 hfits).2.1]
  | .macroDef params body =>
      obtain ⟨-, hparams, hbody⟩ := everywhere_macroDef.1 hfits
      rw [Entry.grouped, groupedExprs_eq_self params hparams, body.grouped_eq_self hbody]

theorem Resource.grouped_eq_self {r : Resource} (h : Everywhere Formed (.resource r)) :
    r.grouped = r := by
  have hentries := (everywhere_resource.1 h).2
  have hmap : r.entries.map (fun (key, e) => (key, e.grouped)) = r.entries := by
    conv_rhs => rw [← List.map_id r.entries]
    apply List.map_congr_left
    intro pair hpair
    exact Prod.ext rfl (Entry.grouped_eq_self (hentries pair hpair))
  exact congrArg Resource.mk hmap

/-- A resource whose parts can be read in a mode comes back from its text. -/
theorem Resource.outcome_of_written {maxDepth : Int} {mode : StringMode} {r : Resource}
    {text : String} (hdepth : maxDepth ≤ 105)
    (hshape : Everywhere (Readable mode) (.resource r))
    (h : r.write maxDepth = .ok text) (path : Option String) :
    (Resource.read { maxSize := 0, maxDepth, mode } text path).outcome = .ok r := by
  obtain ⟨hreading, hwriting⟩ := StackBudget.clamp_of_le hdepth
  have hformed : Everywhere Formed (.resource r) := hshape.mono fun _ hpart => hpart.1
  have hwritten : (r.writeWith (guardAt maxDepth 0)).1 = .ok text := by
    rw [← hwriting]
    exact h
  have hn : ∀ pair ∈ r.entries, pair.2.grouped.nesting ≤ maxDepth.toNat := by
    intro pair hpair
    rw [Entry.grouped_eq_self ((everywhere_resource.1 hformed).2 pair hpair)]
    exact nesting_le_of_written hwritten hpair
  obtain ⟨r', halike, hunique, hsource⟩ :=
    sourceText_of_written (hshape.mono fun _ => Readable.spellable) hn h
  rw [grouped_eq_self hformed] at halike
  obtain rfl := eq_of_alike halike
  rw [Resource.outcome_eq_ok_iff (by simp)]
  refine ⟨r.entries, ?_, ?_⟩
  · simp only [hreading]
    exact hsource
  · rw [Table.ofRegistered_eq_self hunique]

/-- Whatever is written for a resource of the shape that is read is read as this
resource again, in the same order and under the same depth limit.  Strings with
placeholders have to be read in segments for it, other strings need not. -/
theorem Resource.read_of_written {maxDepth : Int} {r : Resource} {text : String}
    (hdepth : maxDepth ≤ 105) (hshape : Everywhere Formed (.resource r))
    (h : r.write maxDepth = .ok text) (path : Option String) :
    (Resource.read { maxSize := 0, maxDepth, mode := .split } text path).outcome =
        .ok r ∧
      (Everywhere Unsplit (.resource r) →
        (Resource.read { maxSize := 0, maxDepth, mode := .whole } text path).outcome =
          .ok r) := by
  constructor
  · exact outcome_of_written hdepth (hshape.mono fun _ hpart => ⟨hpart, Or.inl rfl⟩) h path
  · intro hunsplit
    apply outcome_of_written hdepth ?_ h path
    intro part hpart
    exact ⟨hshape part hpart, Or.inr (hunsplit part hpart)⟩

def indexedEntity : Resource :=
  ⟨[("k", .complex (some [.prop (.name "n") "a"])
    (some (.parts [.text "x\n", .placeholder "\x7b\x7by\x7d\x7d"]))
    (some [("t", .array [.string "z"])]))]⟩

/-- A macro that is two levels deep. -/
def negatingMacro : Resource :=
  ⟨[("f", .macroDef [.name "n"]
    (.binary .add (.unary .minus (.name "n")) (.value (.string "one"))))]⟩

theorem Resource.read_of_written_entity_macro :
    (∃ text, indexedEntity.write 100 = .ok text ∧
      (Resource.read { maxSize := 0, maxDepth := 100, mode := .split } text
        none).outcome = .ok indexedEntity) ∧
    ∃ text, negatingMacro.write 2 = .ok text ∧
      (Resource.read { maxSize := 0, maxDepth := 2, mode := .whole } text
        none).outcome = .ok negatingMacro := by
  constructor
  · obtain ⟨text, htext⟩ := exists_ok_of_isOk (x := indexedEntity.write 100)
      (by decide +kernel)
    have halternating :
        Alternating [.text "x\n", .placeholder "\x7b\x7by\x7d\x7d"] := by
      refine ⟨⟨_, List.mem_cons_of_mem _ List.mem_cons_self⟩, by simp, ?_⟩
      simp [separated_cons, separated_nil]
    refine ⟨text, htext, (read_of_written (by decide) ?_ htext none).1⟩
    simp [indexedEntity, Formed, Expr.Leveled, Expr.Bounded, Expr.level, Table.Unique,
      Table.names, halternating]
  · obtain ⟨text, htext⟩ := exists_ok_of_isOk (x := negatingMacro.write 2)
      (by decide +kernel)
    have hlevels : Level.unary ≤ .unary ∧ Level.member ≤ .binary := by decide
    refine ⟨text, htext, (read_of_written (by decide) ?_ htext none).2 ?_⟩
    · simp [negatingMacro, Formed, Expr.Leveled, Expr.Bounded, Expr.level, Table.Unique,
        Table.names, hlevels]
    · simp [negatingMacro, Unsplit]

end L20n
