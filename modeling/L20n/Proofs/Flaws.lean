import L20n.Proofs.Calls
import L20n.Proofs.Escapes
import L20n.Proofs.Levels

/-!
What keeps a tree from being written.  A flaw of a part is a reason to refuse any
tree that has this part in it, whatever stands around it: a name that is no name,
an index without expressions, a number that is negative or too long, a placeholder
of another form, a backslash that would be read as an escape.  Writing a tree
screens all its parts.  If the levels it enters are open, it ends with a text
exactly if no part has a flaw, and else with the error of a flaw.  All this is so on a
stack that has room for the tree.
-/

namespace L20n

open Text Node

def Misnamed (role : NameRole) (key : String) (e : WriteError) : Prop :=
  isName key.toList = false ∧ e = .invalidName role key

/-- The error is that the number is negative, or that it has too many digits, be it
for a text or for a message. -/
def Misnumbered (k : Int) (e : WriteError) : Prop :=
  (-(10 ^ maxDigits : Nat) < k ∧ k < 0) ∧ e = .negativeNumber k ∨
    (k ≤ -(10 ^ maxDigits : Nat) ∨ (10 ^ maxDigits : Nat) ≤ k) ∧ e = .numberTooLong

/-- A negative number that is too long is too long for the message as well. -/
theorem misnumbered_of_le {k : Int} {e : WriteError} (h : k ≤ -(10 ^ maxDigits : Nat)) :
    Misnumbered k e ↔ e = .numberTooLong := by
  rw [Misnumbered, or_iff_right fun hshort => Int.not_lt.2 h hshort.1.1]
  exact and_iff_right (.inl h)

/-- The error is about the part itself, and not about one inside it. -/
def Node.Flaw (e : WriteError) : Node → Prop
  | .resource r =>
    ∃ pair ∈ r.entries, Misnamed .entity pair.1 e ∨
      (∃ v attributes, pair.2 = .complex (some []) v attributes) ∧
        e = .emptyIndex pair.1
  | .entry (.complex _ _ attributes) =>
    ∃ key ∈ Table.names (attributes.getD []), Misnamed .attribute key e
  | .value (.object members) => ∃ key ∈ Table.names members, Misnamed .key key e
  | .value (.string content) | .segment (.text content) =>
    BackslashBefore ['n', 'r', 't', 'b', 'f', '\x7b', '\x7d', '"', '\x27']
      content.toList ∧ e = .ambiguousText content
  | .segment (.placeholder source) =>
    ¬ PlaceholderForm source.toList ∧ e = .invalidPlaceholder source
  | .expr (.number k) => Misnumbered k e
  | .expr (.name key) => Misnamed .identifier key e
  | .expr (.attr _ key) => Misnamed .attribute key e
  | .expr (.prop _ key) => Misnamed .property key e
  | _ => False

/-- The error is about no part of the node. -/
def Node.Clear (e : WriteError) : Node → Prop :=
  Everywhere fun part => ¬ part.Flaw e

theorem Node.not_clear_iff {e : WriteError} {node : Node} :
    ¬ node.Clear e ↔ ∃ part, Part part node ∧ part.Flaw e := by
  simp [Clear, Everywhere]

theorem Node.clear_complex {e : WriteError} {index : Option (List Expr)}
    {v : Option Value} {attributes : Option (List (String × Value))} :
    (Node.entry (.complex index v attributes)).Clear e ↔
      (∀ x ∈ index.getD [], (Node.expr x).Clear e) ∧
      (∀ w, v = some w → (Node.value w).Clear e) ∧
      (¬ ∃ key ∈ Table.names (attributes.getD []), Misnamed .attribute key e) ∧
      ∀ pair ∈ attributes.getD [], (Node.value pair.2).Clear e := by
  rw [Clear, everywhere_complex]
  constructor
  · rintro ⟨hnames, hindex, hvalue, hmembers⟩
    exact ⟨hindex, hvalue, hnames, hmembers⟩
  · rintro ⟨hindex, hvalue, hnames, hmembers⟩
    exact ⟨hnames, hindex, hvalue, hmembers⟩

namespace Writer

variable {α β : Type} {left n m : Nat} {p q : WriteError → Prop}

/-- The outcome of a writer with so many levels left that enters `n` of them and
takes care that `clear` holds of every error. -/
inductive Screened (left n : Nat) (clear : WriteError → Prop) :
    Except WriteError α → Prop
  | ok (a : α) : n ≤ left → (∀ e, clear e) → Screened left n clear (.ok a)
  | flawed {e : WriteError} : ¬ clear e → Screened left n clear (.error e)
  | tooDeep (refusal : Refusal Window) : left < n →
      Screened left n clear (.error (.tooDeep refusal))

/-- The writer enters `n` levels and takes care that `clear` holds of every error,
wherever it starts. -/
def Screens (n : Nat) (clear : WriteError → Prop) (x : Writer α) : Prop :=
  ∀ limit depth, Screened (limit - depth).toNat n clear (outcome limit depth x)

theorem Screens.congr {x : Writer α} (h : Screens n p x) (hn : n = m)
    (hpq : ∀ e, p e ↔ q e) : Screens m q x := by
  obtain rfl : p = q := funext fun e => propext (hpq e)
  exact hn ▸ h

theorem screens_pure (a : α) : Screens 0 (fun _ => True) (pure a) :=
  fun _ _ => .ok a (Nat.zero_le _) fun _ => trivial

theorem Screens.bind {x : Writer α} {f : α → Writer β} (hsteady : Steady x)
    (hx : Screens n p x) (hf : ∀ a, Screens m q (f a)) :
    Screens (max n m) (fun e => p e ∧ q e) (x >>= f) := by
  intro limit depth
  have hfirst := hx limit depth
  rw [outcome_bind hsteady]
  generalize outcome limit depth x = first at hfirst
  cases hfirst with
  | flawed hflaw => exact .flawed fun h => hflaw h.1
  | tooDeep refusal hlt => exact .tooDeep refusal (by omega)
  | ok a hle hclear =>
      have hsecond := hf a limit depth
      change Screened _ _ _ (outcome limit depth (f a))
      generalize outcome limit depth (f a) = second at hsecond
      cases hsecond with
      | flawed hflaw => exact .flawed fun h => hflaw h.2
      | tooDeep refusal hlt => exact .tooDeep refusal (by omega)
      | ok b hle' hclear' =>
          exact .ok b (Nat.max_le.2 ⟨hle, hle'⟩) fun e => ⟨hclear e, hclear' e⟩

theorem Screens.bind_pure {x : Writer α} {f : α → β} (hsteady : Steady x)
    (hx : Screens n p x) : Screens n p (x >>= fun a => pure (f a)) :=
  (hx.bind hsteady fun a => screens_pure (f a)).congr (Nat.max_zero n)
    fun _ => and_iff_left trivial

theorem Screens.nested {x : Writer α} (hx : Screens n p x) :
    Screens (n + 1) p (nested x) := by
  intro limit depth
  rw [outcome_nested]
  by_cases hlimit : limit ≤ depth
  · rw [if_pos hlimit]
    exact .tooDeep _ (by omega)
  · have hinside := hx limit (depth + 1)
    rw [if_neg hlimit]
    generalize outcome limit (depth + 1) x = result at hinside
    cases hinside with
    | flawed hflaw => exact .flawed hflaw
    | tooDeep refusal hlt => exact .tooDeep refusal (by omega)
    | ok a hle hclear => exact .ok a (by omega) hclear

theorem screens_name (role : NameRole) (key : String) :
    Screens 0 (fun e => ¬ Misnamed role key e) (name role key) := by
  rw [name]
  cases hname : isName key.toList with
  | true => exact (screens_pure _).congr rfl (by simp [Misnamed, hname])
  | false => exact fun _ _ => .flawed fun hclear => hclear ⟨hname, rfl⟩

theorem screens_text (content : String) :
    Screens 0 (fun e => ¬ (.segment (.text content) : Node).Flaw e) (text content) := by
  have hletters := @hasAmbiguousBackslash_iff content.toList
  rw [text]
  cases hambiguous : hasAmbiguousBackslash content.toList with
  | true =>
      rw [hambiguous, eq_self, true_iff] at hletters
      exact fun _ _ => .flawed fun hclear => hclear ⟨hletters, rfl⟩
  | false =>
      rw [hambiguous, Bool.false_eq_true, false_iff] at hletters
      exact (screens_pure _).congr rfl fun e => iff_of_true trivial fun h => hletters h.1

theorem screens_segment (part : Segment) :
    Screens 0 (fun e => ¬ (Node.segment part).Flaw e) (segment part) := by
  cases part with
  | text content => exact screens_text content
  | placeholder source =>
      rw [segment]
      by_cases hform : PlaceholderForm source.toList
      · rw [if_pos (isPlaceholderSource_iff.2 hform)]
        exact (screens_pure _).congr rfl fun e => iff_of_true trivial fun h => h.1 hform
      · rw [if_neg fun h => hform (isPlaceholderSource_iff.1 h)]
        exact fun _ _ => .flawed fun hclear => hclear ⟨hform, rfl⟩

theorem screens_segments (parts : List Segment) :
    Screens 0 (fun e => ∀ part ∈ parts, ¬ (Node.segment part).Flaw e)
      (segments parts) := by
  induction parts with
  | nil => exact (screens_pure _).congr rfl (by simp)
  | cons part parts ih =>
      exact ((screens_segment part).bind (steady_segment part) fun _ =>
        ih.bind_pure (steady_segments parts)).congr rfl (by simp)

theorem screens_number (k : Int) :
    Screens 0 (fun e => ¬ (Node.expr (.number k)).Flaw e) (number k) := by
  have hdigits : (decimal k.natAbs).length ≤ maxDigits ↔ k.natAbs < 10 ^ maxDigits := by
    rw [decimal, Nat.length_toDigits_le_iff (by decide) (by decide)]
  simp only [Flaw, Misnumbered]
  generalize 10 ^ maxDigits = bound at hdigits
  rw [number]
  by_cases hlong : maxDigits < (decimal k.natAbs).length
  · rw [if_pos hlong]
    exact fun _ _ => .flawed fun hclear => hclear (.inr ⟨by omega, rfl⟩)
  rw [if_neg hlong]
  by_cases hnegative : k < 0
  · rw [if_pos hnegative]
    exact fun _ _ => .flawed fun hclear => hclear (.inl ⟨⟨by omega, hnegative⟩, rfl⟩)
  · rw [if_neg hnegative]
    refine (screens_pure _).congr rfl fun e => iff_of_true trivial ?_
    rintro (⟨⟨-, hlt⟩, -⟩ | ⟨hlong', -⟩)
    · exact hnegative hlt
    · omega

mutual

theorem screens_value : ∀ v : Value,
    Screens v.nesting (fun e => (Node.value v).Clear e) (value v)
  | .string content => by
      rw [value]
      exact ((screens_text content).bind_pure (steady_text content)).congr rfl
        (by simp [Clear, Flaw])
  | .parts parts => by
      rw [value]
      exact ((screens_segments parts).bind_pure (steady_segments parts)).congr rfl
        (by simp [Clear, Flaw])
  | .array items => by
      rw [value]
      exact ((screens_values items).bind_pure (steady_values items)).nested.congr rfl
        (by simp [Clear, Flaw])
  | .object pairs => by
      rw [value]
      exact ((screens_members .key pairs).bind_pure
        (steady_members .key pairs)).nested.congr rfl (by simp [Clear, Flaw])

theorem screens_values : ∀ items : List Value,
    Screens (valuesNesting items) (fun e => ∀ v ∈ items, (Node.value v).Clear e)
      (values items)
  | [] => by
      rw [values]
      exact (screens_pure _).congr rfl (by simp)
  | item :: items => by
      rw [values]
      exact ((screens_value item).bind (steady_value item) fun _ =>
        (screens_values items).bind_pure (steady_values items)).congr rfl (by simp)

theorem screens_members (role : NameRole) : ∀ pairs : List (String × Value),
    Screens (membersNesting pairs)
      (fun e => (¬ ∃ key ∈ Table.names pairs, Misnamed role key e) ∧
        ∀ pair ∈ pairs, (Node.value pair.2).Clear e) (members role pairs)
  | [] => by
      rw [members]
      exact (screens_pure _).congr rfl (by simp [Table.names])
  | (key, item) :: rest => by
      rw [members]
      refine ((screens_name role key).bind (steady_name role key) fun _ =>
        (screens_value item).bind (steady_value item) fun _ =>
          (screens_members role rest).bind_pure (steady_members role rest)).congr ?_ ?_
      · rw [Nat.zero_max, membersNesting]
      · intro e
        simp only [Table.names, List.map_cons, List.mem_cons, exists_eq_or_imp, not_or,
          forall_eq_or_imp, and_assoc, and_left_comm]

end

theorem Screens.operand (allowed : Level) (e : Expr) {x : Writer (List Char)}
    (hsteady : Steady x) (hx : Screens n p x) :
    Screens (e.fittedLevels allowed n) p (operand allowed e x) := by
  rw [Writer.operand, Expr.fittedLevels]
  split
  · exact hx
  · exact hx.nested.bind_pure hsteady.nested

/-- Parentheses make no difference to an operand that is one level further in
anyway. -/
theorem Screens.innerOperand (allowed : Level) (e : Expr) {x : Writer (List Char)}
    (hsteady : Steady x) (hx : Screens n p x) :
    Screens (n + 1) p (innerOperand allowed e x) := by
  rw [Writer.innerOperand]
  split
  · exact hx.nested
  · exact hx.nested.bind_pure hsteady.nested

mutual

theorem screens_expr : ∀ e : Expr,
    Screens e.levels (fun err => (Node.expr e).Clear err) (expr e)
  | .number k => by
      rw [expr]
      exact (screens_number k).congr rfl (by simp [Clear])
  | .value v => by
      rw [expr]
      exact (screens_value v).congr rfl (by simp [Clear, Flaw])
  | .name key => by
      rw [expr]
      exact (screens_name .identifier key).congr rfl (by simp [Clear, Flaw])
  | .paren e => by
      rw [expr]
      exact ((screens_expr e).nested.bind_pure (steady_expr e).nested).congr rfl
        (by simp [Clear, Flaw])
  | .attr base key => by
      have hbase := (screens_expr base).operand .member base (steady_expr base)
      rw [expr]
      exact (hbase.bind (steady_expr base).operand fun _ =>
        (screens_name .attribute key).bind_pure (steady_name .attribute key)).congr
          (Nat.max_zero _) (by simp [Clear, Flaw, and_comm])
  | .prop base key => by
      have hbase := (screens_expr base).operand .member base (steady_expr base)
      rw [expr]
      exact (hbase.bind (steady_expr base).operand fun _ =>
        (screens_name .property key).bind_pure (steady_name .property key)).congr
          (Nat.max_zero _) (by simp [Clear, Flaw, and_comm])
  | .attrAt base index | .propAt base index => by
      have hbase := (screens_expr base).operand .member base (steady_expr base)
      rw [expr]
      exact (hbase.bind (steady_expr base).operand fun _ =>
        (screens_expr index).nested.bind_pure (steady_expr index).nested).congr rfl
          (by simp [Clear, Flaw])
  | .call base arguments => by
      have hbase := (screens_expr base).operand .member base (steady_expr base)
      rw [expr]
      exact (hbase.bind (steady_expr base).operand fun _ =>
        (screens_exprs arguments).bind_pure (steady_exprs arguments)).congr rfl
          (by simp [Clear, Flaw])
  | .unary _ e => by
      have hoperand := (screens_expr e).operand .member e (steady_expr e)
      rw [expr]
      exact (hoperand.bind_pure (steady_expr e).operand).congr rfl
        (by simp [Clear, Flaw])
  | .binary _ left right => by
      have hleft := (screens_expr left).operand .unary left (steady_expr left)
      have hright := (screens_expr right).innerOperand .binary right (steady_expr right)
      rw [expr]
      exact (hleft.bind (steady_expr left).operand fun _ =>
        hright.bind_pure (steady_expr right).innerOperand).congr rfl
          (by simp [Clear, Flaw])
  | .logical _ left right => by
      have hleft := (screens_expr left).operand .binary left (steady_expr left)
      have hright := (screens_expr right).innerOperand .logical right (steady_expr right)
      rw [expr]
      exact (hleft.bind (steady_expr left).operand fun _ =>
        hright.bind_pure (steady_expr right).innerOperand).congr rfl
          (by simp [Clear, Flaw])
  | .conditional test consequent alternate => by
      have htest := (screens_expr test).operand .logical test (steady_expr test)
      rw [expr]
      refine (htest.bind (steady_expr test).operand fun _ =>
        (screens_expr consequent).nested.bind (steady_expr consequent).nested fun _ =>
          (screens_expr alternate).nested.bind_pure
            (steady_expr alternate).nested).congr ?_ (by simp [Clear, Flaw])
      rw [Expr.levels, Nat.add_max_add_right]

theorem screens_exprs : ∀ es : List Expr,
    Screens (exprsLevels es) (fun err => ∀ e ∈ es, (Node.expr e).Clear err) (exprs es)
  | [] => by
      rw [exprs]
      exact (screens_pure _).congr rfl (by simp)
  | e :: es => by
      rw [exprs]
      exact ((screens_expr e).nested.bind (steady_expr e).nested fun _ =>
        (screens_exprs es).bind_pure (steady_exprs es)).congr rfl (by simp)

end

theorem screens_spacedValue (v : Option Value) :
    Screens (valuesNesting v.toList) (fun e => ∀ w, v = some w → (Node.value w).Clear e)
      (spacedValue v) := by
  cases v with
  | none => exact (screens_pure _).congr rfl (by simp)
  | some v =>
      exact ((screens_value v).bind_pure (steady_value v)).congr
        (Nat.max_zero v.nesting).symm (by simp)

/-- An entry takes care of its parts, and an entity also of its index. -/
theorem screens_entryBody (key : String) (entry : Entry) :
    Screens entry.levels (fun e => (Node.entry entry).Clear e ∧
        ¬ ((∃ v attributes, entry = .complex (some []) v attributes) ∧
          e = .emptyIndex key))
      (entryBody key entry) := by
  cases entry with
  | plain v => exact (screens_spacedValue v).congr rfl (by simp [Clear, Flaw])
  | macroDef params body =>
      exact ((screens_exprs params).bind (steady_exprs params) fun _ =>
        (screens_expr body).nested.bind_pure (steady_expr body).nested).congr rfl
          (by simp [Clear, Flaw])
  | complex index v attributes =>
      have hrest := fun front : List Char =>
        (screens_spacedValue v).bind (steady_spacedValue v) fun item =>
          (screens_members .attribute (attributes.getD [])).bind_pure
            (f := fun texts : List (List Char) =>
              front ++ item ++ texts.flatMap (' ' :: ·)) (steady_members .attribute _)
      match index with
      | none =>
          refine (hrest []).congr (Nat.zero_max _).symm fun e => ?_
          simp [clear_complex]
      | some [] =>
          exact fun _ _ => .flawed fun hclear => hclear.2 ⟨⟨v, attributes, rfl⟩, rfl⟩
      | some (e :: es) =>
          refine ((screens_exprs (e :: es)).bind (steady_exprs _) fun _ =>
            hrest _).congr rfl fun e => ?_
          simp [clear_complex]

theorem screens_entry (key : String) (entry : Entry) :
    Screens entry.levels (fun e => ¬ Misnamed .entity key e ∧
        (Node.entry entry).Clear e ∧
        ¬ ((∃ v attributes, entry = .complex (some []) v attributes) ∧
          e = .emptyIndex key))
      (Writer.entry key entry) :=
  ((screens_name .entity key).bind (steady_name .entity key) fun _ =>
    (screens_entryBody key entry).bind_pure (steady_entryBody key entry)).congr
      (Nat.zero_max _) fun _ => Iff.rfl

theorem screens_entries (pairs : List (String × Entry)) :
    Screens (entriesLevels pairs) (fun e => (Node.resource ⟨pairs⟩).Clear e)
      (entries pairs) := by
  induction pairs with
  | nil => exact (screens_pure _).congr rfl (by simp [Clear, Flaw])
  | cons pair pairs ih =>
      obtain ⟨key, entry⟩ := pair
      refine ((screens_entry key entry).bind (steady_entry key entry) fun _ =>
        ih.bind_pure (steady_entries pairs)).congr rfl fun e => ?_
      simp only [Clear, everywhere_resource, Flaw, List.mem_cons, exists_eq_or_imp,
        not_or, forall_eq_or_imp]
      constructor
      · rintro ⟨⟨hkey, hentry, hindex⟩, hflaws, hentries⟩
        exact ⟨⟨⟨hkey, hindex⟩, hflaws⟩, hentry, hentries⟩
      · rintro ⟨⟨⟨hkey, hindex⟩, hflaws⟩, hentry, hentries⟩
        exact ⟨⟨hkey, hentry, hindex⟩, hflaws, hentries⟩

end Writer

/-- The error is about the tree, and not about its depth, the stack or the length of a
number. -/
def WriteError.IsValidation : WriteError → Prop
  | .numberTooLong | .tooDeep _ | .stackFull => False
  | _ => True

/-- The error of a flaw is about the tree, unless the part is a number that is too
long. -/
theorem Node.Flaw.isValidation_or {e : WriteError} {part : Node} (h : part.Flaw e) :
    e.IsValidation ∨ e = .numberTooLong ∧ ∃ k, part = .expr (.number k) ∧
      (k ≤ -(10 ^ maxDigits : Nat) ∨ (10 ^ maxDigits : Nat) ≤ k) := by
  match part, h with
  | .resource _, ⟨_, _, .inl ⟨_, heq⟩⟩ | .resource _, ⟨_, _, .inr ⟨_, heq⟩⟩
  | .entry (.complex _ _ _), ⟨_, _, _, heq⟩ | .value (.object _), ⟨_, _, _, heq⟩
  | .value (.string _), ⟨_, heq⟩ | .segment (.text _), ⟨_, heq⟩
  | .segment (.placeholder _), ⟨_, heq⟩ | .expr (.name _), ⟨_, heq⟩
  | .expr (.attr _ _), ⟨_, heq⟩ | .expr (.prop _ _), ⟨_, heq⟩
  | .expr (.number _), .inl ⟨_, heq⟩ =>
      subst heq
      exact .inl trivial
  | .expr (.number k), .inr ⟨hlong, heq⟩ => exact .inr ⟨heq, k, rfl, hlong⟩
  | .entry (.plain _), h | .entry (.macroDef _ _), h
  | .value (.parts _), h | .value (.array _), h
  | .expr (.value _), h | .expr (.paren _), h
  | .expr (.attrAt _ _), h | .expr (.propAt _ _), h
  | .expr (.call _ _), h | .expr (.unary _ _), h
  | .expr (.binary _ _ _), h | .expr (.logical _ _ _), h
  | .expr (.conditional _ _ _), h => exact False.elim h

/-- An error about the depth or the stack is about no part. -/
theorem Node.clear_of_not_isValidation {e : WriteError} (hvalid : ¬ e.IsValidation)
    (hlong : e ≠ .numberTooLong) (node : Node) : node.Clear e := by
  intro part _ hflaw
  rcases hflaw.isValidation_or with hflaw | ⟨heq, -⟩
  · exact hvalid hflaw
  · exact hlong heq

namespace Resource

/-- Writing a resource screens all its parts. -/
theorem screened_write (r : Resource) (maxDepth : Int) :
    Writer.Screened (StackBudget.walking.clamp maxDepth).1.toNat
      (entriesLevels r.entries) (fun e => (Node.resource r).Clear e)
      (r.write maxDepth) := by
  have hentries := Writer.screens_entries r.entries
    (StackBudget.walking.clamp maxDepth).1 0
  rw [Int.sub_zero] at hentries
  rw [write_eq]
  generalize Writer.outcome _ 0 (Writer.entries r.entries) = result at hentries
  cases hentries with
  | ok text hle hclear => exact .ok _ hle hclear
  | flawed hflaw => exact .flawed hflaw
  | tooDeep refusal hlt => exact .tooDeep refusal hlt

/-- Some part of the resource has this flaw. -/
def Flawed (r : Resource) (e : WriteError) : Prop :=
  ∃ part, Part part (.resource r) ∧ part.Flaw e

/-- A resource is refused no level if as many are open as writing it enters. -/
theorem ne_tooDeep_of_levels {r : Resource} {maxDepth : Int}
    (h : entriesLevels r.entries ≤ (StackBudget.walking.clamp maxDepth).1.toNat)
    (refusal : Refusal Window) : r.write maxDepth ≠ .error (.tooDeep refusal) := by
  have hscreened := r.screened_write maxDepth
  intro heq
  rw [heq] at hscreened
  cases hscreened with
  | tooDeep _ hlt => exact absurd hlt (Nat.not_lt.2 h)
  | flawed hflaw => exact hflaw (clear_of_not_isValidation id (by simp) _)

section Open

variable {r : Resource} {maxDepth : Int}

/-- A resource that is refused no level is written exactly if it has no flaw. -/
theorem written_iff_flawless
    (hopen : ∀ refusal, r.write maxDepth ≠ .error (.tooDeep refusal)) :
    (∃ text, r.write maxDepth = .ok text) ↔ ∀ e, ¬ r.Flawed e := by
  have hscreened := r.screened_write maxDepth
  generalize r.write maxDepth = result at hscreened hopen ⊢
  cases hscreened with
  | ok text hle hclear =>
      exact iff_of_true ⟨text, rfl⟩ fun e ⟨part, hpart, hflaw⟩ => hclear e part hpart hflaw
  | tooDeep refusal hlt => exact absurd rfl (hopen refusal)
  | @flawed e hflaw =>
      exact iff_of_false (fun ⟨_, htext⟩ => nomatch htext) fun hnone =>
        hnone e (not_clear_iff.1 hflaw)

/-- The error is then that of a flaw. -/
theorem flawed_of_refused (hopen : ∀ refusal, r.write maxDepth ≠ .error (.tooDeep refusal))
    {e : WriteError} (he : r.write maxDepth = .error e) : r.Flawed e := by
  have hscreened := r.screened_write maxDepth
  rw [he] at hscreened hopen
  cases hscreened with
  | tooDeep refusal hlt => exact absurd rfl (hopen refusal)
  | flawed hflaw => exact not_clear_iff.1 hflaw

end Open

/-- A resource that is refused no level is written exactly if no part of it has a flaw, and
else the error is that of a flaw.  It is about the tree, unless a negative number is so
long that it cannot be put into the message: where there is no such number, the errors
about the tree are raised exactly if some part has a flaw.  A resource is refused no level
if as many are open as writing it enters.  The stack has to have room for the frames that
the resource takes, and where it has not, even a resource without flaws is not written. -/
theorem refused_iff_flawed (r : Resource) (maxDepth : Int)
    (hnumbers : ∀ k, Part (.expr (.number k)) (.resource r) → k < (10 ^ maxDigits : Nat)) :
    (entriesLevels r.entries ≤ (StackBudget.walking.clamp maxDepth).1.toNat →
      ∀ refusal, r.write maxDepth ≠ .error (.tooDeep refusal)) ∧
    ((∀ refusal, r.write maxDepth ≠ .error (.tooDeep refusal)) →
      ((∃ text, r.write maxDepth = .ok text) ↔ ∀ e, ¬ r.Flawed e) ∧
      (∀ e, r.write maxDepth = .error e → r.Flawed e ∧
        (e.IsValidation ∨ e = .numberTooLong ∧
          ∃ k, Part (.expr (.number k)) (.resource r) ∧ k ≤ -(10 ^ maxDigits : Nat))) ∧
      ((∀ k, Part (.expr (.number k)) (.resource r) → -(10 ^ maxDigits : Nat) < k) →
        ((∃ e, r.write maxDepth = .error e ∧ e.IsValidation) ↔ ∃ e, r.Flawed e)) ∧
      ∀ room : Nat,
        (r.frames ≤ room →
          (r.writeUnder (some (.stack room)) (writeGuard maxDepth)).1 = r.write maxDepth) ∧
        (room < r.frames → (∀ e, ¬ r.Flawed e) →
          (r.writeUnder (some (.stack room)) (writeGuard maxDepth)).1 =
            .error .stackFull)) := by
  refine ⟨ne_tooDeep_of_levels, fun hopen => ?_⟩
  have hwritten := written_iff_flawless hopen
  have herror (e : WriteError) (he : r.write maxDepth = .error e) : r.Flawed e ∧
      (e.IsValidation ∨ e = .numberTooLong ∧
        ∃ k, Part (.expr (.number k)) (.resource r) ∧ k ≤ -(10 ^ maxDigits : Nat)) := by
    obtain ⟨part, hpart, hflaw⟩ := flawed_of_refused hopen he
    refine ⟨⟨part, hpart, hflaw⟩, hflaw.isValidation_or.imp_right ?_⟩
    rintro ⟨rfl, k, rfl, hlong⟩
    have hupper := hnumbers k hpart
    exact ⟨rfl, k, hpart, hlong.resolve_right (Int.not_le.2 hupper)⟩
  refine ⟨hwritten, herror, fun hlower => ⟨?_, ?_⟩, fun room => ⟨?_, ?_⟩⟩
  · rintro ⟨e, he, -⟩
    exact ⟨e, (herror e he).1⟩
  · rintro ⟨e, hflawed⟩
    cases hresult : r.write maxDepth with
    | ok text => exact absurd hflawed (hwritten.1 ⟨text, hresult⟩ e)
    | error e' =>
        refine ⟨e', rfl, (herror e' hresult).2.resolve_right ?_⟩
        rintro ⟨-, k, hpart, hle⟩
        exact Int.not_le.2 (hlower k hpart) hle
  · intro hroom
    exact congrArg Prod.fst ((r.writeUnder_stack _ 0 room).1 hroom hopen)
  · intro hroom hflawless
    obtain ⟨text, htext⟩ := hwritten.2 hflawless
    exact (r.writeUnder_stack _ 0 room).2 hroom text htext

/-- A macro whose body is the first negative number that cannot be put into a message. -/
def longNegative : Resource :=
  ⟨[("m", .macroDef [] (.number (-(10 ^ maxDigits : Nat))))]⟩

/-- The number has a flaw and is refused, though not with an error about the tree. -/
theorem refused_longNegative :
    (∀ k, Part (.expr (.number k)) (.resource longNegative) → k < (10 ^ maxDigits : Nat)) ∧
    longNegative.write 100 = .error .numberTooLong := by
  have hbound : (0 : Int) < (10 ^ maxDigits : Nat) :=
    Int.natCast_pos.2 (Nat.pow_pos (by decide))
  have hshort : Everywhere (fun part => ∀ k, part = .expr (.number k) →
      k < (10 ^ maxDigits : Nat)) (.resource longNegative) := by
    rw [longNegative]
    generalize (10 ^ maxDigits : Nat) = bound at hbound ⊢
    simp
    omega
  have hnumbers : ∀ k, Part (.expr (.number k)) (.resource longNegative) →
      k < (10 ^ maxDigits : Nat) := fun k hpart => hshort _ hpart k rfl
  have hflaws (e : WriteError) : (Node.resource longNegative).Clear e ↔
      e ≠ .numberTooLong := by
    have hnumber := misnumbered_of_le (Int.le_refl (-(10 ^ maxDigits : Nat))) (e := e)
    rw [longNegative]
    generalize (-(10 ^ maxDigits : Nat) : Int) = k at hnumber ⊢
    simp [Clear, Flaw, Misnamed, isName, hnumber]
  obtain ⟨hlevels, hscreened⟩ := refused_iff_flawed longNegative 100 hnumbers
  obtain ⟨hwritten, herror, -⟩ := hscreened (hlevels (by decide))
  refine ⟨hnumbers, ?_⟩
  cases hresult : longNegative.write 100 with
  | ok text =>
      have hnone := hwritten.1 ⟨text, hresult⟩ .numberTooLong
      exact absurd (not_clear_iff.1 (mt (hflaws _).1 (by simp))) hnone
  | error e =>
      have hflaw := not_clear_iff.2 (herror e hresult).1
      rw [hflaws, ne_eq, Classical.not_not] at hflaw
      rw [hflaw]

end Resource

end L20n
