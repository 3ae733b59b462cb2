import L20n.Node

/-!
Properties of all parts of a tree.  A node is a part of itself, and the parts
of its children are its parts.  A property holds everywhere in a tree when it
holds of every part, and each kind of node has one lemma that says what this
means for its children.
-/

namespace L20n

namespace Node

/-- The parts of a node: itself, and the parts of its children. -/
inductive Part : Node → Node → Prop
  | self (node : Node) : Part node node
  | inside {node child part : Node} :
      child ∈ node.children → Part part child → Part part node

/-- The property holds of every part of the node. -/
def Everywhere (P : Node → Prop) (node : Node) : Prop :=
  ∀ part, Part part node → P part

variable {P Q : Node → Prop}

theorem Part.trans {inner part node : Node} (h : Part inner part)
    (hpart : Part part node) : Part inner node := by
  induction hpart with
  | self => exact h
  | inside hchild _ ih => exact .inside hchild (ih h)

theorem Everywhere.part {part node : Node} (h : Everywhere P node)
    (hpart : Part part node) : Everywhere P part :=
  fun inner hinner => h inner (hinner.trans hpart)

theorem everywhere_iff {node : Node} :
    Everywhere P node ↔
      P node ∧ ∀ child ∈ node.children, Everywhere P child := by
  constructor
  · intro h
    refine ⟨h node (.self node), ?_⟩
    intro child hchild part hpart
    exact h part (.inside hchild hpart)
  · rintro ⟨hself, hchildren⟩ part hpart
    cases hpart with
    | self => exact hself
    | inside hchild hpart => exact hchildren _ hchild part hpart

theorem Everywhere.mono {node : Node} (hPQ : ∀ part, P part → Q part)
    (h : Everywhere P node) : Everywhere Q node :=
  fun part hpart => hPQ part (h part hpart)

@[simp]
theorem everywhere_resource {r : Resource} :
    Everywhere P (.resource r) ↔
      P (.resource r) ∧ ∀ pair ∈ r.entries, Everywhere P (.entry pair.2) := by
  rw [everywhere_iff]
  simp only [children, List.mem_map, forall_exists_index, and_imp,
    forall_apply_eq_imp_iff₂]

@[simp]
theorem everywhere_plain {v : Option Value} :
    Everywhere P (.entry (.plain v)) ↔
      P (.entry (.plain v)) ∧ ∀ w, v = some w → Everywhere P (.value w) := by
  rw [everywhere_iff]
  simp [children, ofEntry]

@[simp]
theorem everywhere_complex {index : Option (List Expr)} {v : Option Value}
    {attributes : Option (List (String × Value))} :
    Everywhere P (.entry (.complex index v attributes)) ↔
      P (.entry (.complex index v attributes)) ∧
        (∀ e ∈ index.getD [], Everywhere P (.expr e)) ∧
        (∀ w, v = some w → Everywhere P (.value w)) ∧
        ∀ pair ∈ attributes.getD [], Everywhere P (.value pair.2) := by
  rw [everywhere_iff]
  simp only [children, ofEntry, ofMembers, List.mem_append, List.mem_map,
    Option.mem_toList, or_imp, forall_and, forall_exists_index, and_imp,
    forall_apply_eq_imp_iff₂, and_assoc]

@[simp]
theorem everywhere_macroDef {params : List Expr} {body : Expr} :
    Everywhere P (.entry (.macroDef params body)) ↔
      P (.entry (.macroDef params body)) ∧
        (∀ e ∈ params, Everywhere P (.expr e)) ∧ Everywhere P (.expr body) := by
  rw [everywhere_iff]
  simp only [children, ofEntry, List.mem_append, List.mem_map,
    List.mem_singleton, or_imp, forall_and, forall_exists_index, and_imp,
    forall_apply_eq_imp_iff₂, forall_eq]

@[simp]
theorem everywhere_string {text : String} :
    Everywhere P (.value (.string text)) ↔ P (.value (.string text)) := by
  rw [everywhere_iff]
  simp [children, ofValue]

@[simp]
theorem everywhere_parts {segments : List Segment} :
    Everywhere P (.value (.parts segments)) ↔
      P (.value (.parts segments)) ∧ ∀ s ∈ segments, P (.segment s) := by
  rw [everywhere_iff]
  simp only [children, ofValue, List.mem_map, forall_exists_index, and_imp,
    forall_apply_eq_imp_iff₂]
  refine and_congr_right fun _ => forall_congr' fun s => imp_congr_right fun _ => ?_
  rw [everywhere_iff]
  simp [children]

@[simp]
theorem everywhere_array {items : List Value} :
    Everywhere P (.value (.array items)) ↔
      P (.value (.array items)) ∧ ∀ v ∈ items, Everywhere P (.value v) := by
  rw [everywhere_iff]
  simp only [children, ofValue, List.mem_map, forall_exists_index, and_imp,
    forall_apply_eq_imp_iff₂]

@[simp]
theorem everywhere_object {members : List (String × Value)} :
    Everywhere P (.value (.object members)) ↔
      P (.value (.object members)) ∧
        ∀ pair ∈ members, Everywhere P (.value pair.2) := by
  rw [everywhere_iff]
  simp only [children, ofValue, ofMembers, List.mem_map, forall_exists_index,
    and_imp, forall_apply_eq_imp_iff₂]

@[simp]
theorem everywhere_call {base : Expr} {arguments : List Expr} :
    Everywhere P (.expr (.call base arguments)) ↔
      P (.expr (.call base arguments)) ∧ Everywhere P (.expr base) ∧
        ∀ e ∈ arguments, Everywhere P (.expr e) := by
  rw [everywhere_iff]
  simp only [children, ofExpr, List.mem_cons, List.mem_map, forall_eq_or_imp,
    forall_exists_index, and_imp, forall_apply_eq_imp_iff₂]

section Expressions

variable {e f g : Expr} {key : String}

@[simp]
theorem everywhere_number {k : Int} :
    Everywhere P (.expr (.number k)) ↔ P (.expr (.number k)) := by
  rw [everywhere_iff]
  simp [children, ofExpr]

@[simp]
theorem everywhere_name :
    Everywhere P (.expr (.name key)) ↔ P (.expr (.name key)) := by
  rw [everywhere_iff]
  simp [children, ofExpr]

@[simp]
theorem everywhere_value {v : Value} :
    Everywhere P (.expr (.value v)) ↔
      P (.expr (.value v)) ∧ Everywhere P (.value v) := by
  rw [everywhere_iff]
  simp [children, ofExpr]

@[simp]
theorem everywhere_paren :
    Everywhere P (.expr (.paren e)) ↔
      P (.expr (.paren e)) ∧ Everywhere P (.expr e) := by
  rw [everywhere_iff]
  simp [children, ofExpr]

@[simp]
theorem everywhere_attr :
    Everywhere P (.expr (.attr e key)) ↔
      P (.expr (.attr e key)) ∧ Everywhere P (.expr e) := by
  rw [everywhere_iff]
  simp [children, ofExpr]

@[simp]
theorem everywhere_attrAt :
    Everywhere P (.expr (.attrAt e f)) ↔
      P (.expr (.attrAt e f)) ∧ Everywhere P (.expr e) ∧ Everywhere P (.expr f) := by
  rw [everywhere_iff]
  simp [children, ofExpr]

@[simp]
theorem everywhere_prop :
    Everywhere P (.expr (.prop e key)) ↔
      P (.expr (.prop e key)) ∧ Everywhere P (.expr e) := by
  rw [everywhere_iff]
  simp [children, ofExpr]

@[simp]
theorem everywhere_propAt :
    Everywhere P (.expr (.propAt e f)) ↔
      P (.expr (.propAt e f)) ∧ Everywhere P (.expr e) ∧ Everywhere P (.expr f) := by
  rw [everywhere_iff]
  simp [children, ofExpr]

@[simp]
theorem everywhere_unary {op : UnaryOp} :
    Everywhere P (.expr (.unary op e)) ↔
      P (.expr (.unary op e)) ∧ Everywhere P (.expr e) := by
  rw [everywhere_iff]
  simp [children, ofExpr]

@[simp]
theorem everywhere_binary {op : BinaryOp} :
    Everywhere P (.expr (.binary op e f)) ↔
      P (.expr (.binary op e f)) ∧ Everywhere P (.expr e) ∧
        Everywhere P (.expr f) := by
  rw [everywhere_iff]
  simp [children, ofExpr]

@[simp]
theorem everywhere_logical {op : LogicalOp} :
    Everywhere P (.expr (.logical op e f)) ↔
      P (.expr (.logical op e f)) ∧ Everywhere P (.expr e) ∧
        Everywhere P (.expr f) := by
  rw [everywhere_iff]
  simp [children, ofExpr]

@[simp]
theorem everywhere_conditional :
    Everywhere P (.expr (.conditional e f g)) ↔
      P (.expr (.conditional e f g)) ∧ Everywhere P (.expr e) ∧
        Everywhere P (.expr f) ∧ Everywhere P (.expr g) := by
  rw [everywhere_iff]
  simp [children, ofExpr]

end Expressions

end Node

/-- Steps that leave something leave something all together. -/
theorem foldl_ne_nil {α β : Type} {step : List α → β → List α}
    (hstep : ∀ row b, row ≠ [] → step row b ≠ []) (bs : List β) {row : List α}
    (h : row ≠ []) : bs.foldl step row ≠ [] := by
  induction bs generalizing row with
  | nil => exact h
  | cons b bs ih => exact ih (hstep row b h)

namespace Table

variable {α : Type}

theorem mem_of_mem_insert {name : String} {value : α} {pair : String × α}
    {table : List (String × α)} (h : pair ∈ insert name value table) :
    pair = (name, value) ∨ pair ∈ table := by
  induction table with
  | nil => exact Or.inl (List.mem_singleton.1 h)
  | cons head rest ih =>
      obtain ⟨other, old⟩ := head
      by_cases hname : other = name
      · simp only [insert, hname, if_true, List.mem_cons] at h
        rcases h with h | h
        · exact Or.inl h
        · exact Or.inr (List.mem_cons_of_mem _ h)
      · simp only [insert, hname, if_false, List.mem_cons] at h
        rcases h with rfl | h
        · exact Or.inr List.mem_cons_self
        · rcases ih h with h | h
          · exact Or.inl h
          · exact Or.inr (List.mem_cons_of_mem _ h)

theorem mem_of_mem_register {name : String} {value : α} {pair : String × α}
    {table : List (String × α)} (h : pair ∈ register name value table) :
    pair = (name, value) ∨ pair ∈ table := by
  rw [register, List.mem_append, List.mem_singleton] at h
  rcases h with h | h
  · exact Or.inr (List.mem_filter.1 h).1
  · exact Or.inl h

theorem mem_of_mem_foldl
    {step : List (String × α) → String × α → List (String × α)}
    (hstep : ∀ {table new pair}, pair ∈ step table new → pair = new ∨ pair ∈ table)
    (pairs : List (String × α)) {table : List (String × α)} {pair : String × α}
    (h : pair ∈ pairs.foldl step table) : pair ∈ pairs ∨ pair ∈ table := by
  induction pairs generalizing table with
  | nil => exact Or.inr h
  | cons new pairs ih =>
      rcases ih h with hmem | hmem
      · exact Or.inl (List.mem_cons_of_mem new hmem)
      · rcases hstep hmem with rfl | hmem
        · exact Or.inl List.mem_cons_self
        · exact Or.inr hmem

theorem mem_of_mem_ofPairs {pairs : List (String × α)} {pair : String × α}
    (h : pair ∈ ofPairs pairs) : pair ∈ pairs := by
  rcases mem_of_mem_foldl mem_of_mem_insert pairs h with h | h
  · exact h
  · cases h

theorem mem_of_mem_ofRegistered {pairs : List (String × α)} {pair : String × α}
    (h : pair ∈ ofRegistered pairs) : pair ∈ pairs := by
  rcases mem_of_mem_foldl mem_of_mem_register pairs h with h | h
  · exact h
  · cases h

theorem insert_ne_nil (name : String) (value : α) (table : List (String × α)) :
    insert name value table ≠ [] := by
  cases table with
  | nil => simp [insert]
  | cons head rest =>
      rw [insert]
      split <;> simp

theorem ofPairs_ne_nil {pairs : List (String × α)} (h : pairs ≠ []) :
    ofPairs pairs ≠ [] := by
  cases pairs with
  | nil => exact absurd rfl h
  | cons pair pairs =>
      exact foldl_ne_nil (fun table pair _ => insert_ne_nil pair.1 pair.2 table) pairs
        (insert_ne_nil pair.1 pair.2 [])

theorem insert_of_notMem {name : String} {value : α} {table : List (String × α)}
    (h : name ∉ names table) : insert name value table = table ++ [(name, value)] := by
  induction table with
  | nil => rfl
  | cons head rest ih =>
      obtain ⟨other, old⟩ := head
      have hne : other ≠ name := fun heq => h (heq ▸ List.mem_cons_self)
      rw [insert, if_neg hne, ih fun hmem => h (List.mem_cons_of_mem other hmem)]
      rfl

theorem register_of_notMem {name : String} {value : α} {table : List (String × α)}
    (h : name ∉ names table) : register name value table = table ++ [(name, value)] := by
  have herase : erase name table = table := by
    rw [erase, List.filter_eq_self]
    intro pair hpair
    have hne : pair.1 ≠ name := fun heq => h (heq ▸ List.mem_map_of_mem hpair)
    simpa using hne
  rw [register, herase]

/-- Steps that add new names at the end keep a row of pairs without repeated
names as it is. -/
theorem foldl_eq_append
    {step : List (String × α) → String × α → List (String × α)}
    (hstep : ∀ {table name value}, name ∉ names table →
      step table (name, value) = table ++ [(name, value)])
    {pairs table : List (String × α)} (h : Unique (table ++ pairs)) :
    pairs.foldl step table = table ++ pairs := by
  induction pairs generalizing table with
  | nil => simp
  | cons pair pairs ih =>
      obtain ⟨name, value⟩ := pair
      have hnew : name ∉ names table := by
        intro hmem
        rw [Unique, names, List.map_append, List.nodup_append] at h
        exact h.2.2 name hmem name List.mem_cons_self rfl
      rw [List.foldl_cons, hstep hnew, ih, List.append_assoc]
      · rfl
      · rwa [List.append_assoc]

theorem ofPairs_eq_self {pairs : List (String × α)} (h : Unique pairs) :
    ofPairs pairs = pairs :=
  foldl_eq_append insert_of_notMem h

theorem ofRegistered_eq_self {pairs : List (String × α)} (h : Unique pairs) :
    ofRegistered pairs = pairs :=
  foldl_eq_append register_of_notMem h

end Table

end L20n
