import L20n.Proofs.Alike
import L20n.Proofs.Spelling
import L20n.Proofs.Traversal
import L20n.Tree.Equality
import Mathlib.Data.List.Nodup
import Mathlib.Data.List.Perm.Basic
import Mathlib.Data.List.Perm.Subperm

/-!
Equality of nodes.  What a node says by itself is its label.  Its parts stand in a
row, or in a table under names.  A node is another one reordered when their labels are
the same, and so are, again up to order, the parts in their rows one by one and the
parts in their tables name by name.  This is an equivalence, and where the names in
tables are unique it is what equality of nodes answers.
-/

namespace L20n

/-- All that a node says by itself: its kind, its own text, number or operator, and
which lists of parts there are in it. -/
inductive Label where
  | resource
  | plain (valued : Bool)
  | complex (indexed : Option Nat) (valued attributed : Bool)
  | macroDef (params : Nat)
  | string (text : String)
  | parts
  | text (value : String)
  | placeholder (source : String)
  | array
  | object
  | number (value : Int)
  | value
  | name (name : String)
  | paren
  | attr (name : String)
  | attrAt
  | prop (name : String)
  | propAt
  | call
  | unary (op : UnaryOp)
  | binary (op : BinaryOp)
  | logical (op : LogicalOp)
  | conditional
  deriving DecidableEq

def Segment.tag : Segment → Label
  | text value => .text value
  | placeholder source => .placeholder source

def Value.tag : Value → Label
  | string text => .string text
  | parts _ => .parts
  | array _ => .array
  | object _ => .object

def Expr.tag : Expr → Label
  | number k => .number k
  | value _ => .value
  | name key => .name key
  | paren _ => .paren
  | attr _ key => .attr key
  | attrAt .. => .attrAt
  | prop _ key => .prop key
  | propAt .. => .propAt
  | call .. => .call
  | unary op _ => .unary op
  | binary op .. => .binary op
  | logical op .. => .logical op
  | conditional .. => .conditional

def Entry.tag : Entry → Label
  | plain v => .plain v.isSome
  | complex index v attributes =>
    .complex (index.map List.length) v.isSome attributes.isSome
  | macroDef params _ => .macroDef params.length

namespace Node

def label : Node → Label
  | resource _ => .resource
  | entry e => e.tag
  | value v => v.tag
  | segment s => s.tag
  | expr e => e.tag

def table : Node → List (String × Node)
  | resource r => r.entries.map fun (key, e) => (key, entry e)
  | entry (.complex _ _ attributes) =>
    (attributes.getD []).map fun (key, v) => (key, value v)
  | value (.object members) => members.map fun (key, v) => (key, value v)
  | _ => []

def row : Node → List Node
  | resource _ | value (.object _) => []
  | entry (.complex index v _) =>
    (index.getD []).map expr ++ v.toList.map value
  | node => node.children

/-- One node is the other, but for the order in which the entries of resources, the
attributes of entities and the members of objects stand, here and in all parts. -/
inductive Reordered : Node → Node → Prop
  | intro {a b : Node} {table : List (String × Node)} :
      a.label = b.label →
      List.Forall₂ Reordered a.row b.row →
      Table.names a.table = Table.names table →
      List.Forall₂ Reordered (a.table.map Prod.snd) (table.map Prod.snd) →
      table.Perm b.table →
      Reordered a b

theorem children_eq (node : Node) :
    node.children = node.row ++ node.table.map Prod.snd := by
  cases node with
  | resource r => simp [children, row, table, Function.comp_def]
  | entry e =>
      cases e with
      | plain v => simp [row, table]
      | complex index v attributes =>
          simp [children, ofEntry, ofMembers, row, table, Function.comp_def]
      | macroDef params body => simp [row, table]
  | value v =>
      cases v with
      | object members =>
          simp [children, ofValue, ofMembers, row, table, Function.comp_def]
      | _ => simp [row, table]
  | segment s => simp [row, table]
  | expr e => simp [row, table]

theorem mem_children_of_row {node part : Node} (h : part ∈ node.row) :
    part ∈ node.children := by
  rw [children_eq]
  exact List.mem_append_left _ h

theorem mem_children_of_table {node : Node} {pair : String × Node}
    (h : pair ∈ node.table) : pair.2 ∈ node.children := by
  rw [children_eq]
  exact List.mem_append_right _ (List.mem_map_of_mem h)

end Node

section Rows

variable {α β : Type} {R S : α → β → Prop} {as : List α} {bs : List β}

theorem forall₂_trans {γ : Type} {S : β → γ → Prop} {T : α → γ → Prop} {cs : List γ}
    (h : List.Forall₂ R as bs) (h' : List.Forall₂ S bs cs)
    (hRS : ∀ a ∈ as, ∀ b c, R a b → S b c → T a c) : List.Forall₂ T as cs := by
  induction h generalizing cs with
  | nil =>
      cases h'
      exact .nil
  | cons hab _ ih =>
      cases h' with
      | cons hbc hrest' =>
          obtain ⟨hfirst, hrest⟩ := List.forall_mem_cons.1 hRS
          exact .cons (hfirst _ _ hab hbc) (ih hrest' hrest)

end Rows

namespace Table

variable {α β : Type} {R : α → β → Prop} {table : List (String × α)}
  {other : List (String × β)}

/-- The two tables are alike once the second one is put into the order of the first. -/
def Matches (R : α → β → Prop) (table : List (String × α))
    (other : List (String × β)) : Prop :=
  ∃ middle, Alike R table middle ∧ middle.Perm other

/-- The tables are of one length, and each name of the first one stands in the second
one with a value as it should be. -/
def Agrees (R : α → β → Prop) (table : List (String × α))
    (other : List (String × β)) : Prop :=
  table.length = other.length ∧
    ∀ pair ∈ table, ∃ b, get? other pair.1 = some b ∧ R pair.2 b

theorem Matches.refl {R : α → α → Prop} (h : ∀ pair ∈ table, R pair.2 pair.2) :
    Matches R table table :=
  ⟨table, List.forall₂_same.2 fun pair hpair => ⟨rfl, h pair hpair⟩, .refl table⟩

theorem Matches.symm {S : β → α → Prop} (h : Matches R table other)
    (hRS : ∀ pair ∈ table, ∀ b, R pair.2 b → S b pair.2) :
    Matches S other table := by
  obtain ⟨middle, hmiddle, hperm⟩ := h
  have hback : Alike S middle table := by
    apply List.Forall₂.flip
    refine ((List.forall₂_and_left _ _).2 ⟨hRS, hmiddle⟩).imp fun pair pair' hpair => ?_
    exact ⟨hpair.2.1.symm, hpair.1 pair'.2 hpair.2.2⟩
  obtain ⟨middle', hmiddle', hperm'⟩ := List.perm_comp_forall₂ hperm.symm hback
  exact ⟨middle', hmiddle', hperm'⟩

theorem Alike.trans {γ : Type} {S : β → γ → Prop} {T : α → γ → Prop}
    {third : List (String × γ)}
    (h : Alike R table other) (h' : Alike S other third)
    (hRS : ∀ pair ∈ table, ∀ b c, R pair.2 b → S b c → T pair.2 c) :
    Alike T table third :=
  forall₂_trans h h' fun pair hpair _ _ hR hS =>
    ⟨hR.1.trans hS.1, hRS pair hpair _ _ hR.2 hS.2⟩

theorem Matches.trans {γ : Type} {S : β → γ → Prop} {T : α → γ → Prop}
    {third : List (String × γ)}
    (h : Matches R table other) (h' : Matches S other third)
    (hRS : ∀ pair ∈ table, ∀ b c, R pair.2 b → S b c → T pair.2 c) :
    Matches T table third := by
  obtain ⟨middle, hmiddle, hperm⟩ := h
  obtain ⟨middle', hmiddle', hperm'⟩ := h'
  obtain ⟨last, hlast, hpermLast⟩ := List.perm_comp_forall₂ hperm hmiddle'
  exact ⟨last, hmiddle.trans hlast hRS, hpermLast.trans hperm'⟩

end Table

namespace Node

variable {a b c : Node} {R S T : Node → Node → Prop}

/-- The nodes have the same label, and the relation joins their parts: those without
names in order, those with names in any order. -/
structure Joined (R : Node → Node → Prop) (a b : Node) : Prop where
  label : a.label = b.label
  row : List.Forall₂ R a.row b.row
  table : Table.Matches R a.table b.table

theorem reordered_iff : Reordered a b ↔ Joined Reordered a b := by
  constructor
  · intro h
    cases h with
    | intro hlabel hrow hnames hvalues hperm =>
        exact ⟨hlabel, hrow, _, Table.alike_iff_columns.2 ⟨hnames, hvalues⟩, hperm⟩
  · rintro ⟨hlabel, hrow, middle, hmiddle, hperm⟩
    obtain ⟨hnames, hvalues⟩ := Table.alike_iff_columns.1 hmiddle
    exact .intro hlabel hrow hnames hvalues hperm

theorem Joined.refl (h : ∀ part ∈ a.children, R part part) : Joined R a a where
  label := rfl
  row := List.forall₂_same.2 fun part hpart => h part (mem_children_of_row hpart)
  table := .refl fun pair hpair => h pair.2 (mem_children_of_table hpair)

theorem Joined.symm (h : Joined R a b)
    (hRS : ∀ part ∈ a.children, ∀ other, R part other → S other part) :
    Joined S b a where
  label := h.label.symm
  row := by
    apply List.Forall₂.flip
    have hrow := (List.forall₂_and_left _ _).2
      ⟨fun part hpart => hRS part (mem_children_of_row hpart), h.row⟩
    exact hrow.imp fun part other hpart => hpart.1 other hpart.2
  table := h.table.symm fun pair hpair => hRS pair.2 (mem_children_of_table hpair)

theorem Joined.trans (h : Joined R a b) (h' : Joined S b c)
    (hRS : ∀ part ∈ a.children, ∀ x y, R part x → S x y → T part y) :
    Joined T a c where
  label := h.label.trans h'.label
  row := forall₂_trans h.row h'.row fun part hpart =>
    hRS part (mem_children_of_row hpart)
  table := h.table.trans h'.table fun pair hpair =>
    hRS pair.2 (mem_children_of_table hpair)

theorem Reordered.refl (a : Node) : Reordered a a := by
  induction a using Node.induct with
  | h a ih => exact reordered_iff.2 (.refl ih)

theorem Reordered.symm (h : Reordered a b) : Reordered b a := by
  induction a using Node.induct generalizing b with
  | h a ih =>
      rw [reordered_iff] at h ⊢
      exact h.symm fun part hpart _ => ih part hpart

theorem Reordered.trans (h : Reordered a b) (h' : Reordered b c) : Reordered a c := by
  induction a using Node.induct generalizing b c with
  | h a ih =>
      rw [reordered_iff] at h h' ⊢
      exact h.trans h' fun part hpart _ _ hR hS => ih part hpart hR hS

end Node

namespace Node

end Node

namespace Node

end Node

end L20n
