import L20n.Tree
import Mathlib.Data.List.Forall2

/-!
Trees that are alike.  Two trees are alike when they differ in their strings
only: a relation says which string may stand for which, and everything else,
names and their order included, is the same.  Where that relation is equality,
trees that are alike are equal.
-/

namespace L20n

namespace Table

variable {α β : Type} {R : α → β → Prop} {table : List (String × α)}
  {other : List (String × β)}

/-- The same names in the same order, with values related one by one. -/
def Alike (R : α → β → Prop) :
    List (String × α) → List (String × β) → Prop :=
  List.Forall₂ fun pair pair' => pair.1 = pair'.1 ∧ R pair.2 pair'.2

theorem alike_iff_columns :
    Alike R table other ↔ names table = names other ∧
      List.Forall₂ R (table.map Prod.snd) (other.map Prod.snd) := by
  induction table generalizing other with
  | nil =>
      rw [Alike, List.forall₂_nil_left_iff, List.map_nil,
        List.forall₂_nil_left_iff, List.map_eq_nil_iff]
      constructor
      · intro h
        exact ⟨by rw [h]; rfl, h⟩
      · exact And.right
  | cons pair table ih =>
      cases other with
      | nil => simp [Alike, names]
      | cons pair' other =>
          rw [Alike, List.forall₂_cons, ← Alike, ih]
          simp only [names, List.map_cons, List.cons.injEq, List.forall₂_cons]
          constructor
          · intro h
            exact ⟨⟨h.1.1, h.2.1⟩, h.1.2, h.2.2⟩
          · intro h
            exact ⟨⟨h.1.1, h.2.1⟩, h.1.2, h.2.2⟩

theorem Alike.names_eq (h : Alike R table other) : names table = names other :=
  (alike_iff_columns.1 h).1

theorem Alike.unique (h : Alike R table other) (hunique : Unique table) :
    Unique other := by
  rw [Unique, ← h.names_eq]
  exact hunique

/-- What carries over from value to value carries over from table to table. -/
theorem Alike.forall_left {P : α → Prop} {Q : β → Prop}
    (hPQ : ∀ {a b}, R a b → Q b → P a) (h : Alike R table other)
    (hother : ∀ pair ∈ other, Q pair.2) : ∀ pair ∈ table, P pair.2 := by
  induction h with
  | nil => simp
  | cons hpair _ ih =>
      obtain ⟨hfirst, hrest⟩ := List.forall_mem_cons.1 hother
      exact List.forall_mem_cons.2 ⟨hPQ hpair.2 hfirst, ih hrest⟩

theorem Alike.mono {S : α → β → Prop} (hRS : ∀ {a b}, R a b → S a b)
    (h : Alike R table other) : Alike S table other :=
  List.Forall₂.imp (fun _ _ hpair => ⟨hpair.1, hRS hpair.2⟩) h

theorem Alike.insert (h : Alike R table other) (name : String) {a : α} {b : β}
    (hab : R a b) :
    Alike R (insert name a table) (Table.insert name b other) := by
  induction h with
  | nil => exact .cons ⟨rfl, hab⟩ .nil
  | @cons pair pair' rest rest' hpair hrest ih =>
      obtain ⟨first, old⟩ := pair
      obtain ⟨first', old'⟩ := pair'
      obtain ⟨rfl, hold⟩ : first = first' ∧ R old old' := hpair
      by_cases hname : first = name
      · simp only [Table.insert, hname, if_true]
        exact .cons ⟨rfl, hab⟩ hrest
      · simp only [Table.insert, hname, if_false]
        exact .cons ⟨rfl, hold⟩ ih

theorem Alike.erase (h : Alike R table other) (name : String) :
    Alike R (erase name table) (Table.erase name other) := by
  induction h with
  | nil => exact .nil
  | @cons pair pair' rest rest' hpair hrest ih =>
      by_cases hname : pair'.1 = name
      · simpa [Table.erase, hpair.1, hname] using ih
      · have hcons : Alike R (pair :: Table.erase name rest)
            (pair' :: Table.erase name rest') := .cons hpair ih
        simpa [Table.erase, hpair.1, hname] using hcons

theorem Alike.register (h : Alike R table other) (name : String) {a : α} {b : β}
    (hab : R a b) :
    Alike R (register name a table) (Table.register name b other) :=
  List.rel_append (h.erase name) (.cons ⟨rfl, hab⟩ .nil)

/-- Tables that are built alike from rows that are alike are alike. -/
theorem Alike.foldl {step : List (String × α) → String × α → List (String × α)}
    {step' : List (String × β) → String × β → List (String × β)}
    (hstep : ∀ {table other pair pair'}, Alike R table other →
      pair.1 = pair'.1 ∧ R pair.2 pair'.2 → Alike R (step table pair) (step' other pair'))
    {pairs : List (String × α)} {pairs' : List (String × β)}
    (hpairs : Alike R pairs pairs') (h : Alike R table other) :
    Alike R (pairs.foldl step table) (pairs'.foldl step' other) := by
  induction hpairs generalizing table other with
  | nil => exact h
  | cons hpair _ ih => exact ih (hstep h hpair)

theorem Alike.ofPairs {pairs : List (String × α)} {pairs' : List (String × β)}
    (h : Alike R pairs pairs') : Alike R (ofPairs pairs) (Table.ofPairs pairs') := by
  refine Alike.foldl (fun {_ _ pair pair'} htable hpair => ?_) h .nil
  change Alike R (Table.insert pair.1 pair.2 _) (Table.insert pair'.1 pair'.2 _)
  rw [hpair.1]
  exact htable.insert pair'.1 hpair.2

theorem Alike.ofRegistered {pairs : List (String × α)} {pairs' : List (String × β)}
    (h : Alike R pairs pairs') :
    Alike R (ofRegistered pairs) (Table.ofRegistered pairs') := by
  refine Alike.foldl (fun {_ _ pair pair'} htable hpair => ?_) h .nil
  change Alike R (Table.register pair.1 pair.2 _) (Table.register pair'.1 pair'.2 _)
  rw [hpair.1]
  exact htable.register pair'.1 hpair.2

theorem Alike.eq {table other : List (String × α)} (h : Alike Eq table other) :
    table = other := by
  have hpairs : (fun pair pair' : String × α => pair.1 = pair'.1 ∧ pair.2 = pair'.2) =
      Eq := by
    funext pair pair'
    exact propext Prod.ext_iff.symm
  rwa [Alike, hpairs, List.forall₂_eq_eq_eq] at h

end Table

/-- Values that are alike: strings stand for strings as `leaf` says. -/
inductive Value.Alike (leaf : Value → Value → Prop) : Value → Value → Prop
  | leaf {v w} : leaf v w → Alike leaf v w
  | array {items others} :
      List.Forall₂ (Alike leaf) items others →
      Alike leaf (.array items) (.array others)
  | object {members others} :
      Table.names members = Table.names others →
      List.Forall₂ (Alike leaf) (members.map Prod.snd) (others.map Prod.snd) →
      Alike leaf (.object members) (.object others)

inductive Expr.Alike (leaf : Value → Value → Prop) : Expr → Expr → Prop
  | number (k : Int) : Alike leaf (.number k) (.number k)
  | value {v w} : v.Alike leaf w → Alike leaf (.value v) (.value w)
  | name (key : String) : Alike leaf (.name key) (.name key)
  | paren {e f} : Alike leaf e f → Alike leaf (.paren e) (.paren f)
  | attr {base other} (key : String) :
      Alike leaf base other → Alike leaf (.attr base key) (.attr other key)
  | attrAt {base other index index'} :
      Alike leaf base other → Alike leaf index index' →
      Alike leaf (.attrAt base index) (.attrAt other index')
  | prop {base other} (key : String) :
      Alike leaf base other → Alike leaf (.prop base key) (.prop other key)
  | propAt {base other index index'} :
      Alike leaf base other → Alike leaf index index' →
      Alike leaf (.propAt base index) (.propAt other index')
  | call {base other arguments others} :
      Alike leaf base other → List.Forall₂ (Alike leaf) arguments others →
      Alike leaf (.call base arguments) (.call other others)
  | unary (op : UnaryOp) {e f} :
      Alike leaf e f → Alike leaf (.unary op e) (.unary op f)
  | binary (op : BinaryOp) {left left' right right'} :
      Alike leaf left left' → Alike leaf right right' →
      Alike leaf (.binary op left right) (.binary op left' right')
  | logical (op : LogicalOp) {left left' right right'} :
      Alike leaf left left' → Alike leaf right right' →
      Alike leaf (.logical op left right) (.logical op left' right')
  | conditional {test test' yes yes' no no'} :
      Alike leaf test test' → Alike leaf yes yes' → Alike leaf no no' →
      Alike leaf (.conditional test yes no) (.conditional test' yes' no')

/-- Entries of one kind whose parts are alike, and absent in one where they are
absent in the other. -/
inductive Entry.Alike (leaf : Value → Value → Prop) : Entry → Entry → Prop
  | plain {v w} : Option.Rel (Value.Alike leaf) v w → Alike leaf (.plain v) (.plain w)
  | complex {index index' v w attributes attributes'} :
      Option.Rel (List.Forall₂ (Expr.Alike leaf)) index index' →
      Option.Rel (Value.Alike leaf) v w →
      Option.Rel (Table.Alike (Value.Alike leaf)) attributes attributes' →
      Alike leaf (.complex index v attributes) (.complex index' w attributes')
  | macroDef {params params' body body'} :
      List.Forall₂ (Expr.Alike leaf) params params' → body.Alike leaf body' →
      Alike leaf (.macroDef params body) (.macroDef params' body')

def Resource.Alike (leaf : Value → Value → Prop) (r other : Resource) : Prop :=
  Table.Alike (Entry.Alike leaf) r.entries other.entries

theorem Value.alike_object {leaf : Value → Value → Prop}
    {members others : List (String × Value)}
    (h : Table.Alike (Value.Alike leaf) members others) :
    Value.Alike leaf (.object members) (.object others) :=
  .object (Table.alike_iff_columns.1 h).1 (Table.alike_iff_columns.1 h).2

mutual

theorem Value.eq_of_alike : ∀ {v w : Value}, v.Alike Eq w → v = w
  | _, _, .leaf h => h
  | .array items, _, .array h => by rw [Value.eq_of_alike_items h]
  | .object members, _, .object hnames h => by
      rw [Value.eq_of_alike_members hnames h]

theorem Value.eq_of_alike_items : ∀ {items others : List Value},
    List.Forall₂ (Value.Alike Eq) items others → items = others
  | [], _, .nil => rfl
  | v :: items, _, .cons hv h => by
      rw [Value.eq_of_alike hv, Value.eq_of_alike_items h]

theorem Value.eq_of_alike_members : ∀ {members others : List (String × Value)},
    Table.names members = Table.names others →
    List.Forall₂ (Value.Alike Eq) (members.map Prod.snd) (others.map Prod.snd) →
    members = others
  | [], [], _, _ => rfl
  | (key, v) :: members, (key', w) :: others, hnames, .cons hv h => by
      have hv : v = w := Value.eq_of_alike hv
      have hkey : key = key' := (List.cons.inj hnames).1
      have hrest := Value.eq_of_alike_members (List.cons.inj hnames).2 h
      rw [hkey, hv, hrest]

end

mutual

theorem Expr.eq_of_alike : ∀ {e f : Expr}, e.Alike Eq f → e = f
  | _, _, .number _ => rfl
  | _, _, .value h => by rw [Value.eq_of_alike h]
  | _, _, .name _ => rfl
  | .paren e, _, .paren h => by rw [Expr.eq_of_alike h]
  | .attr base _, _, .attr _ h => by rw [Expr.eq_of_alike h]
  | .attrAt base index, _, .attrAt h h' => by
      rw [Expr.eq_of_alike h, Expr.eq_of_alike h']
  | .prop base _, _, .prop _ h => by rw [Expr.eq_of_alike h]
  | .propAt base index, _, .propAt h h' => by
      rw [Expr.eq_of_alike h, Expr.eq_of_alike h']
  | .call base arguments, _, .call h h' => by
      rw [Expr.eq_of_alike h, Expr.eq_of_alike_row h']
  | .unary _ e, _, .unary _ h => by rw [Expr.eq_of_alike h]
  | .binary _ left right, _, .binary _ h h' => by
      rw [Expr.eq_of_alike h, Expr.eq_of_alike h']
  | .logical _ left right, _, .logical _ h h' => by
      rw [Expr.eq_of_alike h, Expr.eq_of_alike h']
  | .conditional test yes no, _, .conditional htest hyes hno => by
      rw [Expr.eq_of_alike htest, Expr.eq_of_alike hyes, Expr.eq_of_alike hno]

theorem Expr.eq_of_alike_row : ∀ {es fs : List Expr},
    List.Forall₂ (Expr.Alike Eq) es fs → es = fs
  | [], _, .nil => rfl
  | e :: es, _, .cons he h => by
      rw [Expr.eq_of_alike he, Expr.eq_of_alike_row h]

end

theorem eq_of_optionRel {α : Type} {R : α → α → Prop}
    (heq : ∀ {a b}, R a b → a = b) {a b : Option α} (h : Option.Rel R a b) :
    a = b := by
  cases h with
  | none => rfl
  | some hab => rw [heq hab]

theorem Entry.eq_of_alike {e f : Entry} (h : e.Alike Eq f) : e = f := by
  cases h with
  | plain hv => rw [eq_of_optionRel Value.eq_of_alike hv]
  | complex hindex hv hattributes =>
      rw [eq_of_optionRel Expr.eq_of_alike_row hindex,
        eq_of_optionRel Value.eq_of_alike hv,
        eq_of_optionRel (fun h => (h.mono Value.eq_of_alike).eq) hattributes]
  | macroDef hparams hbody =>
      rw [Expr.eq_of_alike_row hparams, Expr.eq_of_alike hbody]

/-- Resources that are alike up to equal strings are equal. -/
theorem Resource.eq_of_alike {r other : Resource} (h : r.Alike Eq other) :
    r = other :=
  congrArg Resource.mk (Table.Alike.mono Entry.eq_of_alike h).eq

end L20n
