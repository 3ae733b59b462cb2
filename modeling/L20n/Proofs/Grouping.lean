import L20n.Proofs.Shape

/-!
Parentheses where a tree leaves them out.  A source groups operands by how tightly
they bind, so an operand that binds less tightly than its place allows can be read
there in parentheses only.  Grouping a tree puts it into them; and it writes an
entity in the one form in which it is read, without a table of attributes that is
empty and as a plain one if there is nothing else to it.
-/

namespace L20n

open Node

/-- The expression, in parentheses if it binds less tightly than is allowed. -/
def Expr.fitted (allowed : Level) (e : Expr) : Expr :=
  if e.level ≤ allowed then e else .paren e

mutual

/-- The expression with every operand fitted to its place. -/
def Expr.grouped : Expr → Expr
  | .number k => .number k
  | .value v => .value v
  | .name key => .name key
  | .paren e => .paren e.grouped
  | .attr base key => .attr (base.grouped.fitted .member) key
  | .attrAt base index => .attrAt (base.grouped.fitted .member) index.grouped
  | .prop base key => .prop (base.grouped.fitted .member) key
  | .propAt base index => .propAt (base.grouped.fitted .member) index.grouped
  | .call base arguments => .call (base.grouped.fitted .member) (groupedExprs arguments)
  | .unary op e => .unary op (e.grouped.fitted .member)
  | .binary op left right =>
    .binary op (left.grouped.fitted .unary) (right.grouped.fitted .binary)
  | .logical op left right =>
    .logical op (left.grouped.fitted .binary) (right.grouped.fitted .logical)
  | .conditional test consequent alternate =>
    .conditional (test.grouped.fitted .logical) consequent.grouped alternate.grouped

def groupedExprs : List Expr → List Expr
  | [] => []
  | e :: rest => e.grouped :: groupedExprs rest

end

/-- The entry with its expressions grouped, in the form in which it is read. -/
def Entry.grouped : Entry → Entry
  | .plain v => .plain v
  | .complex none v none | .complex none v (some []) => .plain v
  | .complex (some index) v none | .complex (some index) v (some []) =>
    .complex (some (groupedExprs index)) v none
  | .complex index v (some (pair :: pairs)) =>
    .complex (index.map groupedExprs) v (some (pair :: pairs))
  | .macroDef params body => .macroDef (groupedExprs params) body.grouped

def Resource.grouped (r : Resource) : Resource :=
  ⟨r.entries.map fun (key, e) => (key, e.grouped)⟩

section Levels

variable {e : Expr} {allowed : Level}

theorem Expr.fitted_of_le (h : e.level ≤ allowed) : e.fitted allowed = e :=
  if_pos h

theorem Expr.fitted_of_not_le (h : ¬ e.level ≤ allowed) : e.fitted allowed = .paren e :=
  if_neg h

theorem Expr.level_grouped (e : Expr) : e.grouped.level = e.level := by
  cases e <;> rfl

end Levels

/-- Operands of the part bind as tightly as their places ask. -/
def Node.Fits : Node → Prop
  | .expr e => e.Leveled
  | _ => True

theorem Expr.fitted_of_member {e : Expr} (h : e.level = .member) :
    e.fitted .member = e := by
  rw [fitted_of_le]
  rw [h]
  decide

mutual

theorem Expr.grouped_eq_self : ∀ e : Expr, Everywhere Fits (.expr e) → e.grouped = e
  | .number _, _ => rfl
  | .value _, _ => rfl
  | .name _, _ => rfl
  | .paren e, h => by
      rw [everywhere_paren] at h
      rw [Expr.grouped, Expr.grouped_eq_self e h.2]
  | .attr base _, h => by
      rw [everywhere_attr] at h
      rw [Expr.grouped, Expr.grouped_eq_self base h.2, Expr.fitted_of_member h.1]
  | .attrAt base index, h => by
      obtain ⟨hlevel, hbase, hindex⟩ := everywhere_attrAt.1 h
      rw [Expr.grouped, Expr.grouped_eq_self base hbase, Expr.fitted_of_member hlevel,
        Expr.grouped_eq_self index hindex]
  | .prop base _, h => by
      rw [everywhere_prop] at h
      rw [Expr.grouped, Expr.grouped_eq_self base h.2, Expr.fitted_of_member h.1]
  | .propAt base index, h => by
      obtain ⟨hlevel, hbase, hindex⟩ := everywhere_propAt.1 h
      rw [Expr.grouped, Expr.grouped_eq_self base hbase, Expr.fitted_of_member hlevel,
        Expr.grouped_eq_self index hindex]
  | .call base arguments, h => by
      obtain ⟨hlevel, hbase, harguments⟩ := everywhere_call.1 h
      rw [Expr.grouped, Expr.grouped_eq_self base hbase, Expr.fitted_of_member hlevel,
        groupedExprs_eq_self arguments harguments]
  | .unary _ e, h => by
      rw [everywhere_unary] at h
      rw [Expr.grouped, Expr.grouped_eq_self e h.2, Expr.fitted_of_member h.1]
  | .binary _ left right, h => by
      obtain ⟨hlevels, hleft, hright⟩ := everywhere_binary.1 h
      rw [Expr.grouped, Expr.grouped_eq_self left hleft, Expr.fitted_of_le hlevels.1,
        Expr.grouped_eq_self right hright, Expr.fitted_of_le hlevels.2]
  | .logical _ left right, h => by
      obtain ⟨hlevels, hleft, hright⟩ := everywhere_logical.1 h
      rw [Expr.grouped, Expr.grouped_eq_self left hleft, Expr.fitted_of_le hlevels.1,
        Expr.grouped_eq_self right hright, Expr.fitted_of_le hlevels.2]
  | .conditional test consequent alternate, h => by
      obtain ⟨hlevel, htest, hyes, hno⟩ := everywhere_conditional.1 h
      rw [Expr.grouped, Expr.grouped_eq_self test htest, Expr.fitted_of_le hlevel,
        Expr.grouped_eq_self consequent hyes, Expr.grouped_eq_self alternate hno]

theorem groupedExprs_eq_self : ∀ es : List Expr,
    (∀ e ∈ es, Everywhere Fits (.expr e)) → groupedExprs es = es
  | [], _ => rfl
  | e :: es, h => by
      obtain ⟨he, hes⟩ := List.forall_mem_cons.1 h
      rw [groupedExprs, Expr.grouped_eq_self e he, groupedExprs_eq_self es hes]

end

mutual

/-- The expression with no parentheses at all. -/
def Expr.bare : Expr → Expr
  | .number k => .number k
  | .value v => .value v
  | .name key => .name key
  | .paren e => e.bare
  | .attr base key => .attr base.bare key
  | .attrAt base index => .attrAt base.bare index.bare
  | .prop base key => .prop base.bare key
  | .propAt base index => .propAt base.bare index.bare
  | .call base arguments => .call base.bare (bareExprs arguments)
  | .unary op e => .unary op e.bare
  | .binary op left right => .binary op left.bare right.bare
  | .logical op left right => .logical op left.bare right.bare
  | .conditional test consequent alternate =>
    .conditional test.bare consequent.bare alternate.bare

def bareExprs : List Expr → List Expr
  | [] => []
  | e :: rest => e.bare :: bareExprs rest

end

theorem Expr.bare_fitted (e : Expr) (allowed : Level) :
    (e.fitted allowed).bare = e.bare := by
  by_cases h : e.level ≤ allowed
  · rw [fitted_of_le h]
  · rw [fitted_of_not_le h, bare]

mutual

/-- Grouping adds nothing but parentheses. -/
theorem Expr.bare_grouped : ∀ e : Expr, e.grouped.bare = e.bare
  | .number _ => rfl
  | .value _ => rfl
  | .name _ => rfl
  | .paren e => Expr.bare_grouped e
  | .attr base _ | .prop base _ => by
      simp only [Expr.grouped, Expr.bare, Expr.bare_fitted, Expr.bare_grouped base]
  | .attrAt base index | .propAt base index => by
      simp only [Expr.grouped, Expr.bare, Expr.bare_fitted, Expr.bare_grouped base,
        Expr.bare_grouped index]
  | .call base arguments => by
      simp only [Expr.grouped, Expr.bare, Expr.bare_fitted, Expr.bare_grouped base,
        bareExprs_grouped arguments]
  | .unary _ e => by
      simp only [Expr.grouped, Expr.bare, Expr.bare_fitted, Expr.bare_grouped e]
  | .binary _ left right | .logical _ left right => by
      simp only [Expr.grouped, Expr.bare, Expr.bare_fitted, Expr.bare_grouped left,
        Expr.bare_grouped right]
  | .conditional test consequent alternate => by
      simp only [Expr.grouped, Expr.bare, Expr.bare_fitted, Expr.bare_grouped test,
        Expr.bare_grouped consequent, Expr.bare_grouped alternate]

theorem bareExprs_grouped : ∀ es : List Expr, bareExprs (groupedExprs es) = bareExprs es
  | [] => rfl
  | e :: es => by
      simp only [groupedExprs, bareExprs, Expr.bare_grouped e, bareExprs_grouped es]

end

/-- The expressions of an entry: those of its index, or its parameters and its
body. -/
def Entry.exprs : Entry → List Expr
  | .plain _ => []
  | .complex index _ _ => index.getD []
  | .macroDef params body => params ++ [body]

theorem groupedExprs_append (es fs : List Expr) :
    groupedExprs (es ++ fs) = groupedExprs es ++ groupedExprs fs := by
  induction es with
  | nil => rfl
  | cons e es ih =>
      rw [List.cons_append, groupedExprs, ih, groupedExprs, List.cons_append]

theorem Entry.exprs_grouped (e : Entry) : e.grouped.exprs = groupedExprs e.exprs := by
  match e with
  | .plain _ => rfl
  | .complex none _ none | .complex none _ (some []) => rfl
  | .complex (some _) _ none | .complex (some _) _ (some []) => rfl
  | .complex none _ (some (_ :: _)) | .complex (some _) _ (some (_ :: _)) => rfl
  | .macroDef params body => exact (groupedExprs_append params [body]).symm

theorem Entry.nesting_grouped_complex (index : Option (List Expr)) (v : Option Value)
    (attributes : Option (List (String × Value))) :
    (Entry.complex index v attributes).grouped.nesting =
      max (exprsNesting (groupedExprs (index.getD [])))
        (max (valuesNesting v.toList) (membersNesting (attributes.getD []))) := by
  match index, attributes with
  | none, none | none, some [] =>
      simp [Entry.grouped, Entry.nesting, groupedExprs, exprsNesting, membersNesting]
  | some es, none | some es, some [] => rfl
  | none, some (pair :: pairs) | some es, some (pair :: pairs) => rfl

end L20n
