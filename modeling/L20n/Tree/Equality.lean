import L20n.Node

/-!
Equality of nodes.  Lists compare in order; the members of objects, the
attributes of entities and the entries of resources compare without regard to
order.  A node with such a table in it has no hash.
-/

namespace L20n

def sameOption {α : Type} (same : α → α → Bool) :
    Option α → Option α → Bool
  | none, none => true
  | some a, some b => same a b
  | _, _ => false

mutual

def Value.same : Value → Value → Bool
  | .string a, .string b => a == b
  | .parts a, .parts b => a == b
  | .array a, .array b => sameValues a b
  | .object a, .object b => a.length == b.length && membersWithin b a
  | _, _ => false

def sameValues : List Value → List Value → Bool
  | [], [] => true
  | a :: as, b :: bs => a.same b && sameValues as bs
  | _, _ => false

/-- Every member of the second table is in the first one, with an equal
value. -/
def membersWithin (table : List (String × Value)) :
    List (String × Value) → Bool
  | [] => true
  | (key, a) :: rest =>
    (match Table.get? table key with
      | some b => a.same b
      | none => false) && membersWithin table rest

end

def sameMembers (a b : List (String × Value)) : Bool :=
  a.length == b.length && membersWithin b a

mutual

def Expr.same : Expr → Expr → Bool
  | .number a, .number b => a == b
  | .value a, .value b => a.same b
  | .name a, .name b => a == b
  | .paren a, .paren b => a.same b
  | .attr a key, .attr b key' => a.same b && key == key'
  | .attrAt a index, .attrAt b index' => a.same b && index.same index'
  | .prop a key, .prop b key' => a.same b && key == key'
  | .propAt a index, .propAt b index' => a.same b && index.same index'
  | .call a arguments, .call b arguments' =>
    a.same b && sameExprs arguments arguments'
  | .unary op a, .unary op' b => op == op' && a.same b
  | .binary op a c, .binary op' b d => op == op' && a.same b && c.same d
  | .logical op a c, .logical op' b d => op == op' && a.same b && c.same d
  | .conditional a c e, .conditional b d f => a.same b && c.same d && e.same f
  | _, _ => false

def sameExprs : List Expr → List Expr → Bool
  | [], [] => true
  | a :: as, b :: bs => a.same b && sameExprs as bs
  | _, _ => false

end

def Entry.same : Entry → Entry → Bool
  | .plain a, .plain b => sameOption Value.same a b
  | .complex index value attributes, .complex index' value' attributes' =>
    sameOption sameExprs index index' && sameOption Value.same value value'
      && sameOption sameMembers attributes attributes'
  | .macroDef params body, .macroDef params' body' =>
    sameExprs params params' && body.same body'
  | _, _ => false

def Resource.same (a b : Resource) : Bool :=
  a.entries.length == b.entries.length &&
    a.entries.all fun (key, entry) =>
      match b.get? key with
      | some other => entry.same other
      | none => false

/-- Equality of nodes.  Nodes of different sorts differ. -/
def Node.same : Node → Node → Bool
  | .resource a, .resource b => a.same b
  | .entry a, .entry b => a.same b
  | .value a, .value b => a.same b
  | .segment a, .segment b => a == b
  | .expr a, .expr b => a.same b
  | _, _ => false

mutual

def Value.hashable : Value → Bool
  | .string _ | .parts _ => true
  | .array items => allHashable items
  | .object _ => false

def allHashable : List Value → Bool
  | [] => true
  | v :: rest => v.hashable && allHashable rest

end

mutual

def Expr.hashable : Expr → Bool
  | .number _ | .name _ => true
  | .value v => v.hashable
  | .paren e | .attr e _ | .prop e _ | .unary _ e => e.hashable
  | .attrAt a b | .propAt a b | .binary _ a b | .logical _ a b =>
    a.hashable && b.hashable
  | .call base arguments => base.hashable && allExprsHashable arguments
  | .conditional a b c => a.hashable && b.hashable && c.hashable

def allExprsHashable : List Expr → Bool
  | [] => true
  | e :: rest => e.hashable && allExprsHashable rest

end

def Entry.hashable : Entry → Bool
  | .plain v => v.all Value.hashable
  | .complex index v attributes =>
    index.all allExprsHashable && v.all Value.hashable && attributes.isNone
  | .macroDef params body => allExprsHashable params && body.hashable

def Node.hashable : Node → Bool
  | .resource _ => false
  | .entry e => e.hashable
  | .value v => v.hashable
  | .segment _ => true
  | .expr e => e.hashable

end L20n
