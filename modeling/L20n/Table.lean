/-!
Ordered tables: names with values, in an order that readers of the table can
see.  A name that comes again keeps its place when it is inserted, and goes to
the end when it is registered.
-/

namespace L20n.Table

variable {α : Type}

def names (table : List (String × α)) : List String :=
  table.map Prod.fst

def get? (table : List (String × α)) (name : String) : Option α :=
  table.lookup name

def Unique (table : List (String × α)) : Prop :=
  (names table).Nodup

/-- Sets the value of a name in its place, or adds the name at the end. -/
def insert (name : String) (value : α) :
    List (String × α) → List (String × α)
  | [] => [(name, value)]
  | (other, old) :: rest =>
    if other = name then (name, value) :: rest
    else (other, old) :: insert name value rest

def erase (name : String) (table : List (String × α)) : List (String × α) :=
  table.filter fun (other, _) => other ≠ name

/-- Adds a name at the end and forgets where it stood before. -/
def register (name : String) (value : α) (table : List (String × α)) :
    List (String × α) :=
  erase name table ++ [(name, value)]

/-- The table of a row of pairs: the first pair of a name fixes its place and
the last one its value. -/
def ofPairs (pairs : List (String × α)) : List (String × α) :=
  pairs.foldl (fun table (name, value) => insert name value table) []

/-- The table of a row of pairs in which a later pair replaces an earlier one
of the same name, place and value. -/
def ofRegistered (pairs : List (String × α)) : List (String × α) :=
  pairs.foldl (fun table (name, value) => register name value table) []

theorem mem_names_insert {table : List (String × α)} {name other : String}
    {value : α} :
    other ∈ names (insert name value table) ↔
      other = name ∨ other ∈ names table := by
  induction table with
  | nil => simp [insert, names]
  | cons head rest ih =>
      obtain ⟨first, old⟩ := head
      by_cases h : first = name
      · simp [insert, names, h]
      · simp only [names] at ih
        simp only [insert, h, if_false, names, List.map_cons, List.mem_cons, ih]
        constructor <;> rintro (h | h | h) <;> simp [h]

theorem unique_insert {table : List (String × α)} (h : Unique table)
    (name : String) (value : α) : Unique (insert name value table) := by
  induction table with
  | nil => simp [Unique, insert, names]
  | cons head rest ih =>
      obtain ⟨first, old⟩ := head
      have hrest : Unique rest := (List.nodup_cons.1 h).2
      have hfirst : first ∉ names rest := (List.nodup_cons.1 h).1
      by_cases hname : first = name
      · subst hname
        simpa [Unique, insert, names] using h
      · simp only [insert, hname, if_false]
        refine List.nodup_cons.2 ⟨?_, ih hrest⟩
        intro hmem
        rcases mem_names_insert.1 hmem with heq | hmem
        · exact hname heq
        · exact hfirst hmem

theorem unique_register {table : List (String × α)} (h : Unique table)
    (name : String) (value : α) : Unique (register name value table) := by
  have herase : Unique (erase name table) :=
    List.Nodup.sublist (List.Sublist.map _ List.filter_sublist) h
  simp only [Unique, names, register, List.map_append, List.map_cons,
    List.map_nil] at herase ⊢
  refine List.nodup_append.2 ⟨herase, by simp, ?_⟩
  intro a ha b hb
  simp only [erase, List.mem_map, List.mem_filter, List.mem_singleton] at ha hb
  obtain ⟨⟨_, _⟩, ⟨_, hne⟩, rfl⟩ := ha
  simpa [hb] using hne

theorem unique_foldl
    {step : List (String × α) → String × α → List (String × α)}
    (hstep : ∀ table pair, Unique table → Unique (step table pair))
    (pairs : List (String × α)) {table : List (String × α)}
    (h : Unique table) : Unique (pairs.foldl step table) := by
  induction pairs generalizing table with
  | nil => exact h
  | cons pair pairs ih => exact ih (hstep _ _ h)

theorem unique_ofPairs (pairs : List (String × α)) : Unique (ofPairs pairs) :=
  unique_foldl (fun _ pair h => unique_insert h pair.1 pair.2) pairs
    List.nodup_nil

theorem unique_ofRegistered (pairs : List (String × α)) :
    Unique (ofRegistered pairs) :=
  unique_foldl (fun _ pair h => unique_register h pair.1 pair.2) pairs
    List.nodup_nil

end L20n.Table
