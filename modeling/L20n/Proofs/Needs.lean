import L20n.Proofs.Flaws

/-!
What a writer needs.  A writer that succeeds has entered a level for every level
of the tree, and more where it adds parentheses.  So the levels that were left
are enough for the nesting of the tree, whatever its shape.
-/

namespace L20n

namespace Writer

variable {α β : Type} {limit : Int} {n m : Nat} {p : WriteError → Prop}

/-- The writer succeeds only where so many levels are left. -/
def Needs (limit : Int) (n : Nat) (x : Writer α) : Prop :=
  ∀ depth a, outcome limit depth x = .ok a → n ≤ (limit - depth).toNat

theorem Needs.first {x : Writer α} {f : α → Writer β} (hsteady : Steady x)
    (hx : Needs limit n x) : Needs limit n (x >>= f) := by
  intro depth b h
  obtain ⟨a, ha, -⟩ := (outcome_bind_eq_ok hsteady).1 h
  exact hx depth a ha

theorem Needs.second {x : Writer α} {f : α → Writer β} (hsteady : Steady x)
    (hf : ∀ a, Needs limit n (f a)) : Needs limit n (x >>= f) := by
  intro depth b h
  obtain ⟨a, -, hb⟩ := (outcome_bind_eq_ok hsteady).1 h
  exact hf a depth b hb

theorem Needs.weaken {x : Writer α} (hx : Needs limit n x) (hle : m ≤ n) :
    Needs limit m x :=
  fun depth a h => Nat.le_trans hle (hx depth a h)

/-- A writer needs the levels that it enters. -/
theorem Screens.needs {x : Writer α} (hx : Screens n p x) : Needs limit n x := by
  intro depth a h
  have hscreened := hx limit depth
  rw [h] at hscreened
  cases hscreened with
  | ok _ hle => exact hle

theorem needs_entryBody (key : String) (e : Entry) :
    Needs limit e.nesting (entryBody key e) :=
  (screens_entryBody key e).needs.weaken e.nesting_le_levels

/-- Writing entries needs what writing each of them needs. -/
theorem Needs.entries {pairs : List (String × Entry)} {pair : String × Entry}
    (hpair : pair ∈ pairs) (h : Needs limit n (entryBody pair.1 pair.2)) :
    Needs limit n (entries pairs) := by
  induction pairs with
  | nil => cases hpair
  | cons first rest ih =>
      have hsteady := (steady_entry first.1 first.2).calls (n := 1)
      rcases List.mem_cons.1 hpair with rfl | hpair
      · refine Needs.first hsteady ?_
        change Needs limit n (entry pair.1 pair.2)
        exact Needs.second (steady_name .entity pair.1) fun _ =>
          h.first (steady_entryBody pair.1 pair.2)
      · exact Needs.second hsteady fun _ => (ih hpair).first (steady_entries rest)

end Writer

/-- What is written needs no more levels than the limit has. -/
theorem Resource.le_of_written {r : Resource} {limit depth : Int} {text : String}
    {n : Nat} (h : (r.writeWith (guardAt limit depth)).1 = .ok text)
    {pair : String × Entry} (hpair : pair ∈ r.entries)
    (hneeds : Writer.Needs limit n (Writer.entryBody pair.1 pair.2)) :
    n ≤ limit.toNat := by
  rw [Resource.writeWith_fst] at h
  cases hentries : Writer.outcome limit 0 (Writer.entries r.entries) with
  | error e =>
      rw [hentries] at h
      cases h
  | ok written =>
      have hle := hneeds.entries hpair 0 written hentries
      rwa [Int.sub_zero] at hle

/-- What is written is nested within the limit. -/
theorem Resource.nesting_le_of_written {r : Resource} {limit depth : Int} {text : String}
    (h : (r.writeWith (guardAt limit depth)).1 = .ok text) {pair : String × Entry}
    (hpair : pair ∈ r.entries) : pair.2.nesting ≤ limit.toNat :=
  le_of_written h hpair (Writer.needs_entryBody pair.1 pair.2)

end L20n
