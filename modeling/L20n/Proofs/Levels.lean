import L20n.Proofs.Grouping

/-!
The levels that writing a tree enters.  They lie between two counts of nesting: that
of the tree as it is, and that of the grouped tree, in which the parentheses that
writing adds are parts of their own.  Where operands bind as tightly as their places
ask, no parentheses are added and all three are the same.
-/

namespace L20n

open Node

/-- The levels of an operand, with one more for the parentheses that it gets if it
binds less tightly than is allowed. -/
def Expr.fittedLevels (allowed : Level) (e : Expr) (levels : Nat) : Nat :=
  if e.level ≤ allowed then levels else levels + 1

mutual

/-- The levels that writing an expression enters.  They are those of its nesting,
and one for each pair of parentheses that is added, unless it stands around an
operand on the right, which is one level further in anyway. -/
def Expr.levels : Expr → Nat
  | .number _ | .name _ => 0
  | .value v => v.nesting
  | .paren e => e.levels + 1
  | .attr base _ | .prop base _ => base.fittedLevels .member base.levels
  | .attrAt base index | .propAt base index =>
    max (base.fittedLevels .member base.levels) (index.levels + 1)
  | .call base arguments =>
    max (base.fittedLevels .member base.levels) (exprsLevels arguments)
  | .unary _ operand => operand.fittedLevels .member operand.levels
  | .binary _ left right =>
    max (left.fittedLevels .unary left.levels) (right.levels + 1)
  | .logical _ left right =>
    max (left.fittedLevels .binary left.levels) (right.levels + 1)
  | .conditional test consequent alternate =>
    max (test.fittedLevels .logical test.levels)
      (max consequent.levels alternate.levels + 1)

def exprsLevels : List Expr → Nat
  | [] => 0
  | e :: rest => max (e.levels + 1) (exprsLevels rest)

end

def Entry.levels : Entry → Nat
  | .plain v => valuesNesting v.toList
  | .complex index v attributes =>
    max (exprsLevels (index.getD []))
      (max (valuesNesting v.toList) (membersNesting (attributes.getD [])))
  | .macroDef params body => max (exprsLevels params) (body.levels + 1)

def entriesLevels : List (String × Entry) → Nat
  | [] => 0
  | (_, e) :: rest => max e.levels (entriesLevels rest)

theorem exprsLevels_le_iff {es : List Expr} {n : Nat} :
    exprsLevels es ≤ n ↔ ∀ e ∈ es, e.levels + 1 ≤ n := by
  induction es with
  | nil => simp [exprsLevels]
  | cons e es ih =>
      simp only [exprsLevels, Nat.max_le, ih, List.mem_cons, forall_eq_or_imp]

theorem entriesLevels_le_iff {pairs : List (String × Entry)} {n : Nat} :
    entriesLevels pairs ≤ n ↔ ∀ pair ∈ pairs, pair.2.levels ≤ n := by
  induction pairs with
  | nil => simp [entriesLevels]
  | cons pair pairs ih =>
      simp only [entriesLevels, Nat.max_le, ih, List.mem_cons, forall_eq_or_imp]

section Operands

variable {allowed : Level} {e : Expr} {n m : Nat}

theorem Expr.fittedLevels_of_le (h : e.level ≤ allowed) : e.fittedLevels allowed n = n :=
  if_pos h

theorem Expr.fittedLevels_of_not_le (h : ¬ e.level ≤ allowed) :
    e.fittedLevels allowed n = n + 1 :=
  if_neg h

theorem Expr.le_fittedLevels : n ≤ e.fittedLevels allowed n := by
  rw [fittedLevels]
  split <;> omega

theorem Expr.fittedLevels_mono (h : n ≤ m) :
    e.fittedLevels allowed n ≤ e.fittedLevels allowed m := by
  rw [fittedLevels, fittedLevels]
  split <;> omega

/-- A grouped operand in its place is nested as deeply as its parentheses make it. -/
theorem Expr.nesting_fitted_grouped :
    (e.grouped.fitted allowed).nesting = e.fittedLevels allowed e.grouped.nesting := by
  rw [fittedLevels, fitted, level_grouped]
  split <;> rfl

theorem Expr.nesting_le_fittedLevels (allowed : Level) (h : e.nesting ≤ e.levels) :
    e.nesting ≤ e.fittedLevels allowed e.levels :=
  Nat.le_trans h le_fittedLevels

theorem Expr.nesting_fitted_le (allowed : Level) (h : e.grouped.nesting ≤ e.levels) :
    (e.grouped.fitted allowed).nesting ≤ e.fittedLevels allowed e.levels := by
  rw [nesting_fitted_grouped]
  exact fittedLevels_mono h

theorem Expr.fittedLevels_le_nesting (allowed : Level)
    (h : e.levels ≤ e.grouped.nesting) :
    e.fittedLevels allowed e.levels ≤ (e.grouped.fitted allowed).nesting := by
  rw [nesting_fitted_grouped]
  exact fittedLevels_mono h

end Operands

mutual

theorem Expr.nesting_le_levels : ∀ e : Expr, e.nesting ≤ e.levels
  | .number _ | .name _ | .value _ => Nat.le_refl _
  | .paren e => Nat.succ_le_succ (Expr.nesting_le_levels e)
  | .attr base _ | .prop base _ =>
      Expr.nesting_le_fittedLevels (e := base) .member (Expr.nesting_le_levels base)
  | .attrAt base index | .propAt base index => by
      have hbase := Expr.nesting_le_fittedLevels .member (Expr.nesting_le_levels base)
      have hindex := Expr.nesting_le_levels index
      rw [Expr.nesting, Expr.levels]
      omega
  | .call base arguments => by
      have hbase := Expr.nesting_le_fittedLevels .member (Expr.nesting_le_levels base)
      have harguments := exprsNesting_le_levels arguments
      rw [Expr.nesting, Expr.levels]
      omega
  | .unary _ operand =>
      Expr.nesting_le_fittedLevels (e := operand) .member (Expr.nesting_le_levels operand)
  | .binary _ left right => by
      have hleft := Expr.nesting_le_fittedLevels .unary (Expr.nesting_le_levels left)
      have hright := Expr.nesting_le_levels right
      rw [Expr.nesting, Expr.levels]
      omega
  | .logical _ left right => by
      have hleft := Expr.nesting_le_fittedLevels .binary (Expr.nesting_le_levels left)
      have hright := Expr.nesting_le_levels right
      rw [Expr.nesting, Expr.levels]
      omega
  | .conditional test consequent alternate => by
      have htest := Expr.nesting_le_fittedLevels .logical (Expr.nesting_le_levels test)
      have hyes := Expr.nesting_le_levels consequent
      have hno := Expr.nesting_le_levels alternate
      rw [Expr.nesting, Expr.levels]
      omega

theorem exprsNesting_le_levels : ∀ es : List Expr, exprsNesting es ≤ exprsLevels es
  | [] => Nat.le_refl 0
  | e :: es => by
      have hfirst := Expr.nesting_le_levels e
      have hrest := exprsNesting_le_levels es
      rw [exprsNesting, exprsLevels]
      omega

end

mutual

theorem Expr.levels_le_nesting_grouped : ∀ e : Expr, e.levels ≤ e.grouped.nesting
  | .number _ | .name _ | .value _ => Nat.le_refl _
  | .paren e => Nat.succ_le_succ (Expr.levels_le_nesting_grouped e)
  | .attr base _ | .prop base _ =>
      Expr.fittedLevels_le_nesting (e := base) .member
        (Expr.levels_le_nesting_grouped base)
  | .attrAt base index | .propAt base index => by
      have hbase :=
        Expr.fittedLevels_le_nesting .member (Expr.levels_le_nesting_grouped base)
      have hindex := Expr.levels_le_nesting_grouped index
      rw [Expr.levels, Expr.grouped, Expr.nesting]
      omega
  | .call base arguments => by
      have hbase :=
        Expr.fittedLevels_le_nesting .member (Expr.levels_le_nesting_grouped base)
      have harguments := exprsLevels_le_nesting_grouped arguments
      rw [Expr.levels, Expr.grouped, Expr.nesting]
      omega
  | .unary _ operand =>
      Expr.fittedLevels_le_nesting (e := operand) .member
        (Expr.levels_le_nesting_grouped operand)
  | .binary _ left right => by
      have hleft :=
        Expr.fittedLevels_le_nesting .unary (Expr.levels_le_nesting_grouped left)
      have hright := Nat.le_trans Expr.le_fittedLevels
        (Expr.fittedLevels_le_nesting .binary (Expr.levels_le_nesting_grouped right))
      rw [Expr.levels, Expr.grouped, Expr.nesting]
      omega
  | .logical _ left right => by
      have hleft :=
        Expr.fittedLevels_le_nesting .binary (Expr.levels_le_nesting_grouped left)
      have hright := Nat.le_trans Expr.le_fittedLevels
        (Expr.fittedLevels_le_nesting .logical (Expr.levels_le_nesting_grouped right))
      rw [Expr.levels, Expr.grouped, Expr.nesting]
      omega
  | .conditional test consequent alternate => by
      have htest :=
        Expr.fittedLevels_le_nesting .logical (Expr.levels_le_nesting_grouped test)
      have hyes := Expr.levels_le_nesting_grouped consequent
      have hno := Expr.levels_le_nesting_grouped alternate
      rw [Expr.levels, Expr.grouped, Expr.nesting]
      omega

theorem exprsLevels_le_nesting_grouped : ∀ es : List Expr,
    exprsLevels es ≤ exprsNesting (groupedExprs es)
  | [] => Nat.le_refl 0
  | e :: es => by
      have hfirst := Expr.levels_le_nesting_grouped e
      have hrest := exprsLevels_le_nesting_grouped es
      rw [exprsLevels, groupedExprs, exprsNesting]
      omega

end

theorem Entry.nesting_le_levels (e : Entry) : e.nesting ≤ e.levels := by
  cases e with
  | plain v => exact Nat.le_refl _
  | complex index v attributes =>
      have hindex := exprsNesting_le_levels (index.getD [])
      rw [nesting, levels]
      omega
  | macroDef params body =>
      have hparams := exprsNesting_le_levels params
      have hbody := body.nesting_le_levels
      rw [nesting, levels]
      omega

theorem Entry.levels_le_nesting_grouped (e : Entry) : e.levels ≤ e.grouped.nesting := by
  cases e with
  | plain v => exact Nat.le_refl _
  | complex index v attributes =>
      have hindex := exprsLevels_le_nesting_grouped (index.getD [])
      rw [levels, nesting_grouped_complex]
      omega
  | macroDef params body =>
      have hparams := exprsLevels_le_nesting_grouped params
      have hbody := body.levels_le_nesting_grouped
      rw [levels, grouped, nesting]
      omega

/-- No parentheses are added to an entry whose operands all fit. -/
theorem Entry.levels_le_nesting {e : Entry} (h : Everywhere Fits (.entry e)) :
    e.levels ≤ e.nesting := by
  have hle := e.levels_le_nesting_grouped
  cases e with
  | plain v => exact hle
  | complex index v attributes =>
      obtain ⟨-, hindex, -, -⟩ := everywhere_complex.1 h
      rwa [nesting_grouped_complex, groupedExprs_eq_self _ hindex] at hle
  | macroDef params body =>
      obtain ⟨-, hparams, hbody⟩ := everywhere_macroDef.1 h
      rwa [grouped, groupedExprs_eq_self params hparams,
        Expr.grouped_eq_self body hbody] at hle

end L20n
