import L20n.Proofs.Derived
import L20n.Proofs.Levels
import L20n.Proofs.Traversal

/-!
How far down a walk goes.  A walk enters one level for each node that it does not
stop at, leaves included, so under a limit it comes to its end exactly if the tree
is no higher than the limit.  The levels of a source bound the height of what is
read from it only together with the length of its member chains: these are read in
a loop that enters no level, and each link is a node.
-/

namespace L20n

open Node

mutual

/-- The levels that a walk enters from a node downwards. -/
def Outline.levels (handlers : Handlers) : Outline → Nat
  | .node kind children =>
    if handlers.stops kind then 0 else Outline.allLevels handlers children + 1

def Outline.allLevels (handlers : Handlers) : List Outline → Nat
  | [] => 0
  | outline :: rest => max (outline.levels handlers) (Outline.allLevels handlers rest)

end

theorem Outline.allLevels_le_iff {handlers : Handlers} {outlines : List Outline}
    {n : Nat} :
    allLevels handlers outlines ≤ n ↔
      ∀ outline ∈ outlines, outline.levels handlers ≤ n := by
  induction outlines with
  | nil => simp [allLevels]
  | cons outline outlines ih =>
      simp only [allLevels, Nat.max_le, ih, List.mem_cons, forall_eq_or_imp]

/-- The limit leaves the levels that a walk enters exactly if none of them is refused
on the way. -/
theorem Node.levels_outline_le_iff (node : Node) (handlers : Handlers)
    (limit depth : Int) :
    node.outline.levels handlers ≤ (limit - depth).toNat ↔
      ∀ place ∈ node.preorder handlers.stops depth,
        ¬ Refused handlers.stops limit place := by
  induction node using Node.induct generalizing depth with
  | h node ih =>
      rw [node.outline_eq, Outline.levels, preorder_eq, List.forall_mem_cons, Refused]
      cases handlers.stops node.kind with
      | true => simp
      | false =>
          simp only [Bool.false_eq_true, if_false, true_and, List.forall_mem_flatMap]
          have hchildren : (∀ child ∈ node.children,
                ∀ place ∈ child.preorder handlers.stops (depth + 1),
                  ¬ Refused handlers.stops limit place) ↔
              Outline.allLevels handlers (node.children.map Node.outline) ≤
                (limit - (depth + 1)).toNat := by
            rw [Outline.allLevels_le_iff, List.forall_mem_map]
            exact forall₂_congr fun child hchild => (ih child hchild (depth + 1)).symm
          rw [hchildren]
          omega

/-- The number of levels of a tree, its root and its leaves included. -/
def Node.height (node : Node) : Nat :=
  node.outline.levels {}

theorem Node.height_le_succ_iff {node : Node} {n : Nat} :
    node.height ≤ n + 1 ↔ ∀ child ∈ node.children, child.height ≤ n := by
  rw [height, node.outline_eq, Outline.levels]
  simp only [Handlers.stops, List.contains_nil, Bool.false_eq_true, if_false,
    Nat.add_le_add_iff_right, Outline.allLevels_le_iff, List.mem_map,
    forall_exists_index, and_imp, forall_apply_eq_imp_iff₂]
  rfl

theorem Node.height_le_of_children {node : Node} {n : Nat} (hn : 0 < n)
    (h : ∀ child ∈ node.children, child.height + 1 ≤ n) : node.height ≤ n := by
  obtain ⟨m, rfl⟩ : ∃ m, n = m + 1 := ⟨n - 1, by omega⟩
  apply Node.height_le_succ_iff.2
  intro child hchild
  exact Nat.le_of_succ_le_succ (h child hchild)

theorem Node.height_pos (node : Node) : 0 < node.height := by
  rw [height, node.outline_eq, Outline.levels]
  simp [Handlers.stops]

/-- All that a walk without handlers notes down from a node downwards. -/
def Node.visits (node : Node) : List Visit :=
  (node.preorder (fun _ => false) 0).map fun place => .visited place.1 place.2

/-- A walk without handlers comes to its end exactly under the limits that are not below
the height. -/
theorem Node.walk_eq (node : Node) (limit : Int) :
    (node.height ≤ limit →
      node.walk {} (guardAt limit 0) = ⟨.ok .node, node.visits, guardAt limit 0⟩) ∧
    (limit < node.height →
      (node.walk {} (guardAt limit 0)).outcome = .error (.tooDeep ⟨limit, none⟩)) := by
  have hpos := node.height_pos
  have hiff := node.levels_outline_le_iff {} limit 0
  rw [Int.sub_zero, ← height] at hiff
  refine ⟨fun hheight => ?_, fun hheight => ?_⟩
  · have hopen := hiff.1 (by omega)
    rw [← map_place_tour {} node 0 0, List.forall_mem_map] at hopen
    have hmarks : Station.marks {} = fun station => [.visited station.node station.distance] :=
      rfl
    rw [walk, walkUnder_of_open fun station hstation =>
      station.fault?_none.2 (hopen station hstation), visits]
    change (⟨_, _, _⟩ : Walk) = ⟨_, (node.preorder ({} : Handlers).stops 0).map _, _⟩
    rw [← map_place_tour {} node 0 0, List.map_map, hmarks, ← List.map_eq_flatMap]
    rfl
  · have hrefused := mt hiff.2 (by omega)
    simp only [not_forall, not_not] at hrefused
    obtain ⟨place, hplace, hpast⟩ := hrefused
    obtain ⟨before, first, after, hroute, hbefore, hfirst⟩ :=
      exists_first ⟨place, hplace, hpast⟩
    exact (walk_of_preorder_refused hroute hbefore hfirst).1

theorem Value.height_le {n : Nat} {v : Value} (h : v.nesting ≤ n) :
    (Node.value v).height ≤ n + 2 := by
  induction n using Nat.strongRecOn generalizing v with
  | ind n ih =>
      apply Node.height_le_succ_iff.2
      intro child hchild
      cases v with
      | string text => cases hchild
      | parts segments =>
          obtain ⟨segment, -, rfl⟩ := List.mem_map.1 hchild
          exact Node.height_le_succ_iff.2 (by simp [children])
      | array items =>
          obtain ⟨item, hitem, rfl⟩ := List.mem_map.1 hchild
          rw [nesting] at h
          have hitems := valuesNesting_le_iff.1 (Nat.le_refl (valuesNesting items))
          exact Nat.le_trans (ih _ h (hitems item hitem)) (Nat.add_le_add_right h 1)
      | object members =>
          obtain ⟨pair, hpair, rfl⟩ := List.mem_map.1 hchild
          rw [nesting] at h
          have hpairs := membersNesting_le_iff.1 (Nat.le_refl (membersNesting members))
          exact Nat.le_trans (ih _ h (hpairs pair hpair)) (Nat.add_le_add_right h 1)

/-- The links of the member chain that an expression ends with. -/
def Expr.links : Expr → Nat
  | .attr base _ | .attrAt base _ | .prop base _ | .propAt base _ | .call base _ =>
    base.links + 1
  | _ => 0

/-- No member chain has more than `k` links. -/
def Node.Chained (k : Nat) : Node → Prop
  | .expr e => e.links ≤ k
  | _ => True

/-- How high an expression stands over what is one level further in, if no member
chain has more than `k` links. -/
def Expr.reach (k : Nat) (e : Expr) : Nat :=
  match e.level with
  | .member => e.links
  | level => k + level.rank

section Expressions

variable {k n : Nat} {e f : Expr} {allowed : Level}

theorem Expr.reach_of_member (h : e.level ≤ .member) : e.reach k = e.links := by
  have hrank : e.level.rank = 0 := Nat.le_zero.1 h
  cases hlevel : e.level <;> simp_all [reach, Level.rank]

theorem Expr.reach_of_rank (h : 0 < e.level.rank) : e.reach k = k + e.level.rank := by
  cases hlevel : e.level <;> simp_all [reach, Level.rank]

theorem Expr.reach_le (h : e.links ≤ k) : e.reach k ≤ k + e.level.rank := by
  rw [reach]
  split
  · omega
  · exact Nat.le_refl _

theorem Expr.reach_lt (hf : f.links ≤ k) (h : f.level.rank < e.level.rank) :
    f.reach k < e.reach k := by
  have hle := reach_le hf
  rw [reach_of_rank (e := e) (by omega)]
  omega

/-- A link of a member chain stands one higher than its base. -/
theorem Expr.reach_lt_of_links (he : e.level = .member) (hlinks : e.links = f.links + 1)
    (hf : f.level ≤ .member) : f.reach k < e.reach k := by
  have hle : e.level ≤ .member := he ▸ Nat.le_refl _
  rw [reach_of_member hf, reach_of_member hle, hlinks]
  exact Nat.lt_succ_self _

/-- How a part stands in an expression: as a value, as an expression one level
further in, or as an operand that reaches less high. -/
inductive Expr.Holds (k : Nat) (e : Expr) : Node → Prop
  | value {v : Value} : v.nesting ≤ e.levels → Holds k e (.value v)
  | inner {f : Expr} : f.levels < e.levels → Holds k e (.expr f)
  | operand {f : Expr} : f.levels ≤ e.levels → f.reach k < e.reach k →
      Holds k e (.expr f)

/-- An operand that does not fit stands one level further in. -/
theorem Expr.holds_fitted (hlevels : f.fittedLevels allowed f.levels ≤ e.levels)
    (hreach : f.level ≤ allowed → f.reach k < e.reach k) : e.Holds k (.expr f) := by
  by_cases hfits : f.level ≤ allowed
  · rw [fittedLevels_of_le hfits] at hlevels
    exact .operand hlevels (hreach hfits)
  · rw [fittedLevels_of_not_le hfits] at hlevels
    exact .inner hlevels

theorem Expr.holds_of_child (h : Everywhere (Chained k) (.expr e)) :
    ∀ child ∈ (Node.expr e).children, e.Holds k child := by
  have hlinks : ∀ f, Everywhere (Chained k) (.expr f) → f.links ≤ k :=
    fun f hf => hf _ (.self _)
  cases e with
  | number | name => simp [children, ofExpr]
  | value v =>
      simp only [children, ofExpr, List.mem_singleton, forall_eq]
      exact .value (Nat.le_refl _)
  | paren f =>
      simp only [children, ofExpr, List.mem_singleton, forall_eq]
      exact .inner (Nat.lt_succ_self _)
  | attr base key | prop base key =>
      simp only [children, ofExpr, List.mem_singleton, forall_eq]
      exact holds_fitted (Nat.le_refl _) (reach_lt_of_links rfl rfl)
  | attrAt base index | propAt base index =>
      simp only [children, ofExpr, List.mem_cons, List.not_mem_nil, or_false,
        forall_eq_or_imp, forall_eq]
      exact ⟨holds_fitted (Nat.le_max_left _ _) (reach_lt_of_links rfl rfl),
        .inner (Nat.le_max_right _ _)⟩
  | call base arguments =>
      simp only [children, ofExpr, List.mem_cons, List.mem_map, forall_eq_or_imp,
        forall_exists_index, and_imp, forall_apply_eq_imp_iff₂]
      refine ⟨holds_fitted (Nat.le_max_left _ _) (reach_lt_of_links rfl rfl),
        fun argument hargument => .inner ?_⟩
      have hlevels := exprsLevels_le_iff.1 (Nat.le_refl (exprsLevels arguments))
      exact Nat.le_trans (hlevels argument hargument) (Nat.le_max_right _ _)
  | unary op operand =>
      rw [everywhere_unary] at h
      simp only [children, ofExpr, List.mem_singleton, forall_eq]
      refine holds_fitted (Nat.le_refl _) fun hfits => ?_
      exact reach_lt (hlinks _ h.2) (Nat.lt_succ_of_le hfits)
  | binary op left right =>
      rw [everywhere_binary] at h
      simp only [children, ofExpr, List.mem_cons, List.not_mem_nil, or_false,
        forall_eq_or_imp, forall_eq]
      refine ⟨holds_fitted (Nat.le_max_left _ _) fun hfits => ?_,
        .inner (Nat.le_max_right _ _)⟩
      exact reach_lt (hlinks _ h.2.1) (Nat.lt_succ_of_le hfits)
  | logical op left right =>
      rw [everywhere_logical] at h
      simp only [children, ofExpr, List.mem_cons, List.not_mem_nil, or_false,
        forall_eq_or_imp, forall_eq]
      refine ⟨holds_fitted (Nat.le_max_left _ _) fun hfits => ?_,
        .inner (Nat.le_max_right _ _)⟩
      exact reach_lt (hlinks _ h.2.1) (Nat.lt_succ_of_le hfits)
  | conditional test consequent alternate =>
      rw [everywhere_conditional] at h
      simp only [children, ofExpr, List.mem_cons, List.not_mem_nil, or_false,
        forall_eq_or_imp, forall_eq]
      refine ⟨holds_fitted (Nat.le_max_left _ _) fun hfits => ?_, .inner ?_, .inner ?_⟩
      · exact reach_lt (hlinks _ h.2.1) (Nat.lt_succ_of_le hfits)
      · rw [levels]
        omega
      · rw [levels]
        omega

/-- Operands add their reach to a bound for what stands one level further in. -/
theorem Expr.height_le_of_inner {bound : Nat} (hvalue : n + 3 ≤ bound)
    (hinner : ∀ f : Expr, f.levels < n → Everywhere (Chained k) (.expr f) →
      (Node.expr f).height < bound)
    (hn : e.levels ≤ n) (h : Everywhere (Chained k) (.expr e)) :
    (Node.expr e).height ≤ bound + e.reach k := by
  induction hreach : e.reach k using Nat.strongRecOn generalizing e with
  | ind m ih =>
      apply height_le_of_children (by omega)
      intro child hchild
      have hchained := (everywhere_iff.1 h).2 child hchild
      cases Expr.holds_of_child h child hchild with
      | value hv =>
          have hheight := Value.height_le (Nat.le_trans hv hn)
          omega
      | inner hf =>
          have hheight := hinner _ (Nat.lt_of_lt_of_le hf hn) hchained
          omega
      | operand hf hlt =>
          have hheight := ih _ (hreach ▸ hlt) (Nat.le_trans hf hn) hchained rfl
          omega

theorem Level.rank_le (level : Level) : level.rank ≤ 4 := by
  cases level <;> decide

/-- Each level adds one node for itself, one for each kind of operator and one for
each link of a member chain. -/
theorem Expr.height_le (hn : e.levels ≤ n) (h : Everywhere (Chained k) (.expr e)) :
    (Node.expr e).height < (n + 1) * (k + 5) + 3 := by
  have hreach : ∀ f : Expr, Everywhere (Chained k) (.expr f) → f.reach k ≤ k + 4 := by
    intro f hf
    have hle := Expr.reach_le (hf _ (.self _))
    have hrank := f.level.rank_le
    omega
  induction n generalizing e with
  | zero =>
      have hheight := e.height_le_of_inner (Nat.le_refl 3)
        (fun f hf => absurd hf (Nat.not_lt_zero _)) hn h
      have hle := hreach e h
      omega
  | succ n ih =>
      have hvalue : n + 1 + 3 ≤ (n + 1) * (k + 5) + 3 :=
        Nat.add_le_add_right (Nat.le_mul_of_pos_right _ (by omega)) 3
      have hheight := e.height_le_of_inner hvalue
        (fun f hf hchained => ih (Nat.le_of_lt_succ hf) hchained) hn h
      have hle := hreach e h
      rw [Nat.succ_mul (n + 1)]
      omega

end Expressions

section Entries

variable {k n : Nat} {entry : Entry}

/-- The levels that writing an entry enters bound its height, given the length of its
member chains. -/
theorem Entry.height_le_of_levels (hn : entry.levels ≤ n)
    (h : Everywhere (Chained k) (.entry entry)) :
    (Node.entry entry).height ≤ n * (k + 5) + 3 := by
  have hvalue : ∀ v : Value, v.nesting ≤ n → (Node.value v).height < n * (k + 5) + 3 := by
    intro v hv
    have hheight := v.height_le hv
    have hle : n ≤ n * (k + 5) := Nat.le_mul_of_pos_right _ (by omega)
    omega
  have hexpr : ∀ e : Expr, e.levels + 1 ≤ n → Everywhere (Chained k) (.expr e) →
      (Node.expr e).height < n * (k + 5) + 3 := by
    intro e he hchained
    obtain ⟨m, rfl⟩ : ∃ m, n = m + 1 := ⟨n - 1, by omega⟩
    exact Expr.height_le (Nat.le_of_succ_le_succ he) hchained
  apply height_le_of_children (by omega)
  cases entry with
  | plain v =>
      simp only [levels, valuesNesting_le_iff, Option.mem_toList] at hn
      simp only [children, ofEntry, List.mem_map, Option.mem_toList,
        forall_exists_index, and_imp, forall_apply_eq_imp_iff₂]
      exact fun v hv => hvalue v (hn v hv)
  | complex index v attributes =>
      simp only [levels, Nat.max_le, exprsLevels_le_iff, valuesNesting_le_iff,
        membersNesting_le_iff, Option.mem_toList] at hn
      obtain ⟨hindex, hv, hattributes⟩ := hn
      obtain ⟨-, hchained, -, -⟩ := everywhere_complex.1 h
      simp only [children, ofEntry, ofMembers, List.mem_append, List.mem_map,
        Option.mem_toList, or_imp, forall_and, forall_exists_index, and_imp,
        forall_apply_eq_imp_iff₂]
      exact ⟨⟨fun e he => hexpr e (hindex e he) (hchained e he),
        fun v hmem => hvalue v (hv v hmem)⟩,
        fun pair hpair => hvalue pair.2 (hattributes pair hpair)⟩
  | macroDef params body =>
      simp only [levels, Nat.max_le, exprsLevels_le_iff] at hn
      obtain ⟨-, hparams, hbody⟩ := everywhere_macroDef.1 h
      simp only [children, ofEntry, List.mem_append, List.mem_map, List.mem_singleton,
        or_imp, forall_and, forall_exists_index, and_imp, forall_apply_eq_imp_iff₂,
        forall_eq]
      exact ⟨fun e he => hexpr e (hn.1 e he) (hparams e he), hexpr body hn.2 hbody⟩

/-- Operands bind as tightly as their place asks, and no member chain has more than
`k` links. -/
def Node.Linked (k : Nat) : Node → Prop
  | .expr e => e.Leveled ∧ e.links ≤ k
  | _ => True

theorem Entry.height_le (hn : entry.nesting ≤ n)
    (h : Everywhere (Linked k) (.entry entry)) :
    (Node.entry entry).height ≤ n * (k + 5) + 3 := by
  have hfits : Everywhere Fits (.entry entry) := by
    refine h.mono fun part hpart => ?_
    cases part with
    | expr e => exact hpart.1
    | resource | entry | value | segment => trivial
  refine Entry.height_le_of_levels (Nat.le_trans (levels_le_nesting hfits) hn) ?_
  refine h.mono fun part hpart => ?_
  cases part with
  | expr e => exact hpart.2
  | resource | entry | value | segment => trivial

end Entries

/-- Whatever is read is walked to its end, in order and from the resource to its
leaves, exactly under the limits that are not below its height.  The levels under
which it was read bound this height only for a given length of its member chains:
with at most `k` links, a level adds at most `k + 5` nodes.  The stack is one without
end here, and one that has room for the frames of the limit does as well
(`Node.walkUnder_stack_eq_walk`). -/
theorem Resource.walk_of_read {options : ReadOptions} {source : String}
    {path : Option String} {r : Resource}
    (h : (Resource.read options source path).outcome = .ok r) (limit : Int) :
    (((Node.resource r).height : Int) ≤ limit →
      (Node.resource r).walk {} (guardAt limit 0) =
        ⟨.ok .node, (Node.resource r).visits, guardAt limit 0⟩) ∧
    (limit < (Node.resource r).height →
      ((Node.resource r).walk {} (guardAt limit 0)).outcome =
        .error (.tooDeep ⟨limit, none⟩)) ∧
    ∀ k, (∀ e, Part (.expr e) (.resource r) → e.links ≤ k) →
      (Node.resource r).height ≤
        (StackBudget.reading.clamp options.maxDepth).1.toNat * (k + 5) + 4 := by
  obtain ⟨hok, herror⟩ := (Node.resource r).walk_eq limit
  refine ⟨hok, herror, fun k hk => ?_⟩
  obtain ⟨-, hentries⟩ := entries_within h
  apply Node.height_le_succ_iff.2
  intro child hchild
  obtain ⟨pair, hpair, rfl⟩ := List.mem_map.1 hchild
  obtain ⟨hshaped, hnesting⟩ := hentries pair hpair
  apply Entry.height_le hnesting
  intro part hpart
  cases part with
  | expr e => exact ⟨(hshaped _ hpart).1, hk e (.inside hchild hpart)⟩
  | resource | entry | value | segment => trivial

/-- A macro whose body is a member chain of 98 links. -/
def longChain : String :=
  String.ofList ("<m() \x7b a".toList ++ (List.replicate 98 ['.', 'b']).flatten ++
    " \x7d>".toList)

/-- The source is read under the limit when none is given, one level of nesting
deep, and what is read is not walked under this limit. -/
theorem Resource.walk_of_read_longChain :
    ∃ r, (Resource.read {} longChain none).outcome = .ok r ∧
      (Node.resource r).height = 101 ∧
      ((Node.resource r).walk {} (DepthGuard.ofRequest defaultDepth).1).outcome =
        .error (.tooDeep ⟨100, none⟩) := by
  obtain ⟨r, hr, hheight⟩ := exists_ok_of_any
    (x := (Resource.read {} longChain none).outcome)
    (p := fun r => (Node.resource r).height == 101) (by decide +kernel)
  have hheight : (Node.resource r).height = 101 := by simpa using hheight
  exact ⟨r, hr, hheight, (walk_of_read hr 100).2.1 (by omega)⟩

end L20n
