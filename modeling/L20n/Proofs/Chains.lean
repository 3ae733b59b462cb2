import L20n.Proofs.Height
import L20n.Proofs.Needs

/-!
What the limit of a writer says about the height of a tree.  Every part that is
written stands behind a bounded number of nodes that enter no level, but for the
bases of member accesses: each link of a member chain is written without a level of
its own.  So the limit bounds the height for a given length of the chains, and chains
as long as the stack has room for are written under any limit that lets a macro have a
body.
-/

namespace L20n

open Text Node

/-- A macro whose body is a member chain. -/
def chainMacro (n : Nat) : Resource :=
  ⟨[("m", .macroDef [] (memberChain n))]⟩

section Chains

variable (n : Nat)

theorem level_memberChain : (memberChain n).level = .member := by
  cases n <;> rfl

theorem levels_memberChain : (memberChain n).levels = 0 := by
  induction n with
  | zero => rfl
  | succ n ih =>
      have hfits : (memberChain n).level ≤ .member := level_memberChain n ▸ Nat.le_refl _
      rw [memberChain, Expr.levels, Expr.fittedLevels_of_le hfits, ih]

theorem height_memberChain : (Node.expr (memberChain n)).height = n + 1 := by
  induction n with
  | zero => rfl
  | succ n ih =>
      rw [height, outline] at ih
      simp [height, outline, memberChain, Expr.outline, Outline.levels, Outline.allLevels,
        Handlers.stops, ih]

theorem clear_memberChain (e : WriteError) : (Node.expr (memberChain n)).Clear e := by
  induction n with
  | zero => simp [memberChain, Clear, Flaw, Misnamed, isName]
  | succ n ih =>
      rw [memberChain, Clear, everywhere_prop]
      exact ⟨by simp [Flaw, Misnamed, isName], ih⟩

theorem clear_chainMacro (e : WriteError) : (Node.resource (chainMacro n)).Clear e := by
  have hbody := clear_memberChain n e
  simp only [chainMacro, Clear, everywhere_resource, everywhere_macroDef,
    List.mem_singleton, forall_eq, List.not_mem_nil, false_imp_iff, implies_true,
    true_and]
  exact ⟨by simp [Flaw, Misnamed, isName], by simp [Flaw], hbody⟩

theorem height_chainMacro : (Node.resource (chainMacro n)).height = n + 3 := by
  have hbody := height_memberChain n
  rw [height, outline] at hbody
  simp [height, outline, chainMacro, Entry.outline, Outline.levels, Outline.allLevels,
    Handlers.stops, hbody]

/-- One level is enough to write a macro whose body is a member chain. -/
theorem write_chainMacro {maxDepth : Int} (h : 1 ≤ maxDepth) :
    ∃ text, (chainMacro n).write maxDepth = .ok text := by
  have hlevels : entriesLevels (chainMacro n).entries = 1 := by
    simp [chainMacro, entriesLevels, Entry.levels, exprsLevels, levels_memberChain]
  have hlimit : 1 ≤ (StackBudget.walking.clamp maxDepth).1.toNat := by
    rw [StackBudget.clamp_fst, StackBudget.ceiling_walking]
    omega
  have hscreened := (chainMacro n).screened_write maxDepth
  rw [hlevels] at hscreened
  generalize (chainMacro n).write maxDepth = result at hscreened ⊢
  cases hscreened with
  | ok text => exact ⟨text, rfl⟩
  | tooDeep refusal hlt => exact absurd hlt (Nat.not_lt.2 hlimit)
  | flawed hflaw => exact absurd (clear_chainMacro n _) hflaw

theorem frames_chainMacro : (chainMacro n).frames = 2 * n + 3 := by
  have hframes : (memberChain n).frames = 2 * n := by
    induction n with
    | zero => rfl
    | succ n ih =>
        have hfits : (memberChain n).level ≤ .member :=
          level_memberChain n ▸ Nat.le_refl _
        rw [memberChain, Expr.frames, Expr.fittedFrames, if_pos hfits, ih]
        omega
  simp only [chainMacro, Resource.frames, entriesFrames, Entry.frames, exprsFrames, hframes]
  omega

/-- The stack has to have room for two frames a link, and three more. -/
theorem writeUnder_chainMacro {maxDepth : Int} (h : 1 ≤ maxDepth) (room : Nat) :
    (∃ text, ((chainMacro n).writeUnder (some (.stack room)) (writeGuard maxDepth)).1 =
      .ok text) ↔ 2 * n + 3 ≤ room := by
  obtain ⟨text, htext⟩ := write_chainMacro n h
  have hopen : ∀ refusal, (chainMacro n).write maxDepth ≠ .error (.tooDeep refusal) := by
    simp [htext]
  obtain ⟨hroom, hfull⟩ := (chainMacro n).writeUnder_stack
    (StackBudget.walking.clamp maxDepth).1 0 room
  rw [frames_chainMacro] at hroom hfull
  constructor
  · rintro ⟨text', htext'⟩
    refine Nat.not_lt.1 fun hlt => ?_
    have hbroken := hfull hlt text htext
    cases htext'.symm.trans hbroken
  · intro hle
    exact ⟨text, (congrArg Prod.fst (hroom hle hopen)).trans htext⟩

end Chains

/-- What is written under a limit is no higher than the limit and the length of its
member chains allow: with at most `k` links, a level adds at most `k + 5` nodes.  The
limit alone bounds nothing as soon as it is positive: under it, member chains of any
length are written, up to where the stack has no more room for their links
(`writeUnder_chainMacro`). -/
theorem Resource.height_of_written (maxDepth : Int) :
    (∀ (k : Nat) (r : Resource) (text : String), r.write maxDepth = .ok text →
      (∀ e, Part (.expr e) (.resource r) → e.links ≤ k) →
        (Node.resource r).height ≤
          (StackBudget.walking.clamp maxDepth).1.toNat * (k + 5) + 4) ∧
    (1 ≤ maxDepth → ∀ n, ∃ text, (chainMacro n).write maxDepth = .ok text ∧
      (Node.resource (chainMacro n)).height = n + 3) := by
  refine ⟨fun k r text htext hlinks => ?_, fun hdepth n => ?_⟩
  · have hwritten : (r.writeWith
        (guardAt (StackBudget.walking.clamp maxDepth).1 0)).1 = .ok text := htext
    apply Node.height_le_succ_iff.2
    intro child hchild
    obtain ⟨pair, hpair, rfl⟩ := List.mem_map.1 hchild
    have hlevels := le_of_written hwritten hpair
      (Writer.screens_entryBody pair.1 pair.2).needs
    apply Entry.height_le_of_levels hlevels
    intro part hpart
    cases part with
    | expr e => exact hlinks e (.inside hchild hpart)
    | resource | entry | value | segment => trivial
  · obtain ⟨text, htext⟩ := write_chainMacro n hdepth
    exact ⟨text, htext, height_chainMacro n⟩

/-- A tree of more than a hundred levels is written under the limit one. -/
theorem Resource.height_of_written_chainMacro :
    ∃ text, (chainMacro 120).write 1 = .ok text ∧
      (Node.resource (chainMacro 120)).height = 123 := by
  obtain ⟨-, hchains⟩ := height_of_written 1
  exact hchains (by decide) 120

end L20n
