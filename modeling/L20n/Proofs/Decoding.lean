import L20n.Text.Escape
import Mathlib.Data.Nat.Init

/-!
Decoding by runs of backslashes.  A text falls into runs of backslashes, each
with the character after it, and what decoding makes of a run depends on its
length and on that character only.  The escaped backslashes halve a run, rounded
up; the escapes with letters then come to one pass, in which the last backslash
of a run goes into the letter after it.  A decoder that takes all escapes in one
pass halves a run as well, but leaves the letter alone where the run is even.
-/

namespace L20n.Text

open List (replicate)

/-- The first text is shorter than the second if `p` holds, and equal to it
otherwise. -/
def ShorterIf (p : Prop) (short long : List Char) : Prop :=
  p ∧ short.length < long.length ∨ ¬ p ∧ short = long

section ShorterIf

variable {p q : Prop} {a b c d : List Char}

theorem ShorterIf.eq_iff (h : ShorterIf p a b) : a = b ↔ ¬ p := by
  rcases h with ⟨hp, hlt⟩ | ⟨hp, heq⟩
  · simp only [hp, not_true_eq_false, iff_false]
    intro heq
    rw [heq] at hlt
    exact Nat.lt_irrefl _ hlt
  · simp only [heq, hp, not_false_eq_true]

theorem ShorterIf.congr (hpq : p ↔ q) (h : ShorterIf p a b) : ShorterIf q a b := by
  rwa [ShorterIf, ← hpq]

theorem ShorterIf.length_le (h : ShorterIf p a b) : a.length ≤ b.length := by
  rcases h with ⟨-, hlt⟩ | ⟨-, heq⟩
  · exact Nat.le_of_lt hlt
  · exact Nat.le_of_eq (congrArg List.length heq)

theorem shorterIf_refl (hp : ¬ p) (a : List Char) : ShorterIf p a a :=
  Or.inr ⟨hp, rfl⟩

theorem ShorterIf.append (h : ShorterIf p a b) (h' : ShorterIf q c d) :
    ShorterIf (p ∨ q) (a ++ c) (b ++ d) := by
  have hle := h.length_le
  have hle' := h'.length_le
  rcases h with ⟨hp, hlt⟩ | ⟨hp, rfl⟩
  · refine Or.inl ⟨Or.inl hp, ?_⟩
    rw [List.length_append, List.length_append]
    omega
  · rcases h' with ⟨hq, hlt⟩ | ⟨hq, rfl⟩
    · refine Or.inl ⟨Or.inr hq, ?_⟩
      rw [List.length_append, List.length_append]
      omega
    · exact shorterIf_refl (not_or.2 ⟨hp, hq⟩) _

theorem ShorterIf.trans (h : ShorterIf p a b) (h' : ShorterIf q b c) :
    ShorterIf (p ∨ q) a c := by
  have hle' := h'.length_le
  rcases h with ⟨hp, hlt⟩ | ⟨hp, rfl⟩
  · exact Or.inl ⟨Or.inl hp, by omega⟩
  · exact h'.congr (or_iff_right hp).symm

theorem shorterIf_replicate {j k : Nat} (h : j ≤ k) (a : Char) :
    ShorterIf (j < k) (replicate j a) (replicate k a) := by
  by_cases hlt : j < k
  · exact Or.inl ⟨hlt, by simpa using hlt⟩
  · obtain rfl : j = k := by omega
    exact shorterIf_refl hlt _

theorem ShorterIf.append_run {k : Nat} {x : Char}
    (h : ShorterIf p a (replicate k '\\' ++ [x])) (h' : ShorterIf q c d) :
    ShorterIf (p ∨ q) (a ++ c) (replicate k '\\' ++ x :: d) := by
  rw [List.append_cons]
  exact h.append h'

end ShorterIf

/-- Each text is a run of backslashes up to its end, or up to another character
behind which there is again such a text. -/
@[elab_as_elim]
theorem induction_on_runs {motive : List Char → Prop}
    (ends : ∀ k, motive (replicate k '\\'))
    (run : ∀ k c rest, c ≠ '\\' → motive rest →
      motive (replicate k '\\' ++ c :: rest))
    (text : List Char) : motive text := by
  have hrun : ∀ k, motive (replicate k '\\' ++ text) := by
    induction text with
    | nil =>
        intro k
        rw [List.append_nil]
        exact ends k
    | cons c text ih =>
        intro k
        by_cases hc : c = '\\'
        · rw [hc, ← List.singleton_append, ← List.append_assoc,
            ← List.replicate_succ']
          exact ih (k + 1)
        · exact run k c text hc (ih 0)
  exact hrun 0

/-- A run is as long as it can be, so a text starts with one run only. -/
theorem replicate_append_inj {a : Char} {j k : Nat} {rest rest' : List Char}
    (hrest : rest.head? ≠ some a) (hrest' : rest'.head? ≠ some a)
    (h : replicate j a ++ rest = replicate k a ++ rest') : j = k ∧ rest = rest' := by
  induction j generalizing k with
  | zero =>
      cases k with
      | zero => exact ⟨rfl, h⟩
      | succ k =>
          rw [replicate, List.nil_append] at h
          exact absurd (by rw [h]; rfl) hrest
  | succ j ih =>
      cases k with
      | zero =>
          rw [replicate, List.nil_append] at h
          exact absurd (by rw [← h]; rfl) hrest'
      | succ k =>
          obtain ⟨hlength, heq⟩ := ih (List.cons.inj h).2
          exact ⟨congrArg (· + 1) hlength, heq⟩

theorem eq_zero_of_getLast?_replicate {a : Char} {k : Nat}
    (h : (replicate k a).getLast? ≠ some a) : k = 0 := by
  rw [List.getLast?_replicate] at h
  by_cases hk : k = 0
  · exact hk
  · exact absurd (if_neg hk) h

theorem getLast?_run {c : Char} (hc : c ≠ '\\') (k : Nat) (rest : List Char) :
    (replicate k '\\' ++ c :: rest).getLast? = some '\\' ↔
      rest.getLast? = some '\\' := by
  rw [List.getLast?_append, List.getLast?_cons]
  cases rest.getLast? with
  | none => simpa using hc
  | some d => simp

/-- A run of `k` backslashes stands in the text between `front` and `rest`, and
no backslash stands next to it. -/
structure MaximalRun (text front : List Char) (k : Nat) (rest : List Char) :
    Prop where
  split : text = front ++ (replicate k '\\' ++ rest)
  before : front.getLast? ≠ some '\\'
  behind : rest.head? ≠ some '\\'

/-- The runs of a text are the first one and those behind the character after
it. -/
theorem maximalRun_iff {k n : Nat} {c : Char} {tail front rest : List Char}
    (hc : c ≠ '\\') :
    MaximalRun (replicate k '\\' ++ c :: tail) front n rest ↔
      front = [] ∧ n = k ∧ rest = c :: tail ∨
        ∃ inner, front = replicate k '\\' ++ c :: inner ∧
          MaximalRun tail inner n rest := by
  have hhead : (c :: tail).head? ≠ some '\\' := by simpa using hc
  constructor
  · rintro ⟨hsplit, hbefore, hbehind⟩
    rcases List.append_eq_append_iff.1 hsplit with
      ⟨middle, hfront, htail⟩ | ⟨middle, hrun, htail⟩
    · cases middle with
      | nil =>
          rw [List.append_nil] at hfront
          rw [hfront] at hbefore
          obtain rfl := eq_zero_of_getLast?_replicate hbefore
          obtain ⟨hn, hrest⟩ := replicate_append_inj (j := 0) hhead hbehind htail
          exact Or.inl ⟨hfront, hn.symm, hrest.symm⟩
      | cons d inner =>
          obtain ⟨rfl, hinner⟩ := List.cons.inj htail
          refine Or.inr ⟨inner, hfront, hinner, ?_, hbehind⟩
          rwa [hfront, Ne, getLast?_run hc] at hbefore
    · have hfront := (List.append_eq_replicate_iff.1 hrun.symm).2.1
      rw [hfront] at hbefore
      obtain rfl := List.eq_nil_of_length_eq_zero (eq_zero_of_getLast?_replicate hbefore)
      rw [List.nil_append] at hrun
      subst hrun
      obtain ⟨hn, hrest⟩ := replicate_append_inj hbehind hhead htail
      exact Or.inl ⟨rfl, hn, hrest⟩
  · rintro (⟨rfl, rfl, rfl⟩ | ⟨inner, rfl, rfl, hbefore, hbehind⟩)
    · exact ⟨rfl, by simp, hhead⟩
    · refine ⟨by simp, ?_, hbehind⟩
      rwa [Ne, getLast?_run hc]

/-- Nothing follows the run at the end of a text. -/
theorem not_maximalRun_replicate {k n : Nat} {c : Char} {front rest : List Char} :
    ¬ MaximalRun (replicate k '\\') front n (c :: rest) := by
  rintro ⟨hsplit, -, hbehind⟩
  have hmem : c ∈ replicate k '\\' := by
    rw [hsplit]
    simp
  exact hbehind (congrArg some (List.eq_of_mem_replicate hmem))

/-- Decodes these escapes in one pass from left to right: a backslash with a
letter of theirs after it becomes what the escape stands for, and any other
backslash is kept. -/
def replaceEscapes (rules : List (Char × Char)) : List Char → List Char
  | [] => []
  | [c] => [c]
  | c :: d :: rest =>
    if c = '\\' then
      match rules.lookup d with
      | some meaning => meaning :: replaceEscapes rules rest
      | none => c :: replaceEscapes rules (d :: rest)
    else c :: replaceEscapes rules (d :: rest)

def decodeOnce (text : List Char) : List Char :=
  replaceEscapes escapes text

variable {rules : List (Char × Char)} {c d : Char} {text rest : List Char}

theorem replaceEscapes_cons (hc : c ≠ '\\') :
    replaceEscapes rules (c :: text) = c :: replaceEscapes rules text := by
  cases text with
  | nil => rfl
  | cons d rest => rw [replaceEscapes, if_neg hc]

theorem replaceEscapes_escape {meaning : Char} (h : rules.lookup d = some meaning) :
    replaceEscapes rules ('\\' :: d :: rest) = meaning :: replaceEscapes rules rest := by
  rw [replaceEscapes, if_pos rfl, h]

theorem replaceEscapes_kept (h : rules.lookup d = none) :
    replaceEscapes rules ('\\' :: d :: rest) =
      '\\' :: replaceEscapes rules (d :: rest) := by
  rw [replaceEscapes, if_pos rfl, h]

theorem lookup_cons_of_ne {rule : Char × Char} (h : c ≠ rule.1) :
    (rule :: rules).lookup c = rules.lookup c := by
  obtain ⟨letter, meaning⟩ := rule
  rw [List.lookup_cons, beq_false_of_ne h]

theorem replaceEscape_eq (letter meaning : Char) (text : List Char) :
    replaceEscape letter meaning text = replaceEscapes [(letter, meaning)] text := by
  fun_induction replaceEscape letter meaning text with
  | case1 => rfl
  | case2 => rfl
  | case3 c d rest h ih =>
      obtain ⟨rfl, rfl⟩ := h
      rw [replaceEscapes_escape (List.lookup_cons_self ..), ih]
  | case4 c d rest h ih =>
      by_cases hc : c = '\\'
      · subst hc
        have hd : d ≠ letter := fun heq => h ⟨rfl, heq⟩
        rw [replaceEscapes_kept (lookup_cons_of_ne hd), ih]
      · rw [replaceEscapes_cons hc, ih]

/-- What becomes of a run of backslashes and the character after it, if none of
the escapes is the escaped backslash: the last backslash goes with a letter. -/
def runEnd (rules : List (Char × Char)) : Nat → Char → List Char
  | 0, c => [c]
  | j + 1, c =>
    match rules.lookup c with
    | some meaning => replicate j '\\' ++ [meaning]
    | none => replicate (j + 1) '\\' ++ [c]

theorem runEnd_letter {meaning : Char} (h : rules.lookup c = some meaning) (j : Nat) :
    runEnd rules (j + 1) c = replicate j '\\' ++ [meaning] := by
  simp only [runEnd, h]

theorem runEnd_other (h : rules.lookup c = none) (k : Nat) :
    runEnd rules k c = replicate k '\\' ++ [c] := by
  cases k with
  | zero => rfl
  | succ j => simp only [runEnd, h]

theorem runEnd_succ (k : Nat) (c : Char) :
    runEnd rules (k + 1) c = replicate k '\\' ++ runEnd rules 1 c := by
  cases hletter : rules.lookup c with
  | some meaning =>
      rw [runEnd_letter hletter, runEnd_letter hletter]
      rfl
  | none =>
      rw [runEnd_other hletter, runEnd_other hletter, List.replicate_succ',
        List.append_assoc]
      rfl

section Letters

variable (hrules : rules.lookup '\\' = none)

include hrules

theorem replaceEscapes_replicate (k : Nat) :
    replaceEscapes rules (replicate k '\\') = replicate k '\\' := by
  induction k with
  | zero => rfl
  | succ k ih =>
      cases k with
      | zero => rfl
      | succ j =>
          rw [replicate, replicate, replaceEscapes_kept hrules]
          exact congrArg _ ih

theorem replaceEscapes_run (hc : c ≠ '\\') (k : Nat) (rest : List Char) :
    replaceEscapes rules (replicate k '\\' ++ c :: rest) =
      runEnd rules k c ++ replaceEscapes rules rest := by
  induction k with
  | zero => exact replaceEscapes_cons hc
  | succ k ih =>
      cases k with
      | zero =>
          cases hletter : rules.lookup c with
          | some meaning =>
              rw [runEnd_letter hletter]
              exact replaceEscapes_escape hletter
          | none =>
              rw [runEnd_other hletter]
              exact (replaceEscapes_kept hletter).trans (congrArg _ ih)
      | succ j =>
          have hmore : runEnd rules (j + 2) c = '\\' :: runEnd rules (j + 1) c := by
            rw [runEnd_succ, runEnd_succ j]
            rfl
          rw [hmore, List.cons_append, ← ih]
          exact replaceEscapes_kept hrules

/-- An escape before the others can be replaced first, if what it stands for is no
backslash and no letter of theirs. -/
theorem replaceEscapes_replaceEscape {rule : Char × Char} (hletter : rule.1 ≠ '\\')
    (hmeaning : rule.2 ≠ '\\') (hlater : rules.lookup rule.2 = none)
    (text : List Char) :
    replaceEscapes rules (replaceEscape rule.1 rule.2 text) =
      replaceEscapes (rule :: rules) text := by
  have hfirst : [rule].lookup '\\' = none := lookup_cons_of_ne hletter.symm
  have hall : (rule :: rules).lookup '\\' = none :=
    (lookup_cons_of_ne hletter.symm).trans hrules
  rw [replaceEscape_eq]
  induction text using induction_on_runs with
  | ends k =>
      rw [replaceEscapes_replicate hfirst, replaceEscapes_replicate hrules,
        replaceEscapes_replicate hall]
  | run k c rest hc ih =>
      rw [replaceEscapes_run hfirst hc, replaceEscapes_run hall hc, ← ih]
      cases k with
      | zero => exact replaceEscapes_run hrules hc 0 _
      | succ j =>
          by_cases hrule : c = rule.1
          · subst hrule
            rw [runEnd_letter List.lookup_cons_self, runEnd_letter List.lookup_cons_self,
              List.append_assoc, List.singleton_append,
              replaceEscapes_run hrules hmeaning, runEnd_other hlater]
          · have hnone : [rule].lookup c = none := lookup_cons_of_ne hrule
            rw [runEnd_other hnone, List.append_assoc, List.singleton_append,
              replaceEscapes_run hrules hc]
            simp only [runEnd, lookup_cons_of_ne hrule]

end Letters

theorem replaceEscapes_nil (text : List Char) : replaceEscapes [] text = text := by
  induction text using induction_on_runs with
  | ends k => exact replaceEscapes_replicate rfl k
  | run k c rest hc ih =>
      rw [replaceEscapes_run rfl hc, runEnd_other rfl, ih, List.append_assoc]
      rfl

/-- Escapes that are replaced one after the other come to one pass, if none is the
escaped backslash and none stands for a letter of a later one. -/
theorem foldl_replaceEscape (rules : List (Char × Char))
    (hrules : ∀ rule ∈ rules, rule.1 ≠ '\\' ∧ rule.2 ≠ '\\')
    (hlater : rules.Pairwise fun rule other => rule.2 ≠ other.1) (text : List Char) :
    rules.foldl (fun text (letter, meaning) => replaceEscape letter meaning text) text =
      replaceEscapes rules text := by
  induction rules generalizing text with
  | nil => exact (replaceEscapes_nil text).symm
  | cons rule rules ih =>
      obtain ⟨⟨hletter, hmeaning⟩, hothers⟩ := List.forall_mem_cons.1 hrules
      obtain ⟨hfirst, hpairs⟩ := List.pairwise_cons.1 hlater
      have hnone : rules.lookup '\\' = none :=
        List.lookup_eq_none_iff.2 fun other hother => by
          simpa using (hothers other hother).1.symm
      have hafter : rules.lookup rule.2 = none :=
        List.lookup_eq_none_iff.2 fun other hother => by
          simpa using hfirst other hother
      rw [List.foldl_cons, ih hothers hpairs]
      exact replaceEscapes_replaceEscape hnone hletter hmeaning hafter text

def letterEscapes : List (Char × Char) :=
  escapes.tail

/-- The escaped backslashes halve a run, rounded up. -/
theorem replaceEscape_backslashes (k : Nat) {rest : List Char}
    (h : rest.head? ≠ some '\\') :
    replaceEscape '\\' '\\' (replicate k '\\' ++ rest) =
      replicate ((k + 1) / 2) '\\' ++ replaceEscape '\\' '\\' rest := by
  induction k using Nat.twoStepInduction with
  | zero => rfl
  | one =>
      cases rest with
      | nil => rfl
      | cons c rest =>
          have hc : c ≠ '\\' := by simpa using h
          exact if_neg fun hboth => hc hboth.2
  | more k ih _ =>
      have hhalf : (k + 2 + 1) / 2 = (k + 1) / 2 + 1 := by omega
      rw [hhalf]
      exact congrArg _ ih

theorem decode_eq (text : List Char) :
    decode text = replaceEscapes letterEscapes (replaceEscape '\\' '\\' text) :=
  foldl_replaceEscape letterEscapes (by decide) (by decide) _

theorem decode_replicate (k : Nat) :
    decode (replicate k '\\') = replicate ((k + 1) / 2) '\\' := by
  have hhalf : replaceEscape '\\' '\\' (replicate k '\\' ++ []) =
      replicate ((k + 1) / 2) '\\' ++ [] :=
    replaceEscape_backslashes k (by simp)
  rw [List.append_nil, List.append_nil] at hhalf
  rw [decode_eq, hhalf]
  exact replaceEscapes_replicate rfl _

/-- Decoding works run by run. -/
theorem decode_run (hc : c ≠ '\\') (k : Nat) (rest : List Char) :
    decode (replicate k '\\' ++ c :: rest) =
      runEnd letterEscapes ((k + 1) / 2) c ++ decode rest := by
  have hhead : (c :: rest).head? ≠ some '\\' := by simpa using hc
  have htail : replaceEscape '\\' '\\' (c :: rest) =
      c :: replaceEscape '\\' '\\' rest := by
    rw [replaceEscape_eq, replaceEscape_eq, replaceEscapes_cons hc]
  rw [decode_eq, decode_eq, replaceEscape_backslashes k hhead, htail,
    replaceEscapes_run rfl hc]

theorem decodeOnce_replicate (k : Nat) :
    decodeOnce (replicate k '\\') = replicate ((k + 1) / 2) '\\' := by
  induction k using Nat.twoStepInduction with
  | zero => rfl
  | one => rfl
  | more k ih _ =>
      have hhalf : (k + 2 + 1) / 2 = (k + 1) / 2 + 1 := by omega
      rw [hhalf]
      exact congrArg _ ih

/-- So does the decoder in one pass, which pairs up the backslashes of a run: only
one that is left over goes with a letter. -/
theorem decodeOnce_run (hc : c ≠ '\\') (k : Nat) (rest : List Char) :
    decodeOnce (replicate k '\\' ++ c :: rest) =
      replicate (k / 2) '\\' ++ runEnd letterEscapes (k % 2) c ++ decodeOnce rest := by
  induction k using Nat.twoStepInduction with
  | zero => exact replaceEscapes_cons hc
  | one =>
      have hlookup : escapes.lookup c = letterEscapes.lookup c :=
        lookup_cons_of_ne hc
      cases hletter : letterEscapes.lookup c with
      | some meaning =>
          rw [runEnd_letter hletter]
          exact replaceEscapes_escape (hlookup.trans hletter)
      | none =>
          rw [runEnd_other hletter]
          exact (replaceEscapes_kept (hlookup.trans hletter)).trans
            (congrArg _ (replaceEscapes_cons hc))
  | more k ih _ =>
      have hhalf : (k + 2) / 2 = k / 2 + 1 := by omega
      have hmod : (k + 2) % 2 = k % 2 := by omega
      rw [hhalf, hmod]
      exact congrArg _ ih

theorem lookup_letterEscapes_eq_none_iff :
    letterEscapes.lookup c = none ↔ isEscapeLetter c = false := by
  rw [List.lookup_eq_none_iff, isEscapeLetter]
  simp [letterEscapes, escapes]

theorem isEscapeLetter_of_lookup {meaning : Char}
    (h : letterEscapes.lookup c = some meaning) : isEscapeLetter c = true := by
  cases hc : isEscapeLetter c with
  | true => rfl
  | false =>
      rw [lookup_letterEscapes_eq_none_iff.2 hc] at h
      cases h

/-- A run is shorter by its last backslash behind a letter. -/
theorem shorterIf_runEnd (k : Nat) (c : Char) :
    ShorterIf (0 < k ∧ isEscapeLetter c = true) (runEnd letterEscapes k c)
      (replicate k '\\' ++ [c]) := by
  cases hletter : letterEscapes.lookup c with
  | none =>
      rw [runEnd_other hletter]
      rw [lookup_letterEscapes_eq_none_iff] at hletter
      exact shorterIf_refl (by simp [hletter]) _
  | some meaning =>
      cases k with
      | zero => exact shorterIf_refl (by simp) _
      | succ j =>
          have hc := isEscapeLetter_of_lookup hletter
          rw [runEnd_letter hletter]
          exact Or.inl ⟨⟨Nat.succ_pos j, hc⟩, by simp⟩

/-- An even run of backslashes stands right before an escape letter. -/
def EvenRunBeforeLetter (text : List Char) : Prop :=
  ∃ front k letter rest, MaximalRun text front k (letter :: rest) ∧ 2 ≤ k ∧
    k % 2 = 0 ∧ isEscapeLetter letter = true

theorem evenRunBeforeLetter_run (hc : c ≠ '\\') (k : Nat) (rest : List Char) :
    EvenRunBeforeLetter (replicate k '\\' ++ c :: rest) ↔
      (2 ≤ k ∧ k % 2 = 0 ∧ isEscapeLetter c = true) ∨ EvenRunBeforeLetter rest := by
  constructor
  · rintro ⟨front, n, letter, tail, hrun, heven⟩
    rcases (maximalRun_iff hc).1 hrun with ⟨-, rfl, heq⟩ | ⟨inner, -, hinner⟩
    · obtain ⟨rfl, -⟩ := List.cons.inj heq
      exact Or.inl heven
    · exact Or.inr ⟨inner, n, letter, tail, hinner, heven⟩
  · rintro (heven | ⟨inner, n, letter, tail, hinner, heven⟩)
    · exact ⟨[], k, c, rest, (maximalRun_iff hc).2 (Or.inl ⟨rfl, rfl, rfl⟩), heven⟩
    · exact ⟨_, n, letter, tail, (maximalRun_iff hc).2 (Or.inr ⟨inner, rfl, hinner⟩),
        heven⟩

/-- Both decoders leave the same of an odd run.  Of an even one before a letter the
passes one after the other leave a backslash less. -/
theorem shorterIf_half (k : Nat) (c : Char) :
    ShorterIf (2 ≤ k ∧ k % 2 = 0 ∧ isEscapeLetter c = true)
      (runEnd letterEscapes ((k + 1) / 2) c)
      (replicate (k / 2) '\\' ++ runEnd letterEscapes (k % 2) c) := by
  rcases Nat.mod_two_eq_zero_or_one k with heven | hodd
  · have hhalf : (k + 1) / 2 = k / 2 := by omega
    rw [hhalf, heven]
    apply (shorterIf_runEnd (k / 2) c).congr
    have hpos : 0 < k / 2 ↔ 2 ≤ k := by omega
    simp [hpos]
  · have hhalf : (k + 1) / 2 = k / 2 + 1 := by omega
    rw [hhalf, hodd, runEnd_succ]
    exact shorterIf_refl (by simp) _

theorem shorterIf_decodeOnce (text : List Char) :
    ShorterIf (EvenRunBeforeLetter text) (decode text) (decodeOnce text) := by
  induction text using induction_on_runs with
  | ends k =>
      rw [decode_replicate, decodeOnce_replicate]
      apply shorterIf_refl
      rintro ⟨front, n, letter, rest, hrun, -⟩
      exact not_maximalRun_replicate hrun
  | run k c rest hc ih =>
      rw [decode_run hc, decodeOnce_run hc]
      exact ((shorterIf_half k c).append ih).congr
        (evenRunBeforeLetter_run hc k rest).symm

/-- Replacing one escape after the other gives what decoding in one pass gives,
unless a maximal run of backslashes that is even and not empty stands right before
an escape letter. -/
theorem decode_eq_decodeOnce_iff (text : List Char) :
    decode text = decodeOnce text ↔
      ¬ ∃ front k letter rest, MaximalRun text front k (letter :: rest) ∧ 2 ≤ k ∧
        k % 2 = 0 ∧ isEscapeLetter letter = true :=
  (shorterIf_decodeOnce text).eq_iff

/-- A backslash stands right before one of these letters. -/
def BackslashBefore (letters text : List Char) : Prop :=
  ∃ letter ∈ letters, ['\\', letter] <:+: text

variable {letters : List Char}

theorem backslashBefore_cons :
    BackslashBefore letters (c :: text) ↔
      (c = '\\' ∧ ∃ letter ∈ letters, text.head? = some letter) ∨
        BackslashBefore letters text := by
  simp only [BackslashBefore, List.infix_cons_iff]
  constructor
  · rintro ⟨letter, hmem, hprefix | hwithin⟩
    · rw [List.cons_prefix_cons] at hprefix
      obtain ⟨rfl, tail, rfl⟩ := hprefix
      exact Or.inl ⟨rfl, letter, hmem, rfl⟩
    · exact Or.inr ⟨letter, hmem, hwithin⟩
  · rintro (⟨rfl, letter, hmem, hhead⟩ | ⟨letter, hmem, hwithin⟩)
    · obtain ⟨tail, rfl⟩ := List.head?_eq_some_iff.1 hhead
      exact ⟨letter, hmem, Or.inl (List.prefix_append ['\\', letter] tail)⟩
    · exact ⟨letter, hmem, Or.inr hwithin⟩

theorem not_backslashBefore_nil : ¬ BackslashBefore letters [] := by
  rintro ⟨letter, -, hwithin⟩
  simp at hwithin

theorem backslashBefore_replicate (k : Nat) :
    BackslashBefore letters (replicate k '\\') ↔ 2 ≤ k ∧ '\\' ∈ letters := by
  induction k with
  | zero => simp [not_backslashBefore_nil]
  | succ k ih =>
      rw [replicate, backslashBefore_cons, ih]
      cases k with
      | zero => simp
      | succ j => simp [replicate]

theorem backslashBefore_run (hc : c ≠ '\\') (k : Nat) (rest : List Char) :
    BackslashBefore letters (replicate k '\\' ++ c :: rest) ↔
      (0 < k ∧ c ∈ letters ∨ 2 ≤ k ∧ '\\' ∈ letters) ∨
        BackslashBefore letters rest := by
  induction k with
  | zero => simp [backslashBefore_cons, hc]
  | succ k ih =>
      rw [replicate, List.cons_append, backslashBefore_cons, ih]
      cases k with
      | zero => simp
      | succ j =>
          simp only [replicate, List.cons_append, List.head?_cons]
          grind

theorem BackslashBefore.mono {others : List Char} (h : BackslashBefore letters text)
    (hsub : letters ⊆ others) : BackslashBefore others text := by
  obtain ⟨letter, hmem, hwithin⟩ := h
  exact ⟨letter, hsub hmem, hwithin⟩

theorem BackslashBefore.of_part {whole : List Char} (h : BackslashBefore letters text)
    (hwithin : text <:+: whole) :
    BackslashBefore letters whole := by
  obtain ⟨letter, hmem, hinside⟩ := h
  exact ⟨letter, hmem, hinside.trans hwithin⟩

def escapeLetters : List Char :=
  escapes.map Prod.fst

theorem mem_escapeLetters_iff (hc : c ≠ '\\') :
    c ∈ escapeLetters ↔ isEscapeLetter c = true := by
  simp [escapeLetters, escapes, isEscapeLetter, hc]

/-- Decoding shortens exactly the texts that have an escape in them. -/
theorem shorterIf_decode (text : List Char) :
    ShorterIf (BackslashBefore escapeLetters text) (decode text) text := by
  have hmem : '\\' ∈ escapeLetters := by decide
  induction text using induction_on_runs with
  | ends k =>
      rw [decode_replicate]
      apply (shorterIf_replicate (by omega) '\\').congr
      rw [backslashBefore_replicate, and_iff_left hmem]
      omega
  | run k c rest hc ih =>
      have hhalf : ShorterIf (2 ≤ k) (replicate ((k + 1) / 2) '\\' ++ [c])
          (replicate k '\\' ++ [c]) := by
        apply ((shorterIf_replicate (by omega) '\\').append
          (shorterIf_refl not_false [c])).congr
        rw [or_false]
        omega
      have hpos : 0 < (k + 1) / 2 ↔ 0 < k := by omega
      rw [decode_run hc]
      apply (((shorterIf_runEnd _ c).trans hhalf).append_run ih).congr
      rw [backslashBefore_run hc, mem_escapeLetters_iff hc, and_iff_left hmem, hpos]

/-- Decoding takes the texts before and after an opening brace apart, unless a
backslash right before it makes an escape with it. -/
theorem shorterIf_decode_append (text rest : List Char) :
    ShorterIf (text.getLast? = some '\\') (decode (text ++ '\x7b' :: rest))
      (decode text ++ decode ('\x7b' :: rest)) := by
  have hbrace : '\x7b' ≠ '\\' := by decide
  have hrest : decode ('\x7b' :: rest) = '\x7b' :: decode rest := decode_run hbrace 0 rest
  induction text using induction_on_runs with
  | ends k =>
      have hend := (shorterIf_runEnd ((k + 1) / 2) '\x7b').append
        (shorterIf_refl not_false (decode rest))
      rw [List.append_assoc, List.singleton_append] at hend
      rw [decode_run hbrace, decode_replicate, hrest]
      apply hend.congr
      have hletter : isEscapeLetter '\x7b' = true := by decide
      rw [or_false, and_iff_left hletter, List.getLast?_replicate]
      by_cases hk : k = 0
      · simp [hk]
      · simp only [hk, if_false, iff_true]
        omega
  | run k c tail hc ih =>
      have hend := shorterIf_refl not_false (runEnd letterEscapes ((k + 1) / 2) c)
      rw [List.append_assoc, List.cons_append, decode_run hc, decode_run hc,
        List.append_assoc]
      apply (hend.append ih).congr
      rw [false_or, getLast?_run hc]

/-- A text that ends in no backslash is decoded by itself. -/
theorem decode_append (h : text.getLast? ≠ some '\\') (rest : List Char) :
    decode (text ++ rest) = decode text ++ decode rest := by
  induction text using induction_on_runs with
  | ends k =>
      obtain rfl := eq_zero_of_getLast?_replicate h
      rfl
  | run k c tail hc ih =>
      rw [Ne, getLast?_run hc] at h
      rw [List.append_assoc, List.cons_append, decode_run hc, decode_run hc, ih h,
        List.append_assoc]

/-- What is left of a run ends with a character that is no backslash and, behind
one, no letter of a control character. -/
theorem exists_runEnd_eq (hc : c ≠ '\\') (k : Nat) :
    ∃ j d, runEnd letterEscapes k c = replicate j '\\' ++ [d] ∧ d ≠ '\\' ∧
      (0 < j → d ∉ ['n', 'r', 't', 'b', 'f']) := by
  cases k with
  | zero => exact ⟨0, c, rfl, hc, fun h => absurd h (Nat.lt_irrefl 0)⟩
  | succ j =>
      cases hletter : letterEscapes.lookup c with
      | some meaning =>
          have hmeanings : ∀ rule ∈ letterEscapes,
              rule.2 ≠ '\\' ∧ rule.2 ∉ ['n', 'r', 't', 'b', 'f'] := by
            decide
          obtain ⟨before, after, heq, -⟩ := List.lookup_eq_some_iff.1 hletter
          obtain ⟨hbackslash, hcontrol⟩ := hmeanings (c, meaning) (by simp [heq])
          exact ⟨j, meaning, runEnd_letter hletter j, hbackslash, fun _ => hcontrol⟩
      | none =>
          have hletters : ∀ d ∈ ['n', 'r', 't', 'b', 'f'], isEscapeLetter d = true := by
            simp [isEscapeLetter]
          refine ⟨j + 1, c, runEnd_other hletter _, hc, fun _ hmem => ?_⟩
          rw [lookup_letterEscapes_eq_none_iff, hletters c hmem] at hletter
          cases hletter

/-- No pass puts a letter of a control character behind a backslash. -/
theorem not_backslashBefore_decode (text : List Char) :
    ¬ BackslashBefore ['n', 'r', 't', 'b', 'f'] (decode text) := by
  induction text using induction_on_runs with
  | ends k =>
      rw [decode_replicate, backslashBefore_replicate]
      simp
  | run k c rest hc ih =>
      obtain ⟨j, d, hend, hd, hcontrol⟩ := exists_runEnd_eq hc ((k + 1) / 2)
      rw [decode_run hc, hend, List.append_assoc, List.singleton_append,
        backslashBefore_run hd]
      rintro ((⟨hj, hmem⟩ | ⟨-, hmem⟩) | hrest)
      · exact hcontrol hj hmem
      · exact absurd hmem (by decide)
      · exact ih hrest

theorem getLast?_decode (text : List Char) :
    (decode text).getLast? = some '\\' ↔ text.getLast? = some '\\' := by
  induction text using induction_on_runs with
  | ends k =>
      have hhalf : (k + 1) / 2 = 0 ↔ k = 0 := by omega
      rw [decode_replicate, List.getLast?_replicate, List.getLast?_replicate]
      simp only [hhalf]
  | run k c rest hc ih =>
      obtain ⟨j, d, hend, hd, -⟩ := exists_runEnd_eq hc ((k + 1) / 2)
      rw [decode_run hc, hend, List.append_assoc, List.singleton_append,
        getLast?_run hd, getLast?_run hc, ih]

end L20n.Text
