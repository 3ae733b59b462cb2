import L20n.Proofs.Alike
import L20n.Proofs.Viable

/-!
Two readers in lockstep over one text.  The second has at least as many levels
as the first and may read strings in another mode.  They take the same text and
end alike, with results that are related or with the same error, until the first
one is refused a level that the second may have.
-/

namespace L20n

/-- Two states with the same text ahead and the same levels entered, each under
its own limit.  Pending places make no difference. -/
def Abreast (limit limit' depth : Int)
    (s t : Guarded (List Char) (List Char)) : Prop :=
  ∃ text pending pending',
    s = ⟨text, limit, depth, pending⟩ ∧ t = ⟨text, limit', depth, pending'⟩

/-- Outcomes that go with each other. -/
inductive Agrees {α β : Type} (limit limit' depth : Int) (R : α → β → Prop) :
    EStateM.Result ReadError (Guarded (List Char) (List Char)) α →
    EStateM.Result ReadError (Guarded (List Char) (List Char)) β → Prop
  | ok {a b s t} : R a b → Abreast limit limit' depth s t →
      Agrees limit limit' depth R (.ok a s) (.ok b t)
  | error {e s t} : Abreast limit limit' depth s t →
      Agrees limit limit' depth R (.error e s) (.error e t)
  | refused {e s outcome} : limit < limit' → e.TooDeep →
      Agrees limit limit' depth R (.error e s) outcome

namespace Reader

variable {α β γ δ : Type} {limit limit' depth : Int} {R : α → β → Prop}
  {S : γ → δ → Prop} {x : Reader α} {y : Reader β}

/-- Started abreast, the readers end in agreement. -/
def Lockstep (limit limit' depth : Int) (R : α → β → Prop) (x : Reader α)
    (y : Reader β) : Prop :=
  ∀ ⦃s t⦄, Abreast limit limit' depth s t →
    Agrees limit limit' depth R (x s) (y t)

theorem lockstep_pure {a : α} {b : β} (h : R a b) :
    Lockstep limit limit' depth R (pure a) (pure b) :=
  fun _ _ hst => .ok h hst

theorem lockstep_throw (e : ReadError) :
    Lockstep limit limit' depth R (throw e) (throw e) :=
  fun _ _ hst => .error hst

theorem lockstep_fail (cause : Cause) :
    Lockstep limit limit' depth R (fail cause) (fail cause) := by
  intro s t hst
  obtain ⟨text, pending, pending', rfl, rfl⟩ := hst
  exact .error ⟨text, pending, pending', rfl, rfl⟩

theorem Lockstep.bind {f : α → Reader γ} {g : β → Reader δ}
    (h : Lockstep limit limit' depth R x y)
    (hf : ∀ a b, R a b → Lockstep limit limit' depth S (f a) (g b)) :
    Lockstep limit limit' depth S (x >>= f) (y >>= g) := by
  intro s t hst
  have hxy := h hst
  simp only [Bind.bind, EStateM.bind]
  generalize x s = first, y t = second at hxy ⊢
  cases hxy with
  | ok hab hnext => exact hf _ _ hab hnext
  | error hnext => exact .error hnext
  | refused hlt hdeep => exact .refused hlt hdeep

theorem Lockstep.mono {T : α → β → Prop} (hRT : ∀ {a b}, R a b → T a b)
    (h : Lockstep limit limit' depth R x y) : Lockstep limit limit' depth T x y := by
  intro s t hst
  have hxy := h hst
  generalize x s = first, y t = second at hxy ⊢
  cases hxy with
  | ok hab hnext => exact .ok (hRT hab) hnext
  | error hnext => exact .error hnext
  | refused hlt hdeep => exact .refused hlt hdeep

/-- Readers that give the same result go on in the same way. -/
theorem Lockstep.bind_same {x y : Reader α} {f : α → Reader γ} {g : α → Reader δ}
    (h : Lockstep limit limit' depth Eq x y)
    (hf : ∀ a, Lockstep limit limit' depth S (f a) (g a)) :
    Lockstep limit limit' depth S (x >>= f) (y >>= g) := by
  refine h.bind fun a b hab => ?_
  rw [← hab]
  exact hf a

/-- An optional construct that both find, or none of them. -/
theorem Lockstep.bind_option {x : Reader (Option α)} {y : Reader (Option β)}
    {f : Option α → Reader γ} {g : Option β → Reader δ}
    (h : Lockstep limit limit' depth (Option.Rel R) x y)
    (hnone : Lockstep limit limit' depth S (f none) (g none))
    (hsome : ∀ a b, R a b → Lockstep limit limit' depth S (f (some a)) (g (some b))) :
    Lockstep limit limit' depth S (x >>= f) (y >>= g) := by
  refine h.bind fun a b hab => ?_
  cases hab with
  | none => exact hnone
  | some hab => exact hsome _ _ hab

theorem lockstep_ahead : Lockstep limit limit' depth Eq ahead ahead := by
  intro s t hst
  obtain ⟨text, pending, pending', rfl, rfl⟩ := hst
  exact .ok rfl ⟨text, pending, pending', rfl, rfl⟩

theorem lockstep_token? (token : Token) :
    Lockstep limit limit' depth Eq (token? token) (token? token) := by
  intro s t hst
  obtain ⟨text, pending, pending', rfl, rfl⟩ := hst
  cases hat : token.match? text with
  | none =>
      simp only [token?, hat]
      exact .ok rfl ⟨text, pending, pending', rfl, rfl⟩
  | some found =>
      simp only [token?, hat]
      exact .ok rfl ⟨found.rest, pending, pending', rfl, rfl⟩

theorem lockstep_seek? (token : Token) :
    Lockstep limit limit' depth Eq (seek? token) (seek? token) := by
  intro s t hst
  obtain ⟨text, pending, pending', rfl, rfl⟩ := hst
  cases hat : token.find? text with
  | none =>
      simp only [seek?, hat]
      exact .ok rfl ⟨text, pending, pending', rfl, rfl⟩
  | some found =>
      simp only [seek?, hat]
      exact .ok rfl ⟨found.rest, pending, pending', rfl, rfl⟩

theorem lockstep_peek? (token : Token) :
    Lockstep limit limit' depth Eq (peek? token) (peek? token) :=
  lockstep_ahead.bind_same fun _ => lockstep_pure rfl

theorem lockstep_expect (token : Token) (what : String) :
    Lockstep limit limit' depth Eq (expect token what) (expect token what) := by
  refine (lockstep_token? token).bind_same fun found => ?_
  cases found with
  | none => exact lockstep_fail _
  | some lexeme => exact lockstep_pure rfl

theorem Lockstep.required {x : Reader (Option α)} {y : Reader (Option β)}
    (h : Lockstep limit limit' depth (Option.Rel R) x y) (cause : Cause) :
    Lockstep limit limit' depth R (required cause x) (required cause y) :=
  h.bind_option (lockstep_fail cause) fun _ _ hab => lockstep_pure hab

/-- A level is refused to both, to the first alone, or to none of them. -/
theorem Lockstep.nested (hle : limit ≤ limit')
    (h : depth < limit → Lockstep limit limit' (depth + 1) R x y) :
    Lockstep limit limit' depth R (nested x) (nested y) := by
  intro s t hst
  obtain ⟨text, pending, pending', rfl, rfl⟩ := hst
  by_cases hlimit : limit ≤ depth
  -- the first is refused, and if the limits agree, so is the second
  · simp only [Reader.nested, atLevel, DepthGuard.entering, DepthGuard.enter,
      hlimit, if_true]
    by_cases hlt : limit < limit'
    · exact .refused hlt trivial
    · obtain rfl : limit = limit' := by omega
      simp only [hlimit, if_true]
      exact .error ⟨text, none, none, rfl, rfl⟩
  · have hlimit' : ¬ limit' ≤ depth := by omega
    have hxy := h (by omega) (s := ⟨text, limit, depth + 1, none⟩)
      (t := ⟨text, limit', depth + 1, none⟩) ⟨text, none, none, rfl, rfl⟩
    simp only [Reader.nested, atLevel, DepthGuard.entering, DepthGuard.enter,
      hlimit, hlimit', if_false]
    generalize x _ = first, y _ = second at hxy ⊢
    cases hxy with
    | ok hab hnext =>
        obtain ⟨text, pending, pending', rfl, rfl⟩ := hnext
        exact .ok hab ⟨text, pending, pending', by simp [DepthGuard.exit],
          by simp [DepthGuard.exit]⟩
    | error hnext =>
        obtain ⟨text, pending, pending', rfl, rfl⟩ := hnext
        exact .error ⟨text, pending, pending', by simp [DepthGuard.exit],
          by simp [DepthGuard.exit]⟩
    | refused hlt hdeep => exact .refused hlt hdeep

theorem Lockstep.manyUpTo {x : Reader (Option α)} {y : Reader (Option β)}
    (h : Lockstep limit limit' depth (Option.Rel R) x y) (n : Nat) :
    Lockstep limit limit' depth (List.Forall₂ R) (manyUpTo n x) (manyUpTo n y) := by
  induction n with
  | zero => exact lockstep_pure .nil
  | succ n ih =>
      exact h.bind_option (lockstep_pure .nil) fun _ _ hab =>
        ih.bind fun _ _ hmore => lockstep_pure (.cons hab hmore)

theorem Lockstep.many {x : Reader (Option α)} {y : Reader (Option β)}
    (h : Lockstep limit limit' depth (Option.Rel R) x y) :
    Lockstep limit limit' depth (List.Forall₂ R) (many x) (many y) :=
  lockstep_ahead.bind_same fun text => h.manyUpTo text.length

theorem Lockstep.afterComma (h : Lockstep limit limit' depth R x y) :
    Lockstep limit limit' depth (Option.Rel R) (afterComma x) (afterComma y) := by
  refine (lockstep_token? .comma).bind_same fun found => ?_
  cases found with
  | none => exact lockstep_pure .none
  | some _ => exact h.bind fun _ _ hab => lockstep_pure (.some hab)

theorem Lockstep.commaSeparated (h : Lockstep limit limit' depth R x y) :
    Lockstep limit limit' depth (List.Forall₂ R) (commaSeparated x)
      (commaSeparated y) :=
  h.bind fun _ _ hab => h.afterComma.many.bind fun _ _ hmore =>
    lockstep_pure (.cons hab hmore)

theorem lockstep_name? : Lockstep limit limit' depth Eq name? name? :=
  (lockstep_token? .name).bind_same fun _ => lockstep_pure rfl

theorem lockstep_name (what : String) :
    Lockstep limit limit' depth Eq (name what) (name what) :=
  (lockstep_expect .name what).bind_same fun _ => lockstep_pure rfl

theorem lockstep_number? : Lockstep limit limit' depth Eq number? number? := by
  refine (lockstep_token? .number).bind_same fun found => ?_
  cases found with
  | none => exact lockstep_pure rfl
  | some token =>
      cases hvalue : Text.numberValue token with
      | ok n =>
          simp only [hvalue]
          exact lockstep_pure rfl
      | error e =>
          simp only [hvalue]
          exact lockstep_throw _

end Reader

-- Each rule keeps in lockstep when the readers of the next level inwards do, once
-- that level is entered.

section Rules

variable {leaf : Value → Value → Prop} {mode mode' : StringMode}
  {limit limit' depth : Int}

/-- The strings that two modes make of the same pieces are related. -/
def StringMode.Pairs (leaf : Value → Value → Prop) (mode mode' : StringMode) : Prop :=
  ∀ pieces, leaf (Value.ofPieces mode pieces) (Value.ofPieces mode' pieces)

theorem StringMode.pairs_eq (mode : StringMode) : Pairs Eq mode mode :=
  fun _ => rfl

structure Inner.Lockstep (limit limit' depth : Int) (leaf : Value → Value → Prop)
    (inner inner' : Inner) : Prop where
  array : Reader.Lockstep limit limit' depth (Value.Alike leaf) inner.array inner'.array
  object :
    Reader.Lockstep limit limit' depth (Value.Alike leaf) inner.object inner'.object
  conditional : Reader.Lockstep limit limit' depth (Option.Rel (Expr.Alike leaf))
    inner.conditional inner'.conditional
  logical : Reader.Lockstep limit limit' depth (Option.Rel (Expr.Alike leaf))
    inner.logical inner'.logical
  binary : Reader.Lockstep limit limit' depth (Option.Rel (Expr.Alike leaf))
    inner.binary inner'.binary

inductive Suffix.Alike (leaf : Value → Value → Prop) : Suffix → Suffix → Prop
  | attr (key : String) : Alike leaf (.attr key) (.attr key)
  | attrAt {index index'} :
      index.Alike leaf index' → Alike leaf (.attrAt index) (.attrAt index')
  | prop (key : String) : Alike leaf (.prop key) (.prop key)
  | propAt {index index'} :
      index.Alike leaf index' → Alike leaf (.propAt index) (.propAt index')
  | call {arguments arguments'} :
      List.Forall₂ (Expr.Alike leaf) arguments arguments' →
      Alike leaf (.call arguments) (.call arguments')

structure Header.Alike (leaf : Value → Value → Prop) (head head' : Header) : Prop where
  key : head.key = head'.key
  index : Option.Rel (List.Forall₂ (Expr.Alike leaf)) head.index head'.index
  params : Option.Rel (List.Forall₂ (Expr.Alike leaf)) head.params head'.params

theorem Suffix.eq_of_alike {suffix suffix' : Suffix} (h : suffix.Alike Eq suffix') :
    suffix = suffix' := by
  cases h with
  | attr key => rfl
  | attrAt hindex => rw [Expr.eq_of_alike hindex]
  | prop key => rfl
  | propAt hindex => rw [Expr.eq_of_alike hindex]
  | call harguments => rw [Expr.eq_of_alike_row harguments]

theorem Header.eq_of_alike {head head' : Header} (h : head.Alike Eq head') :
    head = head' := by
  obtain ⟨key, index, params⟩ := head
  obtain ⟨key', index', params'⟩ := head'
  obtain ⟨hkey, hindex, hparams⟩ := h
  congr
  · exact eq_of_optionRel Expr.eq_of_alike_row hindex
  · exact eq_of_optionRel Expr.eq_of_alike_row hparams

theorem Expr.Alike.extend {base base' : Expr} {suffix suffix' : Suffix}
    (hbase : base.Alike leaf base') (h : suffix.Alike leaf suffix') :
    (base.extend suffix).Alike leaf (base'.extend suffix') := by
  cases h with
  | attr key => exact .attr key hbase
  | attrAt hindex => exact .attrAt hbase hindex
  | prop key => exact .prop key hbase
  | propAt hindex => exact .propAt hbase hindex
  | call harguments => exact .call hbase harguments

theorem Expr.Alike.extend_all {base base' : Expr} {suffixes suffixes' : List Suffix}
    (hbase : base.Alike leaf base')
    (h : List.Forall₂ (Suffix.Alike leaf) suffixes suffixes') :
    (suffixes.foldl Expr.extend base).Alike leaf
      (suffixes'.foldl Expr.extend base') := by
  induction h generalizing base base' with
  | nil => exact hbase
  | cons hsuffix _ ih => exact ih (hbase.extend hsuffix)

namespace Reader

theorem lockstep_literal (hleaf : StringMode.Pairs leaf mode mode') :
    Lockstep limit limit' depth (Value.Alike leaf) (literal mode) (literal mode') := by
  refine (lockstep_expect .delimiter _).bind_same fun delimiter =>
    lockstep_ahead.bind_same fun text => ?_
  intro s t hst
  obtain ⟨_, pending, pending', rfl, rfl⟩ := hst
  cases hscan : Body.scan delimiter text with
  | closed pieces rest =>
      exact .ok (.leaf (hleaf pieces)) ⟨rest, pending, pending', rfl, rfl⟩
  | openPlaceholder place => exact .error ⟨place, pending, pending', rfl, rfl⟩
  | openLiteral => exact .error ⟨_, pending, pending', rfl, rfl⟩

variable {inner inner' : Inner} (hle : limit ≤ limit')
  (hleaf : StringMode.Pairs leaf mode mode')
  (hinner : depth < limit →
    Inner.Lockstep limit limit' (depth + 1) leaf inner inner')

include hle hleaf hinner

theorem lockstep_value? :
    Lockstep limit limit' depth (Option.Rel (Value.Alike leaf)) (value? mode inner)
      (value? mode' inner') := by
  refine (lockstep_peek? .valueOpen).bind_same fun found => ?_
  split
  · exact lockstep_pure .none
  · exact Lockstep.bind (Lockstep.nested hle fun h => (hinner h).array) fun _ _ hv =>
      lockstep_pure (.some hv)
  · exact Lockstep.bind (Lockstep.nested hle fun h => (hinner h).object) fun _ _ hv =>
      lockstep_pure (.some hv)
  · exact (lockstep_literal hleaf).bind fun _ _ hv => lockstep_pure (.some hv)

theorem lockstep_value :
    Lockstep limit limit' depth (Value.Alike leaf) (value mode inner)
      (value mode' inner') :=
  (lockstep_value? hle hleaf hinner).required _

theorem lockstep_member (what : String) :
    Lockstep limit limit' depth
      (fun pair pair' => pair.1 = pair'.1 ∧ pair.2.Alike leaf pair'.2)
      (member mode inner what) (member mode' inner' what) :=
  (lockstep_name what).bind_same fun _ => (lockstep_expect .colon _).bind_same
    fun _ => (lockstep_value hle hleaf hinner).bind fun _ _ hv =>
      lockstep_pure ⟨rfl, hv⟩

theorem lockstep_array :
    Lockstep limit limit' depth (Value.Alike leaf) (array mode inner)
      (array mode' inner') := by
  refine (lockstep_expect .arrayOpen _).bind_same fun _ =>
    (lockstep_token? .arrayClose).bind_same fun found => ?_
  cases found with
  | some _ => exact lockstep_pure (.array .nil)
  | none =>
      exact (lockstep_value hle hleaf hinner).commaSeparated.bind fun _ _ hitems =>
        (lockstep_expect .arrayClose _).bind_same fun _ =>
          lockstep_pure (.array hitems)

theorem lockstep_object :
    Lockstep limit limit' depth (Value.Alike leaf) (object mode inner)
      (object mode' inner') := by
  refine (lockstep_expect .objectOpen _).bind_same fun _ =>
    (lockstep_token? .objectClose).bind_same fun found => ?_
  cases found with
  | some _ => exact lockstep_pure (Value.alike_object .nil)
  | none =>
      refine (lockstep_member hle hleaf hinner _).commaSeparated.bind
        fun members members' hmembers => ?_
      have hpairs : Table.Alike (Value.Alike leaf) members members' := hmembers
      exact (lockstep_expect .objectClose _).bind_same fun _ =>
        lockstep_pure (Value.alike_object hpairs.ofPairs)

omit hleaf in
theorem lockstep_expression? :
    Lockstep limit limit' depth (Option.Rel (Expr.Alike leaf)) (expression? inner)
      (expression? inner') :=
  Lockstep.nested hle fun h => (hinner h).conditional

omit hleaf in
theorem lockstep_expression :
    Lockstep limit limit' depth (Expr.Alike leaf) (expression inner)
      (expression inner') :=
  (lockstep_expression? hle hinner).required _

omit hleaf hinner in
/-- An operand is read one level further in. -/
theorem Lockstep.operand {x y : Reader (Option Expr)}
    (h : depth < limit →
      Lockstep limit limit' (depth + 1) (Option.Rel (Expr.Alike leaf)) x y) :
    Lockstep limit limit' depth (Expr.Alike leaf) (operand x) (operand y) :=
  Lockstep.nested hle fun hlt => (h hlt).required _

omit hleaf in
theorem lockstep_expressions (close : Token) (what : String) :
    Lockstep limit limit' depth (List.Forall₂ (Expr.Alike leaf))
      (expressions inner close what) (expressions inner' close what) :=
  (lockstep_expression hle hinner).commaSeparated.bind fun _ _ hitems =>
    (lockstep_expect close what).bind_same fun _ => lockstep_pure hitems

omit hleaf in
theorem lockstep_arguments :
    Lockstep limit limit' depth (List.Forall₂ (Expr.Alike leaf)) (arguments inner)
      (arguments inner') := by
  refine (lockstep_token? .parenClose).bind_same fun found => ?_
  cases found with
  | some _ => exact lockstep_pure .nil
  | none => exact lockstep_expressions hle hinner _ _

omit hleaf in
theorem lockstep_index :
    Lockstep limit limit' depth (Expr.Alike leaf) (index inner) (index inner') :=
  (lockstep_expression hle hinner).bind fun _ _ he =>
    (lockstep_expect .arrayClose _).bind_same fun _ => lockstep_pure he

theorem lockstep_primary :
    Lockstep limit limit' depth (Option.Rel (Expr.Alike leaf)) (primary mode inner)
      (primary mode' inner') := by
  refine (lockstep_token? .parenOpen).bind_same fun found => ?_
  cases found with
  | some _ =>
      exact (lockstep_expression hle hinner).bind fun _ _ he =>
        (lockstep_expect .parenClose _).bind_same fun _ =>
          lockstep_pure (.some (.paren he))
  | none =>
      refine lockstep_number?.bind_same fun number => ?_
      cases number with
      | some n => exact lockstep_pure (.some (.number n))
      | none =>
          refine (lockstep_value? hle hleaf hinner).bind_option ?_
            fun _ _ hv => lockstep_pure (.some (.value hv))
          refine lockstep_name?.bind_same fun found => ?_
          cases found with
          | none => exact lockstep_pure .none
          | some key => exact lockstep_pure (.some (.name key))

omit hleaf in
theorem lockstep_suffix? :
    Lockstep limit limit' depth (Option.Rel (Suffix.Alike leaf)) (suffix? inner)
      (suffix? inner') := by
  refine (lockstep_token? .attributeDot).bind_same fun found => ?_
  split
  · exact (lockstep_name _).bind_same fun key => lockstep_pure (.some (.attr key))
  refine (lockstep_token? .attributeIndexOpen).bind_same fun found => ?_
  split
  · exact (lockstep_index hle hinner).bind fun _ _ he =>
      lockstep_pure (.some (.attrAt he))
  refine (lockstep_token? .propertyDot).bind_same fun found => ?_
  split
  · exact (lockstep_name _).bind_same fun key => lockstep_pure (.some (.prop key))
  refine (lockstep_token? .propertyIndexOpen).bind_same fun found => ?_
  split
  · exact (lockstep_index hle hinner).bind fun _ _ he =>
      lockstep_pure (.some (.propAt he))
  refine (lockstep_token? .callOpen).bind_same fun found => ?_
  split
  · exact (lockstep_arguments hle hinner).bind fun _ _ hitems =>
      lockstep_pure (.some (.call hitems))
  · exact lockstep_pure .none

theorem lockstep_chain :
    Lockstep limit limit' depth (Option.Rel (Expr.Alike leaf)) (chain mode inner)
      (chain mode' inner') :=
  (lockstep_primary hle hleaf hinner).bind_option (lockstep_pure .none)
    fun _ _ hbase => (lockstep_suffix? hle hinner).many.bind fun _ _ hsuffixes =>
      lockstep_pure (.some (hbase.extend_all hsuffixes))

theorem lockstep_unary :
    Lockstep limit limit' depth (Option.Rel (Expr.Alike leaf)) (unary mode inner)
      (unary mode' inner') := by
  have hchain := lockstep_chain hle hleaf hinner
  refine (lockstep_token? .unaryOp).bind_same fun found => ?_
  cases found.bind UnaryOp.ofSymbol? with
  | none => exact hchain
  | some op =>
      exact (hchain.required _).bind fun _ _ he => lockstep_pure (.some (.unary op he))

theorem lockstep_binary :
    Lockstep limit limit' depth (Option.Rel (Expr.Alike leaf)) (binary mode inner)
      (binary mode' inner') := by
  refine (lockstep_unary hle hleaf hinner).bind_option (lockstep_pure .none)
    fun left left' hleft => (lockstep_token? .binaryOp).bind_same fun found => ?_
  cases found.bind BinaryOp.ofSymbol? with
  | none => exact lockstep_pure (.some hleft)
  | some op =>
      exact (Lockstep.operand hle fun h => (hinner h).binary).bind fun _ _ hright =>
        lockstep_pure (.some (.binary op hleft hright))

theorem lockstep_logical :
    Lockstep limit limit' depth (Option.Rel (Expr.Alike leaf)) (logical mode inner)
      (logical mode' inner') := by
  refine (lockstep_binary hle hleaf hinner).bind_option (lockstep_pure .none)
    fun left left' hleft => (lockstep_token? .logicalOp).bind_same fun found => ?_
  cases found.bind LogicalOp.ofSymbol? with
  | none => exact lockstep_pure (.some hleft)
  | some op =>
      exact (Lockstep.operand hle fun h => (hinner h).logical).bind fun _ _ hright =>
        lockstep_pure (.some (.logical op hleft hright))

theorem lockstep_conditional :
    Lockstep limit limit' depth (Option.Rel (Expr.Alike leaf)) (conditional mode inner)
      (conditional mode' inner') := by
  have hbranch := Lockstep.operand hle fun h => (hinner h).conditional
  refine (lockstep_logical hle hleaf hinner).bind_option (lockstep_pure .none)
    fun test test' htest => (lockstep_token? .question).bind_same fun found => ?_
  cases found with
  | none => exact lockstep_pure (.some htest)
  | some _ =>
      exact hbranch.bind fun _ _ hyes => (lockstep_expect .colon _).bind_same fun _ =>
        hbranch.bind fun _ _ hno =>
          lockstep_pure (.some (.conditional htest hyes hno))

omit hleaf in
theorem lockstep_header :
    Lockstep limit limit' depth (Header.Alike leaf) (header inner) (header inner') := by
  refine (lockstep_name _).bind_same fun key =>
    (lockstep_token? .propertyIndexOpen).bind_same fun found => ?_
  split
  · exact (lockstep_expressions hle hinner _ _).bind fun _ _ hitems =>
      lockstep_pure ⟨rfl, .some hitems, .none⟩
  refine (lockstep_token? .callOpen).bind_same fun found => ?_
  split
  · exact (lockstep_arguments hle hinner).bind fun _ _ hitems =>
      lockstep_pure ⟨rfl, .none, .some hitems⟩
  · exact lockstep_pure ⟨rfl, .none, .none⟩

theorem lockstep_attribute? :
    Lockstep limit limit' depth
      (Option.Rel fun pair pair' => pair.1 = pair'.1 ∧ pair.2.Alike leaf pair'.2)
      (attribute? mode inner) (attribute? mode' inner') := by
  refine lockstep_name?.bind_same fun found => ?_
  cases found with
  | none => exact lockstep_pure .none
  | some key =>
      exact (lockstep_expect .colon _).bind_same fun _ =>
        (lockstep_value hle hleaf hinner).bind fun _ _ hv =>
          lockstep_pure (.some ⟨rfl, hv⟩)

theorem lockstep_attributes? :
    Lockstep limit limit' depth (Option.Rel (Table.Alike (Value.Alike leaf)))
      (attributes? mode inner) (attributes? mode' inner') := by
  refine (lockstep_attribute? hle hleaf hinner).many.bind fun pairs pairs' hpairs => ?_
  cases hpairs with
  | nil => exact lockstep_pure .none
  | cons hpair hmore =>
      have htable : Table.Alike (Value.Alike leaf) (_ :: _) (_ :: _) := .cons hpair hmore
      exact lockstep_pure (.some htable.ofPairs)

theorem lockstep_entryBody {head head' : Header} (hhead : head.Alike leaf head') :
    Lockstep limit limit' depth (Entry.Alike leaf) (entryBody mode inner head)
      (entryBody mode' inner' head') := by
  obtain ⟨key, index, params⟩ := head
  obtain ⟨key', index', params'⟩ := head'
  obtain ⟨hkey, hindex, hparams⟩ := hhead
  cases hparams with
  | some hparams =>
      exact (lockstep_expect .objectOpen _).bind_same fun _ =>
        (lockstep_expression hle hinner).bind fun _ _ hbody =>
          (lockstep_expect .objectClose _).bind_same fun _ =>
            lockstep_pure (.macroDef hparams hbody)
  | none =>
      refine (lockstep_value? hle hleaf hinner).bind fun v v' hv =>
        (lockstep_attributes? hle hleaf hinner).bind fun rows rows' hrows => ?_
      cases hrows with
      | some htable => exact lockstep_pure (.complex hindex hv (.some htable))
      | none =>
          cases hindex with
          | none => exact lockstep_pure (.plain hv)
          | some hitems => exact lockstep_pure (.complex (.some hitems) hv .none)

theorem lockstep_entry :
    Lockstep limit limit' depth
      (fun pair pair' => pair.1 = pair'.1 ∧ pair.2.Alike leaf pair'.2)
      (entry mode inner) (entry mode' inner') :=
  (lockstep_header hle hinner).bind fun _ _ hhead =>
    (lockstep_entryBody hle hleaf hinner hhead).bind fun _ _ hentry =>
      (lockstep_expect .entryClose _).bind_same fun _ =>
        lockstep_pure ⟨hhead.key, hentry⟩

end Reader

/-- The rules with the levels that two guards have left keep in lockstep.  The
first has no more levels than the second, and each level takes one from both. -/
theorem Inner.lockstep_ofLevels (hle : limit ≤ limit')
    (hleaf : StringMode.Pairs leaf mode mode') (n : Nat) (hn : n = (limit - depth).toNat)
    (hlt : depth < limit) :
    Inner.Lockstep limit limit' (depth + 1) leaf (ofLevels mode n)
      (ofLevels mode' (limit' - depth).toNat) := by
  induction n generalizing depth with
  | zero => omega
  | succ n ih =>
      -- the second has at least the levels of the first, so one to take away
      have hlevels : (limit' - depth).toNat = (limit' - (depth + 1)).toNat + 1 := by
        omega
      have hinner := @ih (depth + 1) (by omega)
      rw [hlevels]
      exact ⟨Reader.lockstep_array hle hleaf hinner,
        Reader.lockstep_object hle hleaf hinner,
        Reader.lockstep_conditional hle hleaf hinner,
        Reader.lockstep_logical hle hleaf hinner,
        Reader.lockstep_binary hle hleaf hinner⟩

namespace Reader

theorem Lockstep.withLevels {α β : Type} {R : α → β → Prop}
    {rule : Inner → Reader α} {rule' : Inner → Reader β} (hle : limit ≤ limit')
    (hleaf : StringMode.Pairs leaf mode mode')
    (h : ∀ {inner inner'}, (depth < limit →
        Inner.Lockstep limit limit' (depth + 1) leaf inner inner') →
      Lockstep limit limit' depth R (rule inner) (rule' inner')) :
    Lockstep limit limit' depth R (withLevels mode rule) (withLevels mode' rule') := by
  intro s t hst
  obtain ⟨text, pending, pending', rfl, rfl⟩ := hst
  exact h (Inner.lockstep_ofLevels hle hleaf _ rfl)
    ⟨text, pending, pending', rfl, rfl⟩

theorem lockstep_comment? :
    Lockstep limit limit' depth (Option.Rel Eq) comment? comment? := by
  refine (lockstep_token? .commentOpen).bind_same fun found => ?_
  cases found with
  | none => exact lockstep_pure .none
  | some _ =>
      refine (lockstep_seek? .commentClose).bind_same fun found => ?_
      cases found with
      | none => exact lockstep_fail _
      | some _ => exact lockstep_pure (.some rfl)

theorem lockstep_entryOpen : Lockstep limit limit' depth Eq entryOpen entryOpen := by
  have hcomments : Lockstep limit limit' depth Eq comments comments :=
    lockstep_comment?.many.bind fun _ _ _ => lockstep_pure rfl
  exact hcomments.bind_same fun _ => (lockstep_token? .entryOpen).bind_same fun _ =>
    lockstep_pure rfl

theorem lockstep_entryAhead? (hle : limit ≤ limit')
    (hleaf : StringMode.Pairs leaf mode mode') :
    Lockstep limit limit' depth
      (Option.Rel fun pair pair' => pair.1 = pair'.1 ∧ pair.2.Alike leaf pair'.2)
      (entryAhead? mode) (entryAhead? mode') := by
  refine lockstep_entryOpen.bind_same fun opened => ?_
  cases opened with
  | false => exact lockstep_pure .none
  | true =>
      exact Lockstep.bind (Lockstep.withLevels hle hleaf (lockstep_entry hle hleaf))
        fun _ _ hpair => lockstep_pure (.some hpair)

end Reader

/-- Runs that go with each other: the entries are alike and the end is the same,
unless the first was refused a level that the second may have. -/
inductive Run.Agrees (limit limit' : Int) (leaf : Value → Value → Prop)
    (run other : Run) : Prop
  | alike : Table.Alike (Entry.Alike leaf) run.registered other.registered →
      run.error = other.error → Agrees limit limit' leaf run other
  | refused {e} : limit < limit' → run.error = some e → e.TooDeep →
      Agrees limit limit' leaf run other

theorem Run.agrees_upTo (hle : limit ≤ limit')
    (hleaf : StringMode.Pairs leaf mode mode') (n : Nat)
    {s t : Guarded (List Char) (List Char)} (hst : Abreast limit limit' depth s t) :
    Agrees limit limit' leaf (upTo mode n s) (upTo mode' n t) := by
  induction n generalizing s t with
  | zero => exact .alike .nil rfl
  | succ n ih =>
      have hnext := Reader.lockstep_entryAhead? hle hleaf hst
      simp only [upTo]
      generalize Reader.entryAhead? mode s = first, Reader.entryAhead? mode' t = second
        at hnext ⊢
      cases hnext with
      | ok hfound hst' =>
          cases hfound with
          | none => exact .alike .nil rfl
          | some hpair =>
              cases ih hst' with
              | alike hmore herror => exact .alike (.cons hpair hmore) herror
              | refused hlt herror hdeep => exact .refused hlt herror hdeep
      | error hst' => exact .alike .nil rfl
      | refused hlt hdeep => exact .refused hlt rfl hdeep

/-- Two runs over one source go with each other. -/
theorem Run.agrees_ofSource (hle : limit ≤ limit')
    (hleaf : StringMode.Pairs leaf mode mode') (source : List Char) :
    Agrees limit limit' leaf (ofSource mode limit source)
      (ofSource mode' limit' source) :=
  agrees_upTo hle hleaf source.length ⟨source, none, none, rfl, rfl⟩

end Rules

end L20n
