import Mundart.Proofs.Grammar.RoundTrip.Expressions

/-!
# Targets, primary expressions and operators are read back

A primary expression that starts with a name has several alternatives: it may go on with indexes, with a dot
or with arguments. Each alternative is tried with the name, and gives up where the next token is not its own.

* **`ReadsTarget n`** — the indexes of a target are read one after the other, from its name on;
* **`readsPrimary_target`** to **`readsPrimary_call`** — one theorem for every form of primary expression;
* **`readsOperand_binary`**, **`readsComparison_comparison`** — operators between what was read back;
* **`Quiet n`** — no assignment is read off the tokens of an expression, although both may start with the same
  name and index.
-/

namespace Mundart

namespace Grammar

open Token

/-! ## Targets

A target is written from its name on, but its outermost node is the last index. So its indexes are read with
a bound that gets smaller on the way, and what is left of the bound is passed on. -/

/-- A name, or a name with indexes. -/
def TargetShape (n : Node) (name : Text) (indexes : List Token) : Prop :=
  (n = .identifier name ∧ indexes = []) ∨
    (∃ collection position, n = .index collection position) ∧ nextIs .leftBracket indexes = true

/-- The indexes of a target are read back one after the other from the tokens behind its name. -/
def ReadsTarget (n : Node) : Prop :=
  ∃ name indexes, n.tokens = word .identifier name :: indexes ∧ TargetShape n name indexes ∧
    ∀ ⦃k m : Nat⦄ ⦃rest : List Token⦄, n.tokens.length ≤ k + 1 → indexes.length ≤ m →
      ∃ m', m ≤ m' + indexes.length ∧ indexChain (expressionAt k) m (.identifier name) (indexes ++ rest) =
        indexChain (expressionAt k) m' n rest

/-- A name alone has no indexes. -/
theorem readsTarget_name (name : Text) : ReadsTarget (.identifier name) :=
  ⟨name, [], rfl, .inl ⟨rfl, rfl⟩, fun _ m _ _ _ => ⟨m, Nat.le_refl _, rfl⟩⟩

/-- One index more behind a target. -/
theorem readsTarget_index {collection position : Node} (hc : ReadsTarget collection)
    (hp : ReadsExpression position) : ReadsTarget (.index collection position) := by
  obtain ⟨name, indexes, htokens, hshape, hchain⟩ := hc
  refine ⟨name, indexes ++ brackets position.tokens, ?_, .inr ⟨⟨_, _, rfl⟩, ?_⟩, ?_⟩
  · rw [Node.tokens, htokens, List.cons_append]
  · rcases hshape with ⟨-, rfl⟩ | ⟨-, hnext⟩
    · rfl
    · cases indexes with
      | nil => exact absurd hnext Bool.false_ne_true
      | cons t ts => exact hnext
  · intro k m rest hk hm
    rw [Node.tokens, List.length_append] at hk
    have hlen := length_brackets position.tokens
    rw [List.length_append] at hm
    -- The indexes of the collection are read first; they leave enough of the bound for one more.
    obtain ⟨m₁, hm₁, hread⟩ := @hchain k m (brackets position.tokens ++ rest) (by omega) (by omega)
    obtain ⟨m₂, rfl⟩ : ∃ m', m₁ = m' + 1 := ⟨m₁ - 1, by omega⟩
    refine ⟨m₂, by rw [List.length_append]; omega, ?_⟩
    rw [List.append_assoc, hread, brackets_append]
    refine indexChain_step (hp ?_ (stops_cons (by decide)))
    have hpos : 0 < collection.tokens.length := by simp [htokens]
    omega

/-- A target with indexes is an index access. -/
theorem ReadsTarget.indexAccess {collection position : Node}
    (h : ReadsTarget (.index collection position)) {k : Nat} {rest : List Token}
    (hk : (Node.index collection position).tokens.length ≤ k + 1)
    (hrest : nextIs .leftBracket rest = false) :
    indexAccess (expressionAt k) ((Node.index collection position).tokens ++ rest) =
      .ok (some (.index collection position, rest)) := by
  obtain ⟨name, indexes, htokens, hshape, hchain⟩ := h
  rcases hshape with ⟨hname, -⟩ | ⟨-, hnext⟩
  · exact absurd hname (by simp)
  · obtain ⟨m, -, hread⟩ := @hchain k ((indexes ++ rest).length + 1) rest hk
      (by rw [List.length_append]; omega)
    rw [indexChain_stop hrest] at hread
    rw [htokens, List.cons_append]
    refine indexAccess_found ?_ hread
    cases indexes with
    | nil => exact absurd hnext Bool.false_ne_true
    | cons t ts => exact hnext

/-- A target is read back as the object of a property. -/
theorem ReadsTarget.found {n : Node} (h : ReadsTarget n) {k : Nat} {rest : List Token}
    (hk : n.tokens.length ≤ k + 1) (hrest : nextIs .leftBracket rest = false) :
    firstOf [Grammar.indexAccess (expressionAt k), identifier] (n.tokens ++ rest) =
      .ok (some (n, rest)) := by
  have hshape := h
  obtain ⟨name, indexes, -, ⟨rfl, rfl⟩ | ⟨⟨collection, position, rfl⟩, -⟩, -⟩ := hshape
  · exact (firstOf_skip (indexAccess_skip hrest)).trans (firstOf_found rfl)
  · exact firstOf_found (h.indexAccess hk hrest)

/-- A target starts with a name, so it is no array. -/
theorem ReadsTarget.arrayLiteral_skip {n : Node} (h : ReadsTarget n) {expr : Production}
    {rest : List Token} : arrayLiteral expr (n.tokens ++ rest) = .ok none := by
  obtain ⟨name, indexes, htokens, -, -⟩ := h
  rw [htokens]
  rfl

/-! ## Primary expressions

The alternatives in front of the right one are passed over one by one: most of them by the first token,
those that start with a name by the token behind the name or behind its indexes. -/

/-- A target is read back where nothing goes on with it. -/
theorem readsPrimary_target {n : Node} (h : ReadsTarget n) : ReadsPrimary n := by
  intro k rest hk hrest
  -- Properties are tried first: without a dot behind it they leave the target alone.
  have hproperty := propertyAccess_skip (h.found hk (hrest .leftBracket (by decide)))
    (hrest .dot (by decide))
  rw [primary, firstOf_skip h.arrayLiteral_skip, firstOf_skip hproperty]
  have hshape := h
  obtain ⟨name, indexes, -, ⟨rfl, rfl⟩ | ⟨⟨collection, position, rfl⟩, -⟩, -⟩ := hshape
  · rw [Node.tokens, List.singleton_append,
      firstOf_skip (indexAccess_skip (hrest .leftBracket (by decide))), firstOf_skip rfl,
      firstOf_skip (call_skip (hrest .leftParen (by decide))), firstOf_skip rfl]
    exact firstOf_found rfl
  · exact firstOf_found (h.indexAccess hk (hrest .leftBracket (by decide)))

/-- A number that can be written as one. -/
theorem readsPrimary_number {n : Nat} (h : n < integerBound) :
    ReadsPrimary (.literal (.int (Int64.ofNat n))) := by
  intro k rest hk hrest
  rw [Node.tokens, ofLiteral_integer h, List.singleton_append, primary, firstOf_skip rfl,
    firstOf_skip rfl, firstOf_skip rfl, firstOf_skip rfl, firstOf_skip rfl]
  exact firstOf_found (literal_number (numberValue?_ofNat h))

/-- A text. -/
theorem readsPrimary_string (text : Text) : ReadsPrimary (.literal (.text text)) :=
  fun _ _ _ _ => rfl

/-- The two truth values. -/
theorem readsPrimary_truth (b : Bool) : ReadsPrimary (.literal (.bool b)) := by
  cases b with
  | true => exact fun _ _ _ _ => rfl
  | false => exact fun _ _ _ _ => rfl

/-- A list in brackets. -/
theorem readsPrimary_array {ns : List Node} (h : ∀ n ∈ ns, ReadsExpression n) :
    ReadsPrimary (.array ns) := by
  intro k rest hk hrest
  simp only [Node.tokens, length_brackets] at hk
  rw [Node.tokens, brackets_append]
  exact firstOf_found (arrayLiteral_array (listAt_found (.inl rfl) h (by omega))
    (hrest .colon (by decide)))

/-- Two lists in brackets with a colon between them. -/
theorem readsPrimary_assoc {keys values : List Node} (hkeys : ∀ n ∈ keys, ReadsExpression n)
    (hvalues : ∀ n ∈ values, ReadsExpression n) : ReadsPrimary (.assoc keys values) := by
  intro k rest hk hrest
  simp only [Node.tokens, List.length_append, List.length_cons, length_brackets] at hk
  rw [Node.tokens, List.append_assoc, List.cons_append, brackets_append, brackets_append]
  exact firstOf_found (arrayLiteral_assoc (listAt_found (.inl rfl) hkeys (by omega))
    (listAt_found (.inl rfl) hvalues (by omega)))

/-- A property access is the first alternative that an object with a dot behind it matches. -/
theorem primary_property {object : Node} (h : ReadsTarget object) {expr : Production}
    {rest : List Token} {found : Node × List Token}
    (hfound : propertyAccess expr (object.tokens ++ rest) = .ok (some found)) :
    primary expr (object.tokens ++ rest) = .ok (some found) := by
  rw [primary, firstOf_skip h.arrayLiteral_skip]
  exact firstOf_found hfound

/-- A property of a target. -/
theorem readsPrimary_property {object : Node} {name : Text} (h : ReadsTarget object)
    (hf : name ≠ filterWord) : ReadsPrimary (.property object name) := by
  intro k rest hk hrest
  simp only [Node.tokens, List.length_append, List.length_cons, List.length_nil] at hk
  rw [Node.tokens, List.append_assoc]
  refine primary_property h ?_
  rw [List.cons_append, List.singleton_append,
    propertyAccess_property hf (h.found (by omega) (nextIs_cons (by decide)))]
  exact propertyTail_property (hrest .leftParen (by decide))

/-- A method of a target without an argument. -/
theorem readsPrimary_propertyCall {object : Node} {name : Text} (h : ReadsTarget object)
    (hf : name ≠ filterWord) : ReadsPrimary (.propertyCall object name) := by
  intro k rest hk hrest
  simp only [Node.tokens, List.length_append, List.length_cons] at hk
  rw [Node.tokens, List.append_assoc]
  refine primary_property h ?_
  rw [List.cons_append, List.cons_append,
    propertyAccess_property hf (h.found (by omega) (nextIs_cons (by decide)))]
  rfl

/-- A method of a target with an argument. -/
theorem readsPrimary_propertyWith {object arg : Node} {name : Text} (h : ReadsTarget object)
    (hf : name ≠ filterWord) (ha : ReadsExpression arg) :
    ReadsPrimary (.propertyWith object name arg) := by
  intro k rest hk hrest
  simp only [Node.tokens, List.length_append, List.length_cons, length_parens] at hk
  rw [Node.tokens, List.append_assoc]
  refine primary_property h ?_
  rw [List.cons_append, List.cons_append, parens_append,
    propertyAccess_property hf (h.found (by omega) (nextIs_cons (by decide)))]
  -- The argument starts with a token of its own, so the parentheses are not taken for empty ones.
  have harg := ha.finds (show arg.tokens.length ≤ k by omega)
  exact propertyTail_with (harg.nextIs (expressionAt_skips k) (stops_cons (by decide)) rfl)
    (harg (stops_cons (by decide)))

/-- A filter of a target. -/
theorem readsPrimary_filter {collection predicate : Node} {item : Text}
    (hc : ReadsTarget collection) (hp : ReadsExpression predicate) :
    ReadsPrimary (.filter collection item predicate) := by
  intro k rest hk hrest
  simp only [Node.tokens, List.length_append, List.length_cons, length_parens, length_braces] at hk
  rw [Node.tokens, List.append_assoc]
  refine primary_property hc ?_
  rw [List.cons_append, List.cons_append, parens_append, List.cons_append, List.cons_append,
    braces_append, propertyAccess_filter (hc.found (by omega) (nextIs_cons (by decide)))]
  exact filterTail_found (hp (by omega) (stops_cons (by decide)))

/-- The word for fetching and its address. -/
theorem readsPrimary_fetch {url : Node} (h : ReadsExpression url) : ReadsPrimary (.fetch url) := by
  intro k rest hk hrest
  simp only [Node.tokens, List.length_cons, length_parens] at hk
  rw [Node.tokens, List.cons_append, parens_append, primary, firstOf_skip rfl, firstOf_skip rfl,
    firstOf_skip rfl]
  exact firstOf_found (fetch_found (h (by omega) (stops_cons (by decide))))

/-- A name with arguments. -/
theorem readsPrimary_call {name : Text} {args : List Node} (h : ∀ n ∈ args, ReadsExpression n) :
    ReadsPrimary (.call name args) := by
  intro k rest hk hrest
  simp only [Node.tokens, List.length_cons, length_parens] at hk
  rw [Node.tokens, List.cons_append, parens_append]
  -- The name alone is read as the object of a property, and then given back.
  have hname := (readsTarget_name name).found (Nat.le_add_left 1 k)
    (nextIs_cons (by decide) : nextIs .leftBracket
      (plain .leftParen :: (Node.itemTokens args ++ plain .rightParen :: rest)) = false)
  rw [Node.tokens, List.singleton_append] at hname
  rw [primary, firstOf_skip rfl, firstOf_skip (propertyAccess_skip hname (nextIs_cons (by decide))),
    firstOf_skip (indexAccess_skip (nextIs_cons (by decide))), firstOf_skip rfl]
  exact firstOf_found (call_found (listAt_found (.inr rfl) h (by omega)))

/-! ## Operators

Operators associate to the right, and every operand but the last one is a primary expression. -/

/-- A primary expression with a postfix operator behind it. -/
theorem readsOperand_unary {n : Node} {op : Text} (hpost : isPostfix op = true)
    (h : ReadsPrimary n) : ReadsOperand (.unary op n) := by
  intro k m rest hk hm hrest
  simp only [Node.tokens, List.length_append, List.length_cons, List.length_nil] at hk hm
  obtain ⟨m, rfl⟩ : ∃ m', m = m' + 1 := ⟨m - 1, by omega⟩
  rw [Node.tokens, List.append_assoc, List.singleton_append]
  exact operandAt_unary (h (by omega) (stops_word (by decide))) hpost

/-- An operator between a primary expression and an operand. -/
theorem readsOperand_binary {left right : Node} {op : Text} (hpost : isPostfix op = false)
    (hl : ReadsPrimary left) (hr : ReadsOperand right) : ReadsOperand (.binary left op right) := by
  intro k m rest hk hm hrest
  simp only [Node.tokens, List.length_append, List.length_cons] at hk hm
  obtain ⟨m, rfl⟩ : ∃ m', m = m' + 1 := ⟨m - 1, by omega⟩
  rw [Node.tokens, List.append_assoc, List.cons_append]
  exact operandAt_binary (hl (by omega) (stops_word (by decide))) hpost
    (hr (by omega) (by omega) hrest)

/-- A comparison between two operands. -/
theorem readsComparison_comparison {left right : Node} {op : Text} (hl : ReadsOperand left)
    (hr : ReadsOperand right) : ReadsComparison (.comparison left op right) := by
  intro k rest hk hrest
  simp only [Node.tokens, List.length_append, List.length_cons] at hk
  rw [Node.tokens, List.append_assoc, List.cons_append]
  exact comparisonWith_comparison (hl.with (by omega) (stops_word (by decide)))
    (hr.with (by omega) (hrest.mono (by decide)))

/-! ## Expressions are not taken for assignments

Assignments are tried before expressions. An expression that starts with a name might be taken for one only
by an equals sign behind the name or behind its first index, where it has none. -/

/-- A name without an equals sign behind it. -/
theorem assignment_skip {name : Text} {rest : List Token} (h : nextIs .assign rest = false) :
    assignment (word .identifier name :: rest) = .ok none := by
  cases rest with
  | nil => rfl
  | cons t rest =>
    obtain ⟨kind, value, position⟩ := t
    cases kind <;> simp [nextIs] at h <;> rfl

/-- A name without a bracket behind it. -/
theorem indexAssignment_skip {name : Text} {rest : List Token}
    (h : nextIs .leftBracket rest = false) :
    indexAssignment (word .identifier name :: rest) = .ok none := by
  cases rest with
  | nil => rfl
  | cons t rest =>
    obtain ⟨kind, value, position⟩ := t
    cases kind <;> simp [nextIs] at h <;> rfl

/-- An index that nothing is assigned to. -/
theorem indexAssignment_read {name : Text} {position : Node} {ts rest : List Token}
    (h : expression ts = .ok (some (position, plain .rightBracket :: rest)))
    (hrest : nextIs .assign rest = false) :
    indexAssignment (word .identifier name :: plain .leftBracket :: ts) = .ok none := by
  show (expression ts >>= _) = _
  rw [h]
  -- The index was read, but what follows it is no assignment.
  cases rest with
  | nil => rfl
  | cons t rest =>
    obtain ⟨kind, value, position⟩ := t
    cases kind <;> simp [nextIs] at hrest <;> rfl

/-- No assignment is read off the tokens of a node. -/
def Quiet (n : Node) : Prop :=
  ∀ ⦃rest : List Token⦄, nextIs .assign rest = false → nextIs .leftBracket rest = false →
    assignment (n.tokens ++ rest) = .ok none ∧ indexAssignment (n.tokens ++ rest) = .ok none

/-- No assignment is read off the tokens of a target. Behind one that has an index already, a further index
may follow. -/
def QuietTarget (n : Node) : Prop :=
  ∀ ⦃rest : List Token⦄, nextIs .assign rest = false →
    (nextIs .leftBracket rest = true → ∃ collection position, n = .index collection position) →
    assignment (n.tokens ++ rest) = .ok none ∧ indexAssignment (n.tokens ++ rest) = .ok none

/-- A name alone, with no index to follow. -/
theorem quietTarget_name (name : Text) : QuietTarget (.identifier name) := by
  intro rest hassign hbracket
  have hbracket : nextIs .leftBracket rest = false := by
    by_contra h
    obtain ⟨_, _, hindex⟩ := hbracket (Bool.not_eq_false _ ▸ h)
    exact absurd hindex (by simp)
  exact ⟨assignment_skip hassign, indexAssignment_skip hbracket⟩

/-- A target with an index behind it. -/
theorem quietTarget_index {collection position : Node} (hshape : ReadsTarget collection)
    (hc : QuietTarget collection) (hp : ReadsExpression position) :
    QuietTarget (.index collection position) := by
  intro rest hassign _
  rw [Node.tokens, List.append_assoc, brackets_append]
  -- An assignment has a single index, so only what stands behind the first one matters.
  obtain ⟨name, indexes, -, ⟨rfl, -⟩ | ⟨hindex, -⟩, -⟩ := hshape
  · exact ⟨assignment_skip (nextIs_cons (by decide)),
      indexAssignment_read (hp.found (stops_cons (by decide))) hassign⟩
  · exact hc (nextIs_cons (by decide)) fun _ => hindex

/-- With no bracket behind it, a target is no assignment. -/
theorem QuietTarget.quiet {n : Node} (h : QuietTarget n) : Quiet n := by
  intro rest hassign hbracket
  exact h hassign fun hnext => absurd (hbracket.symm.trans hnext) Bool.false_ne_true

/-- More tokens behind a node, the first of them neither a bracket nor an assignment. -/
theorem Quiet.append {n n' : Node} (h : Quiet n) {t : Token} {ts : List Token}
    (htokens : n'.tokens = n.tokens ++ t :: ts) (hassign : t.kind ≠ .assign)
    (hbracket : t.kind ≠ .leftBracket) : Quiet n' := by
  intro rest _ _
  rw [htokens, List.append_assoc, List.cons_append]
  exact h (nextIs_cons hassign) (nextIs_cons hbracket)

/-- A node that starts with no name. -/
theorem quiet_of_head {n : Node} {t : Token} {ts : List Token} (htokens : n.tokens = t :: ts)
    (h : t.kind ≠ .identifier) : Quiet n := by
  intro rest _ _
  rw [htokens]
  obtain ⟨kind, value, position⟩ := t
  cases kind <;> simp at h <;> exact ⟨rfl, rfl⟩

end Grammar

end Mundart
