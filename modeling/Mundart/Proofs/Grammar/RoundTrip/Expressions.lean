import Mundart.Proofs.Grammar.RoundTrip.Productions

/-!
# Expressions are read back

A node is read back from its tokens in front of everything that does not extend it. On every level of
expressions the bound on the nesting has to be large enough for the tokens of the node, and it is, because a
node inside another one has fewer of them.

* **`Stops place ts`** — the next token does not extend a node at the place;
* **`ReadsPrimary`** to **`ReadsExpression`** — a node is read back on one of the levels, and each level hands
  it on to the next one;
* **`list_found`** — lists of expressions between brackets;
* **`readsExpression_chain`** — chains of comparisons.
-/

namespace Mundart

namespace Grammar

open Token

/-! ## What may follow

A reader goes on as long as it can, so a node is only read back if the token behind it does not belong to
it. Places with more alternatives have more tokens to go on with. -/

/-- The kinds of tokens that, standing behind a node at a place, would be read as part of it. -/
def Place.extensions : Place → List Kind
  | .target => [.leftBracket]
  | .primary => [.leftBracket, .dot, .leftParen, .colon]
  | .operand => [.leftBracket, .dot, .leftParen, .colon, .arithmetic]
  | .comparison => [.leftBracket, .dot, .leftParen, .colon, .arithmetic, .comparison]
  | .expression | .start | .update | .statement =>
    [.leftBracket, .dot, .leftParen, .colon, .arithmetic, .comparison, .andWord, .orWord]

/-- The next token does not extend a node at a place. -/
def Stops (place : Place) (ts : List Token) : Prop := ∀ kind ∈ place.extensions, nextIs kind ts = false

/-- It is the kind of the next token that counts. -/
theorem stops_cons {place : Place} {t : Token} {ts : List Token} (h : t.kind ∉ place.extensions) :
    Stops place (t :: ts) := fun _ hk =>
  nextIs_cons fun heq => h (heq ▸ hk)

/-- A token that carries a text stops a node if its kind extends none at this place. -/
theorem stops_word {place : Place} {kind : Kind} {value : Text} {ts : List Token}
    (h : kind ∉ place.extensions) : Stops place (word kind value :: ts) :=
  stops_cons h

/-- What stops a node at a place stops it where fewer tokens extend it. -/
theorem Stops.mono {place place' : Place} {ts : List Token} (h : Stops place ts)
    (hsub : place'.extensions ⊆ place.extensions) : Stops place' ts := fun kind hk =>
  h kind (hsub hk)

/-! ## Reading back

The bound `k` is one on the nesting: the expressions inside of a node are read to a depth less by one. For
an operand there is also the bound `m` on the operators. -/

/-- A primary expression is read back from its tokens. -/
def ReadsPrimary (n : Node) : Prop :=
  ∀ ⦃k : Nat⦄ ⦃rest : List Token⦄, n.tokens.length ≤ k + 1 → Stops .primary rest →
    primary (expressionAt k) (n.tokens ++ rest) = .ok (some (n, rest))

/-- An operand is read back from its tokens. -/
def ReadsOperand (n : Node) : Prop :=
  ∀ ⦃k m : Nat⦄ ⦃rest : List Token⦄, n.tokens.length ≤ k + 1 → n.tokens.length ≤ m →
    Stops .operand rest →
    operandAt (primary (expressionAt k)) m (n.tokens ++ rest) = .ok (some (n, rest))

/-- A comparison is read back from its tokens. -/
def ReadsComparison (n : Node) : Prop :=
  ∀ ⦃k : Nat⦄ ⦃rest : List Token⦄, n.tokens.length ≤ k + 1 → Stops .comparison rest →
    comparisonWith (expressionAt k) (n.tokens ++ rest) = .ok (some (n, rest))

/-- An expression is read back from its tokens. -/
def ReadsExpression (n : Node) : Prop :=
  ∀ ⦃k : Nat⦄ ⦃rest : List Token⦄, n.tokens.length ≤ k → Stops .expression rest →
    expressionAt k (n.tokens ++ rest) = .ok (some (n, rest))

/-- A production that needs a token finds nodes with tokens only. -/
theorem length_pos_of_found {p : Production} {ts rest : List Token} {n : Node}
    (hnil : p [] = .ok none) (h : p (ts ++ []) = .ok (some (n, rest))) : 0 < ts.length := by
  cases ts with
  | cons t ts => exact Nat.zero_lt_succ _
  | nil => exact absurd (hnil.symm.trans h) none_ne_found

/-- The end stops every node. -/
theorem stops_nil {place : Place} : Stops place [] := fun _ _ => rfl

/-- A primary expression has a token. -/
theorem ReadsPrimary.length_pos {n : Node} (h : ReadsPrimary n) : 0 < n.tokens.length :=
  length_pos_of_found rfl (h (Nat.le_succ n.tokens.length) stops_nil)

/-- A primary expression is an operand. -/
theorem ReadsPrimary.operand {n : Node} (h : ReadsPrimary n) : ReadsOperand n := by
  intro k m rest hk hm hrest
  have hpos := h.length_pos
  -- A node has a token, so the bound is not used up.
  obtain ⟨m, rfl⟩ : ∃ m', m = m' + 1 := ⟨m - 1, by omega⟩
  exact operandAt_primary (h hk (hrest.mono (by decide))) (hrest .arithmetic (by decide))

/-- An operand is read back with the bound that the number of tokens gives. -/
theorem ReadsOperand.with {n : Node} (h : ReadsOperand n) {k : Nat} {rest : List Token}
    (hk : n.tokens.length ≤ k + 1) (hrest : Stops .operand rest) :
    operandWith (expressionAt k) (n.tokens ++ rest) = .ok (some (n, rest)) := by
  refine h hk ?_ hrest
  rw [List.length_append]
  omega

/-- An operand is a comparison. -/
theorem ReadsOperand.comparison {n : Node} (h : ReadsOperand n) : ReadsComparison n := by
  intro k rest hk hrest
  exact comparisonWith_operand (h.with hk (hrest.mono (by decide))) (hrest .comparison (by decide))

/-- A comparison has a token. -/
theorem ReadsComparison.length_pos {n : Node} (h : ReadsComparison n) : 0 < n.tokens.length :=
  length_pos_of_found rfl (h (Nat.le_succ n.tokens.length) stops_nil)

/-- A comparison is an expression. -/
theorem ReadsComparison.expression {n : Node} (h : ReadsComparison n) : ReadsExpression n := by
  intro k rest hk hrest
  have hpos := h.length_pos
  -- It has a token, so the bound allows one level more.
  obtain ⟨k, rfl⟩ : ∃ k', k = k' + 1 := ⟨k - 1, by omega⟩
  exact expressionWith_comparison (h hk (hrest.mono (by decide))) (hrest .andWord (by decide))
    (hrest .orWord (by decide))

/-- A reader of expressions finds a node in its tokens, whatever stops it. -/
def Finds (expr : Production) (n : Node) : Prop :=
  ∀ ⦃rest : List Token⦄, Stops .expression rest → expr (n.tokens ++ rest) = .ok (some (n, rest))

/-- A reader of expressions finds none where none starts. -/
def Skips (expr : Production) : Prop :=
  ∀ ⦃t : Token⦄ ⦃ts : List Token⦄, opensExpression t.kind = false → expr (t :: ts) = .ok none

/-- To whatever depth. -/
theorem expressionAt_skips (k : Nat) : Skips (expressionAt k) := fun _ _ h => expressionAt_skip k h

/-- For the expressions of a program. -/
theorem expression_skips : Skips expression := fun _ _ h => expressionAt_skip _ h

/-- An expression is found if the bound allows for its tokens. -/
theorem ReadsExpression.finds {n : Node} (h : ReadsExpression n) {k : Nat}
    (hk : n.tokens.length ≤ k) : Finds (expressionAt k) n := fun _ hrest => h hk hrest

/-- An expression is found with the bound that the number of tokens gives. -/
theorem ReadsExpression.found {n : Node} (h : ReadsExpression n) : Finds expression n := by
  intro rest hrest
  refine h ?_ hrest
  rw [List.length_append]
  omega

/-- An expression starts with a token that opens expressions. -/
theorem Finds.nextIs {expr : Production} {n : Node} (h : Finds expr n) (hskips : Skips expr)
    {kind : Kind} {rest : List Token} (hrest : Stops .expression rest)
    (hkind : opensExpression kind = false) : nextIs kind (n.tokens ++ rest) = false := by
  have hread := h hrest
  -- Otherwise the reader would find nothing here.
  by_contra hnext
  obtain ⟨value, position, ts, hts⟩ := nextIs_eq_true (Bool.not_eq_false _ ▸ hnext)
  rw [hts, hskips hkind] at hread
  exact none_ne_found hread

/-! ## Lists of expressions

A list is canonical without a comma at its end, so behind its last expression the closing bracket stands,
and nothing starts with that one. -/

/-- A list has a token for each expression but the last one, which is none of these. -/
theorem length_le_items (ns : List Node) : ns.length ≤ (Node.itemTokens ns).length + 1 := by
  induction ns with
  | nil => exact Nat.zero_le _
  | cons n ns ih =>
    cases ns with
    | nil => exact Nat.le_add_left _ _
    | cons m ms =>
      rw [Node.itemTokens_cons]
      simp only [List.length_append, List.length_cons] at ih ⊢
      omega

/-- An expression has at most the tokens of a list that it is in. -/
theorem length_item_le {n : Node} {ns : List Node} (h : n ∈ ns) :
    n.tokens.length ≤ (Node.itemTokens ns).length := by
  induction ns with
  | nil => exact absurd h List.not_mem_nil
  | cons m ms ih =>
    cases ms with
    | nil =>
      obtain rfl := List.mem_singleton.mp h
      exact Nat.le_refl _
    | cons m' ms =>
      rw [Node.itemTokens_cons, List.length_append, List.length_cons]
      rcases List.mem_cons.mp h with rfl | hmem
      · omega
      · have hle := ih hmem
        omega

section Lists

-- Lists of expressions end with one of two kinds of brackets.
variable {closing : Kind} (hclosing : closing = .rightBracket ∨ closing = .rightParen)

include hclosing

/-- A closing bracket extends no expression. -/
theorem closing_stops (rest : List Token) : Stops .expression (plain closing :: rest) := by
  rcases hclosing with rfl | rfl
  · exact stops_cons (by decide)
  · exact stops_cons (by decide)

/-- No expression starts with a closing bracket. -/
theorem opensExpression_closing : opensExpression closing = false := by
  rcases hclosing with rfl | rfl <;> rfl

/-- The last expression of a list leaves the closing token. -/
theorem items_last {expr : Production} {m : Nat} {read : List Node} {n : Node} {ts rest : List Token}
    (h : expr ts = .ok (some (n, plain closing :: rest))) :
    items expr (m + 1) read ts = .ok ((n :: read).reverse, plain closing :: rest) := by
  rw [items, h]
  rcases hclosing with rfl | rfl <;> rfl

/-- The expressions of a list are read back, after some that were read before. -/
theorem items_found {expr : Production} (hskips : Skips expr) {ns : List Node}
    (hns : ∀ n ∈ ns, Finds expr n) {rest : List Token} : ∀ {m : Nat} {read : List Node},
    ns.length ≤ m → items expr m read (Node.itemTokens ns ++ plain closing :: rest) =
      .ok (read.reverse ++ ns, plain closing :: rest) := by
  -- What was read before stands in reverse, so the induction is for all of it.
  induction ns with
  | nil =>
    intro m read hm
    rw [List.append_nil]
    cases m with
    | zero => rfl
    | succ m =>
      show (expr (plain closing :: rest) >>= _) = _
      rw [hskips (opensExpression_closing hclosing)]
      rfl
  | cons n ns ih =>
    intro m read hm
    obtain ⟨hn, hns⟩ := List.forall_mem_cons.mp hns
    obtain ⟨m, rfl⟩ : ∃ m', m = m' + 1 := ⟨m - 1, by rw [List.length_cons] at hm; omega⟩
    cases ns with
    | nil =>
      rw [← List.reverse_cons]
      exact items_last hclosing (hn (closing_stops hclosing rest))
    -- Behind any other expression a comma stands, and the list goes on.
    | cons n' ns =>
      rw [Node.itemTokens_cons, List.append_assoc, List.cons_append]
      show (expr (n.tokens ++ plain .separator :: _) >>= _) = _
      rw [hn (stops_cons (by decide))]
      show items expr m (n :: read) _ = _
      rw [ih hns (Nat.le_of_succ_le_succ hm), List.reverse_cons, List.append_assoc,
        List.singleton_append]

/-- A list is read back up to its closing bracket. -/
theorem list_found {expr : Production} (hskips : Skips expr) {ns : List Node}
    (hns : ∀ n ∈ ns, Finds expr n) {rest : List Token} :
    list expr closing (Node.itemTokens ns ++ plain closing :: rest) =
      .ok (ns, plain closing :: rest) := by
  -- An empty list is told by its closing token, and no expression starts with that one.
  have hnext : ns ≠ [] → nextIs closing (Node.itemTokens ns ++ plain closing :: rest) = false := by
    intro hne
    cases ns with
    | nil => exact absurd rfl hne
    | cons n ns =>
      have hn := hns n List.mem_cons_self
      have hopens := opensExpression_closing hclosing
      cases ns with
      | nil => exact hn.nextIs hskips (closing_stops hclosing rest) hopens
      | cons n' ns =>
        rw [Node.itemTokens_cons, List.append_assoc]
        exact hn.nextIs hskips (stops_cons (by decide)) hopens
  unfold list
  by_cases hne : ns = []
  · subst hne
    exact if_pos (beq_self_eq_true closing)
  · rw [hnext hne]
    have hlen := length_le_items ns
    refine items_found hclosing hskips hns ?_
    rw [List.length_append, List.length_cons]
    omega

/-- A list is read back by readers whose bound is large enough for the whole list. -/
theorem listAt_found {ns : List Node} (hns : ∀ n ∈ ns, ReadsExpression n) {k : Nat}
    {rest : List Token} (hk : (Node.itemTokens ns).length ≤ k) :
    list (expressionAt k) closing (Node.itemTokens ns ++ plain closing :: rest) =
      .ok (ns, plain closing :: rest) :=
  list_found hclosing (expressionAt_skips k) fun n hn =>
    (hns n hn).finds ((length_item_le hn).trans hk)

end Lists

/-! ## Chains

A chain has one operator fewer than operands. Behind its first operand each operator stands in front of the
next one, and so they are read in pairs. -/

/-- An operand has at most the tokens of the chain that it is in. -/
theorem length_operand_le {n : Node} {ns : List Node} : ∀ {ops : List Text},
    ops.length + 1 = ns.length → n ∈ ns → n.tokens.length ≤ (Node.chainTokens ns ops).length := by
  induction ns with
  | nil => exact fun _ h => absurd h List.not_mem_nil
  | cons m ms ih =>
    intro ops hlen h
    cases ops with
    | nil =>
      obtain rfl : ms = [] := by simpa using hlen
      obtain rfl := List.mem_singleton.mp h
      exact Nat.le_refl _
    | cons op ops =>
      rw [Node.chainTokens, List.length_append, List.length_cons]
      rcases List.mem_cons.mp h with rfl | hmem
      · omega
      · have hle := ih (Nat.succ.inj hlen) hmem
        omega

/-- A chain has a token for every operator. -/
theorem length_ops_le {ns : List Node} : ∀ {ops : List Text}, ops.length + 1 = ns.length →
    ops.length ≤ (Node.chainTokens ns ops).length := by
  induction ns with
  | nil => exact fun h => absurd h (Nat.succ_ne_zero _)
  | cons n ns ih =>
    intro ops hlen
    cases ops with
    | nil => exact Nat.zero_le _
    | cons op ops =>
      have hle := ih (Nat.succ.inj hlen)
      rw [Node.chainTokens, List.length_append, List.length_cons, List.length_cons]
      omega

/-- A logical operator extends no comparison. -/
theorem stops_link {op : Text} {ts : List Token} : Stops .comparison (link op :: ts) := by
  refine stops_cons ?_
  rcases kind_link op with h | h
  · rw [h]
    decide
  · rw [h]
    decide

/-- The operators and operands of a chain behind its first one, after some that were read before. -/
theorem chainFrom_found {k : Nat} {rest : List Token} (hrest : Stops .expression rest)
    {ns : List Node} (hns : ∀ n ∈ ns, ReadsComparison n) :
    ∀ {ops read : List Text} {operands : List Node} {op : Text} {m : Nat},
    ops.length + 1 = ns.length → (Node.chainTokens ns ops).length ≤ k + 1 → ns.length ≤ m →
    chainFrom (comparisonWith (expressionAt k)) m operands read
      (link op :: (Node.chainTokens ns ops ++ rest)) =
      .ok (.chain (operands.reverse ++ ns) (read.reverse ++ op :: ops), rest) := by
  -- By induction on the operands that are left, with one operator in front of each.
  induction ns with
  | nil =>
    intro ops read operands op m hlen
    exact absurd hlen (Nat.succ_ne_zero _)
  | cons n ns ih =>
    intro ops read operands op m hlen hk hm
    obtain ⟨hn, hns⟩ := List.forall_mem_cons.mp hns
    have hle := (length_operand_le hlen List.mem_cons_self).trans hk
    obtain ⟨m, rfl⟩ : ∃ m', m = m' + 1 := ⟨m - 1, by rw [List.length_cons] at hm; omega⟩
    -- Behind the last operand the chain ends; behind any other one an operator stops it.
    cases ops with
    | nil =>
      obtain rfl : ns = [] := by simpa using hlen
      rw [Node.chainTokens, chainFrom_step (hn hle (hrest.mono (by decide))),
        chainFrom_stop (hrest .andWord (by decide)) (hrest .orWord (by decide)),
        List.reverse_cons, List.reverse_cons]
    | cons op' ops =>
      rw [Node.chainTokens, List.length_append, List.length_cons] at hk
      rw [Node.chainTokens, List.append_assoc, List.cons_append, chainFrom_step (hn hle stops_link),
        ih hns (Nat.succ.inj hlen) (by omega) (Nat.le_of_succ_le_succ hm), List.reverse_cons,
        List.reverse_cons, List.append_assoc, List.append_assoc, List.singleton_append,
        List.singleton_append]

/-- The first operand and operator of a chain. -/
theorem chain_cases {operands : List Node} {ops : List Text} (htwo : 2 ≤ operands.length)
    (hlen : ops.length + 1 = operands.length) : ∃ n ns op ops', operands = n :: ns ∧
      ops = op :: ops' ∧ ops'.length + 1 = ns.length := by
  obtain ⟨n, ns, rfl⟩ : ∃ n ns, operands = n :: ns :=
    List.exists_cons_of_length_pos (by omega)
  obtain ⟨op, ops', rfl⟩ : ∃ op ops', ops = op :: ops' :=
    List.exists_cons_of_length_pos (by rw [List.length_cons] at htwo hlen; omega)
  exact ⟨n, ns, op, ops', rfl, rfl, Nat.succ.inj hlen⟩

/-- A chain is read back from its tokens. -/
theorem readsExpression_chain {operands : List Node} {ops : List Text} (htwo : 2 ≤ operands.length)
    (hlen : ops.length + 1 = operands.length) (h : ∀ n ∈ operands, ReadsComparison n) :
    ReadsExpression (.chain operands ops) := by
  obtain ⟨n, ns, op, ops, rfl, rfl, hmore⟩ := chain_cases htwo hlen
  obtain ⟨hn, hns⟩ := List.forall_mem_cons.mp h
  intro k rest hk hrest
  have hpos := hn.length_pos
  simp only [Node.tokens, Node.chainTokens, List.length_append, List.length_cons] at hk
  obtain ⟨k, rfl⟩ : ∃ k', k = k' + 1 := ⟨k - 1, by omega⟩
  simp only [Node.tokens, Node.chainTokens, List.append_assoc, List.cons_append]
  have hfirst := hn (show n.tokens.length ≤ k + 1 by omega)
    (@stops_link op (Node.chainTokens ns ops ++ rest))
  refine expressionWith_chain hfirst ?_
  -- The bound of the chain is the number of tokens behind the first operand.
  refine chainFrom_found hrest hns hmore (by omega) ?_
  have hops := length_ops_le hmore
  simp only [List.length_cons, List.length_append]
  omega

end Grammar

end Mundart
