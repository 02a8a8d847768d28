import Mundart.Proofs.Grammar.RoundTrip.Operands

/-!
# Statements are read back

Statements are told apart by their first token, except for those that start with a name: these are an
assignment to an index, an assignment or an expression, tried in this order. Behind every statement a
semicolon stands in canonical tokens, so nothing else has to be known of what follows.

* **`ReadsStart`**, **`ReadsUpdate`**, **`ReadsStatement`** — what is read back where statements stand;
* **`block_found`**, **`body_found`** — blocks, with or without braces around them;
* **`readsStatement_ifThen`** to **`readsStatement_print`** — one theorem for every form of statement.
-/

namespace Mundart

namespace Grammar

open Token

/-! ## Statements and their parts

The parts of a counting loop are read by productions of their own, which the statements of a block share. -/

/-- The start of a counting loop, which is also a statement of its own. -/
def ReadsStart (n : Node) : Prop :=
  ∀ ⦃rest : List Token⦄, Stops .expression rest →
    firstOf [declaration, assignment] (n.tokens ++ rest) = .ok (some (n, rest)) ∧
      ∀ inner, statementWith inner (n.tokens ++ rest) = .ok (some (n, rest))

/-- The end of a round of a counting loop, which a parenthesis follows. -/
def ReadsUpdate (n : Node) : Prop :=
  ∀ ⦃rest : List Token⦄,
    firstOf [assignment, expression] (n.tokens ++ plain .rightParen :: rest) =
      .ok (some (n, plain .rightParen :: rest))

/-- A statement of a block, which a semicolon follows. -/
def ReadsStatement (n : Node) : Prop :=
  ∀ ⦃k : Nat⦄ ⦃rest : List Token⦄, n.tokens.length ≤ k →
    statementAt k (n.tokens ++ plain .semicolon :: rest) = .ok (some (n, plain .semicolon :: rest))

/-- The word for a declaration, a name and its value. -/
theorem declaration_found {name : Text} {init : Node} {ts rest : List Token}
    (h : expression ts = .ok (some (init, rest))) :
    declaration (plain .letWord :: word .identifier name :: plain .assign :: ts) =
      .ok (some (.declare name init, rest)) := by
  show (require expression _ ts >>= _) = _
  rw [require_found h]
  rfl

/-- A name and the value that it is given. -/
theorem assignment_found {name : Text} {value : Node} {ts rest : List Token}
    (h : expression ts = .ok (some (value, rest))) :
    assignment (word .identifier name :: plain .assign :: ts) =
      .ok (some (.assign name value, rest)) := by
  show (require expression _ ts >>= _) = _
  rw [require_found h]
  rfl

/-- A declaration is read back as either. -/
theorem readsStart_declare {name : Text} {init : Node} (h : ReadsExpression init) :
    ReadsStart (.declare name init) := by
  intro rest hrest
  rw [Node.tokens, List.cons_append, List.cons_append, List.cons_append]
  have hfound := @declaration_found name _ _ _ (h.found hrest)
  refine ⟨firstOf_found hfound, fun inner => ?_⟩
  rw [statementWith, firstOf_skip rfl, firstOf_skip rfl, firstOf_skip rfl, firstOf_skip rfl,
    firstOf_skip rfl, firstOf_skip rfl]
  exact firstOf_found hfound

/-- An assignment is read back as either. -/
theorem readsStart_assign {name : Text} {value : Node} (h : ReadsExpression value) :
    ReadsStart (.assign name value) := by
  intro rest hrest
  rw [Node.tokens, List.cons_append, List.cons_append]
  have hfound := @assignment_found name _ _ _ (h.found hrest)
  -- Among the statements, an assignment to an index comes before this one.
  refine ⟨(firstOf_skip rfl).trans (firstOf_found hfound), fun inner => ?_⟩
  rw [statementWith, firstOf_skip rfl, firstOf_skip rfl, firstOf_skip rfl, firstOf_skip rfl,
    firstOf_skip rfl, firstOf_skip (indexAssignment_skip (nextIs_cons (by decide))),
    firstOf_skip rfl]
  exact firstOf_found hfound

/-- An assignment at the end of a round. -/
theorem readsUpdate_assign {name : Text} {value : Node} (h : ReadsStart (.assign name value)) :
    ReadsUpdate (.assign name value) := by
  intro rest
  have hfound := (h (stops_cons (by decide) : Stops .expression (plain .rightParen :: rest))).1
  rw [Node.tokens, List.cons_append, firstOf_skip rfl, firstOf_singleton] at hfound
  exact firstOf_found hfound

/-- An expression at the end of a round, which is no assignment. -/
theorem readsUpdate_expression {n : Node} (h : ReadsExpression n) (hq : Quiet n) :
    ReadsUpdate n := by
  intro rest
  rw [firstOf_skip (hq (nextIs_cons (by decide)) (nextIs_cons (by decide))).1]
  exact firstOf_found (h.found (stops_cons (by decide)))

/-! ## Blocks and bodies

A block ends where no statement starts: at the closing brace, or at the end of the program. -/

/-- No statement starts at a closing brace or at the end. -/
theorem statementAt_skip (k : Nat) {ts : List Token}
    (h : ts = [] ∨ ∃ rest, ts = plain .rightBrace :: rest) : statementAt k ts = .ok none := by
  -- All statements but expressions are told by their first token.
  have hexpression : expression ts = .ok none := by
    rcases h with rfl | ⟨rest, rfl⟩
    · exact expressionAt_nil _
    · exact expressionAt_skip _ rfl
  cases k with
  | zero => rfl
  | succ k =>
    rw [statementAt, statementWith]
    rcases h with rfl | ⟨rest, rfl⟩
    · exact firstOf_singleton.trans hexpression
    · exact firstOf_singleton.trans hexpression

/-- A block has a token for every statement. -/
theorem length_le_block (ns : List Node) : ns.length ≤ (Node.blockTokens ns).length := by
  induction ns with
  | nil => exact Nat.zero_le _
  | cons n ns ih =>
    rw [Node.blockTokens, List.length_append, List.length_cons, List.length_cons]
    omega

/-- The statements of a block are read back, after some that were read before. -/
theorem statements_found {k : Nat} {rest : List Token} (hend : statementAt k rest = .ok none)
    {ns : List Node} (hns : ∀ n ∈ ns, ReadsStatement n) : ∀ {m : Nat} {read : List Node},
    ns.length ≤ m → (Node.blockTokens ns).length ≤ k →
    statements (statementAt k) m read (Node.blockTokens ns ++ rest) = .ok (read.reverse ++ ns, rest) := by
  -- Again for all that was read before, and with a bound for every statement.
  induction ns with
  | nil =>
    intro m read hm hk
    rw [List.append_nil]
    cases m with
    | zero => rfl
    | succ m =>
      show (statementAt k rest >>= _) = _
      rw [hend]
      rfl
  | cons n ns ih =>
    intro m read hm hk
    obtain ⟨hn, hns⟩ := List.forall_mem_cons.mp hns
    obtain ⟨m, rfl⟩ : ∃ m', m = m' + 1 := ⟨m - 1, by rw [List.length_cons] at hm; omega⟩
    rw [Node.blockTokens, List.length_append, List.length_cons] at hk
    rw [Node.blockTokens, List.append_assoc, List.cons_append]
    show (statementAt k (n.tokens ++ plain .semicolon :: _) >>= _) = _
    rw [hn (by omega)]
    show statements (statementAt k) m (n :: read) _ = _
    rw [ih hns (Nat.le_of_succ_le_succ hm) (by omega), List.reverse_cons, List.append_assoc,
      List.singleton_append]

/-- A block is read back in front of what starts no statement. -/
theorem block_found {k : Nat} {rest : List Token} (hend : statementAt k rest = .ok none)
    {ns : List Node} (hns : ∀ n ∈ ns, ReadsStatement n) (hk : (Node.blockTokens ns).length ≤ k) :
    block (statementAt k) (Node.blockTokens ns ++ rest) = .ok (ns, rest) := by
  have hlen := length_le_block ns
  refine statements_found hend hns ?_ hk
  rw [List.length_append]
  omega

/-- A block in braces is read back, whatever follows. -/
theorem body_found {k : Nat} {construct : Text} {rest : List Token} {ns : List Node} (hne : ns ≠ [])
    (hns : ∀ n ∈ ns, ReadsStatement n) (hk : (Node.blockTokens ns).length ≤ k) :
    body (statementAt k) construct (braces (Node.blockTokens ns) ++ rest) = .ok (ns, rest) := by
  have hblock := block_found (statementAt_skip k (.inr ⟨rest, rfl⟩)) hns hk
  rw [braces_append]
  show (block (statementAt k) (Node.blockTokens ns ++ plain .rightBrace :: rest) >>= _) = _
  rw [hblock]
  show (if ns.isEmpty then _ else _) = _
  rw [List.isEmpty_eq_false_iff.mpr hne]
  rfl

/-- A condition in parentheses is read back. -/
theorem parenCondition_found {construct : Text} {test : Node} {rest : List Token}
    (h : ReadsExpression test) : parenCondition construct (parens test.tokens ++ rest) =
      .ok (test, rest) := by
  rw [parens_append]
  show (require expression _ _ >>= _) = _
  rw [require_found (h.found (stops_cons (by decide)))]
  rfl

/-- The names of parameters are read back up to the parenthesis. -/
theorem parameters_found (names : List Text) (rest : List Token) :
    parameters (ofNames names ++ plain .rightParen :: rest) = (names, plain .rightParen :: rest) := by
  -- Between two names a comma stands, and behind the last one none.
  induction names with
  | nil => rfl
  | cons name names ih =>
    cases names with
    | nil => rfl
    | cons name' names =>
      show ((name :: (parameters (ofNames (name' :: names) ++ plain .rightParen :: rest)).1,
        (parameters (ofNames (name' :: names) ++ plain .rightParen :: rest)).2)) = _
      rw [ih]

/-- A function, once its parameters and its block are read back. -/
theorem functionDefinition_found {inner : Production} {name : Text} {params : List Text}
    {ns : List Node} {ts ts₁ rest : List Token}
    (hp : parameters ts = (params, plain .rightParen :: ts₁))
    (hb : ∀ construct, body inner construct ts₁ = .ok (ns, rest)) :
    functionDefinition inner
      (plain .function :: word .identifier name :: plain .leftParen :: ts) =
      .ok (some (.function name params ns, rest)) := by
  let construct : Text := "hawara " ++ name
  show (expect .rightParen construct (parameters ts).2 >>= fun ts' => body inner construct ts' >>=
    fun found => .ok (some (Node.function name (parameters ts).1 found.1, found.2))) = _
  -- What the parameters leave is read on with the name of the function in all complaints.
  rw [hp, expect_plain]
  show (body inner construct ts₁ >>= _) = _
  rw [hb]
  rfl

/-! ## Single statements

The alternatives in front of the right one are passed over by the first token; then each part is read back
in turn. -/

section Statements

variable {ns : List Node} (hne : ns ≠ []) (hns : ∀ n ∈ ns, ReadsStatement n)

include hne hns

/-- A condition with one branch. -/
theorem readsStatement_ifThen {test : Node} (ht : ReadsExpression test) :
    ReadsStatement (.ifThen test ns) := by
  intro k rest hk
  simp only [Node.tokens, List.length_cons, List.length_append, length_parens, length_braces] at hk
  obtain ⟨k, rfl⟩ : ∃ k', k = k' + 1 := ⟨k - 1, by omega⟩
  rw [Node.tokens, List.cons_append, List.append_assoc]
  refine firstOf_found ?_
  show (parenCondition _ _ >>= _) = _
  rw [parenCondition_found ht]
  show (body _ _ _ >>= _) = _
  rw [body_found hne hns (by omega)]
  rfl

/-- A condition with two branches. -/
theorem readsStatement_ifElse {test : Node} {otherwise : List Node} (ht : ReadsExpression test)
    (hne' : otherwise ≠ []) (ho : ∀ n ∈ otherwise, ReadsStatement n) :
    ReadsStatement (.ifElse test ns otherwise) := by
  intro k rest hk
  simp only [Node.tokens, List.length_cons, List.length_append, length_parens, length_braces] at hk
  obtain ⟨k, rfl⟩ : ∃ k', k = k' + 1 := ⟨k - 1, by omega⟩
  rw [Node.tokens, List.cons_append, List.append_assoc, List.append_assoc, List.cons_append]
  refine firstOf_found ?_
  show (parenCondition _ _ >>= _) = _
  rw [parenCondition_found ht]
  show (body _ _ _ >>= _) = _
  rw [body_found hne hns (by omega)]
  -- The other branch stands in braces, so it is not tried as a condition of its own.
  show (body _ _ (braces (Node.blockTokens otherwise) ++ _) >>= _) = _
  rw [body_found hne' ho (by omega)]
  rfl

/-- A block that is repeated under a condition. -/
theorem readsStatement_whileLoop {test : Node} (ht : ReadsExpression test) :
    ReadsStatement (.whileLoop test ns) := by
  intro k rest hk
  simp only [Node.tokens, List.length_cons, List.length_append, length_parens, length_braces] at hk
  obtain ⟨k, rfl⟩ : ∃ k', k = k' + 1 := ⟨k - 1, by omega⟩
  rw [Node.tokens, List.cons_append, List.append_assoc, statementAt, statementWith,
    firstOf_skip rfl, firstOf_skip rfl]
  refine firstOf_found ?_
  show (parenCondition _ _ >>= _) = _
  rw [parenCondition_found ht]
  show (body _ _ _ >>= _) = _
  rw [body_found hne hns (by omega)]
  rfl

/-- A counting loop. -/
theorem readsStatement_forLoop {start left right update : Node} {op : Text} (hs : ReadsStart start)
    (ht : ReadsComparison (.comparison left op right)) (hu : ReadsUpdate update) :
    ReadsStatement (.forLoop start (.comparison left op right) update ns) := by
  intro k rest hk
  simp only [Node.tokens, List.length_cons, List.length_append, length_parens, length_braces] at hk
  obtain ⟨k, rfl⟩ : ∃ k', k = k' + 1 := ⟨k - 1, by omega⟩
  rw [Node.tokens, List.cons_append, List.append_assoc, parens_append, List.append_assoc,
    List.cons_append, List.append_assoc, List.cons_append, statementAt, statementWith,
    firstOf_skip rfl]
  refine firstOf_found ?_
  show (require _ _ _ >>= _) = _
  rw [require_found (hs (stops_cons (by decide))).1]
  show (require _ _ _ >>= _) = _
  rw [require_found (ht.expression.found (stops_cons (by decide)))]
  show (require _ _ _ >>= _) = _
  rw [require_found (@hu (braces (Node.blockTokens ns) ++ plain .semicolon :: rest))]
  show (body _ _ _ >>= _) = _
  rw [body_found hne hns (by omega)]
  rfl

/-- A loop over a collection. -/
theorem readsStatement_forEach {collection : Node} {item : Text} (hc : ReadsOperand collection) :
    ReadsStatement (.forEach collection item ns) := by
  intro k rest hk
  simp only [Node.tokens, List.length_cons, List.length_append, length_parens, length_braces] at hk
  obtain ⟨k, rfl⟩ : ∃ k', k = k' + 1 := ⟨k - 1, by omega⟩
  rw [Node.tokens, List.cons_append, List.append_assoc, parens_append, List.append_assoc,
    statementAt, statementWith, firstOf_skip rfl, firstOf_skip rfl, firstOf_skip rfl]
  refine firstOf_found ?_
  show (require operand _ _ >>= _) = _
  -- The collection is an operand with a bound of its own, the number of all tokens left.
  have hcollection : operand (collection.tokens ++ plain .asWord :: word .identifier item ::
      plain .rightParen :: (braces (Node.blockTokens ns) ++ plain .semicolon :: rest)) =
      .ok (some (collection, plain .asWord :: word .identifier item ::
        plain .rightParen :: (braces (Node.blockTokens ns) ++ plain .semicolon :: rest))) := by
    refine hc.with ?_ (stops_cons (by decide))
    rw [List.length_append]
    omega
  rw [List.cons_append, List.singleton_append, require_found hcollection]
  show (body _ _ _ >>= _) = _
  rw [body_found hne hns (by omega)]
  rfl

/-- A function definition. -/
theorem readsStatement_function {name : Text} {params : List Text} :
    ReadsStatement (.function name params ns) := by
  intro k rest hk
  simp only [Node.tokens, List.length_cons, List.length_append, length_parens, length_braces] at hk
  obtain ⟨k, rfl⟩ : ∃ k', k = k' + 1 := ⟨k - 1, by omega⟩
  rw [Node.tokens, List.cons_append, List.cons_append, List.append_assoc, parens_append,
    statementAt, statementWith, firstOf_skip rfl, firstOf_skip rfl, firstOf_skip rfl,
    firstOf_skip rfl]
  exact firstOf_found (functionDefinition_found (parameters_found params _) fun construct =>
    body_found hne hns (by omega))

end Statements

/-- A declaration or an assignment as a statement. -/
theorem readsStatement_start {n : Node} (h : ReadsStart n) : ReadsStatement n := by
  intro k rest hk
  have hpos := length_pos_of_found rfl (h stops_nil).1
  obtain ⟨k, rfl⟩ : ∃ k', k = k' + 1 := ⟨k - 1, by omega⟩
  exact (h (stops_cons (by decide))).2 (statementAt k)

/-- An expression is a statement that no other alternative takes. -/
theorem statementWith_expression {inner : Production} {t : Token} {ts : List Token}
    {found : Node × List Token} (hopens : opensExpression t.kind = true)
    (hassign : assignment (t :: ts) = .ok none) (hindex : indexAssignment (t :: ts) = .ok none)
    (h : expression (t :: ts) = .ok (some found)) :
    statementWith inner (t :: ts) = .ok (some found) := by
  obtain ⟨kind, value, position⟩ := t
  cases kind <;> simp [opensExpression] at hopens <;>
    rw [statementWith, firstOf_skip rfl, firstOf_skip rfl, firstOf_skip rfl, firstOf_skip rfl,
      firstOf_skip rfl, firstOf_skip hindex, firstOf_skip rfl, firstOf_skip hassign,
      firstOf_skip rfl, firstOf_skip rfl, firstOf_skip rfl, firstOf_singleton, h]

/-- An expression as a statement. -/
theorem readsStatement_expression {n : Node} (h : ReadsExpression n) (hq : Quiet n) :
    ReadsStatement n := by
  intro k rest hk
  have hpos := length_pos_of_found (expressionAt_nil _) (h (Nat.le_refl _) stops_nil)
  obtain ⟨k, rfl⟩ : ∃ k', k = k' + 1 := ⟨k - 1, by omega⟩
  have hfound := h.found (stops_cons (by decide) : Stops .expression (plain .semicolon :: rest))
  obtain ⟨hassign, hindex⟩ := @hq (plain .semicolon :: rest) (nextIs_cons (by decide))
    (nextIs_cons (by decide))
  cases hts : n.tokens ++ plain .semicolon :: rest with
  | nil => exact absurd hts (by simp)
  | cons t ts =>
    rw [hts] at hfound hassign hindex
    refine statementWith_expression ?_ hassign hindex hfound
    -- A token that opens no expression would not have been read as one.
    by_contra hopens
    rw [expression_skips (Bool.not_eq_true _ ▸ hopens)] at hfound
    exact none_ne_found hfound

/-- An assignment to an index. -/
theorem readsStatement_indexAssign {name : Text} {position value : Node}
    (hp : ReadsExpression position) (hv : ReadsExpression value) :
    ReadsStatement (.indexAssign name position value) := by
  intro k rest hk
  simp only [Node.tokens, List.length_cons] at hk
  obtain ⟨k, rfl⟩ : ∃ k', k = k' + 1 := ⟨k - 1, by omega⟩
  rw [Node.tokens, List.cons_append, List.append_assoc, List.cons_append, brackets_append,
    statementAt, statementWith, firstOf_skip rfl, firstOf_skip rfl, firstOf_skip rfl,
    firstOf_skip rfl, firstOf_skip rfl]
  refine firstOf_found ?_
  show (expression _ >>= _) = _
  rw [hp.found (stops_cons (by decide))]
  show (require expression _ _ >>= _) = _
  rw [require_found (hv.found (stops_cons (by decide)))]
  rfl

/-- Returning without a value. -/
theorem readsStatement_ret : ReadsStatement .ret := by
  intro k rest hk
  obtain ⟨k, rfl⟩ : ∃ k', k = k' + 1 := ⟨k - 1, by simp [Node.tokens] at hk; omega⟩
  rw [Node.tokens, List.singleton_append, statementAt, statementWith, firstOf_skip rfl,
    firstOf_skip rfl, firstOf_skip rfl, firstOf_skip rfl, firstOf_skip rfl, firstOf_skip rfl,
    firstOf_skip rfl, firstOf_skip rfl]
  refine firstOf_found ?_
  -- A value would have to stand before the semicolon.
  show (expression _ >>= _) = _
  rw [expression, expressionAt_skip _ rfl]
  rfl

/-- Returning a value. -/
theorem readsStatement_retWith {value : Node} (h : ReadsExpression value) :
    ReadsStatement (.retWith value) := by
  intro k rest hk
  obtain ⟨k, rfl⟩ : ∃ k', k = k' + 1 := ⟨k - 1, by simp [Node.tokens] at hk; omega⟩
  rw [Node.tokens, List.cons_append, statementAt, statementWith, firstOf_skip rfl,
    firstOf_skip rfl, firstOf_skip rfl, firstOf_skip rfl, firstOf_skip rfl, firstOf_skip rfl,
    firstOf_skip rfl, firstOf_skip rfl]
  refine firstOf_found ?_
  show (expression _ >>= _) = _
  rw [h.found (stops_cons (by decide))]
  rfl

/-- A comment. -/
theorem readsStatement_comment {text : Text} : ReadsStatement (.comment text) := by
  intro k rest hk
  obtain ⟨k, rfl⟩ : ∃ k', k = k' + 1 := ⟨k - 1, by simp [Node.tokens] at hk; omega⟩
  rfl

/-- Printing. -/
theorem readsStatement_print {values : List Node} (h : ∀ n ∈ values, ReadsExpression n) :
    ReadsStatement (.print values) := by
  intro k rest hk
  obtain ⟨k, rfl⟩ : ∃ k', k = k' + 1 := ⟨k - 1, by simp [Node.tokens] at hk; omega⟩
  rw [Node.tokens, List.cons_append, parens_append, statementAt, statementWith, firstOf_skip rfl,
    firstOf_skip rfl, firstOf_skip rfl, firstOf_skip rfl, firstOf_skip rfl, firstOf_skip rfl,
    firstOf_skip rfl, firstOf_skip rfl, firstOf_skip rfl, firstOf_skip rfl]
  refine firstOf_found ?_
  show (list expression .rightParen _ >>= _) = _
  rw [list_found (.inr rfl) expression_skips fun n hn => (h n hn).found]
  rfl

end Grammar

end Mundart
