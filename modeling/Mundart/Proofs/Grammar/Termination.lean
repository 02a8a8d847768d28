import Mundart.Proofs.Grammar.Progress.Statements

/-!
# Reading comes to an end

The productions call each other without a bound, and their loops run until nothing more is found. Both end
because every call and every round is about fewer tokens than the one before.

* **`Proceeds`** — from any position on, a production complains about a place that is not before it, or has
  no match, or finds something that ends a given number of tokens further on, at the latest at the end;
* **`EndsWithin`** — a recursion has a solution, which it reaches without nesting its calls more often than a
  size says, whatever a further call would give;
* **`Descends.endsWithin`** — so does every recursion whose calls are about what is smaller;
* **`reading_ends`** — the productions make progress, and their recursion and their loops end.
-/

namespace Mundart

namespace Grammar

variable {α β : Type} {rest tokens : List Token} {pos least : Nat}

/-! ## Positions

The productions pass tokens on, and a parser that keeps all tokens and a position in them passes positions
on. What is left of the tokens is the same as a position, since it is always an end of them. -/

/-- What a reading of the tokens from a position on can come to. -/
inductive Outcome (tokens : List Token) (pos least : Nat) :
    Except SyntaxError (Option (α × List Token)) → Prop where
  | failure {e : SyntaxError} (place : Nat) (hpos : pos ≤ place) (hplace : place ≤ tokens.length)
      (hposition : e.position = tokens[place]?.map Token.position) : Outcome tokens pos least (.error e)
  | noMatch : Outcome tokens pos least (.ok none)
  | found (a : α) (next : Nat) (hpos : pos + least ≤ next) (hnext : next ≤ tokens.length) :
      Outcome tokens pos least (.ok (some (a, tokens.drop next)))

/-- From every position on, what is found takes up at least some number of the tokens there. -/
def Proceeds (least : Nat) (p : List Token → Except SyntaxError (Option (α × List Token))) : Prop :=
  ∀ (tokens : List Token) (pos : Nat), pos ≤ tokens.length →
    Outcome tokens pos least (p (tokens.drop pos))

/-- An end of the tokens from a position on starts at a later position. -/
theorem place_of_suffix (hpos : pos ≤ tokens.length) (h : rest <:+ tokens.drop pos) :
    ∃ place, pos ≤ place ∧ place + rest.length = tokens.length ∧ rest = tokens.drop place := by
  have hlength := h.length_le
  rw [List.length_drop] at hlength
  refine ⟨tokens.length - rest.length, by omega, by omega, ?_⟩
  rw [List.suffix_iff_eq_drop] at h
  rw [h]
  simp only [List.drop_drop, List.length_drop]
  congr 1
  omega

/-- The place that is complained about is such a position. -/
theorem Among.failure {e : SyntaxError} (hpos : pos ≤ tokens.length) (h : Among (tokens.drop pos) e) :
    ∃ place, pos ≤ place ∧ place ≤ tokens.length ∧ e.position = tokens[place]?.map Token.position := by
  obtain ⟨rest, hrest, hposition⟩ := h
  obtain ⟨place, hplace, hlength, rfl⟩ := place_of_suffix hpos hrest
  rw [List.head?_drop] at hposition
  exact ⟨place, hplace, by omega, hposition⟩

/-- What is left of the tokens when at least some of them are used up. -/
def Leaves (ts : List Token) (least : Nat) (found : Option (α × List Token)) : Prop :=
  ∀ a rest, found = some (a, rest) → rest <:+ ts ∧ rest.length + least ≤ ts.length

/-- A node that was found has used up a token. -/
theorem Onward.leaves {ts : List Token} {found : Option (Node × List Token)} (h : Onward ts found) :
    Leaves ts 1 found := by
  intro n rest hfound
  subst hfound
  exact ⟨h.later.suffix, h.later.shorter⟩

/-- What a reading of the tokens from a position on comes to. -/
theorem Matches.outcome {x y : Except SyntaxError (Option (α × List Token))} (hpos : pos ≤ tokens.length)
    (h : Matches (tokens.drop pos) (Leaves (tokens.drop pos) least) x y) : Outcome tokens pos least x := by
  -- A complaint names its place; what was found leaves an end of the tokens.
  cases h with
  | fails h =>
    obtain ⟨place, hplace, hlength, hposition⟩ := h.failure hpos
    exact .failure place hplace hlength hposition
  | @gives found h =>
    cases found with
    | none => exact .noMatch
    | some result =>
      obtain ⟨a, rest⟩ := result
      obtain ⟨hsuffix, hleast⟩ := h a rest rfl
      obtain ⟨next, hnext, hlength, rfl⟩ := place_of_suffix hpos hsuffix
      simp only [List.length_drop] at hleast hlength
      exact .found a next (by omega) (by omega)

/-- A production that makes progress proceeds by a token. -/
theorem Advances.proceeds {p : Production} (h : Advances p) : Proceeds 1 p :=
  fun _ _ hpos => ((h _).mono List.suffix_rfl fun _ => Onward.leaves).outcome hpos

/-- What is found in any case, as a list or a block is, proceeds by the tokens that it takes at least. -/
theorem proceeds_of_matches {p : List Token → Except SyntaxError (α × List Token)}
    (h : ∀ ts, Matches ts (fun r => r.2 <:+ ts ∧ r.2.length + least ≤ ts.length) (p ts) (p ts)) :
    Proceeds least fun ts => some <$> p ts := by
  intro tokens pos hpos
  refine ((h (tokens.drop pos)).map fun r hr => ?_).outcome hpos
  rintro _ _ ⟨⟩
  exact hr

/-! ## Recursions that come to an end

Said of any recursion: if its calls are about what is smaller, it is done after as many rounds as the size
allows, and then it has found a solution of its equation. -/

/-- A recursion with a solution that it reaches when its calls are nested more often than a size of what it is
about, whatever a further call would give. -/
structure EndsWithin (size : α → Nat) (call : (α → β) → α → β) (f : α → β) : Prop where
  solves : call f = f
  reached : ∀ deeper n a, size a < n → call^[n] deeper a = f a

/-- A recursion whose calls are about what is smaller: those about anything else do not matter. -/
def Descends (size : α → Nat) (call : (α → β) → α → β) : Prop :=
  ∀ ⦃g h : α → β⦄ ⦃a : α⦄, (∀ b, size b < size a → g b = h b) → call g a = call h a

namespace Descends

variable {size : α → Nat} {call : (α → β) → α → β}

/-- It is done after more rounds than the size. -/
theorem iterate_eq (hcall : Descends size call) (deeper deeper' : α → β) (n : Nat) :
    ∀ (m : Nat) (a : α), size a < n → size a < m → call^[n] deeper a = call^[m] deeper' a := by
  -- By induction on the rounds: every call takes up one of them, and what it is about is smaller.
  induction n with
  | zero => exact fun _ _ h _ => absurd h (Nat.not_lt_zero _)
  | succ n ih =>
    intro m a hn hm
    cases m with
    | zero => exact absurd hm (Nat.not_lt_zero _)
    | succ m =>
      rw [Function.iterate_succ_apply', Function.iterate_succ_apply']
      apply hcall
      intro b hb
      apply ih m b
      · exact Nat.lt_of_lt_of_le hb (Nat.le_of_lt_succ hn)
      · exact Nat.lt_of_lt_of_le hb (Nat.le_of_lt_succ hm)

/-- A loop that is given one round more than the size ends by itself. -/
theorem endsWithin (hcall : Descends size call) {f : α → β} {loop : Nat → α → β}
    (hf : ∀ a, f a = loop (size a + 1) a) (hloop : ∀ n, loop (n + 1) = call (loop n)) :
    EndsWithin size call f := by
  have hreached : ∀ deeper n a, size a < n → call^[n] deeper a = f a := by
    intro deeper n a hn
    rw [hf, eq_iterate call loop hloop]
    exact hcall.iterate_eq deeper _ n _ a hn (Nat.lt_succ_self _)
  refine ⟨funext fun a => ?_, hreached⟩
  rw [hf, hloop]
  apply hcall
  intro b hb
  rw [eq_iterate call loop hloop, hreached (loop 0) _ b hb]

end Descends

/-! ## The loops

Every loop of the parser is such a recursion, if one of its rounds is written as a function of the next.
What it carries along are the nodes that were read and the tokens that are left, and each round leaves fewer
tokens. -/

/-- A primary expression uses up at least one token. -/
theorem primary_advances : Advances (primary expression) :=
  expression_advances.rule primary_concurs

/-- A comparison uses up at least one token. -/
theorem comparison_advances : Advances (comparisonWith expression) :=
  expression_advances.rule comparisonWith_concurs

/-- The tokens that are left, of what a loop carries along. -/
def tokensLeft (reached : α × List Token) : Nat := reached.2.length

/-- One item of a list, with a comma behind it before there is another. -/
def itemsRound (expr : Production)
    (again : List Node × List Token → Except SyntaxError (List Node × List Token)) :
    List Node × List Token → Except SyntaxError (List Node × List Token)
  | (read, ts) => do
    match ← expr ts with
    | none => .ok (read.reverse, ts)
    | some (item, ⟨.separator, _, _⟩ :: rest) => again (item :: read, rest)
    | some (item, rest) => .ok ((item :: read).reverse, rest)

/-- The rest of a list, after the items read. -/
def itemsFrom (expr : Production) (reached : List Node × List Token) :
    Except SyntaxError (List Node × List Token) :=
  items expr (tokensLeft reached + 1) reached.1 reached.2

/-- A round of a list leaves fewer tokens for the next one. -/
theorem itemsRound_descends : Descends tokensLeft (itemsRound expression) := by
  rintro g h ⟨read, ts⟩ hagain
  unfold itemsRound
  apply (expression_advances ts).bind_congr
  intro found hfound
  split
  · rfl
  · exact hagain _ hfound.later.tail.2
  · rfl

/-- The loop of a list ends. -/
theorem items_ends : EndsWithin tokensLeft (itemsRound expression) (itemsFrom expression) :=
  let loop n (reached : List Node × List Token) := items expression n reached.1 reached.2
  have hloop : ∀ n, loop (n + 1) = itemsRound expression (loop n) := fun _ => rfl
  itemsRound_descends.endsWithin (fun _ => rfl) hloop

/-- One index in brackets. -/
def indexRound (expr : Production) (again : Node × List Token → Except SyntaxError (Node × List Token)) :
    Node × List Token → Except SyntaxError (Node × List Token)
  | (node, ts) =>
    match ts with
    | ⟨.leftBracket, _, _⟩ :: rest => do
      match ← expr rest with
      | some (position, ⟨.rightBracket, _, _⟩ :: rest) => again (.index node position, rest)
      | _ => .ok (node, ts)
    | _ => .ok (node, ts)

/-- The indexes behind a node. -/
def indexesFrom (expr : Production) (reached : Node × List Token) : Except SyntaxError (Node × List Token) :=
  indexChain expr (tokensLeft reached + 1) reached.1 reached.2

/-- A round of indexes leaves fewer tokens for the next one. -/
theorem indexRound_descends : Descends tokensLeft (indexRound expression) := by
  rintro g h ⟨node, ts⟩ hagain
  dsimp only [indexRound]
  split
  · apply (expression_advances.behind (later_cons _ _).1).bind_congr
    intro found hfound
    split
    · exact hagain _ hfound.later.tail.2
    · rfl
  · rfl

/-- The loop of indexes ends. -/
theorem indexes_end : EndsWithin tokensLeft (indexRound expression) (indexesFrom expression) :=
  let loop n (reached : Node × List Token) := indexChain expression n reached.1 reached.2
  have hloop : ∀ n, loop (n + 1) = indexRound expression (loop n) := fun _ => rfl
  indexRound_descends.endsWithin (fun _ => rfl) hloop

/-- A primary expression, with an arithmetic operator behind it before there is another operand. -/
def operandRound (primary again : Production) : Production := fun ts => do
  match ← primary ts with
  | none => .ok none
  | some (left, ⟨.arithmetic, op, _⟩ :: rest) =>
    if isPostfix op then .ok (some (.unary op left, rest))
    else do
      let (right, rest) ← require again (.noOperand op) rest
      .ok (some (.binary left op right, rest))
  | some found => .ok (some found)

/-- The operand behind an operator has fewer tokens. -/
theorem operandRound_descends : Descends List.length (operandRound (primary expression)) := by
  intro g h ts hagain
  apply (primary_advances ts).bind_congr
  intro found hfound
  split
  · rfl
  · split
    · rfl
    · unfold require
      rw [hagain _ hfound.later.tail.2]
  · rfl

/-- The recursion of operands ends. -/
theorem operand_ends : EndsWithin List.length (operandRound (primary expression)) operand := by
  rw [operand_eq]
  -- The bound of the production counts the rounds.
  have hloop : ∀ n, operandAt (primary expression) (n + 1) =
      operandRound (primary expression) (operandAt (primary expression) n) := fun _ => rfl
  exact operandRound_descends.endsWithin (fun _ => rfl) hloop

/-- One operator of a chain and its right operand. -/
def chainRound (operand : Production)
    (again : (List Node × List Text) × List Token → Except SyntaxError (Node × List Token)) :
    (List Node × List Text) × List Token → Except SyntaxError (Node × List Token)
  | ((operands, ops), ts) =>
    match ts with
    | ⟨kind, op, _⟩ :: rest =>
      if kind = .andWord ∨ kind = .orWord then do
        let (next, rest) ← require operand (.noChainOperand op) rest
        again ((next :: operands, op :: ops), rest)
      else .ok (.chain operands.reverse ops.reverse, ts)
    | [] => .ok (.chain operands.reverse ops.reverse, ts)

/-- The rest of a chain, after the operands and operators read. -/
def operandsFrom (operand : Production) (reached : (List Node × List Text) × List Token) :
    Except SyntaxError (Node × List Token) :=
  chainFrom operand (tokensLeft reached + 1) reached.1.1 reached.1.2 reached.2

/-- A round of a chain leaves fewer tokens for the next one. -/
theorem chainRound_descends : Descends tokensLeft (chainRound (comparisonWith expression)) := by
  rintro g h ⟨⟨operands, ops⟩, ts⟩ hagain
  dsimp only [chainRound]
  split
  · split
    · next kind op position rest hkind =>
      have hrest := (later_cons ⟨kind, op, position⟩ rest).1
      apply (Matches.of_require hrest (comparison_advances.behind hrest)).bind_congr
      exact fun next hnext => hagain _ hnext.2
    · rfl
  · rfl

/-- The loop of a chain ends. -/
theorem operands_end :
    EndsWithin tokensLeft (chainRound (comparisonWith expression))
      (operandsFrom (comparisonWith expression)) :=
  let loop n (reached : (List Node × List Text) × List Token) :=
    chainFrom (comparisonWith expression) n reached.1.1 reached.1.2 reached.2
  have hloop : ∀ n, loop (n + 1) = chainRound (comparisonWith expression) (loop n) := fun _ => rfl
  chainRound_descends.endsWithin (fun _ => rfl) hloop

/-- One statement, and a semicolon behind it. -/
def statementsRound (statement : Production)
    (again : List Node × List Token → Except SyntaxError (Program × List Token)) :
    List Node × List Token → Except SyntaxError (Program × List Token)
  | (read, ts) => do
    match ← statement ts with
    | none => .ok (read.reverse, ts)
    | some (node, ⟨.semicolon, _, _⟩ :: rest) => again (node :: read, rest)
    | some (node, rest) => again (node :: read, rest)

/-- The rest of a block, after the statements read. -/
def statementsFrom (statement : Production) (reached : List Node × List Token) :
    Except SyntaxError (Program × List Token) :=
  statements statement (tokensLeft reached + 1) reached.1 reached.2

/-- A round of a block leaves fewer tokens for the next one. -/
theorem statementsRound_descends : Descends tokensLeft (statementsRound statement) := by
  rintro g h ⟨read, ts⟩ hagain
  unfold statementsRound
  apply (statement_advances ts).bind_congr
  intro found hfound
  split
  · rfl
  · exact hagain _ hfound.later.tail.2
  · exact hagain _ hfound.later.2

/-- The loop of a block ends. -/
theorem statements_end : EndsWithin tokensLeft (statementsRound statement) (statementsFrom statement) :=
  let loop n (reached : List Node × List Token) := statements statement n reached.1 reached.2
  have hloop : ∀ n, loop (n + 1) = statementsRound statement (loop n) := fun _ => rfl
  statementsRound_descends.endsWithin (fun _ => rfl) hloop

/-! ## The productions

Expressions and statements contain themselves, so their recursion goes through all the productions. It ends
because nodes inside of a node are read from later tokens. -/

/-- The recursion through expressions ends. -/
theorem expression_ends : EndsWithin List.length expressionWith expression where
  solves := by
    funext ts
    have h := expressionWith_concurs (expressionAt_concurs ts.length)
    exact (h (Nat.lt_succ_self _)).eq.symm
  reached := fun deeper n _ hlt => (expression_concurs deeper n hlt).eq

/-- The recursion through statements ends. -/
theorem statement_ends : EndsWithin List.length statementWith statement where
  solves := by
    funext ts
    have h := statementWith_concurs (statementAt_concurs ts.length)
    exact (h (Nat.lt_succ_self _)).eq.symm
  reached := fun deeper n _ hlt => (statement_concurs deeper n hlt).eq

/-- The productions that find a node. -/
def productions (collection : Node) (construct : Text) : List Production :=
  [statement, ifStatement statement, forStatement statement, whileStatement statement,
    forEachStatement statement, functionDefinition statement, indexAssignment, declaration, assignment,
    returnStatement, comment, printStatement, fun ts => some <$> parenCondition construct ts,
    expression, comparisonWith expression, operand, primary expression, arrayLiteral expression,
    indexAccess expression, propertyAccess expression, filterTail expression collection, fetch expression,
    call expression, literal, identifier]

/-- A condition in parentheses uses up at least one token. -/
theorem condition_advances (construct : Text) : Advances fun ts => some <$> parenCondition construct ts :=
  fun _ => (parenCondition_matches construct List.suffix_rfl).map fun r hr => .node r.1 hr

/-- Every production uses up at least one token. -/
theorem productions_advance (collection : Node) (construct : Text) :
    ∀ p ∈ productions collection construct, Advances p := by
  simp only [productions, List.forall_mem_cons]
  exact ⟨statement_advances, statement_advances.rule ifStatement_concurs,
    statement_advances.rule forStatement_concurs, statement_advances.rule whileStatement_concurs,
    statement_advances.rule forEachStatement_concurs, statement_advances.rule functionDefinition_concurs,
    indexAssignment_advances, declaration_advances, assignment_advances, returnStatement_advances,
    comment_advances, printStatement_advances, condition_advances construct, expression_advances,
    comparison_advances, operand_advances, primary_advances, expression_advances.rule arrayLiteral_concurs,
    expression_advances.rule indexAccess_concurs, expression_advances.rule propertyAccess_concurs,
    .of_concurs fun _ => filterTail_concurs expression_advances.concurs collection,
    expression_advances.rule fetch_concurs, expression_advances.rule call_concurs, literal_advances,
    identifier_advances, List.forall_mem_nil _⟩

/-- A block in braces uses up at least one token. -/
theorem body_proceeds (construct : Text) : Proceeds 1 fun ts => some <$> body statement construct ts :=
  proceeds_of_matches fun ts =>
    have hlt := Nat.lt_succ_self ts.length
    (body_concurs statement_advances.concurs construct hlt List.suffix_rfl).mono List.suffix_rfl
      fun _ h => ⟨h.suffix, h.shorter⟩

/-- A list may be empty, but it does not go back. -/
theorem list_proceeds (closing : Token.Kind) : Proceeds 0 fun ts => some <$> list expression closing ts :=
  proceeds_of_matches fun ts =>
    (list_matches closing ts).mono List.suffix_rfl fun _ h => ⟨h, h.length_le⟩

/-- A block is read in order. -/
theorem block_matches (ts : List Token) :
    Matches ts (fun r => r.2 <:+ ts) (block statement ts) (block statement ts) :=
  block_concurs statement_advances.concurs (Nat.lt_succ_self _)

/-- A block may be empty, but it does not go back. -/
theorem block_proceeds : Proceeds 0 fun ts => some <$> block statement ts :=
  proceeds_of_matches fun ts => (block_matches ts).mono List.suffix_rfl fun _ h => ⟨h, h.length_le⟩

/-- The bound of a program is large enough for its tokens. -/
theorem block_eq (tokens : List Token) :
    block (statementAt (tokens.length + 1)) tokens = block statement tokens :=
  (block_concurs (statementAt_concurs _) (Nat.lt_succ_self _)).eq

/-- A program is read, or there is a complaint about its tokens. -/
theorem ofTokens_matches (tokens : List Token) :
    Matches tokens (fun _ => True) (Program.ofTokens tokens) (Program.ofTokens tokens) := by
  unfold Program.ofTokens
  rw [block_eq]
  refine .bind (block_matches tokens) fun r hr => ?_
  obtain ⟨program, rest⟩ := r
  cases rest with
  | nil => exact .gives trivial
  | cons t rest => exact .complain hr _

/-- A program is read, or there is a complaint about one of the tokens or their end. -/
theorem ofTokens_total (tokens : List Token) : (∃ program, Program.ofTokens tokens = .ok program) ∨
    ∃ e place, Program.ofTokens tokens = .error e ∧ place ≤ tokens.length ∧
      e.position = tokens[place]?.map Token.position := by
  have h := ofTokens_matches tokens
  generalize Program.ofTokens tokens = result at h
  cases h with
  | fails h =>
    have hdrop : Among (tokens.drop 0) _ := h
    obtain ⟨place, _, hplace, hposition⟩ := hdrop.failure (Nat.zero_le _)
    exact .inr ⟨_, place, rfl, hplace, hposition⟩
  | gives => exact .inl ⟨_, rfl⟩

/-- **Every production makes progress, and reading ends.** From any position on, a production complains about
a place from there to the end, has no match, or finds a node and a later position that is at most the end. A
body does so too, and lists and blocks do not go back. The recursion through expressions, the one through
statements and the one of operands are over when they are nested as often as there are tokens left, and the
loops of lists, indexes, chains and blocks after as many rounds. So every list of tokens is a program or has a
complaint about one of its tokens or their end. -/
theorem reading_ends :
    (∀ collection construct, ∀ p ∈ productions collection construct, Proceeds 1 p) ∧
    (∀ construct, Proceeds 1 fun ts => some <$> body statement construct ts) ∧
    (∀ closing, Proceeds 0 fun ts => some <$> list expression closing ts) ∧
    (Proceeds 0 fun ts => some <$> block statement ts) ∧
    EndsWithin List.length expressionWith expression ∧
    EndsWithin List.length statementWith statement ∧
    EndsWithin List.length (operandRound (primary expression)) operand ∧
    EndsWithin tokensLeft (itemsRound expression) (itemsFrom expression) ∧
    EndsWithin tokensLeft (indexRound expression) (indexesFrom expression) ∧
    EndsWithin tokensLeft (chainRound (comparisonWith expression))
      (operandsFrom (comparisonWith expression)) ∧
    EndsWithin tokensLeft (statementsRound statement) (statementsFrom statement) ∧
    (∀ tokens, block (statementAt (tokens.length + 1)) tokens = statementsFrom statement ([], tokens)) ∧
    ∀ tokens, (∃ program, Program.ofTokens tokens = .ok program) ∨
      ∃ e place, Program.ofTokens tokens = .error e ∧ place ≤ tokens.length ∧
        e.position = tokens[place]?.map Token.position :=
  ⟨fun collection construct p hp => (productions_advance collection construct p hp).proceeds, body_proceeds,
    list_proceeds, block_proceeds, expression_ends, statement_ends, operand_ends, items_ends, indexes_end,
    operands_end, statements_end, block_eq, ofTokens_total⟩

end Grammar

end Mundart
