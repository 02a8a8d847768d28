import Mundart.Proofs.Grammar.Progress.Expressions

/-!
# Statements make progress

As for expressions: readers of statements that concur on what is shorter make productions that concur, and
so the depth to which blocks are read does not matter.

* **`statements_concurs`**, **`body_concurs`** — the statements of a block and a block in braces;
* **`statementWith_concurs`** — every statement, if those inside concur on what is shorter;
* **`statementAt_concurs`** — any depth that is enough for the tokens reads the same;
* **`statement_advances`** — statements make progress.
-/

namespace Mundart

namespace Grammar

variable {ts rest : List Token}

/-! ## Statements without blocks

The expressions in them make progress, whatever the depth of the statements. -/

/-- The check of an operator leaves the tokens as they are. -/
theorem checkAssign_matches (op : Text) (h : rest <:+ ts) :
    Matches ts (fun _ => True) (checkAssign rest op) (checkAssign rest op) := by
  unfold checkAssign
  split
  · exact .gives trivial
  · exact .complain h _

/-- The word for a declaration, a name and its value. -/
theorem declaration_advances : Advances declaration := by
  intro ts
  unfold declaration
  split
  · split
    · split
      · refine .bind (checkAssign_matches _ (later_cons _ _).tail.suffix) fun _ _ => ?_
        exact .requireExpression (later_cons _ _).tail.tail.suffix fun init _ h => .gives (.node _ h)
      · exact .complain (later_cons _ _).tail.suffix _
    · exact .complain (later_cons _ _).suffix _
  · exact .gives .nothing

/-- A name and the value that it is given. -/
theorem assignment_advances : Advances assignment := by
  intro ts
  unfold assignment
  split
  · split
    · refine .bind (checkAssign_matches _ (later_cons _ _).suffix) fun _ _ => ?_
      exact .requireExpression (later_cons _ _).tail.suffix fun value _ h => .gives (.node _ h)
    · exact .gives .nothing
  · exact .gives .nothing

/-- What stands first in the head of a counting loop. -/
theorem start_advances : Advances (firstOf [declaration, assignment]) :=
  .of_concurs fun _ => firstOf_concurs (.cons declaration_advances.concurs
    (.cons assignment_advances.concurs .nil))

/-- What stands last in the head of a counting loop. -/
theorem update_advances : Advances (firstOf [assignment, expression]) :=
  .of_concurs fun _ => firstOf_concurs (.cons assignment_advances.concurs
    (.cons expression_advances.concurs .nil))

/-- A name, a position in brackets and a value. -/
theorem indexAssignment_advances : Advances indexAssignment := by
  intro ts
  unfold indexAssignment
  split
  · refine .bind (expression_advances.behind (later_cons _ _).tail.suffix) fun found hfound => ?_
    split
    · next rest =>
      -- Up to here an index might have been read just as well, so nothing is complained about.
      have hrest : Later _ rest := hfound.later.tail
      split
      · refine .bind (checkAssign_matches _ hrest.suffix) fun _ _ => ?_
        exact .requireExpression hrest.tail.suffix fun value _ h => .gives (.node _ h)
      · exact .gives .nothing
    · exact .gives .nothing
  · exact .gives .nothing

/-- The word for returning, with or without a value. -/
theorem returnStatement_advances : Advances returnStatement := by
  intro ts
  unfold returnStatement
  split
  · refine .bind (expression_advances.behind (later_cons _ _).suffix) fun found hfound => ?_
    split
    · exact .gives (.node _ hfound.later)
    · exact .gives (.node _ (later_cons _ _))
  · exact .gives .nothing

/-- The word for a comment and its text. -/
theorem comment_advances : Advances comment := by
  intro ts
  unfold comment
  split
  · split
    · exact .gives (.node _ (later_cons _ _).tail)
    · exact .complain (later_cons _ _).suffix _
  · exact .gives .nothing

/-- A list of expressions of the program. -/
theorem list_matches (closing : Token.Kind) (ts : List Token) :
    Matches ts (fun r => r.2 <:+ ts) (list expression closing ts) (list expression closing ts) :=
  list_concurs expression_advances.concurs closing (Nat.lt_succ_self _)

/-- The word for printing and its values. -/
theorem printStatement_advances : Advances printStatement := by
  intro ts
  unfold printStatement
  split
  · refine .expect (later_cons _ _).suffix fun h => ?_
    refine .bind ((list_matches _ _).within h) fun values hvalues => ?_
    exact .expect hvalues.suffix fun h₁ => .gives (.node _ h₁)
  · exact .gives .nothing

/-- A condition between parentheses. -/
theorem parenCondition_matches (construct : Text) (h : rest <:+ ts) :
    Matches ts (fun r => Later ts r.2) (parenCondition construct rest) (parenCondition construct rest) :=
  .expect h fun h₁ => .requireExpression h₁.suffix fun _ _ h₂ => .expect h₂.suffix fun h₃ => .gives h₃

/-- Reading the names of parameters leaves an end of the tokens. -/
theorem parameters_suffix (ts : List Token) : (parameters ts).2 <:+ ts := by
  fun_induction parameters ts with
  | case1 _ _ _ _ rest names after hrest ih =>
    rw [hrest] at ih
    exact ih.trans (later_cons _ _).tail.suffix
  | case2 => exact List.suffix_cons _ _
  | case3 => exact List.suffix_rfl

section Statements

variable {bound : Nat} {s t : Production} (hst : Concurs bound s t)

include hst

/-! ## One level

As for expressions, `s` and `t` read the statements in the blocks. -/

/-- The statements of a block; a block may be empty, so it need not use up any token. -/
theorem statements_concurs (n : Nat) : ∀ (read : List Node) {ts : List Token}, ts.length < bound →
    Matches ts (fun r => r.2 <:+ ts) (statements s n read ts) (statements t n read ts) := by
  -- By induction on the rounds, each of which uses up a token or is the last one.
  induction n with
  | zero => exact fun _ _ _ => .gives List.suffix_rfl
  | succ n ih =>
    intro read ts hlt
    have hnext : ∀ (node : Node) {after : List Token}, Later ts after → Matches ts (fun r => r.2 <:+ ts)
        (statements s n (node :: read) after) (statements t n (node :: read) after) := by
      intro node after hafter
      refine (ih (node :: read) (Nat.lt_trans hafter.shorter hlt)).mono hafter.suffix ?_
      exact fun _ h => h.trans hafter.suffix
    refine .bind (hst hlt) fun found hfound => ?_
    split
    · exact .gives List.suffix_rfl
    · exact hnext _ hfound.later.tail
    · exact hnext _ hfound.later

/-- A block has as many statements as can be read. -/
theorem block_concurs (hlt : ts.length < bound) :
    Matches ts (fun r => r.2 <:+ ts) (block s ts) (block t ts) :=
  statements_concurs hst _ [] hlt

/-- A block in braces uses up the braces. -/
theorem body_concurs (construct : Text) (hlt : ts.length < bound + 1) (h : rest <:+ ts) :
    Matches ts (fun r => Later ts r.2) (body s construct rest) (body t construct rest) := by
  refine .expect h fun h₁ => .bind ((block_concurs hst (h₁.lt hlt)).within h₁) fun r h₂ => ?_
  refine .expect h₂.suffix fun h₃ => ?_
  split
  · exact .complain h₂.suffix _
  · exact .gives h₃

/-- A condition and a block, maybe with another branch. -/
theorem ifStatement_concurs : Concurs (bound + 1) (ifStatement s) (ifStatement t) := by
  intro ts hlt
  unfold ifStatement
  split
  · refine .bind (parenCondition_matches _ (later_cons _ _).suffix) fun test htest => ?_
    refine .bind (body_concurs hst _ hlt htest.suffix) fun found hfound => ?_
    obtain ⟨nodes, after⟩ := found
    dsimp only at hfound ⊢
    split
    · have hrest := hfound.tail
      -- What follows `sonst` is a statement of its own, or a body.
      split
      · refine .bind (hst.later hlt hrest) fun found hfound => ?_
        split
        · exact .gives (.node _ hfound.later)
        · exact .gives .nothing
      · exact .bind (body_concurs hst _ hlt hrest.suffix) fun otherwise h => .gives (.node _ h)
    · exact .gives (.node _ hfound)
  · exact .gives .nothing

/-- The head of a counting loop and its block. -/
theorem forStatement_concurs : Concurs (bound + 1) (forStatement s) (forStatement t) := by
  intro ts hlt
  unfold forStatement
  split
  · refine .expect (later_cons _ _).suffix fun h => ?_
    refine .require h.suffix (start_advances.behind h.suffix) fun start _ h₁ => ?_
    refine .expect h₁.suffix fun h₂ => .requireExpression h₂.suffix fun test _ h₃ => ?_
    -- Only a comparison is taken as the condition of a counting loop.
    dsimp only
    split
    · refine .expect h₃.suffix fun h₄ => ?_
      refine .require h₄.suffix (update_advances.behind h₄.suffix) fun update _ h₅ => ?_
      refine .expect h₅.suffix fun h₆ => .bind (body_concurs hst _ hlt h₆.suffix) fun nodes h₇ => ?_
      exact .gives (.node _ h₇)
    · exact .complain h₃.suffix _
  · exact .gives .nothing

/-- A condition and the block under it. -/
theorem whileStatement_concurs : Concurs (bound + 1) (whileStatement s) (whileStatement t) := by
  intro ts hlt
  unfold whileStatement
  split
  · refine .bind (parenCondition_matches _ (later_cons _ _).suffix) fun test htest => ?_
    exact .bind (body_concurs hst _ hlt htest.suffix) fun nodes h => .gives (.node _ h)
  · exact .gives .nothing

/-- A collection, the name of its items and a block. -/
theorem forEachStatement_concurs : Concurs (bound + 1) (forEachStatement s) (forEachStatement t) := by
  intro ts hlt
  unfold forEachStatement
  split
  · refine .expect (later_cons _ _).suffix fun h => ?_
    refine .require h.suffix (operand_advances.behind h.suffix) fun collection _ h₁ => ?_
    refine .expect h₁.suffix fun h₂ => ?_
    split
    · refine .expect h₂.tail.suffix fun h₃ => .bind (body_concurs hst _ hlt h₃.suffix) fun nodes h₄ => ?_
      exact .gives (.node _ h₄)
    · exact .complain h₂.suffix _
  · exact .gives .nothing

/-- A function with its name, its parameters and its block. -/
theorem functionDefinition_concurs :
    Concurs (bound + 1) (functionDefinition s) (functionDefinition t) := by
  intro ts hlt
  unfold functionDefinition
  split
  · split
    · refine .expect (later_cons _ _).tail.suffix fun {after} h => ?_
      have hparameters := h.shorten (parameters_suffix after)
      refine .expect hparameters.suffix fun h₁ => .bind (body_concurs hst _ hlt h₁.suffix) fun nodes h₂ => ?_
      exact .gives (.node _ h₂)
    · exact .complain (later_cons _ _).suffix _
  · exact .gives .nothing

/-- The statements, in the order in which they are tried. -/
theorem statementWith_concurs : Concurs (bound + 1) (statementWith s) (statementWith t) :=
  firstOf_concurs (.cons (ifStatement_concurs hst) (.cons (forStatement_concurs hst)
    (.cons (whileStatement_concurs hst) (.cons (forEachStatement_concurs hst)
      (.cons (functionDefinition_concurs hst) (.cons indexAssignment_advances.concurs
        (.cons declaration_advances.concurs (.cons assignment_advances.concurs
          (.cons returnStatement_advances.concurs (.cons comment_advances.concurs
            (.cons printStatement_advances.concurs (.cons expression_advances.concurs .nil))))))))))))

end Statements

/-! ## Every depth

As for expressions: any depth that is large enough reads the same. -/

/-- As many levels as a bound on the tokens read what a statement of the program is. -/
theorem statement_concurs (deeper : Production) (n : Nat) :
    Concurs n (statementWith^[n] deeper) statement :=
  nested_concurs statementWith_concurs (fun _ => rfl) deeper n

/-- Reading to a depth that is large enough for the tokens. -/
theorem statementAt_concurs (n : Nat) : Concurs n (statementAt n) statement := by
  rw [eq_iterate statementWith statementAt (fun _ => rfl) n]
  exact statement_concurs _ n

/-- A statement uses up at least one token. -/
theorem statement_advances : Advances statement :=
  .of_concurs fun bound => (statement_concurs statement (bound + 1)).right

end Grammar

end Mundart
