import Mundart.Proofs.Grammar.Progress

/-!
# Expressions make progress

Readers of expressions that concur on what is shorter make productions that concur. Every question that a
production asks is about tokens behind one that it has read itself, so that the bound goes down by one. For
expressions of a program this means that the depth to which they are read does not matter.

* **`items_concurs`**, **`chainFrom_concurs`** — the repetitions, each by induction on its rounds;
* **`primary_concurs`**, **`operandWith_concurs`**, **`comparisonWith_concurs`**,
  **`expressionWith_concurs`** — one level of expressions each;
* **`expressionAt_concurs`** — any depth that is enough for the tokens reads the same;
* **`expression_advances`**, **`operand_advances`** — expressions make progress.
-/

namespace Mundart

namespace Grammar

variable {β : Type} {ts rest after : List Token}

/-! ## One level

The production `p` of the expressions inside is compared with another one, `q`, that gives the same below a
bound. The production of the next level then gives the same one token further. -/

section Expressions

variable {bound : Nat} {p q : Production} (hpq : Concurs bound p q)

/-- A name alone uses up a token. -/
theorem identifier_advances : Advances identifier := by
  intro ts
  unfold identifier
  split
  · exact .gives (.node _ (later_cons _ _))
  · exact .gives .nothing

/-- A literal is one token; a number that cannot be read is complained about. -/
theorem literal_advances : Advances literal := by
  intro ts
  unfold literal
  split
  · split
    · exact .gives (.node _ (later_cons _ _))
    · exact .complain List.suffix_rfl _
  · exact .gives (.node _ (later_cons _ _))
  · exact .gives (.node _ (later_cons _ _))
  · exact .gives (.node _ (later_cons _ _))
  · exact .gives .nothing

include hpq

/-- The expressions of a list; a list may be empty, so it need not use up any token. -/
theorem items_concurs (n : Nat) : ∀ (read : List Node) {ts : List Token}, ts.length < bound →
    Matches ts (fun r => r.2 <:+ ts) (items p n read ts) (items q n read ts) := by
  -- By induction on the rounds, which are the same on both sides.
  induction n with
  | zero => exact fun _ _ _ => .gives List.suffix_rfl
  | succ n ih =>
    intro read ts hlt
    refine .bind (hpq hlt) fun found hfound => ?_
    split
    · exact .gives List.suffix_rfl
    -- Behind a comma the list goes on, with fewer tokens than before.
    · next item _ _ after =>
      have hafter : Later ts after := hfound.later.tail
      refine (ih (item :: read) (Nat.lt_trans hafter.shorter hlt)).mono hafter.suffix ?_
      exact fun _ h => h.trans hafter.suffix
    · exact .gives hfound.later.suffix

/-- The expressions of a list up to its closing bracket. -/
theorem list_concurs (closing : Token.Kind) (hlt : ts.length < bound) :
    Matches ts (fun r => r.2 <:+ ts) (list p closing ts) (list q closing ts) := by
  unfold list
  split
  · exact .gives List.suffix_rfl
  · exact items_concurs hpq _ [] hlt

section Within

variable (hlt : ts.length < bound + 1)

include hlt

/-- A list behind at least one token. -/
theorem list_later (closing : Token.Kind) (h : Later ts rest) :
    Matches ts (fun r => Later ts r.2) (list p closing rest) (list q closing rest) :=
  (list_concurs hpq closing (h.lt hlt)).within h

/-- Further indexes behind the first one. -/
theorem indexChain_concurs (n : Nat) : ∀ (node : Node) {rest : List Token}, Later ts rest →
    Matches ts (fun r => Later ts r.2) (indexChain p n node rest) (indexChain q n node rest) := by
  -- By induction on the rounds; the tokens in front are kept for the places of the complaints.
  induction n with
  | zero => exact fun _ _ h => .gives h
  | succ n ih =>
    intro node rest h
    unfold indexChain
    split
    · refine .bind (hpq.later hlt h.tail) fun found hfound => ?_
      split
      · next position _ _ after => exact ih (.index node position) hfound.later.tail
      · exact .gives h
    · exact .gives h

/-- What stands behind the name of a property. -/
theorem propertyTail_concurs (object : Node) (name : Text) (h : Later ts rest) :
    Matches ts (Onward ts) (propertyTail p object name rest) (propertyTail q object name rest) := by
  unfold propertyTail
  split
  · exact .gives (.node _ h.tail.tail)
  · refine .require h.tail.suffix (hpq.later hlt h.tail) fun arg _ h₁ => ?_
    exact .expect h₁.suffix fun h₂ => .gives (.node _ h₂)
  · exact .gives (.node _ h)

end Within

/-- What stands behind the word of a filter. -/
theorem filterTail_concurs (collection : Node) :
    Concurs (bound + 1) (filterTail p collection) (filterTail q collection) := by
  intro ts hlt
  refine .expect List.suffix_rfl fun h => ?_
  split
  · refine .expect h.tail.suffix fun h₁ => .expect h₁.suffix fun h₂ => ?_
    refine .require h₂.suffix (hpq.later hlt h₂) fun predicate _ h₃ => ?_
    exact .expect h₃.suffix fun h₄ => .expect h₄.suffix fun h₅ => .gives (.node _ h₅)
  · exact .complain h.suffix _

/-- An array or an association. -/
theorem arrayLiteral_concurs : Concurs (bound + 1) (arrayLiteral p) (arrayLiteral q) := by
  intro ts hlt
  unfold arrayLiteral
  split
  · refine .bind (list_later hpq hlt _ (later_cons _ _)) fun keys hkeys => ?_
    split
    -- A colon behind the first list makes it the keys of an association.
    · next rest =>
      have hrest : Later _ rest := hkeys.tail.tail
      split
      · refine .bind (list_later hpq hlt _ hrest.tail) fun values hvalues => ?_
        exact .expect hvalues.suffix fun h => .gives (.node _ h)
      · exact .complain hrest.suffix _
    · exact .gives (.node _ hkeys.tail)
    · exact .gives .nothing
  · exact .gives .nothing

/-- A name with indexes. -/
theorem indexAccess_concurs : Concurs (bound + 1) (indexAccess p) (indexAccess q) := by
  intro ts hlt
  unfold indexAccess
  split
  · split
    · exact .gives .nothing
    · refine .bind (indexChain_concurs hpq hlt _ _ (later_cons _ _)) fun found hfound => ?_
      split
      · exact .gives (.node _ hfound)
      · exact .gives .nothing
  · exact .gives .nothing

/-- A dot and a name behind a target. -/
theorem propertyAccess_concurs : Concurs (bound + 1) (propertyAccess p) (propertyAccess q) := by
  intro ts hlt
  have hobject := firstOf_concurs (.cons (indexAccess_concurs hpq) (.cons identifier_advances.concurs .nil))
  refine .bind (hobject hlt) fun found hfound => ?_
  split
  · next object _ _ rest =>
    -- The target and the dot have been read.
    have hrest : Later ts rest := hfound.later.tail
    split
    · split
      · exact (filterTail_concurs hpq _).behind (Nat.lt_trans hrest.tail.shorter hlt) hrest.tail.suffix
      · exact propertyTail_concurs hpq hlt _ _ hrest.tail
    · exact .complain hrest.suffix _
  · exact .gives .nothing

/-- The word for fetching and its address. -/
theorem fetch_concurs : Concurs (bound + 1) (fetch p) (fetch q) := by
  intro ts hlt
  unfold fetch
  split
  · refine .expect (later_cons _ _).suffix fun h => .require h.suffix (hpq.later hlt h) fun url _ h₁ => ?_
    exact .expect h₁.suffix fun h₂ => .gives (.node _ h₂)
  · exact .gives .nothing

/-- A name with arguments in parentheses. -/
theorem call_concurs : Concurs (bound + 1) (call p) (call q) := by
  intro ts hlt
  unfold call
  split
  · refine .bind (list_later hpq hlt _ (later_cons _ _).tail) fun args hargs => ?_
    split
    · exact .gives (.node _ hargs.tail)
    · exact .gives .nothing
  · exact .gives .nothing

/-- The primary expressions, in the order in which they are tried. -/
theorem primary_concurs : Concurs (bound + 1) (primary p) (primary q) :=
  firstOf_concurs (.cons (arrayLiteral_concurs hpq) (.cons (propertyAccess_concurs hpq)
    (.cons (indexAccess_concurs hpq) (.cons (fetch_concurs hpq) (.cons (call_concurs hpq)
      (.cons literal_advances.concurs (.cons identifier_advances.concurs .nil)))))))

omit hpq in
/-- A primary expression, maybe with an operator behind it and an operand behind that. -/
theorem operandAt_concurs {p q : Production} (hpq : Concurs bound p q) (n : Nat) :
    Concurs bound (operandAt p n) (operandAt q n) := by
  -- By induction on the operators that may still follow.
  induction n with
  | zero => exact fun _ _ => .gives .nothing
  | succ n ih =>
    intro ts hlt
    refine .bind (hpq hlt) fun found hfound => ?_
    split
    · exact .gives .nothing
    · next rest =>
      have hrest : Later ts rest := hfound.later.tail
      split
      · exact .gives (.node _ hrest)
      · refine .require hrest.suffix (ih.later (Nat.lt_succ_of_lt hlt) hrest) fun right _ h => ?_
        exact .gives (.node _ h)
    · exact .gives hfound

/-- The operands on one level. -/
theorem operandWith_concurs : Concurs (bound + 1) (operandWith p) (operandWith q) :=
  fun _ hlt => operandAt_concurs (primary_concurs hpq) _ hlt

/-- One operand, or two with a comparison between them. -/
theorem comparisonWith_concurs : Concurs (bound + 1) (comparisonWith p) (comparisonWith q) := by
  intro ts hlt
  have hoperand := operandWith_concurs hpq
  refine .bind (hoperand hlt) fun found hfound => ?_
  split
  · exact .gives .nothing
  · next rest =>
    have hrest : Later ts rest := hfound.later.tail
    refine .require hrest.suffix (hoperand.later (Nat.lt_succ_of_lt hlt) hrest) fun right _ h => ?_
    exact .gives (.node _ h)
  · exact .gives hfound

omit hpq in
/-- Further operators and comparisons of a chain. -/
theorem chainFrom_concurs {p q : Production} (hpq : Concurs bound p q) (hlt : ts.length < bound) (n : Nat) :
    ∀ (operands : List Node) (ops : List Text) {rest : List Token}, Later ts rest →
    Matches ts (fun r => Later ts r.2) (chainFrom p n operands ops rest) (chainFrom q n operands ops rest) := by
  induction n with
  | zero => exact fun _ _ _ h => .gives h
  | succ n ih =>
    intro operands ops rest h
    unfold chainFrom
    split
    · split
      · exact .require h.tail.suffix (hpq.later (Nat.lt_succ_of_lt hlt) h.tail) fun next _ hnext => ih _ _ hnext
      · exact .gives h
    · exact .gives h

/-- A comparison, or a chain of comparisons. -/
theorem expressionWith_concurs : Concurs (bound + 1) (expressionWith p) (expressionWith q) := by
  intro ts hlt
  have hcomparison := comparisonWith_concurs hpq
  refine .bind (hcomparison hlt) fun found hfound => ?_
  split
  · exact .gives .nothing
  · next left rest =>
    split
    · refine .bind (chainFrom_concurs hcomparison hlt _ [left] [] hfound.later) fun chain hchain => ?_
      exact .gives (.node _ hchain)
    · exact .gives (.node _ hfound.later)

end Expressions

/-! ## Every depth

The production of expressions reads to a depth that is large enough for the tokens. The same is read to any
other depth that is large enough, and with any production in the place of the innermost call. -/

/-- As many levels as a bound on the tokens read what an expression of the program is. -/
theorem expression_concurs (deeper : Production) (n : Nat) :
    Concurs n (expressionWith^[n] deeper) expression :=
  nested_concurs expressionWith_concurs (fun _ => rfl) deeper n

/-- An expression uses up at least one token. -/
theorem expression_advances : Advances expression :=
  .of_concurs fun bound => (expression_concurs expression (bound + 1)).right

/-- An expression that must be there, and what goes on after it. -/
theorem Matches.requireExpression {Q : β → Prop} {c : Complaint}
    {f g : Node × List Token → Except SyntaxError β}
    (h : rest <:+ ts) (hnext : ∀ n {after}, Later ts after → Matches ts Q (f (n, after)) (g (n, after))) :
    Matches ts Q (Grammar.require expression c rest >>= f) (Grammar.require expression c rest >>= g) :=
  .require h (expression_advances.behind h) hnext

/-- Reading to a depth that is large enough for the tokens. -/
theorem expressionAt_concurs (n : Nat) : Concurs n (expressionAt n) expression := by
  rw [eq_iterate expressionWith expressionAt (fun _ => rfl) n]
  exact expression_concurs _ n

/-- The operand of a loop over a collection is one on the level below expressions. -/
theorem operand_eq : operand = operandWith expression := by
  funext ts
  have h := operandWith_concurs (expressionAt_concurs ts.length)
  exact (h (Nat.lt_succ_self _)).eq

/-- An operand uses up at least one token. -/
theorem operand_advances : Advances operand := by
  rw [operand_eq]
  exact expression_advances.rule operandWith_concurs

end Grammar

end Mundart
