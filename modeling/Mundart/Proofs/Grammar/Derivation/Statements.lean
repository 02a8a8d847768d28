import Mundart.Proofs.Grammar.Derivation.Expressions

/-!
# The productions of statements are sound

As for expressions: the production of a statement takes that of the statements in its blocks as an
argument, and the production at a bound is sound by induction on the bound.

* **`statements_sound`**, **`body_sound`** — the statements of a block and a block in braces;
* **`statementWith_sound`** — every statement, if those inside are sound;
* **`statementAt_sound`** — the production of statements is sound at every bound;
* **`derives_of_ofTokens`** — a program is derived from all of its tokens.
-/

namespace Mundart

namespace Grammar

/-! ## Statements without blocks

These read expressions only, whose productions are sound at every bound. -/

/-- The only operator of an assignment is the equals sign. -/
theorem checkAssign_eq_ok {ts : List Token} {op : Text} {u : Unit}
    (h : checkAssign ts op = .ok u) : op = "=" := by
  unfold checkAssign at h
  split at h
  · next hop => exact hop
  · exact absurd h not_complain

/-- The word for a declaration, a name and its value. -/
theorem declaration_sound : Sound .start declaration := by
  intro ts n rest h
  unfold declaration at h
  split at h
  · split at h
    · split at h
      · obtain ⟨_, hop, h₁⟩ := bind_eq_ok.mp h
        -- the sign that may stand here
        obtain rfl := checkAssign_eq_ok hop
        obtain ⟨init, ts₁, hinit, h₂⟩ := require_bind h₁
        obtain ⟨rfl, rfl⟩ := found_inj h₂
        exact .declare (expression_sound hinit)
      · exact absurd h not_complain
    · exact absurd h not_complain
  · exact absurd h none_ne_found

/-- What an assignment reads, with its shape. -/
theorem assignment_eq_found {ts rest : List Token} {n : Node}
    (h : assignment ts = .ok (some (n, rest))) :
    ∃ name value, n = .assign name value ∧ Derives (.node .start (.assign name value)) ts rest := by
  unfold assignment at h
  split at h
  · split at h
    · obtain ⟨_, hop, h₁⟩ := bind_eq_ok.mp h
      obtain rfl := checkAssign_eq_ok hop
      obtain ⟨value, ts₁, hvalue, h₂⟩ := require_bind h₁
      obtain ⟨rfl, rfl⟩ := found_inj h₂
      exact ⟨_, value, rfl, .assign (expression_sound hvalue)⟩
    · exact absurd h none_ne_found
  · exact absurd h none_ne_found

/-- A name and the value that it is given. -/
theorem assignment_sound : Sound .start assignment := by
  intro ts n rest h
  obtain ⟨name, value, rfl, hassign⟩ := assignment_eq_found h
  exact hassign

/-- A name, the position in brackets and the value that is stored there. -/
theorem indexAssignment_sound : Sound .statement indexAssignment := by
  intro ts n rest h
  unfold indexAssignment at h
  split at h
  · obtain ⟨found, hposition, h₁⟩ := bind_eq_ok.mp h
    split at h₁
    · split at h₁
      · obtain ⟨_, hop, h₂⟩ := bind_eq_ok.mp h₁
        obtain rfl := checkAssign_eq_ok hop
        obtain ⟨value, ts₁, hvalue, h₃⟩ := require_bind h₂
        obtain ⟨rfl, rfl⟩ := found_inj h₃
        exact .indexAssign (expression_sound hposition) (expression_sound hvalue)
      · exact absurd h₁ none_ne_found
    · exact absurd h₁ none_ne_found
  · exact absurd h none_ne_found

/-- What stands first in the head of a counting loop. -/
theorem start_sound : Sound .start (firstOf [declaration, assignment]) := by
  apply firstOf_sound
  intro p hp
  simp only [List.mem_cons, List.not_mem_nil, or_false] at hp
  obtain rfl | rfl := hp
  · exact declaration_sound
  · exact assignment_sound

/-- What stands last in the head of a counting loop. -/
theorem update_sound : Sound .update (firstOf [assignment, expression]) := by
  apply firstOf_sound
  intro p hp
  simp only [List.mem_cons, List.not_mem_nil, or_false] at hp
  obtain rfl | rfl := hp
  · intro ts n rest h
    obtain ⟨name, value, rfl, hassign⟩ := assignment_eq_found h
    exact .updateAssign hassign
  · intro ts n rest h
    exact .updateExpression (expression_sound h)

/-- A condition stands between parentheses. -/
theorem parenCondition_eq_ok {construct : Text} {ts rest : List Token} {test : Node}
    (h : parenCondition construct ts = .ok (test, rest)) :
    ∃ v p v' p' ts₁, ts = ⟨.leftParen, v, p⟩ :: ts₁ ∧
      Derives (.node .expression test) ts₁ (⟨.rightParen, v', p'⟩ :: rest) := by
  -- The values of the parentheses do not matter, only their kinds.
  obtain ⟨v, p, ts₁, rfl, h₁⟩ := expect_bind h
  obtain ⟨test', ts₂, htest, h₂⟩ := require_bind h₁
  obtain ⟨v', p', ts₃, rfl, h₃⟩ := expect_bind h₂
  obtain ⟨rfl, rfl⟩ := Prod.mk.inj (Except.ok.inj h₃)
  exact ⟨v, p, v', p', ts₁, rfl, expression_sound htest⟩

/-- The names between the parentheses of a function, as many as there are. -/
theorem parameters_sound (ts : List Token) :
    Derives (.parameters (parameters ts).1) ts (parameters ts).2 := by
  -- Parameters take no bound: every one of them uses up a token.
  fun_induction parameters ts with
  | case1 name _ _ _ rest names ts' hrest ih =>
    rw [hrest] at ih
    exact .parametersCons ih
  | case2 name _ rest _ => exact .parametersLast
  | case3 ts _ _ => exact .parametersNil

/-- The word for a comment and its text. -/
theorem comment_sound : Sound .statement comment := by
  intro ts n rest h
  unfold comment at h
  split at h
  · split at h
    · obtain ⟨rfl, rfl⟩ := found_inj h
      exact .comment
    · exact absurd h not_complain
  · exact absurd h none_ne_found

/-- The word for returning, with or without a value. -/
theorem returnStatement_sound : Sound .statement returnStatement := by
  intro ts n rest h
  unfold returnStatement at h
  split at h
  · obtain ⟨found, hvalue, h₁⟩ := bind_eq_ok.mp h
    split at h₁
    · obtain ⟨rfl, rfl⟩ := found_inj h₁
      exact .retWith (expression_sound hvalue)
    · obtain ⟨rfl, rfl⟩ := found_inj h₁
      exact .ret
  · exact absurd h none_ne_found

/-- The word for printing and the values in parentheses. -/
theorem printStatement_sound : Sound .statement printStatement := by
  intro ts n rest h
  unfold printStatement at h
  split at h
  · obtain ⟨_, _, ts₁, rfl, h₁⟩ := expect_bind h
    obtain ⟨⟨values, ts₂⟩, hvalues, h₂⟩ := bind_eq_ok.mp h₁
    obtain ⟨_, _, ts₃, rfl, h₃⟩ := expect_bind h₂
    obtain ⟨rfl, rfl⟩ := found_inj h₃
    exact .print (list_sound expression_sound hvalues)
  · exact absurd h none_ne_found

/-! ## Statements with blocks

Here `inner` is the production of the statements in the blocks. -/

section Statements

variable {inner : Production} (hinner : Sound .statement inner)

include hinner

/-- The statements of a block, after some that were read before. -/
theorem statements_sound (n : Nat) : ∀ {read ns : List Node} {ts rest : List Token},
    statements inner n read ts = .ok (ns, rest) →
    ∃ more, ns = read.reverse ++ more ∧ Derives (.block more) ts rest := by
  -- By induction on the bound: without any of it left, or without a further statement, the block ends.
  induction n with
  | zero =>
    intro read ns ts rest h
    obtain ⟨rfl, rfl⟩ := Prod.mk.inj (Except.ok.inj h)
    exact ⟨[], (List.append_nil _).symm, .blockNil⟩
  | succ n ih =>
    intro read ns ts rest h
    obtain ⟨found, hfound, h₁⟩ := bind_eq_ok.mp h
    split at h₁
    · obtain ⟨rfl, rfl⟩ := Prod.mk.inj (Except.ok.inj h₁)
      exact ⟨[], (List.append_nil _).symm, .blockNil⟩
    -- A semicolon behind a statement is read along with it.
    · next node _ _ _ =>
      obtain ⟨more, rfl, hmore⟩ := ih h₁
      exact ⟨node :: more, by simp, .blockSemicolon (hinner hfound) hmore⟩
    · next node _ _ =>
      obtain ⟨more, rfl, hmore⟩ := ih h₁
      exact ⟨node :: more, by simp, .blockCons (hinner hfound) hmore⟩

/-- A block has as many statements as can be read. -/
theorem block_sound {ns : List Node} {ts rest : List Token} (h : block inner ts = .ok (ns, rest)) :
    Derives (.block ns) ts rest := by
  obtain ⟨more, rfl, hmore⟩ := statements_sound hinner _ h
  exact hmore

/-- A block in braces, which must not be empty. -/
theorem body_sound {construct : Text} {ns : List Node} {ts rest : List Token}
    (h : body inner construct ts = .ok (ns, rest)) : Derives (.body ns) ts rest := by
  obtain ⟨_, _, ts₁, rfl, h₁⟩ := expect_bind h
  obtain ⟨⟨nodes, ts₂⟩, hnodes, h₂⟩ := bind_eq_ok.mp h₁
  obtain ⟨_, _, ts₃, rfl, h₃⟩ := expect_bind h₂
  split at h₃
  · exact absurd h₃ not_complain
  · next hne =>
    obtain ⟨rfl, rfl⟩ := Prod.mk.inj (Except.ok.inj h₃)
    exact .body (by simpa using hne) (block_sound hinner hnodes)

/-- A condition and a block, maybe with another branch. -/
theorem ifStatement_sound : Sound .statement (ifStatement inner) := by
  intro ts n rest h
  unfold ifStatement at h
  split at h
  · obtain ⟨⟨test, ts₁⟩, htest, h₁⟩ := bind_eq_ok.mp h
    obtain ⟨_, _, _, _, ts₂, rfl, hcondition⟩ := parenCondition_eq_ok htest
    obtain ⟨⟨nodes, ts₃⟩, hnodes, h₂⟩ := bind_eq_ok.mp h₁
    have hbody := body_sound hinner hnodes
    dsimp only at h₂
    split at h₂
    · split at h₂
      -- Behind the word for the other branch.
      · next hnext =>
        obtain ⟨_, _, ts₄, rfl⟩ := nextIs_eq_true hnext
        -- The other branch may be a single statement, if that is a condition again.
        obtain ⟨found, hnested, h₃⟩ := bind_eq_ok.mp h₂
        split at h₃
        · obtain ⟨rfl, rfl⟩ := found_inj h₃
          exact .elseIf hcondition hbody (hinner hnested)
        · exact absurd h₃ none_ne_found
      · obtain ⟨⟨otherwise, ts₄⟩, hotherwise, h₃⟩ := bind_eq_ok.mp h₂
        obtain ⟨rfl, rfl⟩ := found_inj h₃
        exact .ifElse hcondition hbody (body_sound hinner hotherwise)
    · obtain ⟨rfl, rfl⟩ := found_inj h₂
      exact .ifThen hcondition hbody
  · exact absurd h none_ne_found

/-- The head of a counting loop with its three parts, and its block. -/
theorem forStatement_sound : Sound .statement (forStatement inner) := by
  intro ts n rest h
  unfold forStatement at h
  split at h
  · obtain ⟨_, _, ts₁, rfl, h₁⟩ := expect_bind h
    obtain ⟨start, ts₂, hstart, h₂⟩ := require_bind h₁
    obtain ⟨_, _, ts₃, rfl, h₃⟩ := expect_bind h₂
    obtain ⟨test, ts₄, htest, h₄⟩ := require_bind h₃
    dsimp only at h₄
    split at h₄
    -- Only a comparison is taken as the condition of a counting loop.
    · obtain ⟨_, _, ts₅, rfl, h₅⟩ := expect_bind h₄
      obtain ⟨update, ts₆, hupdate, h₆⟩ := require_bind h₅
      obtain ⟨_, _, ts₇, rfl, h₇⟩ := expect_bind h₆
      obtain ⟨⟨nodes, ts₈⟩, hnodes, h₈⟩ := bind_eq_ok.mp h₇
      obtain ⟨rfl, rfl⟩ := found_inj h₈
      exact .forLoop (start_sound hstart) (expression_sound htest) (update_sound hupdate)
        (body_sound hinner hnodes)
    · exact absurd h₄ not_complain
  · exact absurd h none_ne_found

/-- A condition and the block that is repeated under it. -/
theorem whileStatement_sound : Sound .statement (whileStatement inner) := by
  intro ts n rest h
  unfold whileStatement at h
  split at h
  · obtain ⟨⟨test, ts₁⟩, htest, h₁⟩ := bind_eq_ok.mp h
    obtain ⟨_, _, _, _, ts₂, rfl, hcondition⟩ := parenCondition_eq_ok htest
    obtain ⟨⟨nodes, ts₃⟩, hnodes, h₂⟩ := bind_eq_ok.mp h₁
    obtain ⟨rfl, rfl⟩ := found_inj h₂
    exact .whileLoop hcondition (body_sound hinner hnodes)
  · exact absurd h none_ne_found

/-- A collection, the name of its items and a block. -/
theorem forEachStatement_sound : Sound .statement (forEachStatement inner) := by
  intro ts n rest h
  unfold forEachStatement at h
  split at h
  · obtain ⟨_, _, ts₁, rfl, h₁⟩ := expect_bind h
    obtain ⟨collection, ts₂, hcollection, h₂⟩ := require_bind h₁
    obtain ⟨_, _, ts₃, rfl, h₃⟩ := expect_bind h₂
    split at h₃
    · obtain ⟨_, _, ts₄, rfl, h₄⟩ := expect_bind h₃
      obtain ⟨⟨nodes, ts₅⟩, hnodes, h₅⟩ := bind_eq_ok.mp h₄
      obtain ⟨rfl, rfl⟩ := found_inj h₅
      exact .forEach (operand_sound hcollection) (body_sound hinner hnodes)
    · exact absurd h₃ not_complain
  · exact absurd h none_ne_found

/-- A function with its name, its parameters and its block. -/
theorem functionDefinition_sound : Sound .statement (functionDefinition inner) := by
  intro ts n rest h
  unfold functionDefinition at h
  split at h
  · split at h
    · obtain ⟨_, _, ts₁, rfl, h₁⟩ := expect_bind h
      -- The parameters cannot fail; what is missing is missed by the parenthesis behind them.
      have hparams := parameters_sound ts₁
      obtain ⟨_, _, ts₂, hts₂, h₂⟩ := expect_bind h₁
      obtain ⟨⟨nodes, ts₃⟩, hnodes, h₃⟩ := bind_eq_ok.mp h₂
      obtain ⟨rfl, rfl⟩ := found_inj h₃
      rw [hts₂] at hparams
      exact .function hparams (body_sound hinner hnodes)
    · exact absurd h not_complain
  · exact absurd h none_ne_found

/-- The statements, in the order in which they are tried. -/
theorem statementWith_sound : Sound .statement (statementWith inner) := by
  apply firstOf_sound
  intro p hp
  simp only [List.mem_cons, List.not_mem_nil, or_false] at hp
  obtain rfl | rfl | rfl | rfl | rfl | rfl | rfl | rfl | rfl | rfl | rfl | rfl := hp
  · exact ifStatement_sound hinner
  · exact forStatement_sound hinner
  · exact whileStatement_sound hinner
  · exact forEachStatement_sound hinner
  · exact functionDefinition_sound hinner
  · exact indexAssignment_sound
  -- Declarations and assignments may also start a counting loop.
  · intro ts n rest h
    exact .ofStart (declaration_sound h)
  · intro ts n rest h
    exact .ofStart (assignment_sound h)
  · exact returnStatement_sound
  · exact comment_sound
  · exact printStatement_sound
  · intro ts n rest h
    exact .ofExpression (expression_sound h)

end Statements

/-! ## Statements and programs

The production of statements is the one above, applied to itself at a smaller bound. -/

/-- By induction on the bound, as far as blocks may stand inside of each other. -/
theorem statementAt_sound (n : Nat) : Sound .statement (statementAt n) := by
  induction n with
  | zero =>
    intro ts n rest h
    exact absurd h none_ne_found
  | succ n ih =>
    intro ts node rest h
    exact statementWith_sound ih h

/-- A program is read off its tokens, and all of them are used. -/
theorem derives_of_ofTokens {ts : List Token} {program : Program}
    (h : Program.ofTokens ts = .ok program) : Derives (.block program) ts [] := by
  obtain ⟨⟨nodes, rest⟩, hblock, h₁⟩ := bind_eq_ok.mp h
  dsimp only at h₁
  split at h₁
  · obtain rfl := Except.ok.inj h₁
    exact block_sound (statementAt_sound _) hblock
  · exact absurd h₁ not_complain

end Grammar

end Mundart
