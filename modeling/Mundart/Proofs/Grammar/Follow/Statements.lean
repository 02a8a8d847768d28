import Mundart.Proofs.Grammar.Follow.Expressions

/-!
# Statements are read alike

As for expressions. The statements of a block are the exception: a semicolon behind a statement belongs to
the block, so in front of a tail a block would go on. They are read alike if something else follows them, as
in a block in braces, or if there is no tail.

* **`statements_agrees`** — the statements of a block, also behind others;
* **`body_agrees`** — a block in braces;
* **`statementWith_agrees`** — every statement, if those inside are read alike;
* **`statementAt_agrees`** — statements are read alike, also if the second reading may nest more deeply.
-/

namespace Mundart

namespace Grammar

variable {tail : List Token}

/-! ## Statements without blocks

Their expressions are read alike at every bound, so nothing is asked of an inner production. -/

/-- The check of an operator gives the same on both sides. -/
theorem checkAssign_alike {α β : Type} {R : α → β → Prop} {ts ts' : List Token} {op : Text}
    {next : Unit → Except SyntaxError α} {next' : Unit → Except SyntaxError β}
    (hnext : Alike R (next ()) (next' ())) :
    Alike R (checkAssign ts op >>= next) (checkAssign ts' op >>= next') := by
  unfold checkAssign
  split
  · exact hnext
  · exact .complain

section Statements

variable {bound : Nat} {inner inner' : Production} (htail : Ends tail)
  (hinner : Agrees tail bound inner inner') (hnil : inner [] = .ok none)

include htail

/-- The word for a declaration, a name and its value. -/
theorem declaration_agrees : Agrees tail (bound + 1) declaration declaration := by
  refine agrees_of_next htail rfl rfl (fun _ _ _ => rfl) fun kind _ _ _ ts ts' h _ => ?_
  -- Behind the word for a declaration a name and the sign have to follow, or there is a complaint on both
  -- sides.
  cases kind with
  | letWord =>
    cases h with
    | done => exact .complain
    | next kind name _ _ h =>
      cases kind with
      | identifier =>
        cases h with
        | done => exact .complain
        | next kind op _ _ h =>
          cases kind with
          | assign =>
            refine checkAssign_alike ?_
            refine require_alike (expression_agrees htail h (Nat.lt_succ_self _)) fun init _ _ h₁ hlt₁ => ?_
            exact .ok (.some _ h₁ (Nat.lt_add_right 3 hlt₁))
          | _ => exact .complain
      | _ => exact .complain
  | _ => exact .ok .none

/-- A name and the value that it is given. -/
theorem assignment_agrees : Agrees tail (bound + 1) assignment assignment := by
  refine agrees_of_next htail rfl rfl (fun _ _ _ => rfl) fun kind name _ _ ts ts' h _ => ?_
  cases kind with
  | identifier =>
    cases h with
    | done => rcases htail with rfl | ⟨value, position, more, rfl⟩ <;> exact .ok .none
    | next kind op _ _ h =>
      -- Without the sign it is no assignment, and another statement may be read off the name.
      cases kind with
      | assign =>
        refine checkAssign_alike ?_
        refine require_alike (expression_agrees htail h (Nat.lt_succ_self _)) fun value _ _ h₁ hlt₁ => ?_
        exact .ok (.some _ h₁ (Nat.lt_add_right 2 hlt₁))
      | _ => exact .ok .none
  | _ => exact .ok .none

/-- A name, a position in brackets and a value. -/
theorem indexAssignment_agrees : Agrees tail (bound + 1) indexAssignment indexAssignment := by
  refine agrees_of_next htail rfl rfl (fun _ _ _ => rfl) fun kind name _ _ ts ts' h _ => ?_
  cases kind with
  | identifier =>
    cases h with
    | done => rcases htail with rfl | ⟨value, position, more, rfl⟩ <;> exact .ok .none
    | next kind _ _ _ h =>
      cases kind with
      | leftBracket =>
        refine .bind (expression_agrees htail h (Nat.lt_succ_self _)) fun a b hab => ?_
        -- Up to the sign for an assignment nothing is certain: every other token ends the attempt without a
        -- complaint.
        cases hab with
        | none => exact .ok .none
        | some position h₁ hlt₁ =>
          cases h₁ with
          -- The first tokens have ended, and the tail starts with no bracket.
          | done => rcases htail with rfl | ⟨value, position, more, rfl⟩ <;> exact .ok .none
          | next kind _ _ _ h₁ =>
            rw [List.length_cons] at hlt₁
            cases kind with
            | rightBracket =>
              cases h₁ with
              | done => rcases htail with rfl | ⟨value, position, more, rfl⟩ <;> exact .ok .none
              | next kind op _ _ h₁ =>
                rw [List.length_cons] at hlt₁
                cases kind with
                | assign =>
                  refine checkAssign_alike ?_
                  refine require_alike (expression_agrees htail h₁ (Nat.lt_succ_self _))
                    fun value _ _ h₂ hlt₂ => ?_
                  exact .ok (.some _ h₂ (by rw [List.length_cons]; omega))
                | _ => exact .ok .none
            | _ => exact .ok .none
      | _ => exact .ok .none
  | _ => exact .ok .none

/-- A condition between parentheses. -/
theorem parenCondition_agrees (construct : Text) {ts ts' : List Token} (h : Follows tail ts ts') :
    Alike (Reads tail ts.length) (parenCondition construct ts) (parenCondition construct ts') := by
  refine expect_alike h fun h₁ hlt₁ => ?_
  refine require_alike (expression_agrees htail h₁ (Nat.lt_succ_self _)) fun test _ _ h₂ hlt₂ => ?_
  refine expect_alike h₂ fun h₃ hlt₃ => ?_
  exact .ok (.mk test h₃ (by omega))

/-! ## Blocks

A block is read statement by statement, so that the induction is on the bound that its loop has. The reader
of the statements inside is any that agrees. -/

omit htail in
include hnil in
/-- Where there are no tokens there are no further statements. -/
theorem statements_nil (n : Nat) (read : List Node) :
    statements inner n read [] = .ok (read.reverse, []) := by
  cases n with
  | zero => rfl
  | succ n =>
    rw [statements, hnil]
    rfl

omit htail in
include hinner hnil in
/-- Statements that end before the tokens do, or that nothing follows, are read alike, also behind
others. -/
theorem statements_agrees (k : Nat) (base : List Node) (n : Nat) : ∀ (read : List Node)
    {ts ts' : List Token}, Follows tail ts ts' → ts.length < n → ts.length < bound →
    ∀ {nodes : List Node} {rest : List Token}, statements inner n read ts = .ok (nodes, rest) →
    (rest = [] → tail = []) →
    ∃ rest', statements inner' (k + n) (read ++ base) ts' = .ok (base.reverse ++ nodes, rest') ∧
      Follows tail rest rest' ∧ rest.length ≤ ts.length := by
  -- By induction on the first bound; `base` is what the second reading has read before.
  induction n with
  | zero => exact fun _ _ _ _ hlt => absurd hlt (Nat.not_lt_zero _)
  | succ n ih =>
    intro read ts ts' h hn hlt nodes rest hrun hend
    obtain ⟨found, hfound, hrest⟩ := bind_eq_ok.mp hrun
    obtain ⟨found', hfound', hsame⟩ := hinner h hlt _ hfound
    rw [← Nat.add_assoc, statements, hfound']
    cases hsame with
    | none =>
      obtain ⟨rfl, rfl⟩ := Prod.mk.inj (Except.ok.inj hrest)
      refine ⟨ts', ?_, h, Nat.le_refl _⟩
      rw [← List.reverse_append]
      rfl
    | some node hleft hless =>
      cases hleft with
      | done =>
        -- Nothing is left, so that there must be no tail either.
        have hempty := hrest.symm.trans (statements_nil hnil n (node :: read))
        obtain ⟨-, rfl⟩ := Prod.mk.inj (Except.ok.inj hempty)
        obtain rfl := hend rfl
        obtain ⟨rest', hrun', hfollows, -⟩ := ih (node :: read) .done (by omega) (by omega) hrest hend
        exact ⟨rest', hrun', hfollows, Nat.zero_le _⟩
      | next kind value position position' hleft =>
        have hstay := Follows.next kind value position position' hleft
        have hshort := hless
        rw [List.length_cons] at hshort
        cases kind with
        -- A semicolon behind the statement is read along with it.
        | semicolon =>
          obtain ⟨rest', hrun', hfollows, hle⟩ :=
            ih (node :: read) hleft (by omega) (by omega) hrest hend
          exact ⟨rest', hrun', hfollows, by omega⟩
        | _ =>
          obtain ⟨rest', hrun', hfollows, hle⟩ :=
            ih (node :: read) hstay (by omega) (by omega) hrest hend
          exact ⟨rest', hrun', hfollows, by omega⟩

omit htail in
include hinner hnil in
/-- A block in braces: the closing brace is read, so there is something behind the statements. -/
theorem body_agrees (construct : Text) {ts ts' : List Token} (h : Follows tail ts ts')
    (hlt : ts.length ≤ bound) :
    Alike (Reads tail ts.length) (body inner construct ts) (body inner' construct ts') := by
  refine expect_alike h fun {rest rest'} h₁ hlt₁ => ?_
  rintro ⟨ns, left⟩ hrun
  obtain ⟨⟨nodes, rest₁⟩, hnodes, hrun⟩ := bind_eq_ok.mp hrun
  obtain ⟨value, position, rest₂, rfl, hrun⟩ := expect_bind hrun
  -- The block ends before its closing brace, which is among the first tokens.
  obtain ⟨rest₁', hnodes', h₂, hle⟩ := statements_agrees hinner hnil tail.length [] (rest.length + 1) []
    h₁ (Nat.lt_succ_self _) (by omega) hnodes fun hnone => nomatch hnone
  have hblock : block inner' rest' = .ok (nodes, rest₁') := by
    rw [block, h₁.length]
    exact hnodes'
  rw [hblock]
  cases h₂ with
  | @next _ _ _ position' _ rest₂' h₂ =>
    rw [List.length_cons] at hle
    split at hrun
    · exact absurd hrun not_complain
    · next hne =>
      obtain ⟨rfl, rfl⟩ := Prod.mk.inj (Except.ok.inj hrun)
      refine ⟨(nodes, rest₂'), ?_, .mk nodes h₂ (by omega)⟩
      exact bind_eq_ok.mpr ⟨_, rfl, bind_eq_ok.mpr ⟨_, expect_cons, if_neg hne⟩⟩

include hinner hnil

/-! ## Statements with blocks

The blocks are read alike, since each of them stands in braces. -/

/-- A condition and a block, maybe with another branch. -/
theorem ifStatement_agrees : Agrees tail (bound + 1) (ifStatement inner) (ifStatement inner') := by
  refine agrees_of_next htail rfl rfl (fun _ _ _ => rfl) fun kind _ _ _ ts ts' h hlt => ?_
  cases kind with
  | ifWord =>
    refine .bind (parenCondition_agrees htail "wenn" h) ?_
    rintro _ _ ⟨test, h₁, hlt₁⟩
    refine .bind (body_agrees hinner hnil "wenn" h₁ (by omega)) ?_
    rintro _ _ ⟨nodes, h₂, hlt₂⟩
    cases h₂ with
    | done =>
      rcases htail with rfl | ⟨value, position, more, rfl⟩ <;> exact .ok (.some _ .done (Nat.zero_lt_succ _))
    | next kind value position position' h₂ =>
      have hend := Follows.next kind value position position' h₂
      rw [List.length_cons] at hlt₂
      cases kind with
      | elseWord =>
        dsimp only
        rw [nextIs_follows htail (by decide) h₂]
        -- The other branch is a condition again or a block.
        split
        · refine .bind (hinner h₂ (by omega)) fun a b hab => ?_
          cases hab with
          | none => exact .ok .none
          | some nested h₃ hlt₃ => exact .ok (.some _ h₃ (by omega))
        · refine .bind (body_agrees hinner hnil "sonst" h₂ (by omega)) ?_
          rintro _ _ ⟨otherwise, h₃, hlt₃⟩
          exact .ok (.some _ h₃ (Nat.lt_trans hlt₃ (by omega)))
      | _ => exact .ok (.some _ hend (by rw [List.length_cons]; omega))
  | _ => exact .ok .none

omit hinner hnil in
/-- What stands first in the head of a counting loop. -/
theorem start_agrees : Agrees tail (bound + 1) (firstOf [declaration, assignment])
    (firstOf [declaration, assignment]) :=
  firstOf_agrees (.cons (declaration_agrees htail) (.cons (assignment_agrees htail) .nil))

omit hinner hnil in
/-- What stands last in the head of a counting loop. -/
theorem update_agrees : Agrees tail (bound + 1) (firstOf [assignment, expression])
    (firstOf [assignment, expression]) :=
  firstOf_agrees (.cons (assignment_agrees htail) (.cons (expression_agrees htail) .nil))

/-- The head of a counting loop and its block. -/
theorem forStatement_agrees : Agrees tail (bound + 1) (forStatement inner) (forStatement inner') := by
  refine agrees_of_next htail rfl rfl (fun _ _ _ => rfl) fun kind _ _ _ ts ts' h hlt => ?_
  cases kind with
  | forWord =>
    refine expect_alike h fun h₁ hlt₁ => ?_
    refine require_alike (start_agrees htail h₁ (Nat.lt_succ_self _)) fun start _ _ h₂ hlt₂ => ?_
    refine expect_alike h₂ fun h₃ hlt₃ => ?_
    refine require_alike (expression_agrees htail h₃ (Nat.lt_succ_self _)) fun test _ _ h₄ hlt₄ => ?_
    -- A test that is no comparison is complained about.
    cases test with
    | comparison left op right =>
      refine expect_alike h₄ fun h₅ hlt₅ => ?_
      refine require_alike (update_agrees htail h₅ (Nat.lt_succ_self _)) fun update _ _ h₆ hlt₆ => ?_
      refine expect_alike h₆ fun h₇ hlt₇ => ?_
      -- Each part has left fewer tokens, which the bounds below add up.
      refine .bind (body_agrees hinner hnil "aufi" h₇ (by omega)) ?_
      rintro _ _ ⟨nodes, h₈, hlt₈⟩
      exact .ok (.some _ h₈ (by omega))
    | _ => exact .complain
  | _ => exact .ok .none

/-- A condition and the block under it. -/
theorem whileStatement_agrees :
    Agrees tail (bound + 1) (whileStatement inner) (whileStatement inner') := by
  refine agrees_of_next htail rfl rfl (fun _ _ _ => rfl) fun kind _ _ _ ts ts' h hlt => ?_
  cases kind with
  | whileWord =>
    refine .bind (parenCondition_agrees htail "geh weida" h) ?_
    rintro _ _ ⟨test, h₁, hlt₁⟩
    refine .bind (body_agrees hinner hnil "geh weida" h₁ (by omega)) ?_
    rintro _ _ ⟨nodes, h₂, hlt₂⟩
    exact .ok (.some _ h₂ (by omega))
  | _ => exact .ok .none

/-- A collection, the name of its items and a block. -/
theorem forEachStatement_agrees :
    Agrees tail (bound + 1) (forEachStatement inner) (forEachStatement inner') := by
  refine agrees_of_next htail rfl rfl (fun _ _ _ => rfl) fun kind _ _ _ ts ts' h hlt => ?_
  cases kind with
  | forEach =>
    refine expect_alike h fun h₁ hlt₁ => ?_
    refine require_alike (operand_agrees htail h₁ (Nat.lt_succ_self _)) fun collection _ _ h₂ hlt₂ => ?_
    refine expect_alike h₂ fun h₃ hlt₃ => ?_
    cases h₃ with
    | done => exact .complain
    | next kind item _ _ h₃ =>
      rw [List.length_cons] at hlt₃
      cases kind with
      | identifier =>
        refine expect_alike h₃ fun h₄ hlt₄ => ?_
        refine .bind (body_agrees hinner hnil "fiaOis" h₄ (by omega)) ?_
        rintro _ _ ⟨nodes, h₅, hlt₅⟩
        exact .ok (.some _ h₅ (by omega))
      | _ => exact .complain
  | _ => exact .ok .none

omit hinner hnil in
/-- The names between the parentheses of a function; reading them cannot fail. -/
theorem parameters_reads {ts ts' : List Token} (h : Follows tail ts ts') :
    Reads tail (ts.length + 1) (parameters ts) (parameters ts') := by
  cases h with
  | done =>
    rcases htail with rfl | ⟨value, position, more, rfl⟩ <;> exact .mk [] .done (Nat.lt_succ_self _)
  | next kind name position position' h =>
    have hstay := Follows.next kind name position position' h
    cases kind with
    | identifier =>
      cases h with
      | done =>
        rcases htail with rfl | ⟨value, position, more, rfl⟩ <;> exact .mk [name] .done (by simp)
      | next kind value position position' h =>
        have hleft := Follows.next kind value position position' h
        cases kind with
        | separator =>
          have hmore := parameters_reads h
          unfold parameters
          revert hmore
          -- Only what the induction says of the remaining names is used.
          generalize parameters _ = found, parameters _ = found'
          rintro ⟨names, h₁, hlt₁⟩
          exact .mk (name :: names) h₁ (Nat.lt_add_right 2 hlt₁)
        | _ => exact .mk [name] hleft (Nat.lt_add_right 1 (Nat.lt_succ_self _))
    | _ => exact .mk [] hstay (Nat.lt_succ_self _)

/-- A function with its name, its parameters and its block. -/
theorem functionDefinition_agrees :
    Agrees tail (bound + 1) (functionDefinition inner) (functionDefinition inner') := by
  refine agrees_of_next htail rfl rfl (fun _ _ _ => rfl) fun kind _ _ _ ts ts' h hlt => ?_
  cases kind with
  | function =>
    cases h with
    | done => exact .complain
    | next kind name _ _ h =>
      rw [List.length_cons] at hlt
      cases kind with
      | identifier =>
        refine expect_alike h fun {rest rest'} h₁ hlt₁ => ?_
        -- Parameters are read without a complaint, whatever follows them.
        have hparams := parameters_reads htail h₁
        revert hparams
        generalize parameters rest = params, parameters rest' = params'
        rintro ⟨names, h₂, hlt₂⟩
        refine expect_alike h₂ fun h₃ hlt₃ => ?_
        refine .bind (body_agrees hinner hnil _ h₃ (by omega)) ?_
        rintro _ _ ⟨nodes, h₄, hlt₄⟩
        exact .ok (.some _ h₄ (by rw [List.length_cons]; omega))
      | _ => exact .complain
  | _ => exact .ok .none

omit hinner hnil

/-- The word for returning, with or without a value. -/
theorem returnStatement_agrees : Agrees tail (bound + 1) returnStatement returnStatement := by
  refine agrees_of_next htail rfl rfl (fun _ _ _ => rfl) fun kind _ _ _ ts ts' h _ => ?_
  cases kind with
  | returnWord =>
    refine .bind (expression_agrees htail h (Nat.lt_succ_self _)) fun a b hab => ?_
    cases hab with
    | none => exact .ok (.some _ h (Nat.lt_succ_self _))
    | some value h₁ hlt₁ => exact .ok (.some _ h₁ (Nat.lt_succ_of_lt hlt₁))
  | _ => exact .ok .none

/-- The word for a comment and its text. -/
theorem comment_agrees : Agrees tail (bound + 1) comment comment := by
  refine agrees_of_next htail rfl rfl (fun _ _ _ => rfl) fun kind _ _ _ ts ts' h _ => ?_
  cases kind with
  | comment =>
    cases h with
    | done => exact .complain
    | next kind text _ _ h =>
      cases kind with
      | string => exact .ok (.some _ h (Nat.lt_add_right 1 (Nat.lt_succ_self _)))
      | _ => exact .complain
  | _ => exact .ok .none

/-- The word for printing and its values. -/
theorem printStatement_agrees : Agrees tail (bound + 1) printStatement printStatement := by
  refine agrees_of_next htail rfl rfl (fun _ _ _ => rfl) fun kind _ _ _ ts ts' h _ => ?_
  cases kind with
  | print =>
    refine expect_alike h fun h₁ hlt₁ => ?_
    refine .bind (list_agrees htail (expression_agrees htail) (by decide) h₁ (Nat.lt_succ_self _)) ?_
    rintro _ _ ⟨values, h₂, hlt₂⟩
    refine expect_alike h₂ fun h₃ hlt₃ => ?_
    exact .ok (.some _ h₃ (by omega))
  | _ => exact .ok .none

include hinner hnil in
/-- The statements, in the order in which they are tried. -/
theorem statementWith_agrees : Agrees tail (bound + 1) (statementWith inner) (statementWith inner') :=
  firstOf_agrees <|
    .cons (ifStatement_agrees htail hinner hnil) <|
    .cons (forStatement_agrees htail hinner hnil) <|
    .cons (whileStatement_agrees htail hinner hnil) <|
    .cons (forEachStatement_agrees htail hinner hnil) <|
    .cons (functionDefinition_agrees htail hinner hnil) <|
    -- a name may start this one, an assignment and an expression, which are tried in this order
    .cons (indexAssignment_agrees htail) <|
    .cons (declaration_agrees htail) <|
    .cons (assignment_agrees htail) <|
    .cons (returnStatement_agrees htail) <|
    .cons (comment_agrees htail) <|
    .cons (printStatement_agrees htail) <|
    .cons (expression_agrees htail) .nil

end Statements

/-! ## At every bound

The readers of nested blocks are those of the next lower bound. The induction ties the knot in the same way
as the readers themselves do. -/

/-- Where there are no tokens there is no statement. -/
theorem statementAt_nil (n : Nat) : statementAt n [] = .ok none := by
  cases n with
  | zero => rfl
  | succ n => rfl

/-- Statements are read alike, also if more nesting is allowed. -/
theorem statementAt_agrees (htail : Ends tail) (k n : Nat) :
    Agrees tail n (statementAt n) (statementAt (k + n)) := by
  induction n with
  | zero => exact fun _ hlt => absurd hlt (Nat.not_lt_zero _)
  | succ n ih => exact fun h hlt => statementWith_agrees htail ih (statementAt_nil n) h hlt

end Grammar

/-! ## Programs

A program is a block that nothing is left of, so that what holds of the loop over statements holds of programs. -/

namespace Program

open Mundart.Grammar

/-- A program is made of its statements if all tokens are used. -/
theorem ofTokens_eq_ok {ts : List Token} {program : Program} : ofTokens ts = .ok program ↔
    statements (statementAt (ts.length + 1)) (ts.length + 1) [] ts = .ok (program, []) := by
  unfold ofTokens block
  constructor
  · intro h
    obtain ⟨⟨nodes, rest⟩, hrun, hrest⟩ := bind_eq_ok.mp h
    cases rest with
    | nil =>
      obtain rfl := Except.ok.inj hrest
      exact hrun
    | cons t rest => exact absurd hrest not_complain
  · intro h
    rw [h]
    rfl

end Program

end Mundart
