import Mundart.Proofs.Grammar.Follow

/-!
# Expressions are read alike

Every production of expressions reads alike if the one for the expressions inside does. The second reading
has more tokens and so a larger bound, by the length of the tail; the bounds of the first one are large
enough as they are. What the second one finds in the tail does not matter: where the first one is at its
end, no production goes on with a semicolon.

* **`items_agrees`**, **`chainFrom_agrees`** — the repetitions, each by induction on its bound;
* **`primary_agrees`**, **`operandWith_agrees`**, **`comparisonWith_agrees`**, **`expressionWith_agrees`** —
  one level of expressions each;
* **`expressionAt_agrees`** — expressions are read alike, also if the second reading may nest more deeply.
-/

namespace Mundart

namespace Grammar

variable {tail : List Token}

section Expressions

variable {bound : Nat} {expr expr' : Production} (htail : Ends tail)
  (hexpr : Agrees tail bound expr expr')

include htail hexpr

/-- The expressions of a list, after some that were read before. -/
theorem items_agrees (k n : Nat) : ∀ (read : List Node) {ts ts' : List Token}, Follows tail ts ts' →
    ts.length < n → ts.length < bound →
    Alike (Reads tail (ts.length + 1)) (items expr n read ts) (items expr' (k + n) read ts') := by
  -- By induction on the first bound, which the first tokens cannot use up.
  induction n with
  | zero => exact fun _ _ _ _ hlt => absurd hlt (Nat.not_lt_zero _)
  | succ n ih =>
    intro read ts ts' h hn hlt
    refine .bind (hexpr h hlt) fun a b hab => ?_
    cases hab with
    | none => exact .ok (.mk _ h (Nat.lt_succ_self _))
    | some item hrest hless =>
      cases hrest with
      | done =>
        rcases htail with rfl | ⟨value, position, more, rfl⟩ <;> exact .ok (.mk _ .done (Nat.zero_lt_succ _))
      | next kind value position position' hmore =>
        have hend := Follows.next kind value position position' hmore
        rw [List.length_cons] at hless
        -- A comma belongs to the list, and anything else ends it.
        cases kind with
        | separator =>
          refine (ih (item :: read) hmore (by omega) (by omega)).mono ?_
          rintro _ _ ⟨nodes, hleft, hshort⟩
          exact .mk nodes hleft (by omega)
        | _ => exact .ok (.mk _ hend (by rw [List.length_cons]; omega))

/-- The expressions of a list up to its closing bracket. -/
theorem list_agrees {closing : Token.Kind} (hclosing : closing ≠ .semicolon) {ts ts' : List Token}
    (h : Follows tail ts ts') (hlt : ts.length < bound) :
    Alike (Reads tail (ts.length + 1)) (list expr closing ts) (list expr' closing ts') := by
  unfold list
  rw [nextIs_follows htail hclosing h, h.length]
  split
  · exact .ok (.mk [] h (Nat.lt_succ_self _))
  · exact items_agrees htail hexpr tail.length (ts.length + 1) [] h (Nat.lt_succ_self _) hlt

/-- Behind the first list: the end of the array, or a colon and the values of an association. -/
theorem arrayLiteral_agrees : Agrees tail (bound + 1) (arrayLiteral expr) (arrayLiteral expr') := by
  refine agrees_of_next htail rfl rfl (fun _ _ _ => rfl) fun kind _ _ _ ts ts' h hlt => ?_
  cases kind with
  | leftBracket =>
    refine .bind (list_agrees htail hexpr (by decide) h hlt) ?_
    rintro _ _ ⟨keys, hrest, hless⟩
    cases hrest with
    | done =>
      rcases htail with rfl | ⟨value, position, more, rfl⟩ <;> exact .ok .none
    | next kind _ _ _ hrest =>
      rw [List.length_cons] at hless
      cases kind with
      | rightBracket =>
        cases hrest with
        | done =>
          rcases htail with rfl | ⟨value, position, more, rfl⟩ <;> exact .ok (.some _ .done (Nat.zero_lt_succ _))
        | next kind value position position' hrest =>
          have hend := Follows.next kind value position position' hrest
          rw [List.length_cons] at hless
          cases kind with
          | colon =>
            cases hrest with
            | done => exact .complain
            | next kind _ _ _ hrest =>
              rw [List.length_cons] at hless
              -- A colon stands for an association, so there must be a second list.
              cases kind with
              | leftBracket =>
                refine .bind (list_agrees htail hexpr (by decide) hrest (by omega)) ?_
                rintro _ _ ⟨values, hclose, hshort⟩
                refine expect_alike hclose fun hleft hfewer => ?_
                exact .ok (.some _ hleft (by omega))
              | _ => exact .complain
          | _ => exact .ok (.some _ hend (by rw [List.length_cons]; omega))
      | _ => exact .ok .none
  | _ => exact .ok .none

omit hexpr in
/-- A name alone. -/
theorem identifier_agrees : Agrees tail (bound + 1) identifier identifier := by
  refine agrees_of_next htail rfl rfl (fun _ _ _ => rfl) fun kind _ _ _ ts ts' h _ => ?_
  cases kind with
  | identifier => exact .ok (.some _ h (Nat.lt_succ_self _))
  | _ => exact .ok .none

/-- Further indexes after the node that was read. -/
theorem indexChain_agrees (k n : Nat) : ∀ (node : Node) {ts ts' : List Token}, Follows tail ts ts' →
    ts.length < n → ts.length < bound + 1 →
    Alike (Reads tail (ts.length + 1)) (indexChain expr n node ts)
      (indexChain expr' (k + n) node ts') := by
  induction n with
  | zero => exact fun _ _ _ _ hlt => absurd hlt (Nat.not_lt_zero _)
  | succ n ih =>
    intro node ts ts' h hn hlt
    cases h with
    | done =>
      rcases htail with rfl | ⟨value, position, more, rfl⟩ <;> exact .ok (.mk _ .done (Nat.lt_succ_self _))
    | next kind value position position' h =>
      -- Where no further index can be read, the tokens stay as they are.
      have hstay := Follows.next kind value position position' h
      rw [List.length_cons] at hn hlt ⊢
      cases kind with
      | leftBracket =>
        refine .bind (hexpr h (by omega)) fun a b hab => ?_
        cases hab with
        | none => exact .ok (.mk _ hstay (Nat.lt_succ_self _))
        | some index hrest hless =>
          cases hrest with
          | done =>
            rcases htail with rfl | ⟨value, position, more, rfl⟩ <;> exact .ok (.mk _ hstay (Nat.lt_succ_self _))
          | next kind _ _ _ hrest =>
            rw [List.length_cons] at hless
            cases kind with
            | rightBracket =>
              refine (ih (.index node index) hrest (by omega) (by omega)).mono ?_
              rintro _ _ ⟨found, hleft, hshort⟩
              exact .mk found hleft (by omega)
            | _ => exact .ok (.mk _ hstay (Nat.lt_succ_self _))
      | _ => exact .ok (.mk _ hstay (Nat.lt_succ_self _))

/-- A name with indexes. -/
theorem indexAccess_agrees : Agrees tail (bound + 1) (indexAccess expr) (indexAccess expr') := by
  refine agrees_of_next htail rfl rfl (fun _ _ _ => rfl) fun kind name _ _ ts ts' h hlt => ?_
  cases kind with
  | identifier =>
    unfold indexAccess
    dsimp only
    rw [nextIs_follows htail (by decide) h, h.length]
    split
    · exact .ok .none
    · refine .bind (indexChain_agrees htail hexpr tail.length (ts.length + 1)
        (.identifier name) h (Nat.lt_succ_self _) (by omega)) ?_
      rintro _ _ ⟨node, hrest, hless⟩
      -- A name without any index is left to another production.
      cases node with
      | index collection position => exact .ok (.some _ hrest hless)
      | _ => exact .ok .none
  | _ => exact .ok .none

omit htail in
/-- What stands behind the word of a filter. -/
theorem filterTail_agrees (collection : Node) {ts ts' : List Token} (h : Follows tail ts ts')
    (hlt : ts.length < bound) :
    Alike (Found tail ts.length) (filterTail expr collection ts) (filterTail expr' collection ts') := by
  refine expect_alike h fun h₁ hlt₁ => ?_
  -- Behind the parenthesis there has to be the name of an item. From here on all that is missing is
  -- complained about.
  cases h₁ with
  | done => exact .complain
  | next kind item _ _ h₁ =>
    rw [List.length_cons] at hlt₁
    cases kind with
    | identifier =>
      refine expect_alike h₁ fun h₂ hlt₂ => ?_
      refine expect_alike h₂ fun h₃ hlt₃ => ?_
      refine require_alike (hexpr h₃ (by omega)) fun predicate _ _ h₄ hlt₄ => ?_
      refine expect_alike h₄ fun h₅ hlt₅ => ?_
      refine expect_alike h₅ fun h₆ hlt₆ => ?_
      exact .ok (.some _ h₆ (by omega))
    | _ => exact .complain

omit htail in
/-- The one argument of a method, up to the parenthesis behind it. -/
theorem argument_agrees (object : Node) (name : Text) {ts ts' : List Token} (h : Follows tail ts ts')
    (hlt : ts.length < bound) :
    Alike (Found tail ts.length)
      (do
        let (arg, rest) ← require expr (.noArgument name) ts
        let rest ← expect .rightParen name rest
        .ok (some (.propertyWith object name arg, rest)))
      (do
        let (arg, rest) ← require expr' (.noArgument name) ts'
        let rest ← expect .rightParen name rest
        .ok (some (.propertyWith object name arg, rest))) := by
  refine require_alike (hexpr h hlt) fun arg _ _ h₁ hlt₁ => ?_
  refine expect_alike h₁ fun h₂ hlt₂ => ?_
  exact .ok (.some _ h₂ (by omega))

/-- What stands behind the name of a property. -/
theorem propertyTail_agrees (object : Node) (name : Text) {ts ts' : List Token}
    (h : Follows tail ts ts') (hlt : ts.length < bound) :
    Alike (Found tail (ts.length + 1)) (propertyTail expr object name ts)
      (propertyTail expr' object name ts') := by
  cases h with
  | done =>
    rcases htail with rfl | ⟨value, position, more, rfl⟩ <;> exact .ok (.some _ .done (Nat.lt_succ_self _))
  | @next kind value position position' ts ts' h =>
    have hstay := Follows.next kind value position position' h
    rw [List.length_cons] at hlt ⊢
    cases kind with
    | leftParen =>
      -- Parentheses with something in them, as far as both sides know yet.
      have harg := (argument_agrees hexpr object name h (by omega)).mono
        (Found.mono (Nat.le_add_right ts.length 2))
      cases h with
      | done => rcases htail with rfl | ⟨value, position, more, rfl⟩ <;> exact harg
      | next kind _ _ _ h =>
        cases kind with
        | rightParen => exact .ok (.some _ h (by rw [List.length_cons]; omega))
        | _ => exact harg
    | _ => exact .ok (.some _ hstay (Nat.lt_succ_self _))

/-- A dot and a name behind a target. -/
theorem propertyAccess_agrees :
    Agrees tail (bound + 1) (propertyAccess expr) (propertyAccess expr') := by
  -- The target has to be read on both sides before the dot is looked for.
  have htarget : Agrees tail (bound + 1) (firstOf [indexAccess expr, identifier])
      (firstOf [indexAccess expr', identifier]) :=
    firstOf_agrees (.cons (indexAccess_agrees htail hexpr) (.cons (identifier_agrees htail) .nil))
  intro ts ts' h hlt
  refine .bind (htarget h hlt) fun a b hab => ?_
  cases hab with
  | none => exact .ok .none
  | some object h₁ hlt₁ =>
    cases h₁ with
    | done => rcases htail with rfl | ⟨value, position, more, rfl⟩ <;> exact .ok .none
    | next kind _ _ _ h₁ =>
      rw [List.length_cons] at hlt₁
      cases kind with
      -- Behind a dot there is no way back: without a name there is a complaint.
      | dot =>
        cases h₁ with
        | done => exact .complain
        | next kind name _ _ h₁ =>
          rw [List.length_cons] at hlt₁
          cases kind with
          | identifier =>
            dsimp only
            -- the method that filters has its own form, and all others share one
            split
            · exact (filterTail_agrees hexpr object h₁ (by omega)).mono (Found.mono (by omega))
            · exact (propertyTail_agrees htail hexpr object name h₁ (by omega)).mono
                (Found.mono (by omega))
          | _ => exact .complain
      | _ => exact .ok .none

/-- The word for fetching and its address. -/
theorem fetch_agrees : Agrees tail (bound + 1) (fetch expr) (fetch expr') := by
  refine agrees_of_next htail rfl rfl (fun _ _ _ => rfl) fun kind _ _ _ ts ts' h hlt => ?_
  cases kind with
  | fetch =>
    refine expect_alike h fun h₁ hlt₁ => ?_
    refine require_alike (hexpr h₁ (by omega)) fun url _ _ h₂ hlt₂ => ?_
    refine expect_alike h₂ fun h₃ hlt₃ => ?_
    exact .ok (.some _ h₃ (by omega))
  | _ => exact .ok .none

/-- A name with arguments in parentheses. -/
theorem call_agrees : Agrees tail (bound + 1) (call expr) (call expr') := by
  refine agrees_of_next htail rfl rfl (fun _ _ _ => rfl) fun kind name _ _ ts ts' h hlt => ?_
  cases kind with
  | identifier =>
    cases h with
    | done => rcases htail with rfl | ⟨value, position, more, rfl⟩ <;> exact .ok .none
    | next kind _ _ _ h =>
      rw [List.length_cons] at hlt
      cases kind with
      | leftParen =>
        refine .bind (list_agrees htail hexpr (by decide) h (by omega)) ?_
        rintro _ _ ⟨args, h₁, hlt₁⟩
        cases h₁ with
        -- Behind the arguments only a parenthesis makes a call; without it the name stays a name.
        | done => rcases htail with rfl | ⟨value, position, more, rfl⟩ <;> exact .ok .none
        | next kind _ _ _ h₁ =>
          rw [List.length_cons] at hlt₁
          cases kind with
          | rightParen => exact .ok (.some _ h₁ (by rw [List.length_cons]; omega))
          | _ => exact .ok .none
      | _ => exact .ok .none
  | _ => exact .ok .none

omit hexpr in
/-- Numbers, texts and the two truth values. -/
theorem literal_agrees : Agrees tail (bound + 1) literal literal := by
  refine agrees_of_next htail rfl rfl (fun _ _ _ => rfl) fun kind text _ _ ts ts' h _ => ?_
  cases kind with
  | number =>
    unfold literal
    dsimp only
    cases numberValue? text with
    | none => exact .complain
    | some v => exact .ok (.some _ h (Nat.lt_succ_self _))
  | string => exact .ok (.some _ h (Nat.lt_succ_self _))
  | trueWord => exact .ok (.some _ h (Nat.lt_succ_self _))
  | falseWord => exact .ok (.some _ h (Nat.lt_succ_self _))
  | _ => exact .ok .none

/-- The primary expressions, in the order in which they are tried. -/
theorem primary_agrees : Agrees tail (bound + 1) (primary expr) (primary expr') :=
  firstOf_agrees <|
    .cons (arrayLiteral_agrees htail hexpr) <|
    .cons (propertyAccess_agrees htail hexpr) <|
    .cons (indexAccess_agrees htail hexpr) <|
    .cons (fetch_agrees htail hexpr) <|
    .cons (call_agrees htail hexpr) <|
    .cons (literal_agrees htail) <|
    .cons (identifier_agrees htail) .nil

/-- A primary expression, maybe with an operator behind it and an operand behind that. -/
theorem operandAt_agrees (k n : Nat) : ∀ {ts ts' : List Token}, Follows tail ts ts' → ts.length < n →
    ts.length < bound + 1 → Alike (Found tail ts.length) (operandAt (primary expr) n ts)
      (operandAt (primary expr') (k + n) ts') := by
  -- By induction on the first bound, as for lists.
  induction n with
  | zero => exact fun _ hlt => absurd hlt (Nat.not_lt_zero _)
  | succ n ih =>
    intro ts ts' h hn hlt
    refine .bind (primary_agrees htail hexpr h hlt) fun a b hab => ?_
    cases hab with
    | none => exact .ok .none
    | some left h₁ hlt₁ =>
      cases h₁ with
      | done =>
        rcases htail with rfl | ⟨value, position, more, rfl⟩ <;> exact .ok (.some _ .done hlt₁)
      | next kind op position position' h₁ =>
        have hend := Follows.next kind op position position' h₁
        cases kind with
        | arithmetic =>
          rw [List.length_cons] at hlt₁
          dsimp only
          split
          · exact .ok (.some _ h₁ (by omega))
          · refine require_alike (ih h₁ (by omega) (by omega)) fun right _ _ h₂ hlt₂ => ?_
            exact .ok (.some _ h₂ (Nat.lt_trans hlt₂ (by omega)))
        | _ => exact .ok (.some _ hend hlt₁)

/-- The bounds of an operand are the numbers of tokens on the two sides. -/
theorem operandWith_agrees : Agrees tail (bound + 1) (operandWith expr) (operandWith expr') := by
  intro ts ts' h hlt
  unfold operandWith
  rw [h.length]
  exact operandAt_agrees htail hexpr tail.length (ts.length + 1) h (Nat.lt_succ_self _) hlt

/-- One operand, or two with a comparison between them. -/
theorem comparisonWith_agrees :
    Agrees tail (bound + 1) (comparisonWith expr) (comparisonWith expr') := by
  intro ts ts' h hlt
  refine .bind (operandWith_agrees htail hexpr h hlt) fun a b hab => ?_
  cases hab with
  | none => exact .ok .none
  | some left h₁ hlt₁ =>
    cases h₁ with
    -- The tail starts with no comparison, so that the operand stands alone.
    | done =>
      rcases htail with rfl | ⟨value, position, more, rfl⟩ <;> exact .ok (.some _ .done hlt₁)
    | next kind op position position' h₁ =>
      -- Where no comparison follows, the token is left for others.
      have hend := Follows.next kind op position position' h₁
      cases kind with
      | comparison =>
        rw [List.length_cons] at hlt₁
        refine require_alike (operandWith_agrees htail hexpr h₁ (by omega)) fun right _ _ h₂ hlt₂ => ?_
        exact .ok (.some _ h₂ (by omega))
      | _ => exact .ok (.some _ hend hlt₁)

/-- Further operators and comparisons after those that were read. -/
theorem chainFrom_agrees (k n : Nat) : ∀ (operands : List Node) (ops : List Text)
    {ts ts' : List Token}, Follows tail ts ts' → ts.length < n → ts.length < bound + 1 →
    Alike (Reads tail (ts.length + 1)) (chainFrom (comparisonWith expr) n operands ops ts)
      (chainFrom (comparisonWith expr') (k + n) operands ops ts') := by
  induction n with
  -- The bound is above the number of tokens, so that it is never used up.
  | zero => exact fun _ _ _ _ _ hlt => absurd hlt (Nat.not_lt_zero _)
  | succ n ih =>
    intro operands ops ts ts' h hn hlt
    cases h with
    | done =>
      rcases htail with rfl | ⟨value, position, more, rfl⟩ <;> exact .ok (.mk _ .done (Nat.lt_succ_self _))
    | next kind op position position' h =>
      have hstay := Follows.next kind op position position' h
      rw [List.length_cons] at hn hlt ⊢
      unfold chainFrom
      dsimp only
      split
      · refine require_alike (comparisonWith_agrees htail hexpr h (by omega)) fun next _ _ h₁ hlt₁ => ?_
        refine (ih (next :: operands) (op :: ops) h₁ (by omega) (by omega)).mono ?_
        rintro _ _ ⟨chain, h₂, hlt₂⟩
        exact .mk chain h₂ (by omega)
      · exact .ok (.mk _ hstay (Nat.lt_succ_self _))

/-- A comparison, or a chain of comparisons. -/
theorem expressionWith_agrees :
    Agrees tail (bound + 1) (expressionWith expr) (expressionWith expr') := by
  intro ts ts' h hlt
  refine .bind (comparisonWith_agrees htail hexpr h hlt) fun a b hab => ?_
  cases hab with
  | none => exact .ok .none
  | @some left rest rest' h₁ hlt₁ =>
    dsimp only
    -- Whether a chain begins is told by the next token, which is the same on both sides or starts the tail.
    rw [nextIs_follows htail (by decide) h₁, nextIs_follows htail (by decide) h₁, h₁.length]
    split
    · refine .bind (chainFrom_agrees htail hexpr tail.length (rest.length + 1) [left] [] h₁
        (Nat.lt_succ_self _) (by omega)) ?_
      rintro _ _ ⟨chain, h₂, hlt₂⟩
      exact .ok (.some chain h₂ (by omega))
    · exact .ok (.some left h₁ hlt₁)

end Expressions

/-! ## At every bound

The bounds of the two sides differ by the same number at every level. -/

/-- Expressions are read alike, also if more nesting is allowed. -/
theorem expressionAt_agrees (htail : Ends tail) (k n : Nat) :
    Agrees tail n (expressionAt n) (expressionAt (k + n)) := by
  induction n with
  | zero => exact fun _ hlt => absurd hlt (Nat.not_lt_zero _)
  | succ n ih => exact fun h hlt => expressionWith_agrees htail ih h hlt

/-- The expressions of a program. -/
theorem expression_agrees (htail : Ends tail) {bound : Nat} : Agrees tail bound expression expression := by
  intro ts ts' h _
  unfold expression
  rw [h.length]
  exact expressionAt_agrees htail tail.length (ts.length + 1) h (Nat.lt_succ_self _)

/-- The operands of a program. -/
theorem operand_agrees (htail : Ends tail) {bound : Nat} : Agrees tail bound operand operand := by
  intro ts ts' h _
  unfold operand
  rw [h.length]
  exact operandWith_agrees htail (expressionAt_agrees htail tail.length ts.length) h (Nat.lt_succ_self _)

end Grammar

end Mundart
