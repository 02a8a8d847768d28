import Mundart.Proofs.Grammar.Canonical

/-!
# Productions on canonical tokens

What each production finds, step by step, in tokens that are written as a canonical writer writes them. The
production of the expressions inside is any: all that is asked of it is what it finds between the tokens that
the production itself reads. Where a production must give up for a later alternative to be tried, it is said
by which token it does so.

* **`firstOf_skip`**, **`firstOf_found`** — an ordered choice, alternative by alternative;
* **`primary_skip`**, **`expressionAt_skip`** — tokens with which no expression starts;
* **`arrayLiteral_array`** to **`expressionWith_chain`** — every production of expressions, for every form of
  node that it finds.
-/

namespace Mundart

namespace Grammar

open Token

/-! ## Single steps

The steps of a production on tokens that begin as they should. -/

/-- A token of another kind comes next. -/
theorem nextIs_cons {kind : Kind} {t : Token} {ts : List Token} (h : t.kind ≠ kind) :
    nextIs kind (t :: ts) = false :=
  beq_eq_false_iff_ne.mpr h

/-- An expected token is passed over. -/
theorem expect_plain {kind : Kind} {construct : Text} {ts : List Token} :
    expect kind construct (plain kind :: ts) = .ok ts :=
  if_pos rfl

/-- Parentheses in front of something else, token by token. -/
theorem parens_append (ts rest : List Token) :
    parens ts ++ rest = plain .leftParen :: (ts ++ plain .rightParen :: rest) := by
  simp [parens, enclosed]

/-- Brackets in front of something else. -/
theorem brackets_append (ts rest : List Token) :
    brackets ts ++ rest = plain .leftBracket :: (ts ++ plain .rightBracket :: rest) := by
  simp [brackets, enclosed]

/-- Braces in front of something else. -/
theorem braces_append (ts rest : List Token) :
    braces ts ++ rest = plain .leftBrace :: (ts ++ plain .rightBrace :: rest) := by
  simp [braces, enclosed]

/-- Parentheses are two tokens more. -/
theorem length_parens (ts : List Token) : (parens ts).length = ts.length + 2 := by
  simp [parens, enclosed]

/-- Brackets are two tokens more. -/
theorem length_brackets (ts : List Token) : (brackets ts).length = ts.length + 2 := by
  simp [brackets, enclosed]

/-- Braces are two tokens more. -/
theorem length_braces (ts : List Token) : (braces ts).length = ts.length + 2 := by
  simp [braces, enclosed]

/-- A node that must be there is there. -/
theorem require_found {p : Production} {c : Complaint} {ts : List Token} {found : Node × List Token}
    (h : p ts = .ok (some found)) : require p c ts = .ok found := by
  rw [require, h]
  rfl

/-- An alternative that finds nothing is passed over. -/
theorem firstOf_skip {p : Production} {ps : List Production} {ts : List Token} (h : p ts = .ok none) :
    firstOf (p :: ps) ts = firstOf ps ts := by
  rw [firstOf, h]
  rfl

/-- The first alternative that finds something is taken. -/
theorem firstOf_found {p : Production} {ps : List Production} {ts : List Token}
    {found : Node × List Token} (h : p ts = .ok (some found)) :
    firstOf (p :: ps) ts = .ok (some found) := by
  rw [firstOf, h]
  rfl

/-- A choice of one is that one. -/
theorem firstOf_singleton {p : Production} {ts : List Token} : firstOf [p] ts = p ts := by
  rw [firstOf]
  match p ts with
  | .error _ => rfl
  | .ok none => rfl
  | .ok (some _) => rfl

/-! ## What does not start an expression

By its first token an expression can be told apart from everything else that may stand where one is tried:
the end of a list, of a block or of a statement. -/

/-- The kinds of tokens that an expression starts with. -/
def opensExpression : Kind → Bool
  | .leftBracket | .identifier | .fetch | .number | .string | .trueWord | .falseWord => true
  | _ => false

/-- No primary expression starts with any other token. -/
theorem primary_skip {expr : Production} {t : Token} {ts : List Token}
    (h : opensExpression t.kind = false) : primary expr (t :: ts) = .ok none := by
  obtain ⟨kind, value, position⟩ := t
  -- One look at the first token is enough for every alternative.
  cases kind <;> simp [opensExpression] at h <;> rfl

/-- Without a primary expression in front there is no expression. -/
theorem expressionWith_skip {expr : Production} {ts : List Token} (h : primary expr ts = .ok none) :
    expressionWith expr ts = .ok none := by
  have hoperand : operandWith expr ts = .ok none := by
    rw [operandWith, operandAt, h]
    rfl
  have hcomparison : comparisonWith expr ts = .ok none := by
    rw [comparisonWith, hoperand]
    rfl
  rw [expressionWith, hcomparison]
  rfl

/-- No expression starts with any other token, to whatever depth it is read. -/
theorem expressionAt_skip (k : Nat) {t : Token} {ts : List Token}
    (h : opensExpression t.kind = false) : expressionAt k (t :: ts) = .ok none := by
  cases k with
  | zero => rfl
  | succ k => exact expressionWith_skip (primary_skip h)

/-- No expression starts at the end. -/
theorem expressionAt_nil (k : Nat) : expressionAt k [] = .ok none := by
  cases k with
  | zero => rfl
  | succ k => exact expressionWith_skip rfl

/-! ## What each production finds

The production `expr` of the expressions inside is known only by what it finds in the tokens at hand. Where
the token behind a node decides whether the production goes on, that token is of another kind. -/

section Productions

variable {expr : Production} {ts rest : List Token}

/-- A list in brackets without a colon behind it. -/
theorem arrayLiteral_array {ns : List Node}
    (h : list expr .rightBracket ts = .ok (ns, plain .rightBracket :: rest))
    (hrest : nextIs .colon rest = false) :
    arrayLiteral expr (plain .leftBracket :: ts) = .ok (some (.array ns, rest)) := by
  show (list expr .rightBracket ts >>= _) = _
  rw [h]
  -- Only a colon would make it the keys of an association.
  cases rest with
  | nil => rfl
  | cons t rest =>
    obtain ⟨kind, value, position⟩ := t
    cases kind <;> simp [nextIs] at hrest <;> rfl

/-- Two lists in brackets with a colon between them. -/
theorem arrayLiteral_assoc {keys values : List Node} {ts₁ : List Token}
    (hk : list expr .rightBracket ts =
      .ok (keys, plain .rightBracket :: plain .colon :: plain .leftBracket :: ts₁))
    (hv : list expr .rightBracket ts₁ = .ok (values, plain .rightBracket :: rest)) :
    arrayLiteral expr (plain .leftBracket :: ts) = .ok (some (.assoc keys values, rest)) := by
  show (list expr .rightBracket ts >>= _) = _
  rw [hk]
  show (list expr .rightBracket ts₁ >>= _) = _
  rw [hv]
  rfl

/-- Indexes end where no bracket comes next. -/
theorem indexChain_stop {n : Nat} {node : Node} (h : nextIs .leftBracket rest = false) :
    indexChain expr n node rest = .ok (node, rest) := by
  cases n with
  | zero => rfl
  | succ n =>
    cases rest with
    | nil => rfl
    | cons t rest =>
      obtain ⟨kind, value, position⟩ := t
      cases kind <;> simp [nextIs] at h <;> rfl

/-- One index more. -/
theorem indexChain_step {n : Nat} {node position : Node}
    (h : expr ts = .ok (some (position, plain .rightBracket :: rest))) :
    indexChain expr (n + 1) node (plain .leftBracket :: ts) =
      indexChain expr n (.index node position) rest := by
  show (expr ts >>= _) = _
  rw [h]
  rfl

/-- A name without an index is no access to one. -/
theorem indexAccess_skip {name : Text} (h : nextIs .leftBracket rest = false) :
    indexAccess expr (word .identifier name :: rest) = .ok none := by
  show (if !nextIs .leftBracket rest then _ else _) = _
  rw [h]
  rfl

/-- A name with indexes. -/
theorem indexAccess_found {name : Text} {collection position : Node}
    (hnext : nextIs .leftBracket ts = true)
    (h : indexChain expr (ts.length + 1) (.identifier name) ts =
      .ok (.index collection position, rest)) :
    indexAccess expr (word .identifier name :: ts) = .ok (some (.index collection position, rest)) := by
  show (if !nextIs .leftBracket ts then _ else _) = _
  rw [hnext]
  show (indexChain expr (ts.length + 1) (.identifier name) ts >>= _) = _
  rw [h]
  rfl

/-- The name of an item and the predicate in braces. -/
theorem filterTail_found {item : Text} {collection predicate : Node}
    (h : expr ts = .ok (some (predicate, plain .rightBrace :: plain .rightParen :: rest))) :
    filterTail expr collection (plain .leftParen :: word .identifier item :: plain .filterArrow ::
      plain .leftBrace :: ts) = .ok (some (.filter collection item predicate, rest)) := by
  show (require expr _ ts >>= _) = _
  rw [require_found h]
  rfl

/-- A property that is neither called nor given an argument. -/
theorem propertyTail_property {object : Node} {name : Text} (h : nextIs .leftParen rest = false) :
    propertyTail expr object name rest = .ok (some (.property object name, rest)) := by
  -- Only a parenthesis would go on with the property.
  cases rest with
  | nil => rfl
  | cons t rest =>
    obtain ⟨kind, value, position⟩ := t
    cases kind <;> simp [nextIs] at h <;> rfl

/-- A method with an argument. -/
theorem propertyTail_with {object arg : Node} {name : Text}
    (hts : nextIs .rightParen ts = false)
    (h : expr ts = .ok (some (arg, plain .rightParen :: rest))) :
    propertyTail expr object name (plain .leftParen :: ts) =
      .ok (some (.propertyWith object name arg, rest)) := by
  have harg : (require expr (.noArgument name) ts >>= fun (found : Node × List Token) =>
      expect .rightParen name found.2 >>= fun rest =>
        (.ok (some (Node.propertyWith object name found.1, rest)) : Except SyntaxError _)) =
      .ok (some (Node.propertyWith object name arg, rest)) := by
    rw [require_found h]
    rfl
  -- An argument starts with anything but the closing parenthesis.
  cases ts with
  | nil => exact harg
  | cons t ts =>
    obtain ⟨kind, value, position⟩ := t
    cases kind <;> simp [nextIs] at hts <;> exact harg

/-- A target without a dot behind it has no property. -/
theorem propertyAccess_skip {object : Node}
    (h : firstOf [indexAccess expr, identifier] ts = .ok (some (object, rest)))
    (hrest : nextIs .dot rest = false) : propertyAccess expr ts = .ok none := by
  show (firstOf [indexAccess expr, identifier] ts >>= _) = _
  rw [h]
  -- The target was read for nothing; the next alternative starts again with its tokens.
  cases rest with
  | nil => rfl
  | cons t rest =>
    obtain ⟨kind, value, position⟩ := t
    cases kind <;> simp [nextIs] at hrest <;> rfl

/-- A dot and a name behind a target. -/
theorem propertyAccess_property {object : Node} {name : Text} (hf : name ≠ filterWord)
    (h : firstOf [indexAccess expr, identifier] ts =
      .ok (some (object, plain .dot :: word .identifier name :: rest))) :
    propertyAccess expr ts = propertyTail expr object name rest := by
  show (firstOf [indexAccess expr, identifier] ts >>= _) = _
  rw [h]
  exact if_neg hf

/-- A dot and the word of a filter behind a target. -/
theorem propertyAccess_filter {object : Node}
    (h : firstOf [indexAccess expr, identifier] ts =
      .ok (some (object, plain .dot :: word .identifier filterWord :: rest))) :
    propertyAccess expr ts = filterTail expr object rest := by
  show (firstOf [indexAccess expr, identifier] ts >>= _) = _
  rw [h]
  show (if filterWord = filterWord then filterTail expr object rest
    else propertyTail expr object filterWord rest) = _
  exact if_pos rfl

/-- The word for fetching and its address. -/
theorem fetch_found {url : Node} (h : expr ts = .ok (some (url, plain .rightParen :: rest))) :
    fetch expr (plain .fetch :: plain .leftParen :: ts) = .ok (some (.fetch url, rest)) := by
  show (require expr _ ts >>= _) = _
  rw [require_found h]
  rfl

/-- A name without parentheses is no call. -/
theorem call_skip {name : Text} (h : nextIs .leftParen rest = false) :
    call expr (word .identifier name :: rest) = .ok none := by
  cases rest with
  | nil => rfl
  | cons t rest =>
    obtain ⟨kind, value, position⟩ := t
    cases kind <;> simp [nextIs] at h <;> rfl

/-- A name with its arguments in parentheses. -/
theorem call_found {name : Text} {args : List Node}
    (h : list expr .rightParen ts = .ok (args, plain .rightParen :: rest)) :
    call expr (word .identifier name :: plain .leftParen :: ts) =
      .ok (some (.call name args, rest)) := by
  show (list expr .rightParen ts >>= _) = _
  rw [h]
  rfl

/-- The digits of a number that has a value. -/
theorem literal_number {digits : Text} {v : Value} (h : numberValue? digits = some v) :
    literal (word .number digits :: rest) = .ok (some (.literal v, rest)) := by
  simp only [literal, word, h]

/-- An operand that no operator follows. -/
theorem operandAt_primary {p : Production} {m : Nat} {n : Node} (h : p ts = .ok (some (n, rest)))
    (hrest : nextIs .arithmetic rest = false) :
    operandAt p (m + 1) ts = .ok (some (n, rest)) := by
  rw [operandAt, h]
  -- The token behind decides, and only one kind of it would go on with the operand.
  cases rest with
  | nil => rfl
  | cons t rest =>
    obtain ⟨kind, value, position⟩ := t
    cases kind <;> simp [nextIs] at hrest <;> rfl

/-- An operand with a postfix operator behind it. -/
theorem operandAt_unary {p : Production} {m : Nat} {n : Node} {op : Text}
    (h : p ts = .ok (some (n, word .arithmetic op :: rest))) (hpost : isPostfix op = true) :
    operandAt p (m + 1) ts = .ok (some (.unary op n, rest)) := by
  rw [operandAt, h]
  exact if_pos hpost

/-- Two operands with an operator between them. -/
theorem operandAt_binary {p : Production} {m : Nat} {left right : Node} {op : Text}
    {ts₁ : List Token} (h : p ts = .ok (some (left, word .arithmetic op :: ts₁)))
    (hpost : isPostfix op = false) (hr : operandAt p m ts₁ = .ok (some (right, rest))) :
    operandAt p (m + 1) ts = .ok (some (.binary left op right, rest)) := by
  -- The operand on the right is read in full before the node is made.
  have hright : (require (operandAt p m) (.noOperand op) ts₁ >>= fun (found : Node × List Token) =>
      (.ok (some (Node.binary left op found.1, found.2)) : Except SyntaxError _)) =
      .ok (some (Node.binary left op right, rest)) := by
    rw [require_found hr]
    rfl
  rw [operandAt, h]
  exact (if_neg (by simp [hpost])).trans hright

/-- An operand that no comparison follows. -/
theorem comparisonWith_operand {n : Node} (h : operandWith expr ts = .ok (some (n, rest)))
    (hrest : nextIs .comparison rest = false) :
    comparisonWith expr ts = .ok (some (n, rest)) := by
  rw [comparisonWith, h]
  cases rest with
  | nil => rfl
  | cons t rest =>
    obtain ⟨kind, value, position⟩ := t
    cases kind <;> simp [nextIs] at hrest <;> rfl

/-- Two operands with a comparison between them. -/
theorem comparisonWith_comparison {left right : Node} {op : Text} {ts₁ : List Token}
    (hl : operandWith expr ts = .ok (some (left, word .comparison op :: ts₁)))
    (hr : operandWith expr ts₁ = .ok (some (right, rest))) :
    comparisonWith expr ts = .ok (some (.comparison left op right, rest)) := by
  rw [comparisonWith, hl]
  show (require (operandWith expr) _ ts₁ >>= _) = _
  rw [require_found hr]
  rfl

/-- A comparison that no logical operator follows. -/
theorem expressionWith_comparison {n : Node} (h : comparisonWith expr ts = .ok (some (n, rest)))
    (hand : nextIs .andWord rest = false) (hor : nextIs .orWord rest = false) :
    expressionWith expr ts = .ok (some (n, rest)) := by
  rw [expressionWith, h]
  exact if_neg (by simp [hand, hor])

/-- The token of a logical operator is of one of two kinds. -/
theorem kind_link (op : Text) : (link op).kind = .andWord ∨ (link op).kind = .orWord := by
  unfold link
  split
  · exact .inl rfl
  · exact .inr rfl

/-- A chain ends where no logical operator comes next. -/
theorem chainFrom_stop {p : Production} {m : Nat} {operands : List Node} {ops : List Text}
    (hand : nextIs .andWord rest = false) (hor : nextIs .orWord rest = false) :
    chainFrom p m operands ops rest = .ok (.chain operands.reverse ops.reverse, rest) := by
  cases m with
  | zero => rfl
  | succ m =>
    cases rest with
    | nil => rfl
    | cons t rest =>
      obtain ⟨kind, value, position⟩ := t
      have hkind : ¬ (kind = .andWord ∨ kind = .orWord) := by
        simpa [nextIs] using And.intro hand hor
      exact if_neg hkind

/-- One operator and one comparison more. -/
theorem chainFrom_step {p : Production} {m : Nat} {operands : List Node} {ops : List Text} {op : Text}
    {n : Node} (h : p ts = .ok (some (n, rest))) :
    chainFrom p (m + 1) operands ops (link op :: ts) = chainFrom p m (n :: operands) (op :: ops) rest := by
  have hnext : (require p (.noChainOperand op) ts >>= fun (found : Node × List Token) =>
      chainFrom p m (found.1 :: operands) (op :: ops) found.2) =
      chainFrom p m (n :: operands) (op :: ops) rest := by
    rw [require_found h]
    rfl
  -- Both kinds of link pass the same test, so the operator need not be known.
  exact (if_pos (kind_link op)).trans hnext

/-- A comparison with a logical operator behind it is the first one of a chain. -/
theorem expressionWith_chain {n chain : Node} {op : Text} {ts₁ : List Token}
    (h : comparisonWith expr ts = .ok (some (n, link op :: ts₁)))
    (hchain : chainFrom (comparisonWith expr) ((link op :: ts₁).length + 1) [n] [] (link op :: ts₁) =
      .ok (chain, rest)) :
    expressionWith expr ts = .ok (some (chain, rest)) := by
  have hnext : (nextIs .andWord (link op :: ts₁) || nextIs .orWord (link op :: ts₁)) = true := by
    simpa [nextIs] using kind_link op
  have hfound : (chainFrom (comparisonWith expr) ((link op :: ts₁).length + 1) [n] []
      (link op :: ts₁) >>= fun found => (.ok (some found) : Except SyntaxError _)) =
      .ok (some (chain, rest)) := by
    rw [hchain]
    rfl
  rw [expressionWith, h]
  exact (if_pos hnext).trans hfound

end Productions

end Grammar

end Mundart
