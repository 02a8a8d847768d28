import Mundart.Proofs.Grammar.Derivation

/-!
# The productions of expressions are sound

Each production of expressions takes the production of the expressions inside as an argument. If that one
is sound, so is the production: it has checked all the tokens between its parts, so the constructor of
`Derives` for its node applies. The expressions of a program are those of the production at a bound, and
that one is sound by induction on the bound.

* **`list_sound`**, **`chainFrom_sound`** — the two repetitions, whatever was read before them;
* **`primary_sound`**, **`operandAt_sound`**, **`comparisonWith_sound`**, **`expressionWith_sound`** — one
  level of expressions each;
* **`expressionAt_sound`** — the production of expressions is sound at every bound.
-/

namespace Mundart

namespace Grammar

section Expressions

variable {expr : Production} (hexpr : Sound .expression expr)

include hexpr

/-- The expressions of a list, after some that were read before. -/
theorem items_sound (n : Nat) : ∀ {read ns : List Node} {ts rest : List Token},
    items expr n read ts = .ok (ns, rest) →
    ∃ more, ns = read.reverse ++ more ∧ Derives (.items more) ts rest := by
  -- By induction on the bound. Without any of it left, the list ends where it stands.
  induction n with
  | zero =>
    intro read ns ts rest h
    obtain ⟨rfl, rfl⟩ := Prod.mk.inj (Except.ok.inj h)
    exact ⟨[], (List.append_nil _).symm, .itemsNil⟩
  | succ n ih =>
    intro read ns ts rest h
    obtain ⟨found, hfound, h⟩ := bind_eq_ok.mp h
    split at h
    · obtain ⟨rfl, rfl⟩ := Prod.mk.inj (Except.ok.inj h)
      exact ⟨[], (List.append_nil _).symm, .itemsNil⟩
    -- With a comma behind the item, the list goes on.
    · next item _ _ _ =>
      obtain ⟨more, rfl, hmore⟩ := ih h
      exact ⟨item :: more, by simp, .itemsCons (hexpr hfound) hmore⟩
    -- Without one it is the last item.
    · next item _ _ =>
      obtain ⟨rfl, rfl⟩ := Prod.mk.inj (Except.ok.inj h)
      exact ⟨[item], by simp, .itemsLast (hexpr hfound)⟩

/-- The expressions of a list up to its closing bracket; an empty list has none. -/
theorem list_sound {closing : Token.Kind} {ns : List Node} {ts rest : List Token}
    (h : list expr closing ts = .ok (ns, rest)) : Derives (.items ns) ts rest := by
  unfold list at h
  split at h
  · obtain ⟨rfl, rfl⟩ := Prod.mk.inj (Except.ok.inj h)
    exact .itemsNil
  · obtain ⟨more, rfl, hmore⟩ := items_sound hexpr _ h
    exact hmore

/-- A bracket opens an array, or the keys of an association if a colon and a second bracket follow. -/
theorem arrayLiteral_sound : Sound .primary (arrayLiteral expr) := by
  intro ts n rest h
  unfold arrayLiteral at h
  split at h
  · obtain ⟨⟨keys, ts₁⟩, hkeys, h⟩ := bind_eq_ok.mp h
    have hkeys := list_sound hexpr hkeys
    dsimp only at h
    split at h
    -- Behind the first list: a colon, the end of the array, or neither.
    · next ks hts =>
      obtain ⟨rfl, rfl⟩ := Prod.mk.inj hts
      split at h
      · obtain ⟨⟨values, ts₂⟩, hvalues, h⟩ := bind_eq_ok.mp h
        obtain ⟨ts₃, hclose, h⟩ := bind_eq_ok.mp h
        obtain ⟨_, _, rfl⟩ := expect_eq_ok hclose
        obtain ⟨rfl, rfl⟩ := found_inj h
        exact .assoc hkeys (list_sound hexpr hvalues)
      · exact absurd h not_complain
    · next hts =>
      obtain ⟨rfl, rfl⟩ := Prod.mk.inj hts
      obtain ⟨rfl, rfl⟩ := found_inj h
      exact .array hkeys
    · exact absurd h none_ne_found
  · exact absurd h none_ne_found

omit hexpr in
/-- A name alone is a target. -/
theorem identifier_sound : Sound .target identifier := by
  intro ts n rest h
  unfold identifier at h
  split at h
  · obtain ⟨rfl, rfl⟩ := found_inj h
    exact .name
  · exact absurd h none_ne_found

/-- Further indexes extend what was read from `start` on. -/
theorem indexChain_sound {start : List Token} (n : Nat) : ∀ {node found : Node}
    {ts rest : List Token}, Derives (.node .target node) start ts →
    indexChain expr n node ts = .ok (found, rest) → Derives (.node .target found) start rest := by
  -- By induction on the bound; `start` stays where it is while the target grows.
  induction n with
  | zero =>
    intro node found ts rest hnode h
    obtain ⟨rfl, rfl⟩ := Prod.mk.inj (Except.ok.inj h)
    exact hnode
  | succ n ih =>
    intro node found ts rest hnode h
    unfold indexChain at h
    split at h
    -- A bracket that is not closed belongs to whatever comes next.
    · obtain ⟨result, hresult, h⟩ := bind_eq_ok.mp h
      split at h
      · exact ih (.index hnode (hexpr hresult)) h
      · obtain ⟨rfl, rfl⟩ := Prod.mk.inj (Except.ok.inj h)
        exact hnode
    · obtain ⟨rfl, rfl⟩ := Prod.mk.inj (Except.ok.inj h)
      exact hnode

/-- A name with indexes is a target. -/
theorem indexAccess_sound : Sound .target (indexAccess expr) := by
  intro ts n rest h
  unfold indexAccess at h
  split at h
  · split at h
    · exact absurd h none_ne_found
    · obtain ⟨found, hfound, h⟩ := bind_eq_ok.mp h
      split at h
      · obtain ⟨rfl, rfl⟩ := found_inj h
        exact indexChain_sound hexpr _ .name hfound
      · exact absurd h none_ne_found
  · exact absurd h none_ne_found

/-- Behind the word of a filter: the name of the item and the predicate in braces. -/
theorem filterTail_sound {collection n : Node} {start ts rest : List Token} {v : Text} {p p' : Nat}
    (hc : Derives (.node .target collection) start
      (⟨.dot, v, p⟩ :: ⟨.identifier, filterWord, p'⟩ :: ts))
    (h : filterTail expr collection ts = .ok (some (n, rest))) :
    Derives (.node .primary n) start rest := by
  obtain ⟨_, _, ts₁, rfl, h₁⟩ := expect_bind h
  split at h₁
  · obtain ⟨_, _, ts₂, rfl, h₂⟩ := expect_bind h₁
    obtain ⟨_, _, ts₃, rfl, h₃⟩ := expect_bind h₂
    obtain ⟨predicate, ts₄, hpredicate, h₄⟩ := require_bind h₃
    obtain ⟨_, _, ts₅, rfl, h₅⟩ := expect_bind h₄
    obtain ⟨_, _, ts₆, rfl, h₆⟩ := expect_bind h₅
    obtain ⟨rfl, rfl⟩ := found_inj h₆
    exact .filter hc (hexpr hpredicate)
  · exact absurd h₁ not_complain

/-- Behind the name of a property: nothing, empty parentheses or an argument in parentheses. -/
theorem propertyTail_sound {object n : Node} {name : Text} {start ts rest : List Token} {v : Text}
    {p p' : Nat} (hf : name ≠ filterWord)
    (ho : Derives (.node .target object) start (⟨.dot, v, p⟩ :: ⟨.identifier, name, p'⟩ :: ts))
    (h : propertyTail expr object name ts = .ok (some (n, rest))) :
    Derives (.node .primary n) start rest := by
  unfold propertyTail at h
  split at h
  · obtain ⟨rfl, rfl⟩ := found_inj h
    exact .propertyCall ho hf
  · obtain ⟨arg, ts₁, harg, h₁⟩ := require_bind h
    obtain ⟨_, _, ts₂, rfl, h₂⟩ := expect_bind h₁
    obtain ⟨rfl, rfl⟩ := found_inj h₂
    exact .propertyWith ho hf (hexpr harg)
  · obtain ⟨rfl, rfl⟩ := found_inj h
    exact .property ho hf

/-- What a property is taken of: a name, with or without indexes. -/
theorem target_sound : Sound .target (firstOf [indexAccess expr, identifier]) := by
  apply firstOf_sound
  intro p hp
  simp only [List.mem_cons, List.not_mem_nil, or_false] at hp
  obtain rfl | rfl := hp
  · exact indexAccess_sound hexpr
  · exact identifier_sound

/-- A dot and a name behind a target. -/
theorem propertyAccess_sound : Sound .primary (propertyAccess expr) := by
  intro ts n rest h
  obtain ⟨found, hfound, h⟩ := bind_eq_ok.mp h
  split at h
  · have ho := target_sound hexpr hfound
    split at h
    -- The word of a filter is no name of a property.
    · split at h
      · next hname =>
        rw [hname] at ho
        exact filterTail_sound hexpr ho h
      · next hname => exact propertyTail_sound hexpr hname ho h
    · exact absurd h not_complain
  · exact absurd h none_ne_found

/-- The word for fetching and its address in parentheses. -/
theorem fetch_sound : Sound .primary (fetch expr) := by
  intro ts n rest h
  unfold fetch at h
  split at h
  · obtain ⟨_, _, ts₁, rfl, h₁⟩ := expect_bind h
    obtain ⟨url, ts₂, hurl, h₂⟩ := require_bind h₁
    obtain ⟨_, _, ts₃, rfl, h₃⟩ := expect_bind h₂
    obtain ⟨rfl, rfl⟩ := found_inj h₃
    exact .fetch (hexpr hurl)
  · exact absurd h none_ne_found

/-- A name with arguments in parentheses. -/
theorem call_sound : Sound .primary (call expr) := by
  intro ts n rest h
  unfold call at h
  split at h
  · obtain ⟨⟨args, ts₁⟩, hargs, h⟩ := bind_eq_ok.mp h
    have hargs := list_sound hexpr hargs
    split at h
    · next hts =>
      obtain ⟨rfl, rfl⟩ := Prod.mk.inj hts
      obtain ⟨rfl, rfl⟩ := found_inj h
      exact .call hargs
    · exact absurd h none_ne_found
  · exact absurd h none_ne_found

omit hexpr in
/-- Numbers, texts and the two truth values. -/
theorem literal_sound : Sound .primary literal := by
  intro ts n rest h
  unfold literal at h
  split at h
  · split at h
    · next hv =>
      obtain ⟨rfl, rfl⟩ := found_inj h
      exact .number hv
    · exact absurd h not_complain
  · obtain ⟨rfl, rfl⟩ := found_inj h
    exact .string
  · obtain ⟨rfl, rfl⟩ := found_inj h
    exact .trueWord
  · obtain ⟨rfl, rfl⟩ := found_inj h
    exact .falseWord
  · exact absurd h none_ne_found

/-- The primary expressions, in the order in which they are tried. -/
theorem primary_sound : Sound .primary (primary expr) := by
  apply firstOf_sound
  intro p hp
  simp only [List.mem_cons, List.not_mem_nil, or_false] at hp
  obtain rfl | rfl | rfl | rfl | rfl | rfl | rfl := hp
  · exact arrayLiteral_sound hexpr
  · exact propertyAccess_sound hexpr
  · intro ts n rest h
    exact .ofTarget (indexAccess_sound hexpr h)
  · exact fetch_sound hexpr
  · exact call_sound hexpr
  · exact literal_sound
  · intro ts n rest h
    exact .ofTarget (identifier_sound h)

/-- A primary expression, alone, in front of a postfix operator or in front of an operator and an operand.
-/
theorem operandAt_sound (n : Nat) : Sound .operand (operandAt (primary expr) n) := by
  -- By induction on the bound: operators associate to the right, so the operand behind one is read with a
  -- smaller bound.
  induction n with
  | zero =>
    intro ts n rest h
    exact absurd h none_ne_found
  | succ k ih =>
    intro ts n rest h
    obtain ⟨found, hfound, h⟩ := bind_eq_ok.mp h
    split at h
    · exact absurd h none_ne_found
    · have hleft := primary_sound hexpr hfound
      split at h
      · next hpost =>
        obtain ⟨rfl, rfl⟩ := found_inj h
        exact .unary hpost hleft
      · next hpost =>
        obtain ⟨right, ts₁, hright, h₁⟩ := require_bind h
        obtain ⟨rfl, rfl⟩ := found_inj h₁
        exact .binary (Bool.not_eq_true _ ▸ hpost) hleft (ih hright)
    · obtain rfl := Option.some.inj (Except.ok.inj h)
      exact .ofPrimary (primary_sound hexpr hfound)

/-- The bound of an operand is the number of its tokens. -/
theorem operandWith_sound : Sound .operand (operandWith expr) := fun _ _ _ h =>
  operandAt_sound hexpr _ h

/-- One operand, or two with a comparison between them. -/
theorem comparisonWith_sound : Sound .comparison (comparisonWith expr) := by
  intro ts n rest h
  obtain ⟨found, hfound, h⟩ := bind_eq_ok.mp h
  split at h
  · exact absurd h none_ne_found
  · obtain ⟨right, ts₁, hright, h₁⟩ := require_bind h
    obtain ⟨rfl, rfl⟩ := found_inj h₁
    exact .comparison (operandWith_sound hexpr hfound) (operandWith_sound hexpr hright)
  · obtain rfl := Option.some.inj (Except.ok.inj h)
    exact .ofOperand (operandWith_sound hexpr hfound)

/-- What a chain gains after the operands already read. -/
theorem chainFrom_sound (n : Nat) : ∀ {operands : List Node} {ops : List Text} {found : Node}
    {ts rest : List Token}, chainFrom (comparisonWith expr) n operands ops ts = .ok (found, rest) →
    ∃ more moreOps, found = .chain (operands.reverse ++ more) (ops.reverse ++ moreOps) ∧
      Derives (.links more moreOps) ts rest := by
  -- The chain ends without a further operator, and also when the bound is used up.
  have hstop : ∀ {operands : List Node} {ops : List Text} {found : Node} {ts rest : List Token},
      (.ok (.chain operands.reverse ops.reverse, ts) : Except SyntaxError _) = .ok (found, rest) →
      ∃ more moreOps, found = .chain (operands.reverse ++ more) (ops.reverse ++ moreOps) ∧
        Derives (.links more moreOps) ts rest := by
    intro operands ops found ts rest h
    obtain ⟨rfl, rfl⟩ := Prod.mk.inj (Except.ok.inj h)
    exact ⟨[], [], by simp, .linksNil⟩
  -- Every operator uses up a part of the bound.
  induction n with
  | zero =>
    intro operands ops found ts rest h
    exact hstop h
  | succ n ih =>
    intro operands ops found ts rest h
    unfold chainFrom at h
    split at h
    · next op _ _ =>
      split at h
      · next hkind =>
        obtain ⟨next, ts₁, hnext, h₁⟩ := require_bind h
        obtain ⟨more, moreOps, rfl, hmore⟩ := ih h₁
        exact ⟨next :: more, op :: moreOps, by simp,
          .linksCons hkind (comparisonWith_sound hexpr hnext) hmore⟩
      · exact hstop h
    · exact hstop h

/-- A comparison, or a chain of comparisons between logical operators. -/
theorem expressionWith_sound : Sound .expression (expressionWith expr) := by
  intro ts n rest h
  obtain ⟨found, hfound, h⟩ := bind_eq_ok.mp h
  split at h
  · exact absurd h none_ne_found
  · next left ts₁ =>
    have hleft := comparisonWith_sound hexpr hfound
    split at h
    · next hnext =>
      -- The next token is an operator, so the chain has a second operand.
      obtain ⟨kind, op, position, ts₂, rfl, hkind⟩ : ∃ kind op position ts₂,
          ts₁ = ⟨kind, op, position⟩ :: ts₂ ∧ (kind = .andWord ∨ kind = .orWord) := by
        rcases Bool.or_eq_true _ _ ▸ hnext with hand | hor
        · obtain ⟨op, position, ts₂, rfl⟩ := nextIs_eq_true hand
          exact ⟨.andWord, op, position, ts₂, rfl, .inl rfl⟩
        · obtain ⟨op, position, ts₂, rfl⟩ := nextIs_eq_true hor
          exact ⟨.orWord, op, position, ts₂, rfl, .inr rfl⟩
      obtain ⟨⟨node, ts₃⟩, hchain, h₁⟩ := bind_eq_ok.mp h
      obtain ⟨rfl, rfl⟩ := found_inj h₁
      rw [chainFrom, if_pos hkind] at hchain
      obtain ⟨second, ts₄, hsecond, h₂⟩ := require_bind hchain
      obtain ⟨more, moreOps, rfl, hmore⟩ := chainFrom_sound hexpr _ h₂
      exact .chain hleft (List.cons_ne_nil second more)
        (.linksCons hkind (comparisonWith_sound hexpr hsecond) hmore)
    · obtain ⟨rfl, rfl⟩ := found_inj h
      exact .ofComparison hleft

end Expressions

/-! ## At every bound

The production of expressions is the one above, applied to itself at a smaller bound. -/

/-- By induction on the bound, as far as expressions may stand inside of each other. -/
theorem expressionAt_sound (n : Nat) : Sound .expression (expressionAt n) := by
  induction n with
  | zero =>
    intro ts n rest h
    exact absurd h none_ne_found
  | succ n ih =>
    intro ts node rest h
    exact expressionWith_sound ih h

/-- The expressions of a program. -/
theorem expression_sound : Sound .expression expression := fun _ _ _ h => expressionAt_sound _ h

/-- The operands of a program. -/
theorem operand_sound : Sound .operand operand := fun _ _ _ h =>
  operandWith_sound (expressionAt_sound _) h

end Grammar

end Mundart
