import Mundart.Proofs.Grammar.Form

/-!
# The grammar as a relation

`Derives phrase ts rest` says that the phrase can be read off the start of the tokens `ts` and leaves
`rest`. It knows no order of alternatives and no bounds. What the productions find is always such a
reading, so that a property of all readings is proved once, by induction on `Derives`, and not once
for each production.

* **`Derives`** — one constructor for every way in which a phrase is made of its parts;
* **`bind_eq_ok`**, **`expect_bind`**, **`require_bind`** — the steps of a production, taken apart: what
  must have happened if it found something;
* **`Sound place p`** — every node that the production finds is derived at the place;
* **`firstOf_sound`** — an ordered choice between sound productions is sound.

`Derivation.Expressions` and `Derivation.Statements` prove the productions sound, and
`Derivation.Formed` proves what is derived well formed.
-/

namespace Mundart

namespace Grammar

/-- What can be read off a list of tokens. -/
inductive Phrase where
  | node (place : Place) (n : Node)
  /-- Expressions with commas between them, maybe with one behind the last. -/
  | items (ns : List Node)
  /-- Names with commas between them, maybe with one behind the last. -/
  | parameters (names : List Text)
  /-- The operands and operators of a chain after its first operand. -/
  | links (ns : List Node) (ops : List Text)
  /-- Statements, maybe with semicolons behind them. -/
  | block (ns : List Node)
  /-- A block in braces that is not empty. -/
  | body (ns : List Node)

/-- A phrase at the start of some tokens, and the tokens after it. -/
inductive Derives : Phrase → List Token → List Token → Prop where
  | name : Derives (.node .target (.identifier name)) (⟨.identifier, name, p₁⟩ :: rest) rest
  | index (hc : Derives (.node .target c) ts (⟨.leftBracket, v₁, p₁⟩ :: ts₁))
      (hi : Derives (.node .expression i) ts₁ (⟨.rightBracket, v₂, p₂⟩ :: rest)) :
      Derives (.node .target (.index c i)) ts rest
  | ofTarget (h : Derives (.node .target n) ts rest) : Derives (.node .primary n) ts rest
  | number (hv : numberValue? digits = some v) :
      Derives (.node .primary (.literal v)) (⟨.number, digits, p₁⟩ :: rest) rest
  | string : Derives (.node .primary (.literal (.text text))) (⟨.string, text, p₁⟩ :: rest) rest
  | trueWord : Derives (.node .primary (.literal (.bool true))) (⟨.trueWord, v₁, p₁⟩ :: rest) rest
  | falseWord : Derives (.node .primary (.literal (.bool false))) (⟨.falseWord, v₁, p₁⟩ :: rest) rest
  | array (h : Derives (.items ns) ts (⟨.rightBracket, v₂, p₂⟩ :: rest)) :
      Derives (.node .primary (.array ns)) (⟨.leftBracket, v₁, p₁⟩ :: ts) rest
  | assoc (hk : Derives (.items keys) ts (⟨.rightBracket, v₂, p₂⟩ :: ⟨.colon, v₃, p₃⟩ ::
        ⟨.leftBracket, v₄, p₄⟩ :: ts₁))
      (hv : Derives (.items values) ts₁ (⟨.rightBracket, v₅, p₅⟩ :: rest)) :
      Derives (.node .primary (.assoc keys values)) (⟨.leftBracket, v₁, p₁⟩ :: ts) rest
  | property (ho : Derives (.node .target object) ts
        (⟨.dot, v₁, p₁⟩ :: ⟨.identifier, name, p₂⟩ :: rest)) (hf : name ≠ filterWord) :
      Derives (.node .primary (.property object name)) ts rest
  | propertyCall (ho : Derives (.node .target object) ts (⟨.dot, v₁, p₁⟩ ::
        ⟨.identifier, name, p₂⟩ :: ⟨.leftParen, v₃, p₃⟩ :: ⟨.rightParen, v₄, p₄⟩ :: rest))
      (hf : name ≠ filterWord) : Derives (.node .primary (.propertyCall object name)) ts rest
  | propertyWith (ho : Derives (.node .target object) ts
        (⟨.dot, v₁, p₁⟩ :: ⟨.identifier, name, p₂⟩ :: ⟨.leftParen, v₃, p₃⟩ :: ts₁))
      (hf : name ≠ filterWord)
      (ha : Derives (.node .expression arg) ts₁ (⟨.rightParen, v₄, p₄⟩ :: rest)) :
      Derives (.node .primary (.propertyWith object name arg)) ts rest
  | filter (hc : Derives (.node .target collection) ts
        (⟨.dot, v₁, p₁⟩ :: ⟨.identifier, filterWord, p₂⟩ :: ⟨.leftParen, v₃, p₃⟩ ::
          ⟨.identifier, item, p₄⟩ :: ⟨.filterArrow, v₅, p₅⟩ :: ⟨.leftBrace, v₆, p₆⟩ :: ts₁))
      (hp : Derives (.node .expression predicate) ts₁
        (⟨.rightBrace, v₇, p₇⟩ :: ⟨.rightParen, v₈, p₈⟩ :: rest)) :
      Derives (.node .primary (.filter collection item predicate)) ts rest
  | fetch (hu : Derives (.node .expression url) ts (⟨.rightParen, v₃, p₃⟩ :: rest)) :
      Derives (.node .primary (.fetch url))
        (⟨.fetch, v₁, p₁⟩ :: ⟨.leftParen, v₂, p₂⟩ :: ts) rest
  | call (ha : Derives (.items args) ts (⟨.rightParen, v₃, p₃⟩ :: rest)) :
      Derives (.node .primary (.call name args))
        (⟨.identifier, name, p₁⟩ :: ⟨.leftParen, v₂, p₂⟩ :: ts) rest
  | ofPrimary (h : Derives (.node .primary n) ts rest) : Derives (.node .operand n) ts rest
  | unary (hpost : isPostfix op = true)
      (h : Derives (.node .primary n) ts (⟨.arithmetic, op, p₁⟩ :: rest)) :
      Derives (.node .operand (.unary op n)) ts rest
  | binary (hpost : isPostfix op = false)
      (hl : Derives (.node .primary left) ts (⟨.arithmetic, op, p₁⟩ :: ts₁))
      (hr : Derives (.node .operand right) ts₁ rest) :
      Derives (.node .operand (.binary left op right)) ts rest
  | ofOperand (h : Derives (.node .operand n) ts rest) : Derives (.node .comparison n) ts rest
  | comparison (hl : Derives (.node .operand left) ts (⟨.comparison, op, p₁⟩ :: ts₁))
      (hr : Derives (.node .operand right) ts₁ rest) :
      Derives (.node .comparison (.comparison left op right)) ts rest
  | ofComparison (h : Derives (.node .comparison n) ts rest) : Derives (.node .expression n) ts rest
  | chain (h : Derives (.node .comparison n) ts ts₁) (hne : ns ≠ [])
      (hs : Derives (.links ns ops) ts₁ rest) :
      Derives (.node .expression (.chain (n :: ns) ops)) ts rest
  | linksNil : Derives (.links [] []) rest rest
  | linksCons (hk : kind = .andWord ∨ kind = .orWord) (h : Derives (.node .comparison n) ts ts₁)
      (hs : Derives (.links ns ops) ts₁ rest) :
      Derives (.links (n :: ns) (op :: ops)) (⟨kind, op, p₁⟩ :: ts) rest
  | itemsNil : Derives (.items []) rest rest
  | itemsLast (h : Derives (.node .expression n) ts rest) : Derives (.items [n]) ts rest
  | itemsCons (h : Derives (.node .expression n) ts (⟨.separator, v₁, p₁⟩ :: ts₁))
      (hs : Derives (.items ns) ts₁ rest) : Derives (.items (n :: ns)) ts rest
  | parametersNil : Derives (.parameters []) rest rest
  | parametersLast : Derives (.parameters [name]) (⟨.identifier, name, p₁⟩ :: rest) rest
  | parametersCons (hs : Derives (.parameters names) ts rest) :
      Derives (.parameters (name :: names))
        (⟨.identifier, name, p₁⟩ :: ⟨.separator, v₂, p₂⟩ :: ts) rest
  | declare (hi : Derives (.node .expression init) ts rest) :
      Derives (.node .start (.declare name init))
        (⟨.letWord, v₁, p₁⟩ :: ⟨.identifier, name, p₂⟩ :: ⟨.assign, "=", p₃⟩ :: ts) rest
  | assign (hv : Derives (.node .expression value) ts rest) :
      Derives (.node .start (.assign name value))
        (⟨.identifier, name, p₁⟩ :: ⟨.assign, "=", p₂⟩ :: ts) rest
  | updateAssign (h : Derives (.node .start (.assign name value)) ts rest) :
      Derives (.node .update (.assign name value)) ts rest
  | updateExpression (h : Derives (.node .expression n) ts rest) : Derives (.node .update n) ts rest
  | ofStart (h : Derives (.node .start n) ts rest) : Derives (.node .statement n) ts rest
  | ofExpression (h : Derives (.node .expression n) ts rest) : Derives (.node .statement n) ts rest
  | indexAssign (hp : Derives (.node .expression position) ts
        (⟨.rightBracket, v₃, p₃⟩ :: ⟨.assign, "=", p₄⟩ :: ts₁))
      (hv : Derives (.node .expression value) ts₁ rest) :
      Derives (.node .statement (.indexAssign name position value))
        (⟨.identifier, name, p₁⟩ :: ⟨.leftBracket, v₂, p₂⟩ :: ts) rest
  | ifThen (ht : Derives (.node .expression test) ts (⟨.rightParen, v₃, p₃⟩ :: ts₁))
      (hb : Derives (.body ns) ts₁ rest) :
      Derives (.node .statement (.ifThen test ns))
        (⟨.ifWord, v₁, p₁⟩ :: ⟨.leftParen, v₂, p₂⟩ :: ts) rest
  | ifElse (ht : Derives (.node .expression test) ts (⟨.rightParen, v₃, p₃⟩ :: ts₁))
      (hb : Derives (.body ns) ts₁ (⟨.elseWord, v₄, p₄⟩ :: ts₂))
      (ho : Derives (.body otherwise) ts₂ rest) :
      Derives (.node .statement (.ifElse test ns otherwise))
        (⟨.ifWord, v₁, p₁⟩ :: ⟨.leftParen, v₂, p₂⟩ :: ts) rest
  | elseIf (ht : Derives (.node .expression test) ts (⟨.rightParen, v₃, p₃⟩ :: ts₁))
      (hb : Derives (.body ns) ts₁ (⟨.elseWord, v₄, p₄⟩ :: ⟨.ifWord, v₅, p₅⟩ :: ts₂))
      (ho : Derives (.node .statement nested) (⟨.ifWord, v₅, p₅⟩ :: ts₂) rest) :
      Derives (.node .statement (.ifElse test ns [nested]))
        (⟨.ifWord, v₁, p₁⟩ :: ⟨.leftParen, v₂, p₂⟩ :: ts) rest
  | forLoop (hs : Derives (.node .start start) ts (⟨.semicolon, v₃, p₃⟩ :: ts₁))
      (ht : Derives (.node .expression (.comparison left op right)) ts₁
        (⟨.semicolon, v₄, p₄⟩ :: ts₂))
      (hu : Derives (.node .update update) ts₂ (⟨.rightParen, v₅, p₅⟩ :: ts₃))
      (hb : Derives (.body ns) ts₃ rest) :
      Derives (.node .statement (.forLoop start (.comparison left op right) update ns))
        (⟨.forWord, v₁, p₁⟩ :: ⟨.leftParen, v₂, p₂⟩ :: ts) rest
  | whileLoop (ht : Derives (.node .expression test) ts (⟨.rightParen, v₃, p₃⟩ :: ts₁))
      (hb : Derives (.body ns) ts₁ rest) :
      Derives (.node .statement (.whileLoop test ns))
        (⟨.whileWord, v₁, p₁⟩ :: ⟨.leftParen, v₂, p₂⟩ :: ts) rest
  | forEach (hc : Derives (.node .operand collection) ts (⟨.asWord, v₃, p₃⟩ ::
        ⟨.identifier, item, p₄⟩ :: ⟨.rightParen, v₅, p₅⟩ :: ts₁))
      (hb : Derives (.body ns) ts₁ rest) :
      Derives (.node .statement (.forEach collection item ns))
        (⟨.forEach, v₁, p₁⟩ :: ⟨.leftParen, v₂, p₂⟩ :: ts) rest
  | function (hp : Derives (.parameters params) ts (⟨.rightParen, v₄, p₄⟩ :: ts₁))
      (hb : Derives (.body ns) ts₁ rest) :
      Derives (.node .statement (.function name params ns))
        (⟨.function, v₁, p₁⟩ :: ⟨.identifier, name, p₂⟩ :: ⟨.leftParen, v₃, p₃⟩ :: ts) rest
  | ret : Derives (.node .statement .ret) (⟨.returnWord, v₁, p₁⟩ :: rest) rest
  | retWith (hv : Derives (.node .expression value) ts rest) :
      Derives (.node .statement (.retWith value)) (⟨.returnWord, v₁, p₁⟩ :: ts) rest
  | comment : Derives (.node .statement (.comment text))
      (⟨.comment, v₁, p₁⟩ :: ⟨.string, text, p₂⟩ :: rest) rest
  | print (hv : Derives (.items values) ts (⟨.rightParen, v₃, p₃⟩ :: rest)) :
      Derives (.node .statement (.print values))
        (⟨.print, v₁, p₁⟩ :: ⟨.leftParen, v₂, p₂⟩ :: ts) rest
  | blockNil : Derives (.block []) rest rest
  | blockCons (h : Derives (.node .statement n) ts ts₁) (hs : Derives (.block ns) ts₁ rest) :
      Derives (.block (n :: ns)) ts rest
  | blockSemicolon (h : Derives (.node .statement n) ts (⟨.semicolon, v₁, p₁⟩ :: ts₁))
      (hs : Derives (.block ns) ts₁ rest) : Derives (.block (n :: ns)) ts rest
  | body (hne : ns ≠ []) (h : Derives (.block ns) ts (⟨.rightBrace, v₂, p₂⟩ :: rest)) :
      Derives (.body ns) (⟨.leftBrace, v₁, p₁⟩ :: ts) rest

/-! ## Reading steps

A production is a chain of steps, each of which fails or goes on with the tokens that are left. The lemmas
here take a successful chain apart: every step has succeeded, and the tokens began with what the step asked
for. -/

/-- Two steps succeed one after the other if the first one does and the second one does on its result. -/
theorem bind_eq_ok {ε α β : Type} {x : Except ε α} {f : α → Except ε β} {b : β} :
    (x >>= f) = .ok b ↔ ∃ a, x = .ok a ∧ f a = .ok b := by
  cases x with
  | error e => simp [bind, Except.bind]
  | ok a => simp [bind, Except.bind]

/-- A complaint is no result. -/
theorem not_complain {α : Type} {ts : List Token} {c : Complaint} {a : α} :
    complain ts c ≠ .ok a := by
  simp [complain]

/-- What two equal matches found. -/
theorem found_inj {n n' : Node} {ts ts' : List Token}
    (h : (.ok (some (n, ts)) : Except SyntaxError _) = .ok (some (n', ts'))) : n = n' ∧ ts = ts' :=
  Prod.mk.inj (Option.some.inj (Except.ok.inj h))

/-- A production that does not match has found nothing. -/
theorem none_ne_found {found : Node × List Token} :
    (.ok none : Except SyntaxError (Option (Node × List Token))) ≠ .ok (some found) := by
  simp

/-- A token that was expected stood in front of what is left. -/
theorem expect_eq_ok {kind : Token.Kind} {construct : Text} {ts rest : List Token}
    (h : expect kind construct ts = .ok rest) :
    ∃ value position, ts = ⟨kind, value, position⟩ :: rest := by
  unfold expect at h
  split at h
  · next t tail =>
    split at h
    · next hkind =>
      obtain rfl := Except.ok.inj h
      exact ⟨t.value, t.position, by rw [← hkind]⟩
    · exact absurd h not_complain
  · exact absurd h not_complain

/-- What goes on after an expected token. -/
theorem expect_bind {α : Type} {kind : Token.Kind} {construct : Text} {ts : List Token} {a : α}
    {next : List Token → Except SyntaxError α} (h : (expect kind construct ts >>= next) = .ok a) :
    ∃ value position rest, ts = ⟨kind, value, position⟩ :: rest ∧ next rest = .ok a := by
  obtain ⟨rest, hexpect, hnext⟩ := bind_eq_ok.mp h
  obtain ⟨value, position, hts⟩ := expect_eq_ok hexpect
  exact ⟨value, position, rest, hts, hnext⟩

/-- What goes on after a node that must be there: the production has found it. -/
theorem require_bind {α : Type} {p : Production} {c : Complaint} {ts : List Token} {a : α}
    {next : Node × List Token → Except SyntaxError α} (h : (require p c ts >>= next) = .ok a) :
    ∃ n rest, p ts = .ok (some (n, rest)) ∧ next (n, rest) = .ok a := by
  obtain ⟨found, hrequire, hnext⟩ := bind_eq_ok.mp h
  obtain ⟨result, hp, hresult⟩ := bind_eq_ok.mp hrequire
  cases result with
  | none => exact absurd hresult not_complain
  | some r =>
    obtain rfl := Except.ok.inj hresult
    exact ⟨r.1, r.2, hp, hnext⟩

/-- The next token is of a kind that has been asked for. -/
theorem nextIs_eq_true {kind : Token.Kind} {ts : List Token} (h : nextIs kind ts = true) :
    ∃ value position rest, ts = ⟨kind, value, position⟩ :: rest := by
  cases ts with
  | nil => exact absurd h Bool.false_ne_true
  | cons t rest =>
    have hkind : t.kind = kind := eq_of_beq h
    exact ⟨t.value, t.position, rest, by rw [← hkind]⟩

/-! ## Sound productions

What is proved of the productions one by one, and what an ordered choice between them inherits. The relation
has a constructor for each alternative and does not know that one was tried before the other. -/

/-- Every node that a production finds can be read at a place. -/
def Sound (place : Place) (p : Production) : Prop :=
  ∀ ⦃ts n rest⦄, p ts = .ok (some (n, rest)) → Derives (.node place n) ts rest

/-- An ordered choice finds what one of its productions finds. -/
theorem firstOf_sound {place : Place} {ps : List Production} (h : ∀ p ∈ ps, Sound place p) :
    Sound place (firstOf ps) := by
  -- By induction on the alternatives: the first one that finds something decides.
  induction ps with
  | nil =>
    intro ts n rest hfound
    exact absurd hfound none_ne_found
  | cons p ps ih =>
    intro ts n rest hfound
    obtain ⟨result, hp, hfound⟩ := bind_eq_ok.mp hfound
    cases result with
    | some found =>
      obtain rfl := Option.some.inj (Except.ok.inj hfound)
      exact h p List.mem_cons_self hp
    | none => exact ih (fun q hq => h q (List.mem_cons_of_mem p hq)) hfound

end Grammar

end Mundart
