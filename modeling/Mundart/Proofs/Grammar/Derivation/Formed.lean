import Mundart.Proofs.Grammar.Derivation.Statements

/-!
# What is derived is well formed

Tokens that a scanner makes carry texts of their kind. So the nodes that are read off them have names,
operators and values that are written with such texts, and stand where a node of their form may stand.

* **`Admits`** — the tokens carry what tokens of their kind can carry;
* **`Phrase.Formed`** — every node in a phrase is well formed where it stands;
* **`Derives.formed`** — by induction on the derivation, together with the tokens that are left;
* **`formed_of_parse`** — so is every statement of a parsed source.
-/

namespace Mundart

namespace Grammar

/-! ## Tokens and phrases

The condition on the tokens is one on each of them, so that it holds of what is left after a phrase. -/

/-- Tokens that carry what tokens of their kind can carry, and of numbers only the allowed ones. -/
def Admits (digits : Text → Prop) (ts : List Token) : Prop :=
  ∀ t ∈ ts, t.Fits ∧ (t.kind = .number → digits t.value)

/-- Tokens are admitted one by one. -/
theorem admits_cons {digits : Text → Prop} {kind : Token.Kind} {value : Text} {position : Nat}
    {ts : List Token} : Admits digits (⟨kind, value, position⟩ :: ts) ↔
      (kind.Carries value ∧ (kind = .number → digits value)) ∧ Admits digits ts :=
  List.forall_mem_cons

/-- Everything in a phrase may stand where it does. -/
def Phrase.Formed (number : Value → Prop) : Phrase → Prop
  | .node place n => Grammar.Formed number place n
  | .items ns => ∀ n ∈ ns, Grammar.Formed number .expression n
  | .parameters names => ∀ name ∈ names, Token.Kind.identifier.Carries name
  | .links ns ops => ops.length = ns.length ∧
      (∀ op ∈ ops, Token.Kind.andWord.Carries op ∨ Token.Kind.orWord.Carries op) ∧
      ∀ n ∈ ns, Grammar.Formed number .comparison n
  | .block ns => ∀ n ∈ ns, Grammar.Formed number .statement n
  | .body ns => ns ≠ [] ∧ ∀ n ∈ ns, Grammar.Formed number .statement n

/-- A comparison stands nowhere but as a comparison. -/
theorem Formed.comparison_of_expression {number : Value → Prop} {left right : Node} {op : Text}
    (h : Formed number .expression (.comparison left op right)) :
    Formed number .comparison (.comparison left op right) := by
  cases h with
  | ofComparison h => exact h

/-! ## Derivations

Every part of a phrase is well formed by the induction, and every token between two parts carries what the
form of the node asks of it. -/

/-- A phrase is well formed if its tokens carry what they can carry and the numbers among them have
allowed values. -/
theorem Derives.formed {number : Value → Prop} {digits : Text → Prop} {phrase : Phrase}
    {ts rest : List Token} (hnumber : ∀ {text v}, Token.Kind.number.Carries text → digits text →
      numberValue? text = some v → number v)
    (h : Derives phrase ts rest) (hts : Admits digits ts) :
    phrase.Formed number ∧ Admits digits rest := by
  -- Reading a phrase leaves tokens that are still admitted, so the next one can be read.
  induction h with
  | name =>
    obtain ⟨⟨hname, -⟩, hrest⟩ := admits_cons.mp hts
    exact ⟨.name hname, hrest⟩
  | index _ _ ihc ihi =>
    obtain ⟨hc, h₁⟩ := ihc hts
    obtain ⟨hi, h₂⟩ := ihi (admits_cons.mp h₁).2
    exact ⟨.index hc hi, (admits_cons.mp h₂).2⟩
  | ofTarget _ ih => exact ⟨.ofTarget (ih hts).1, (ih hts).2⟩
  | number hv =>
    obtain ⟨⟨hcarries, hdigits⟩, hrest⟩ := admits_cons.mp hts
    exact ⟨.number (hnumber hcarries (hdigits rfl) hv), hrest⟩
  | string =>
    obtain ⟨⟨htext, -⟩, hrest⟩ := admits_cons.mp hts
    exact ⟨.string htext, hrest⟩
  | trueWord => exact ⟨.truth true, (admits_cons.mp hts).2⟩
  | falseWord => exact ⟨.truth false, (admits_cons.mp hts).2⟩
  | array _ ih =>
    obtain ⟨hns, h₁⟩ := ih (admits_cons.mp hts).2
    exact ⟨.array hns, (admits_cons.mp h₁).2⟩
  | assoc _ _ ihk ihv =>
    obtain ⟨hk, h₁⟩ := ihk (admits_cons.mp hts).2
    simp only [admits_cons] at h₁
    obtain ⟨hv, h₂⟩ := ihv h₁.2.2.2
    exact ⟨.assoc hk hv, (admits_cons.mp h₂).2⟩
  | property _ hf ih =>
    obtain ⟨ho, h₁⟩ := ih hts
    simp only [admits_cons] at h₁
    exact ⟨.property ho h₁.2.1.1 hf, h₁.2.2⟩
  | propertyCall _ hf ih =>
    obtain ⟨ho, h₁⟩ := ih hts
    simp only [admits_cons] at h₁
    exact ⟨.propertyCall ho h₁.2.1.1 hf, h₁.2.2.2.2⟩
  | propertyWith _ hf _ iho iha =>
    obtain ⟨ho, h₁⟩ := iho hts
    simp only [admits_cons] at h₁
    obtain ⟨ha, h₂⟩ := iha h₁.2.2.2
    exact ⟨.propertyWith ho h₁.2.1.1 hf ha, (admits_cons.mp h₂).2⟩
  | filter _ _ ihc ihp =>
    obtain ⟨hc, h₁⟩ := ihc hts
    simp only [admits_cons] at h₁
    obtain ⟨-, -, -, hitem, -, -, hts₁⟩ := h₁
    obtain ⟨hp, h₂⟩ := ihp hts₁
    simp only [admits_cons] at h₂
    exact ⟨.filter hc hitem.1 hp, h₂.2.2⟩
  | fetch _ ih =>
    simp only [admits_cons] at hts
    obtain ⟨hu, h₁⟩ := ih hts.2.2
    exact ⟨.fetch hu, (admits_cons.mp h₁).2⟩
  | call _ ih =>
    simp only [admits_cons] at hts
    obtain ⟨ha, h₁⟩ := ih hts.2.2
    exact ⟨.call hts.1.1 ha, (admits_cons.mp h₁).2⟩
  | ofPrimary _ ih => exact ⟨.ofPrimary (ih hts).1, (ih hts).2⟩
  | unary hpost _ ih =>
    obtain ⟨hn, h₁⟩ := ih hts
    obtain ⟨⟨hop, -⟩, hrest⟩ := admits_cons.mp h₁
    exact ⟨.unary hop hpost hn, hrest⟩
  | binary hpost _ _ ihl ihr =>
    obtain ⟨hl, h₁⟩ := ihl hts
    obtain ⟨⟨hop, -⟩, hts₁⟩ := admits_cons.mp h₁
    obtain ⟨hr, hrest⟩ := ihr hts₁
    exact ⟨.binary hop hpost hl hr, hrest⟩
  | ofOperand _ ih => exact ⟨.ofOperand (ih hts).1, (ih hts).2⟩
  | comparison _ _ ihl ihr =>
    obtain ⟨hl, h₁⟩ := ihl hts
    obtain ⟨⟨hop, -⟩, hts₁⟩ := admits_cons.mp h₁
    obtain ⟨hr, hrest⟩ := ihr hts₁
    exact ⟨.comparison hop hl hr, hrest⟩
  | ofComparison _ ih => exact ⟨.ofComparison (ih hts).1, (ih hts).2⟩
  | @chain n ts ts₁ ns ops rest _ hne _ ih ihs =>
    obtain ⟨hn, h₁⟩ := ih hts
    obtain ⟨⟨hlen, hops, hns⟩, hrest⟩ := ihs h₁
    have htwo : 0 < ns.length := List.length_pos_of_ne_nil hne
    refine ⟨.chain ?_ ?_ hops (List.forall_mem_cons.mpr ⟨hn, hns⟩), hrest⟩
    · rw [List.length_cons]
      omega
    · rw [List.length_cons, hlen]
  | linksNil => exact ⟨⟨rfl, by simp, by simp⟩, hts⟩
  | linksCons hk _ _ ih ihs =>
    obtain ⟨⟨hop, -⟩, hts₁⟩ := admits_cons.mp hts
    obtain ⟨hn, h₁⟩ := ih hts₁
    obtain ⟨⟨hlen, hops, hns⟩, hrest⟩ := ihs h₁
    refine ⟨⟨by simp [hlen], List.forall_mem_cons.mpr ⟨?_, hops⟩,
      List.forall_mem_cons.mpr ⟨hn, hns⟩⟩, hrest⟩
    rcases hk with rfl | rfl
    · exact .inl hop
    · exact .inr hop
  | itemsNil => exact ⟨by simp [Phrase.Formed], hts⟩
  | itemsLast _ ih => exact ⟨List.forall_mem_singleton.mpr (ih hts).1, (ih hts).2⟩
  | itemsCons _ _ ih ihs =>
    obtain ⟨hn, h₁⟩ := ih hts
    obtain ⟨hns, hrest⟩ := ihs (admits_cons.mp h₁).2
    exact ⟨List.forall_mem_cons.mpr ⟨hn, hns⟩, hrest⟩
  | parametersNil => exact ⟨by simp [Phrase.Formed], hts⟩
  | parametersLast =>
    obtain ⟨⟨hname, -⟩, hrest⟩ := admits_cons.mp hts
    exact ⟨List.forall_mem_singleton.mpr hname, hrest⟩
  | parametersCons _ ih =>
    simp only [admits_cons] at hts
    obtain ⟨hnames, hrest⟩ := ih hts.2.2
    exact ⟨List.forall_mem_cons.mpr ⟨hts.1.1, hnames⟩, hrest⟩
  | declare _ ih =>
    simp only [admits_cons] at hts
    obtain ⟨hi, hrest⟩ := ih hts.2.2.2
    exact ⟨.declare hts.2.1.1 hi, hrest⟩
  | assign _ ih =>
    simp only [admits_cons] at hts
    obtain ⟨hv, hrest⟩ := ih hts.2.2
    exact ⟨.assign hts.1.1 hv, hrest⟩
  | updateAssign _ ih => exact ⟨.updateAssign (ih hts).1, (ih hts).2⟩
  | updateExpression _ ih => exact ⟨.updateExpression (ih hts).1, (ih hts).2⟩
  | ofStart _ ih => exact ⟨.ofStart (ih hts).1, (ih hts).2⟩
  | ofExpression _ ih => exact ⟨.ofExpression (ih hts).1, (ih hts).2⟩
  | indexAssign _ _ ihp ihv =>
    simp only [admits_cons] at hts
    obtain ⟨hp, h₁⟩ := ihp hts.2.2
    simp only [admits_cons] at h₁
    obtain ⟨hv, hrest⟩ := ihv h₁.2.2
    exact ⟨.indexAssign hts.1.1 hp hv, hrest⟩
  | ifThen _ _ iht ihb =>
    simp only [admits_cons] at hts
    obtain ⟨ht, h₁⟩ := iht hts.2.2
    obtain ⟨hb, hrest⟩ := ihb (admits_cons.mp h₁).2
    exact ⟨.ifThen ht hb.1 hb.2, hrest⟩
  | ifElse _ _ _ iht ihb iho =>
    simp only [admits_cons] at hts
    obtain ⟨ht, h₁⟩ := iht hts.2.2
    obtain ⟨hb, h₂⟩ := ihb (admits_cons.mp h₁).2
    obtain ⟨ho, hrest⟩ := iho (admits_cons.mp h₂).2
    exact ⟨.ifElse ht hb.1 hb.2 ho.1 ho.2, hrest⟩
  | elseIf _ _ _ iht ihb iho =>
    simp only [admits_cons] at hts
    obtain ⟨ht, h₁⟩ := iht hts.2.2
    obtain ⟨hb, h₂⟩ := ihb (admits_cons.mp h₁).2
    obtain ⟨ho, hrest⟩ := iho (admits_cons.mp h₂).2
    exact ⟨.ifElse ht hb.1 hb.2 (List.cons_ne_nil _ _) (List.forall_mem_singleton.mpr ho), hrest⟩
  | forLoop _ _ _ _ ihs iht ihu ihb =>
    simp only [admits_cons] at hts
    obtain ⟨hs, h₁⟩ := ihs hts.2.2
    obtain ⟨ht, h₂⟩ := iht (admits_cons.mp h₁).2
    obtain ⟨hu, h₃⟩ := ihu (admits_cons.mp h₂).2
    obtain ⟨hb, hrest⟩ := ihb (admits_cons.mp h₃).2
    exact ⟨.forLoop hs (Formed.comparison_of_expression ht) hu hb.1 hb.2, hrest⟩
  | whileLoop _ _ iht ihb =>
    simp only [admits_cons] at hts
    obtain ⟨ht, h₁⟩ := iht hts.2.2
    obtain ⟨hb, hrest⟩ := ihb (admits_cons.mp h₁).2
    exact ⟨.whileLoop ht hb.1 hb.2, hrest⟩
  | forEach _ _ ihc ihb =>
    simp only [admits_cons] at hts
    obtain ⟨hc, h₁⟩ := ihc hts.2.2
    simp only [admits_cons] at h₁
    obtain ⟨hb, hrest⟩ := ihb h₁.2.2.2
    exact ⟨.forEach hc h₁.2.1.1 hb.1 hb.2, hrest⟩
  | function _ _ ihp ihb =>
    simp only [admits_cons] at hts
    obtain ⟨hp, h₁⟩ := ihp hts.2.2.2
    obtain ⟨hb, hrest⟩ := ihb (admits_cons.mp h₁).2
    exact ⟨.function hts.2.1.1 hp hb.1 hb.2, hrest⟩
  | ret => exact ⟨.ret, (admits_cons.mp hts).2⟩
  | retWith _ ih =>
    obtain ⟨hv, hrest⟩ := ih (admits_cons.mp hts).2
    exact ⟨.retWith hv, hrest⟩
  | comment =>
    simp only [admits_cons] at hts
    exact ⟨.comment hts.2.1.1, hts.2.2⟩
  | print _ ih =>
    simp only [admits_cons] at hts
    obtain ⟨hv, h₁⟩ := ih hts.2.2
    exact ⟨.print hv, (admits_cons.mp h₁).2⟩
  | blockNil => exact ⟨by simp [Phrase.Formed], hts⟩
  | blockCons _ _ ih ihs =>
    obtain ⟨hn, h₁⟩ := ih hts
    obtain ⟨hns, hrest⟩ := ihs h₁
    exact ⟨List.forall_mem_cons.mpr ⟨hn, hns⟩, hrest⟩
  | blockSemicolon _ _ ih ihs =>
    obtain ⟨hn, h₁⟩ := ih hts
    obtain ⟨hns, hrest⟩ := ihs (admits_cons.mp h₁).2
    exact ⟨List.forall_mem_cons.mpr ⟨hn, hns⟩, hrest⟩
  | body hne _ ih =>
    obtain ⟨hns, h₁⟩ := ih (admits_cons.mp hts).2
    exact ⟨⟨hne, hns⟩, (admits_cons.mp h₁).2⟩

/-- The statements of a parsed source are well formed, whatever its numbers are. -/
theorem formed_of_parse {source : Text} {program : Program}
    (h : Program.parse source = .ok program) : ∀ n ∈ program, Formed (fun _ => True) .statement n := by
  have hts : Admits (fun _ => True) (Token.scan source) := fun t ht =>
    ⟨Token.fits_of_mem_scan ht, fun _ => trivial⟩
  exact ((derives_of_ofTokens h).formed (fun _ _ _ => trivial) hts).1

end Grammar

end Mundart
