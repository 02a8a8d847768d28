import Mundart.Proofs.Grammar.RoundTrip.Statements

/-!
# Reading canonical tokens

Productions try alternatives in order, some of which give up quietly and some of which end all
reading. On canonical tokens none of this gets in the way: every node is read back from its tokens,
whatever stands behind them, as long as the next token does not extend the node (`Stops`).

* **`ReadsAt place n`** — the productions of the place read the node back from its tokens, and no assignment
  is read off those of an expression;
* **`Formed.readsAt`** — both hold of every well-formed node, by induction on its form;
* **`Program.ofTokens_iff_wellFormed`** — reading accepts the well-formed programs and no others.
-/

namespace Mundart

namespace Grammar

open Token

/-! ## Every well-formed node is read back

The induction is on the form of the node, since it is this form that says at which place the parts of the
node stand. -/

/-- What is known of a node at a place: it is read back, and an expression is no assignment. -/
def ReadsAt : Place → Node → Prop
  | .target, n => ReadsTarget n ∧ QuietTarget n
  | .primary, n => ReadsPrimary n ∧ Quiet n
  | .operand, n => ReadsOperand n ∧ Quiet n
  | .comparison, n => ReadsComparison n ∧ Quiet n
  | .expression, n => ReadsExpression n ∧ Quiet n
  | .start, n => ReadsStart n
  | .update, n => ReadsUpdate n
  | .statement, n => ReadsStatement n

/-- A well-formed node is read back wherever it may stand. -/
theorem Formed.readsAt {place : Place} {n : Node} (h : Formed IntegerLiteral place n) :
    ReadsAt place n := by
  -- One case for every form. The part about reading back comes from the lemma for that form, and the other
  -- one from the first token or from what stands behind a name.
  induction h with
  -- Targets.
  | @name name _ => exact ⟨readsTarget_name name, quietTarget_name name⟩
  | index _ _ hc hp => exact ⟨readsTarget_index hc.1 hp.1, quietTarget_index hc.1 hc.2 hp.1⟩
  -- Primary expressions. They start with no name, or go on behind it with no bracket and no sign.
  | ofTarget _ h => exact ⟨readsPrimary_target h.1, h.2.quiet⟩
  | @number v hv =>
    obtain ⟨n, hn, rfl⟩ := hv
    refine ⟨readsPrimary_number hn, ?_⟩
    exact quiet_of_head (ofLiteral_integer hn) (by simp [word])
  | string _ => exact ⟨readsPrimary_string _, quiet_of_head rfl (by simp [word])⟩
  | truth b =>
    refine ⟨readsPrimary_truth b, ?_⟩
    cases b with
    | true => exact quiet_of_head rfl (by decide)
    | false => exact quiet_of_head rfl (by decide)
  | array _ he =>
    exact ⟨readsPrimary_array fun n hn => (he n hn).1, quiet_of_head rfl (by decide)⟩
  | assoc _ _ hk hv =>
    exact ⟨readsPrimary_assoc (fun n hn => (hk n hn).1) fun n hn => (hv n hn).1,
      quiet_of_head rfl (by decide)⟩
  | property _ _ hf ho =>
    exact ⟨readsPrimary_property ho.1 hf, ho.2.quiet.append rfl (by decide) (by decide)⟩
  | propertyCall _ _ hf ho =>
    exact ⟨readsPrimary_propertyCall ho.1 hf, ho.2.quiet.append rfl (by decide) (by decide)⟩
  | propertyWith _ _ hf _ ho ha =>
    exact ⟨readsPrimary_propertyWith ho.1 hf ha.1, ho.2.quiet.append rfl (by decide) (by decide)⟩
  | filter _ _ _ hc hp =>
    exact ⟨readsPrimary_filter hc.1 hp.1, hc.2.quiet.append rfl (by decide) (by decide)⟩
  | fetch _ hu => exact ⟨readsPrimary_fetch hu.1, quiet_of_head rfl (by decide)⟩
  | @call name args _ _ ha =>
    exact ⟨readsPrimary_call fun n hn => (ha n hn).1,
      (quietTarget_name name).quiet.append rfl (by decide) (by decide)⟩
  -- Operators.
  | ofPrimary _ h => exact ⟨h.1.operand, h.2⟩
  | unary _ hpost _ h =>
    exact ⟨readsOperand_unary hpost h.1, h.2.append rfl (by simp [word]) (by simp [word])⟩
  | binary _ hpost _ _ hl hr =>
    exact ⟨readsOperand_binary hpost hl.1 hr.1, hl.2.append rfl (by simp [word]) (by simp [word])⟩
  | ofOperand _ h => exact ⟨h.1.comparison, h.2⟩
  | comparison _ _ _ hl hr =>
    exact ⟨readsComparison_comparison hl.1 hr.1, hl.2.append rfl (by simp [word]) (by simp [word])⟩
  | ofComparison _ h => exact ⟨h.1.expression, h.2⟩
  | chain htwo hlen _ _ h =>
    refine ⟨readsExpression_chain htwo hlen fun n hn => (h n hn).1, ?_⟩
    obtain ⟨n, ns, op, ops, rfl, rfl, -⟩ := chain_cases htwo hlen
    have hlink := kind_link op
    refine (h n List.mem_cons_self).2.append rfl ?_ ?_
    · rcases hlink with hkind | hkind <;> simp [hkind]
    · rcases hlink with hkind | hkind <;> simp [hkind]
  -- Statements.
  | declare _ _ hi => exact readsStart_declare hi.1
  | assign _ _ hv => exact readsStart_assign hv.1
  | updateAssign _ h => exact readsUpdate_assign h
  | updateExpression _ h => exact readsUpdate_expression h.1 h.2
  | ofStart _ h => exact readsStatement_start h
  | ofExpression _ h => exact readsStatement_expression h.1 h.2
  | indexAssign _ _ _ hp hv => exact readsStatement_indexAssign hp.1 hv.1
  | ifThen _ hne _ ht hb => exact readsStatement_ifThen hne hb ht.1
  | ifElse _ hne _ hne' _ ht hb ho => exact readsStatement_ifElse hne hb ht.1 hne' ho
  | forLoop _ _ _ hne _ hs ht hu hb => exact readsStatement_forLoop hne hb hs ht.1 hu
  | whileLoop _ hne _ ht hb => exact readsStatement_whileLoop hne hb ht.1
  | forEach _ _ hne _ hc hb => exact readsStatement_forEach hne hb hc.1
  | function _ _ hne _ hb => exact readsStatement_function hne hb
  | ret => exact readsStatement_ret
  | retWith _ hv => exact readsStatement_retWith hv.1
  | comment _ => exact readsStatement_comment
  | print _ hv => exact readsStatement_print fun n hn => (hv n hn).1

end Grammar

/-! ## Programs

A program is a block with nothing behind it. What was proved of derivations gives one direction, and the
reading of canonical tokens the other one. -/

namespace Program

open Grammar

/-- The canonical tokens of a well-formed program carry what they can carry. -/
theorem admits_tokens {program : Program} (h : program.WellFormed) : Admits Integral program.tokens :=
  admits_block fun n hn => (h n hn).admits

/-- A well-formed program is read back from its canonical tokens. -/
theorem parse_tokens {program : Program} (h : program.WellFormed) :
    ofTokens program.tokens = .ok program := by
  have hblock := block_found (statementAt_skip (program.tokens.length + 1) (.inl rfl))
    (fun n hn => (h n hn).readsAt) (Nat.le_succ program.tokens.length)
  rw [List.append_nil] at hblock
  show (block (statementAt (program.tokens.length + 1)) program.tokens >>= _) = _
  rw [show program.tokens = Node.blockTokens program from rfl] at hblock ⊢
  rw [hblock]
  rfl

/-- What is read off admitted tokens is well formed. -/
theorem wellFormed_of_ofTokens {ts : List Token} {program : Program} (hts : Admits Integral ts)
    (h : ofTokens ts = .ok program) : program.WellFormed :=
  ((derives_of_ofTokens h).formed integerLiteral_of_digits hts).1

/-- The programs that token lists with integer numbers are read as are exactly the well-formed ones,
and a well-formed program is read back from its canonical tokens. -/
theorem ofTokens_iff_wellFormed (program : Program) :
    ((∃ ts, Admits Integral ts ∧ ofTokens ts = .ok program) ↔ program.WellFormed) ∧
      (program.WellFormed →
        Admits Integral program.tokens ∧ ofTokens program.tokens = .ok program) := by
  refine ⟨⟨?_, fun h => ⟨program.tokens, admits_tokens h, parse_tokens h⟩⟩,
    fun h => ⟨admits_tokens h, parse_tokens h⟩⟩
  rintro ⟨ts, hts, h⟩
  exact wellFormed_of_ofTokens hts h

/-- `heast i = 0; geh weida (i klana 3) { i plusplus; };` -/
def counting : Program := [
  .declare "i" (.literal (.int 0)),
  .whileLoop (.comparison (.identifier "i") "klana" (.literal (.int 3)))
    [.unary "plusplus" (.identifier "i")]]

/-- The program is well formed, part by part. -/
theorem counting_wellFormed : counting.WellFormed := by
  have hi : Token.Kind.identifier.Carries "i" := ⟨"i", by decide +kernel⟩
  have hless : Token.Kind.comparison.Carries "klana" := ⟨"klana", by decide +kernel⟩
  have hplus : Token.Kind.arithmetic.Carries "plusplus" := ⟨"plusplus", by decide +kernel⟩
  have hname : Formed IntegerLiteral .primary (.identifier "i") := .ofTarget (.name hi)
  have hzero : IntegerLiteral (.int 0) := ⟨0, by decide, rfl⟩
  have hthree : IntegerLiteral (.int 3) := ⟨3, by decide, rfl⟩
  have htest : Formed IntegerLiteral .expression
      (.comparison (.identifier "i") "klana" (.literal (.int 3))) :=
    .ofComparison (.comparison hless (.ofPrimary hname) (.ofPrimary (.number hthree)))
  have hstep : Formed IntegerLiteral .statement (.unary "plusplus" (.identifier "i")) :=
    .ofExpression (.ofComparison (.ofOperand (.unary hplus rfl hname)))
  refine List.forall_mem_cons.mpr ⟨.ofStart (.declare hi ?_), List.forall_mem_singleton.mpr ?_⟩
  · exact .ofComparison (.ofOperand (.ofPrimary (.number hzero)))
  · exact .whileLoop htest (by simp) (List.forall_mem_singleton.mpr hstep)

theorem ofTokens_iff_wellFormed_counting :
    counting.WellFormed ∧ ofTokens counting.tokens = .ok counting :=
  ⟨counting_wellFormed, ((ofTokens_iff_wellFormed counting).2 counting_wellFormed).2⟩

end Program

end Mundart
