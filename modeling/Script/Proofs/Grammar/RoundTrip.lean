import Script.Proofs.Grammar.Statements

/-! Reading undoes writing.
A proper tree is read back from its own tokens, as it is and without a complaint. -/
namespace Script.Grammar

open Lexical

section

variable {e : RawExpr} {l : Level}

theorem takesExpression_of (proper : ProperExpr e) (h : Reads e) : TakesExpression e :=
  h.takesExpression (writeExpr_length proper)

theorem takesConditional_of (proper : ProperExpr e) (hg : Grade.conditional.Admits e)
    (h : Reads e) : TakesConditional e := h.takesConditional (writeExpr_length proper) hg

theorem leadsLevel_of (proper : ProperExpr e) (hg : (Grade.level l).Admits e) (h : Reads e) :
    LeadsLevel e l := h.leadsLevel (writeExpr_length proper) hg

theorem takesOperand_of (proper : ProperExpr e) (hg : l.rank < e.grade.rank) (h : Reads e) :
    TakesOperand e l := h.takesOperand (writeExpr_length proper) l hg

theorem leadsCall_of (hg : Grade.call.Admits e) (h : Reads e) : LeadsCall e := by
  unfold Reads at h
  rw [grade_of_call hg] at h
  exact h

end

mutual

theorem readExpr (e : RawExpr) (h : ProperExpr e) : Reads e := by
  match e with
  | .literal value => exact leadsCall_literal value
  | .grouping inner => exact leadsCall_grouping h (takesExpression_of h (readExpr inner h))
  | .variable name () => exact leadsCall_variable name
  | .this line () => exact leadsCall_this line
  | .assign name () value =>
    have target : Reads (.variable name ()) := leadsCall_variable name
    exact takesConditional_assign (.variable name ()) rfl rfl
      (leadsLevel_of trivial (show 2 ≤ 9 by decide) target)
      (takesConditional_of h.2 h.1 (readExpr value h.2))
  | .unary op line operand =>
    exact takesUnary_unary ((readExpr operand h.2).takesUnary (writeExpr_length h.2) h.1)
  | .binary left op line right =>
    obtain ⟨hleft, hright, properLeft, properRight⟩ := h
    exact leadsLevel_join (t := symbolAt op.symbol line) (connective_binary op) rfl
      (fun _ => ended_binary) (leadsLevel_of properLeft hleft (readExpr left properLeft))
      (takesOperand_of properRight hright (readExpr right properRight))
  | .logical left op line right =>
    obtain ⟨hleft, hright, properLeft, properRight⟩ := h
    exact leadsLevel_join (t := keywordAt op.keyword line) (connective_logical op) rfl
      (fun _ => ended_logical) (leadsLevel_of properLeft hleft (readExpr left properLeft))
      (takesOperand_of properRight hright (readExpr right properRight))
  | .ternary condition yes no =>
    obtain ⟨hcondition, hyes, hno, properCondition, properYes, properNo⟩ := h
    exact takesConditional_ternary
      (leadsLevel_of properCondition hcondition (readExpr condition properCondition))
      (writeExpr_length properCondition) (takesConditional_of properYes hyes (readExpr yes properYes))
      (takesConditional_of properNo hno (readExpr no properNo))
  | .sequence earlier last =>
    obtain ⟨hlast, properEarlier, properLast⟩ := h
    exact leadsSequence_sequence
      ((readExpr earlier properEarlier).leadsSequence (writeExpr_length properEarlier))
      (takesConditional_of properLast hlast (readExpr last properLast))
  | .call callee line arguments =>
    obtain ⟨hcallee, hcount, properCallee, properArguments⟩ := h
    exact leadsCall_call (leadsCall_of hcallee (readExpr callee properCallee)) hcount
      properArguments (readArguments arguments properArguments)
  | .get object property => exact leadsCall_get (leadsCall_of h.1 (readExpr object h.2))
  | .set object property value =>
    obtain ⟨hobject, hvalue, properObject, properValue⟩ := h
    have target : Reads (.get object property) :=
      leadsCall_get (leadsCall_of hobject (readExpr object properObject))
    exact takesConditional_assign (.get object property) (by simp [writeExpr]) rfl
      (leadsLevel_of ⟨hobject, properObject⟩ (show 2 ≤ 9 by decide) target)
      (takesConditional_of properValue hvalue (readExpr value properValue))
  | .function params body => exact leadsCall_function h (readStmts body h.2)

theorem readArguments (arguments : List RawExpr) (h : ProperArguments arguments) :
    TakesArguments arguments := by
  match arguments with
  | [] => exact fun _ _ _ _ _ hne => absurd rfl hne
  | [e] => exact takesArguments_one (takesConditional_of h.2.1 h.1 (readExpr e h.2.1))
  | e :: f :: more =>
    exact takesArguments_more (takesConditional_of h.2.1 h.1 (readExpr e h.2.1))
      (readArguments (f :: more) h.2.2) (List.cons_ne_nil _ _)

theorem readStmt {inLoop : Bool} (s : RawStmt) (h : ProperStmt inLoop s) :
    ReadsStmt inLoop s := by
  match s with
  | .expression e => exact takesStmt_expression h (takesExpression_of h (readExpr e h))
  | .print e => exact takesStmt_print (takesExpression_of h (readExpr e h))
  | .var name none => exact takesDeclared_var name
  | .var name (some e) => exact takesDeclared_varValue name (takesExpression_of h (readExpr e h))
  | .block body => exact takesStmt_block (readStmts body h)
  | .step _ _ => exact h.elim
  | .if_ condition yes none =>
    obtain ⟨properCondition, hyes, properYes⟩ := h
    exact takesStmt_if (takesExpression_of properCondition (readExpr condition properCondition))
      ((readStmt yes properYes).takesStmt hyes)
  | .if_ condition yes (some no) =>
    obtain ⟨properCondition, hyes, hno, hclosed, properYes, properNo⟩ := h
    exact takesStmt_ifElse
      (takesExpression_of properCondition (readExpr condition properCondition))
      ((readStmt yes properYes).takesStmt hyes) hclosed ((readStmt no properNo).takesStmt hno)
  | .while_ condition body =>
    obtain ⟨properCondition, hbody, properBody⟩ := h
    exact takesStmt_while (takesExpression_of properCondition (readExpr condition properCondition))
      ((readStmt body properBody).takesStmt hbody)
  | .jump jump line =>
    cases h
    exact takesStmt_jump jump line
  | .function name params body => exact takesDeclared_function name h.1 (readStmts body h.2)
  | .return_ line none => exact takesStmt_return line
  | .return_ line (some e) =>
    exact takesStmt_returnValue line h (takesExpression_of h (readExpr e h))
  | .class_ name methods => exact takesDeclared_class name (readMethods methods h)

theorem readStmts {inLoop : Bool} (ss : List RawStmt) (h : ProperStmts inLoop ss) :
    TakesBody inLoop ss := by
  match ss with
  | [] => exact takesBody_nil
  | s :: ss => exact takesBody_cons h ((readStmt s h.1).takesDeclared h.1) (readStmts ss h.2)

theorem readMethods (methods : List RawMethod) (h : ProperMethods methods) :
    TakesMethods methods := by
  match methods with
  | [] => exact takesMethods_nil
  | .mk name params body :: methods =>
    obtain ⟨hparams, properBody, properMethods⟩ := h
    exact takesMethods_cons name hparams (readStmts body properBody)
      (readMethods methods properMethods)

end

/-- Declarations up to the end, outside of all loops. -/
theorem declarations_takes {ss : List RawStmt} (proper : ProperStmts false ss) (fuel : Nat)
    (hfuel : 24 * (writeStmts ss).length + 4 ≤ fuel) :
    Takes 0 (declarations fuel) (writeStmts ss) ss [] := by
  induction ss generalizing fuel with
  | nil =>
    obtain ⟨fuel, rfl⟩ : ∃ k, fuel = k + 1 := ⟨fuel - 1, by omega⟩
    exact Leads.atEnd_nil.bind .refl
  | cons s ss ih =>
    have hw := writeStmt_length proper.1
    simp only [writeStmts, List.length_append] at hfuel ⊢
    obtain ⟨fuel, rfl⟩ : ∃ k, fuel = k + 1 := ⟨fuel - 1, by omega⟩
    have next : Next (· ≠ .keyword .else_) (writeStmts ss) := by
      have := writeStmts_else proper.2 (Next.nil (P := (· ≠ .keyword .else_)))
      rwa [List.append_nil] at this
    have read := (readStmt s proper.1).takesDeclared proper.1
    have first := declaration_takes read 0 fuel _ nofun (by omega) fun _ => next
    have more := ih proper.2 fuel (by omega)
    obtain ⟨t, others, hb⟩ := writeStmt_begins proper.1
    rw [declarations, Rules.declarations]
    rw [hb.eq] at first ⊢
    exact Leads.atEnd_cons.bind (first.bind (more.bind .refl))

/-- A proper program comes back from its tokens, and nothing is complained of. -/
theorem readProgram_writeStmts (program : List RawStmt) (proper : ProperStmts false program)
    (endLine : Nat) : readProgram (writeStmts program) endLine = ⟨program, []⟩ := by
  have fuel : 24 * (writeStmts program).length + 4 ≤ fuelFor (writeStmts program) := by
    rw [fuelFor]
    omega
  have read := declarations_takes proper _ fuel endLine []
  rw [readProgram, read]
  rfl

/-- The program `if (a) b - c - d; else while (e) break;`. -/
def branching : List RawStmt :=
  let name := fun text => Expr.variable ⟨text, 1⟩ ()
  let difference := Expr.binary (.binary (name "b") .subtract 1 (name "c")) .subtract 1 (name "d")
  [.if_ (name "a") (.expression difference) (some (.while_ (name "e") (.jump .break_ 1)))]

theorem readProgram_writeStmts_branching : ProperStmts false branching ∧
    readProgram (writeStmts branching) 1 = ⟨branching, []⟩ :=
  ⟨by decide, readProgram_writeStmts branching (by decide) 1⟩

end Script.Grammar
