import Script.Proofs.Grammar.Statements
import Script.Proofs.Grammar.Viable

/-! What closes the places of a program.
An expression ends before a semicolon, a closing parenthesis or a colon, a statement before anything
but an `else`. -/
namespace Script.Grammar

/-- What stands next ends every expression. -/
def Closes (next : Option Kind) : Prop :=
  next = some (.symbol .semicolon) ∨ next = some (.symbol .rightParen) ∨
    next = some (.symbol .colon)

/-- What stands next does not go on with an `if`. -/
def NoElse (next : Option Kind) : Prop := next ≠ some (.keyword .else_)

def OpensFunction (kind : Kind) : Prop := kind = .keyword .fun_

theorem Closes.not_symbol {next : Option Kind} {s : Symbol} (h : Closes next)
    (hs : s ≠ .semicolon ∧ s ≠ .rightParen ∧ s ≠ .colon) : next ≠ some (.symbol s) := by
  rintro rfl
  rcases h with h | h | h <;> cases h <;> simp at hs

theorem Closes.next_symbol {tail : List Token} {s : Symbol} (h : Closes (ahead tail))
    (hs : s ≠ .semicolon ∧ s ≠ .rightParen ∧ s ≠ .colon) : Next (· ≠ .symbol s) tail := by
  intro t ht hk
  exact h.not_symbol hs (hk ▸ ahead_of_mem ht)

theorem Closes.not_connective {next : Option Kind} (h : Closes next) (level : Level) :
    ∀ kind ∈ next, level.connective? kind = none := by
  rintro kind ⟨⟩
  rcases h with h | h | h <;> cases h <;> cases level <;> rfl

section Alone

variable {tokens tail : List Token} {e : RawExpr}

theorem sequenceTail_passes (e : RawExpr) (h : Closes (ahead tail)) :
    Passes (fun m => sequenceTail m e) tail e tail :=
  .succ <| .of_takes 0 fun _ _ _ =>
    (Leads.accept_no (h.next_symbol (by decide))).bind .refl

theorem operationTail_passes (level : Level) (e : RawExpr) (h : Closes (ahead tail)) :
    Passes (fun m => operationTail m level e) tail e tail :=
  .succ <| .of_takes 0 fun _ _ _ =>
    (Leads.acceptMeaning_none fun t ht =>
      h.not_connective level t.kind (ahead_of_mem ht)).bind .refl

theorem callTail_passes (e : RawExpr) (h : Closes (ahead tail)) :
    Passes (fun m => callTail m e) tail e tail :=
  .succ <| .of_takes 0 fun _ _ _ =>
    (Leads.accept_no (h.next_symbol (by decide))).bind
      ((Leads.accept_no (h.next_symbol (by decide))).bind .refl)

theorem unary_passes {t : Token} (h : Passes primary (t :: tokens) e tail)
    (ht : unaryOp? t.kind = none) (closes : Closes (ahead tail)) :
    Passes unary (t :: tokens) e tail :=
  .succ <| Passes.bind (.of_takes 0 fun _ _ _ => .acceptMeaning_none (Next.cons ht)) <|
    h.bind (callTail_passes e closes)

theorem operation_passes {level : Level} (h : Passes (fun m => operand m level) tokens e tail)
    (closes : Closes (ahead tail)) : Passes (fun m => operation m level) tokens e tail :=
  .succ <| h.bind (operationTail_passes level e closes)

theorem operand_passes (h : Passes unary tokens e tail) (closes : Closes (ahead tail))
    (level : Level) : Passes (fun m => operand m level) tokens e tail := by
  have looser {level : Level} (h : Passes (fun m => operand m level) tokens e tail) :=
    operation_passes h closes
  have factor : Passes (fun m => operand m .factor) tokens e tail := .succ h
  have term : Passes (fun m => operand m .term) tokens e tail := .succ (looser factor)
  have comparison : Passes (fun m => operand m .comparison) tokens e tail :=
    .succ (looser term)
  have equality : Passes (fun m => operand m .equality) tokens e tail :=
    .succ (looser comparison)
  have and : Passes (fun m => operand m .and) tokens e tail := .succ (looser equality)
  cases level with
  | or => exact .succ (looser and)
  | and => exact and
  | equality => exact equality
  | comparison => exact comparison
  | term => exact term
  | factor => exact factor

theorem conditional_passes (h : Passes unary tokens e tail) (closes : Closes (ahead tail)) :
    Passes conditional tokens e tail := by
  have assigned : Passes assignment tokens e tail :=
    .succ <| (operation_passes (operand_passes h closes .or) closes).bind <|
      .of_takes 0 fun _ _ _ => (Leads.acceptMeaning_none fun t ht =>
        if_neg (closes.next_symbol (by decide) t ht)).bind .refl
  exact .succ <| assigned.bind <|
    .of_takes 0 fun _ _ _ => (Leads.accept_no (closes.next_symbol (by decide))).bind .refl

theorem expression_passes (h : Passes unary tokens e tail) (closes : Closes (ahead tail)) :
    Passes expression tokens e tail :=
  .succ <| (conditional_passes h closes).bind (sequenceTail_passes e closes)

/-- The shortest expression. -/
theorem nil_passes (closes : Closes (ahead tail)) :
    Passes unary (keyword .nil_ :: tail) (.literal .nil) tail :=
  unary_passes (.succ <| .of_takes 0 fun _ _ _ => Leads.peek.bind (Leads.advance.bind .refl)) rfl
    closes

theorem blockBody_passes (tail : List Token) :
    Passes blockBody (symbol .rightBrace :: tail) [] tail :=
  .succ <| .of_takes 0 fun _ _ _ =>
    Leads.atEnd_cons.bind (Leads.at_symbol.bind (Leads.expect.bind .refl))

theorem function_passes {t : Token} (ht : t.kind = .keyword .fun_) (closes : Closes (ahead tail)) :
    Passes unary (t :: symbol .leftParen :: symbol .rightParen :: symbol .leftBrace ::
      symbol .rightBrace :: tail) (.function [] []) tail := by
  obtain ⟨kind, lexeme, line⟩ := t
  cases ht
  refine unary_passes (.succ ?_) rfl closes
  refine Passes.bind (.of_takes 0 fun _ _ _ => .peek) ?_
  refine Passes.bind (.of_takes 0 fun _ _ _ => .advance) ?_
  refine Passes.bind (.of_takes 0 fun _ _ _ => .expect) ?_
  have parameters : Passes (fun m => parameters m .function)
      (symbol .rightParen :: symbol .leftBrace :: symbol .rightBrace :: tail) []
      (symbol .rightBrace :: tail) :=
    .of_takes 0 fun _ _ _ =>
      Leads.unlessAt_symbol.bind (Leads.expect.bind (Leads.expect.bind .refl))
  exact parameters.bind ((blockBody_passes tail).withLoops.bind (.pure _ _))

theorem statement_passes {t : Token} (h : Passes unary (t :: tokens) e (symbol .semicolon :: tail))
    (ht : beginsExpr t.kind = true) : Passes statement (t :: tokens) (.expression e) tail := by
  have expression : Passes expressionStatement (t :: tokens) (.expression e) tail :=
    .succ <| (expression_passes h (.inl rfl)).bind <|
      .of_takes 0 fun _ _ _ => Leads.expect.bind .refl
  exact .succ <| expression.led fun m loops => statement_expression ht loops m

end Alone

section Closing

variable {behind : Option Kind → Prop}

theorem unary_closable : Closable anything Closes unary :=
  ⟨[keyword .nil_], _, fun _ closes => ⟨trivial, nil_passes closes⟩⟩

theorem operand_closable (level : Level) : Closable anything Closes fun m => operand m level :=
  ⟨[keyword .nil_], _, fun _ closes => ⟨trivial, operand_passes (nil_passes closes) closes level⟩⟩

theorem conditional_closable : Closable anything Closes conditional :=
  ⟨[keyword .nil_], _, fun _ closes => ⟨trivial, conditional_passes (nil_passes closes) closes⟩⟩

theorem expression_closable : Closable anything Closes expression :=
  ⟨[keyword .nil_], _, fun _ closes => ⟨trivial, expression_passes (nil_passes closes) closes⟩⟩

theorem statement_closable : Closable anything behind statement :=
  ⟨[keyword .nil_, symbol .semicolon], _, fun _ _ =>
    ⟨trivial, statement_passes (nil_passes (.inl rfl)) rfl⟩⟩

theorem sequenceTail_closable (e : RawExpr) : Closable Closes Closes fun m => sequenceTail m e :=
  ⟨[], e, fun _ closes => ⟨closes, sequenceTail_passes e closes⟩⟩

theorem operationTail_closable (level : Level) (e : RawExpr) :
    Closable Closes Closes fun m => operationTail m level e :=
  ⟨[], e, fun _ closes => ⟨closes, operationTail_passes level e closes⟩⟩

theorem callTail_closable (e : RawExpr) : Closable Closes Closes fun m => callTail m e :=
  ⟨[], e, fun _ closes => ⟨closes, callTail_passes e closes⟩⟩

theorem argumentsFrom_closable (count : Nat) :
    Closable anything Closes fun m => argumentsFrom m count := by
  refine .succ (.noteIf (notesOnly_here nofun) (conditional_closable.bind fun argument => ?_))
  exact .accept_bind .pure fun _ h => h.not_symbol (by decide)

theorem parametersFrom_closable (count : Nat) :
    Closable anything Closes fun m => parametersFrom m count := by
  have first : Closable anything Closes fun _ => expectName .parameterName := .expectName
  refine .succ (.noteIf (notesOnly_here nofun) (first.bind fun param => ?_))
  exact .accept_bind .pure fun _ h => h.not_symbol (by decide)

theorem blockBody_closable : Closable (· = some (.symbol .rightBrace)) behind blockBody :=
  ⟨[symbol .rightBrace], [], fun tail _ => ⟨rfl, blockBody_passes tail⟩⟩

theorem methodList_closable :
    Closable (· = some (.symbol .rightBrace)) (· = some (.symbol .rightBrace)) methodList := by
  refine .succ ⟨[], [], fun tail htail => ⟨htail, .of_takes 0 fun fuel _ loops => ?_⟩⟩
  cases tail with
  | nil => cases htail
  | cons t rest =>
    exact Leads.atEnd_cons.bind ((Leads.at_yes (Option.some_inj.mp htail)).bind .refl)

theorem forStatement_closable : Closable anything NoElse forStatement := by
  refine .succ <| Closable.bind (.expect trivial) fun _ => ?_
  refine .accept_taken (t := symbol .semicolon) rfl <| Closable.pure.bind fun _ => ?_
  refine Closable.unlessAt.bind fun _ => .bind (.expect rfl) fun _ => ?_
  refine Closable.unlessAt.bind fun _ => .bind (.expect rfl) fun _ => ?_
  exact statement_closable.withLoops.bind fun _ => .pure

end Closing

end Script.Grammar
