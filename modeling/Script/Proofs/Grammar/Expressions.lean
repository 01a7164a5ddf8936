import Script.Proofs.Grammar.Taking
import Script.Proofs.Grammar.Writing

/-! Reading an expression that was written.
A reading of a grade with operators first takes an operand and then goes on in its tail, with the
expression so far on the left. -/
namespace Script.Grammar

/-- A token of the kind goes on with an expression of the grade. -/
def Grade.continues : Grade → Kind → Bool
  | sequence, .symbol .comma => true
  | conditional, .symbol .question => true
  | conditional, .symbol .equal => true
  | level l, k => (l.connective? k).isSome
  | call, .symbol .leftParen => true
  | call, .symbol .dot => true
  | _, _ => false

/-- What comes next does not go on with anything of the rank or tighter. -/
def Ended (rank : Nat) (rest : List Token) : Prop :=
  Next (fun k => ∀ g : Grade, rank ≤ g.rank → g.continues k = false) rest

theorem Ended.mono {m n : Nat} {rest : List Token} (h : Ended m rest) (hmn : m ≤ n) :
    Ended n rest :=
  Next.mono h fun _ hk g hg => hk g (Nat.le_trans hmn hg)

theorem Ended.not_continues {n : Nat} {rest : List Token} (h : Ended n rest) (g : Grade)
    (hg : n ≤ g.rank) : Next (fun k => g.continues k = false) rest :=
  Next.mono h fun _ hk => hk g hg

theorem ended_symbol {n : Nat} {s : Symbol} {line : Nat} {rest : List Token}
    (h : ∀ g : Grade, n ≤ g.rank → g.continues (.symbol s) = false) :
    Ended n (symbolAt s line :: rest) := Next.cons h

theorem ended_closer {s : Symbol} {rest : List Token}
    (h : s = .rightParen ∨ s = .semicolon ∨ s = .colon) (line : Nat) :
    Ended 0 (symbolAt s line :: rest) := by
  apply ended_symbol
  intro g _
  rcases h with rfl | rfl | rfl <;> cases g with
  | level l => cases l <;> rfl
  | _ => rfl

theorem ended_comma {rest : List Token} : Ended 1 (symbol .comma :: rest) := by
  apply ended_symbol
  intro g hg
  cases g with
  | level l => cases l <;> rfl
  | sequence => cases hg
  | _ => rfl

theorem ended_question {rest : List Token} : Ended 2 (symbol .question :: rest) := by
  apply ended_symbol
  intro g hg
  cases g with
  | level l => cases l <;> rfl
  | conditional => exact absurd hg (by decide)
  | _ => rfl

theorem ended_equal {rest : List Token} : Ended 2 (symbol .equal :: rest) := by
  apply ended_symbol
  intro g hg
  cases g with
  | level l => cases l <;> rfl
  | conditional => exact absurd hg (by decide)
  | _ => rfl

theorem connective_binary (op : BinaryOp) :
    op.level.connective? (.symbol op.symbol) = some (.binary op) := by
  cases op <;> rfl

theorem connective_logical (op : LogicalOp) :
    op.level.connective? (.keyword op.keyword) = some (.logical op) := by
  cases op <;> rfl

/-- An operator goes on with nothing tighter than its own level. -/
theorem ended_binary {op : BinaryOp} {line : Nat} {rest : List Token} :
    Ended (op.level.rank + 1) (symbolAt op.symbol line :: rest) := by
  apply ended_symbol
  intro g hg
  cases g with
  | level l => cases op <;> cases l <;> first | rfl | exact absurd hg (by decide)
  | _ => cases op <;> rfl

theorem ended_logical {op : LogicalOp} {line : Nat} {rest : List Token} :
    Ended (op.level.rank + 1) (keywordAt op.keyword line :: rest) := by
  apply Next.cons
  intro g hg
  cases g with
  | level l => cases op <;> cases l <;> first | rfl | exact absurd hg (by decide)
  | _ => cases op <;> rfl

theorem rank_bounds (l : Level) : 2 ≤ l.rank ∧ l.rank ≤ 7 := by cases l <;> decide

theorem rank_tighter {l m : Level} (h : l.tighter? = some m) : m.rank = l.rank + 1 := by
  cases l <;> cases h <;> rfl

theorem rank_tightest {l : Level} (h : l.tighter? = none) : l.rank = 7 := by
  cases l <;> first | rfl | cases h

/-- A token of the kind begins an expression that is no unary operation. -/
def beginsCall : Kind → Bool
  | .name => true
  | .number _ => true
  | .string _ => true
  | .keyword .false_ => true
  | .keyword .true_ => true
  | .keyword .nil_ => true
  | .keyword .this_ => true
  | .keyword .fun_ => true
  | .symbol .leftParen => true
  | _ => false

def beginsExpr (k : Kind) : Bool := beginsCall k || (unaryOp? k).isSome

/-- How a written expression begins. Behind the keyword of a function there is no name. -/
structure Begins (e : RawExpr) (tokens : List Token) (t : Token) (more : List Token) : Prop where
  eq : tokens = t :: more
  begins : beginsExpr t.kind = true
  call : e.grade = .call → beginsCall t.kind = true
  function : t.kind = .keyword .fun_ → ∃ u others, more = u :: others ∧ u.kind ≠ .name

theorem Begins.left {e e' : RawExpr} {tokens tokens' : List Token} {t : Token} {more : List Token}
    (h : Begins e tokens t more) (hc : e'.grade = .call → e.grade = .call) :
    Begins e' (tokens ++ tokens') t (more ++ tokens') where
  eq := by rw [h.eq]; rfl
  begins := h.begins
  call hg := h.call (hc hg)
  function hf := by
    obtain ⟨u, others, rfl, hu⟩ := h.function hf
    exact ⟨u, others ++ tokens', rfl, hu⟩

theorem grade_of_call {e : RawExpr} (h : Grade.call.Admits e) : e.grade = .call := by
  unfold Grade.Admits at h
  cases hg : e.grade with
  | level l =>
    rw [hg] at h
    have := rank_bounds l
    simp only [Grade.rank] at h
    omega
  | call => rfl
  | _ => rw [hg] at h; exact absurd h (by decide)

theorem writeExpr_begins (e : RawExpr) (h : ProperExpr e) :
    ∃ t more, Begins e (writeExpr e) t more := by
  have alone : ∀ {e : RawExpr} {t : Token} {more : List Token}, writeExpr e = t :: more →
      beginsCall t.kind = true → t.kind ≠ .keyword .fun_ → ∃ t more, Begins e (writeExpr e) t more :=
    fun he hc hf => ⟨_, _, he, by rw [beginsExpr, hc]; rfl, fun _ => hc, fun h => absurd h hf⟩
  cases e with
  | literal value =>
    cases value with
    | bool b => cases b <;> exact alone rfl rfl nofun
    | _ => exact alone rfl rfl nofun
  | grouping inner => exact alone rfl rfl nofun
  | «variable» name site => exact alone rfl rfl nofun
  | assign name site value => exact alone rfl rfl nofun
  | this line site => exact alone rfl rfl nofun
  | unary op line operand =>
    exact ⟨_, _, rfl, by cases op <;> rfl, nofun, by cases op <;> exact nofun⟩
  | binary left op line right =>
    obtain ⟨t, more, hb⟩ := writeExpr_begins left h.2.2.1
    exact ⟨t, _, hb.left nofun⟩
  | logical left op line right =>
    obtain ⟨t, more, hb⟩ := writeExpr_begins left h.2.2.1
    exact ⟨t, _, hb.left nofun⟩
  | ternary condition yes no =>
    obtain ⟨t, more, hb⟩ := writeExpr_begins condition h.2.2.2.1
    exact ⟨t, _, hb.left nofun⟩
  | sequence earlier last =>
    obtain ⟨t, more, hb⟩ := writeExpr_begins earlier h.2.1
    exact ⟨t, _, hb.left nofun⟩
  | call callee line arguments =>
    obtain ⟨t, more, hb⟩ := writeExpr_begins callee h.2.2.1
    exact ⟨t, _, hb.left fun _ => grade_of_call h.1⟩
  | get object property =>
    obtain ⟨t, more, hb⟩ := writeExpr_begins object h.2
    exact ⟨t, _, hb.left fun _ => grade_of_call h.1⟩
  | set object property value =>
    obtain ⟨t, more, hb⟩ := writeExpr_begins object h.2.2.1
    exact ⟨t, _, hb.left nofun⟩
  | function params body =>
    exact ⟨_, _, rfl, rfl, fun _ => rfl, fun _ => ⟨_, _, rfl, nofun⟩⟩

theorem Begins.next {e : RawExpr} {tokens : List Token} {t : Token} {more : List Token}
    (h : Begins e tokens t more) {k : Kind} (hk : beginsExpr k = false) (rest : List Token) :
    Next (· ≠ k) (tokens ++ rest) := by
  rw [h.eq]
  refine Next.cons fun he => ?_
  rw [← he, h.begins] at hk
  cases hk

theorem writeExpr_next {e : RawExpr} (h : ProperExpr e) {k : Kind} (hk : beginsExpr k = false)
    (rest : List Token) : Next (· ≠ k) (writeExpr e ++ rest) := by
  obtain ⟨t, more, hb⟩ := writeExpr_begins e h
  exact hb.next hk rest

theorem writeExpr_length {e : RawExpr} (h : ProperExpr e) : 1 ≤ (writeExpr e).length := by
  obtain ⟨t, more, hb⟩ := writeExpr_begins e h
  rw [hb.eq]
  exact Nat.succ_pos _

section Reads

variable (e : RawExpr)

def LeadsCall : Prop :=
  ∀ loops fuel rest, 24 * (writeExpr e).length ≤ fuel →
    ∃ left, fuel ≤ left + (writeExpr e).length ∧
      Leads loops (unary fuel) (writeExpr e ++ rest) rest (callTail left e)

def TakesUnary : Prop :=
  ∀ loops fuel rest, 24 * (writeExpr e).length ≤ fuel → Ended 8 rest →
    Takes loops (unary fuel) (writeExpr e ++ rest) e rest

def TakesOperand (l : Level) : Prop :=
  ∀ loops fuel rest, 24 * (writeExpr e).length + 15 ≤ fuel + 2 * l.rank → Ended (l.rank + 1) rest →
    Takes loops (operand fuel l) (writeExpr e ++ rest) e rest

def LeadsLevel (l : Level) : Prop :=
  ∀ loops fuel rest, 24 * (writeExpr e).length + 16 ≤ fuel + 2 * l.rank → Ended (l.rank + 1) rest →
    ∃ left, fuel ≤ left + (writeExpr e).length ∧
      Leads loops (operation fuel l) (writeExpr e ++ rest) rest (operationTail left l e)

def TakesConditional : Prop :=
  ∀ loops fuel rest, 24 * (writeExpr e).length + 14 ≤ fuel → Ended 1 rest →
    Takes loops (conditional fuel) (writeExpr e ++ rest) e rest

def LeadsSequence : Prop :=
  ∀ loops fuel rest, 24 * (writeExpr e).length + 15 ≤ fuel → Ended 1 rest →
    ∃ left, fuel ≤ left + (writeExpr e).length ∧
      Leads loops (expression fuel) (writeExpr e ++ rest) rest (sequenceTail left e)

def TakesExpression : Prop :=
  ∀ loops fuel rest, 24 * (writeExpr e).length + 15 ≤ fuel → Ended 0 rest →
    Takes loops (expression fuel) (writeExpr e ++ rest) e rest

def Reads : Prop :=
  match e.grade with
  | .sequence => LeadsSequence e
  | .conditional => TakesConditional e
  | .level l => LeadsLevel e l
  | .unary => TakesUnary e
  | .call => LeadsCall e

end Reads

/-! An expression that is read at its own grade is read at every looser one. -/

section Lift

variable {e : RawExpr} {l : Level}

theorem LeadsCall.takesUnary (h : LeadsCall e) (hw : 1 ≤ (writeExpr e).length) : TakesUnary e := by
  intro loops fuel rest hfuel hrest
  obtain ⟨left, hleft, leads⟩ := h loops fuel rest hfuel
  obtain ⟨left, rfl⟩ : ∃ k, left = k + 1 := ⟨left - 1, by omega⟩
  refine leads.trans ?_
  rw [callTail, Rules.callTail]
  have next := hrest.not_continues .call (Nat.le_succ 8)
  refine (Leads.accept_no (next.mono ?_)).bind ((Leads.accept_no (next.mono ?_)).bind .refl)
  · rintro k hk rfl
    cases hk
  · rintro k hk rfl
    cases hk

theorem LeadsLevel.takes (h : LeadsLevel e l) (loops fuel : Nat) (rest : List Token)
    (hfuel : 24 * (writeExpr e).length + 16 ≤ fuel + 2 * l.rank) (hrest : Ended l.rank rest) :
    Takes loops (operation fuel l) (writeExpr e ++ rest) e rest := by
  obtain ⟨left, hleft, leads⟩ := h loops fuel rest hfuel (hrest.mono (Nat.le_succ _))
  have := rank_bounds l
  obtain ⟨left, rfl⟩ : ∃ k, left = k + 1 := ⟨left - 1, by omega⟩
  refine leads.trans ?_
  rw [operationTail, Rules.operationTail]
  have next := hrest.not_continues (.level l) (Nat.le_refl _)
  exact (Leads.acceptMeaning_none (next.mono fun k hk => by
    simpa [Grade.continues] using hk)).bind .refl

theorem TakesOperand.leadsLevel (h : TakesOperand e l) (hw : 1 ≤ (writeExpr e).length) :
    LeadsLevel e l := by
  intro loops fuel rest hfuel hrest
  have := rank_bounds l
  obtain ⟨fuel, rfl⟩ : ∃ k, fuel = k + 1 := ⟨fuel - 1, by omega⟩
  refine ⟨fuel, by omega, ?_⟩
  rw [operation, Rules.operation]
  exact (h loops fuel rest (by omega) hrest).bind .refl

theorem grade_of_rank {g : Grade} (h : g.rank = l.rank) : g = .level l := by
  have := rank_bounds l
  cases g with
  | level m => cases l <;> cases m <;> first | rfl | cases h
  | _ => simp only [Grade.rank] at h; omega

theorem Reads.takesUnary (h : Reads e) (hw : 1 ≤ (writeExpr e).length) (hg : 8 ≤ e.grade.rank) :
    TakesUnary e := by
  unfold Reads at h
  cases hgrade : e.grade with
  | call =>
    rw [hgrade] at h
    exact LeadsCall.takesUnary h hw
  | unary =>
    rw [hgrade] at h
    exact h
  | level l =>
    rw [hgrade] at hg
    have := rank_bounds l
    simp only [Grade.rank] at hg
    omega
  | _ => rw [hgrade] at hg; exact absurd hg (by decide)

theorem Reads.level_self (h : Reads e) (hg : e.grade.rank = l.rank) : LeadsLevel e l := by
  unfold Reads at h
  rw [grade_of_rank hg] at h
  exact h

/-- By recursion from the loosest level to the tightest. -/
theorem Reads.takesOperand (h : Reads e) (hw : 1 ≤ (writeExpr e).length) (l : Level)
    (hg : l.rank < e.grade.rank) : TakesOperand e l := by
  intro loops fuel rest hfuel hrest
  have := rank_bounds l
  obtain ⟨fuel, rfl⟩ : ∃ k, fuel = k + 1 := ⟨fuel - 1, by omega⟩
  rw [operand, Rules.operand]
  cases ht : l.tighter? with
  | none =>
    have := rank_tightest ht
    exact h.takesUnary hw (by omega) loops fuel rest (by omega) (hrest.mono (by omega))
  | some m =>
    have hm := rank_tighter ht
    have leads : LeadsLevel e m := by
      rcases Nat.lt_or_ge m.rank e.grade.rank with hlt | hge
      · exact (h.takesOperand hw m hlt).leadsLevel hw
      · exact h.level_self (by omega)
    exact leads.takes loops fuel rest (by omega) (hrest.mono (by omega))
termination_by 8 - l.rank

theorem Reads.leadsLevel (h : Reads e) (hw : 1 ≤ (writeExpr e).length)
    (hg : l.rank ≤ e.grade.rank) : LeadsLevel e l := by
  rcases Nat.lt_or_ge l.rank e.grade.rank with hlt | hge
  · exact (h.takesOperand hw l hlt).leadsLevel hw
  · exact h.level_self (by omega)

/-- What is no assignment is read as one. -/
theorem LeadsLevel.takesAssignment (h : LeadsLevel e .or) (hw : 1 ≤ (writeExpr e).length)
    (loops fuel : Nat) (rest : List Token) (hfuel : 24 * (writeExpr e).length + 13 ≤ fuel)
    (hrest : Ended 2 rest) (hequal : Next (· ≠ .symbol .equal) rest) :
    Takes loops (assignment fuel) (writeExpr e ++ rest) e rest := by
  obtain ⟨fuel, rfl⟩ : ∃ k, fuel = k + 1 := ⟨fuel - 1, by omega⟩
  rw [assignment, Rules.assignment]
  have rank : Level.or.rank = 2 := rfl
  refine (h.takes loops fuel rest (by omega) hrest).bind ?_
  exact (Leads.acceptMeaning_none (hequal.mono fun k hk => if_neg hk)).bind .refl

theorem LeadsLevel.takesConditional (h : LeadsLevel e .or) (hw : 1 ≤ (writeExpr e).length) :
    TakesConditional e := by
  intro loops fuel rest hfuel hrest
  obtain ⟨fuel, rfl⟩ : ∃ k, fuel = k + 1 := ⟨fuel - 1, by omega⟩
  rw [conditional, Rules.conditional]
  have next := hrest.not_continues .conditional (Nat.le_refl _)
  refine (h.takesAssignment hw loops fuel rest (by omega) (hrest.mono (by decide))
    (next.mono ?_)).bind ((Leads.accept_no (next.mono ?_)).bind .refl)
  · rintro k hk rfl
    cases hk
  · rintro k hk rfl
    cases hk

theorem Reads.takesConditional (h : Reads e) (hw : 1 ≤ (writeExpr e).length)
    (hg : Grade.conditional.Admits e) : TakesConditional e := by
  unfold Grade.Admits at hg
  cases hgrade : e.grade with
  | sequence => rw [hgrade] at hg; exact absurd hg (by decide)
  | conditional =>
    unfold Reads at h
    rw [hgrade] at h
    exact h
  | level l =>
    refine LeadsLevel.takesConditional (h.leadsLevel hw ?_) hw
    rw [hgrade]
    exact (rank_bounds l).1
  | unary => exact LeadsLevel.takesConditional (h.leadsLevel hw (by rw [hgrade]; decide)) hw
  | call => exact LeadsLevel.takesConditional (h.leadsLevel hw (by rw [hgrade]; decide)) hw

theorem Reads.leadsSequence (h : Reads e) (hw : 1 ≤ (writeExpr e).length) : LeadsSequence e := by
  by_cases hg : Grade.conditional.Admits e
  · intro loops fuel rest hfuel hrest
    obtain ⟨fuel, rfl⟩ : ∃ k, fuel = k + 1 := ⟨fuel - 1, by omega⟩
    refine ⟨fuel, by omega, ?_⟩
    rw [expression, Rules.expression]
    exact (h.takesConditional hw hg loops fuel rest (by omega) hrest).bind .refl
  · unfold Reads at h
    cases hgrade : e.grade with
    | sequence =>
      rw [hgrade] at h
      exact h
    | level l =>
      have := rank_bounds l
      unfold Grade.Admits at hg
      rw [hgrade] at hg
      simp only [Grade.rank] at hg
      omega
    | _ => unfold Grade.Admits at hg; rw [hgrade] at hg; exact absurd (by decide) hg

theorem Reads.takesExpression (h : Reads e) (hw : 1 ≤ (writeExpr e).length) :
    TakesExpression e := by
  intro loops fuel rest hfuel hrest
  obtain ⟨left, hleft, leads⟩ :=
    h.leadsSequence hw loops fuel rest hfuel (hrest.mono (Nat.zero_le _))
  obtain ⟨left, rfl⟩ : ∃ k, left = k + 1 := ⟨left - 1, by omega⟩
  refine leads.trans ?_
  rw [sequenceTail, Rules.sequenceTail]
  refine (Leads.accept_no ((hrest.not_continues .sequence (Nat.le_refl _)).mono ?_)).bind .refl
  rintro k hk rfl
  cases hk

end Lift

section Steps

variable {e left right : RawExpr}

theorem leadsCall_of_primary (proper : ProperExpr e) (hg : e.grade = .call)
    (h : ∀ loops fuel rest, 24 * (writeExpr e).length ≤ fuel + 1 →
      Takes loops (primary fuel) (writeExpr e ++ rest) e rest) : LeadsCall e := by
  intro loops fuel rest hfuel
  have hw := writeExpr_length proper
  obtain ⟨fuel, rfl⟩ : ∃ k, fuel = k + 1 := ⟨fuel - 1, by omega⟩
  refine ⟨fuel, by omega, ?_⟩
  rw [unary, Rules.unary]
  refine (Leads.acceptMeaning_none ?_).bind ((h loops fuel rest hfuel).bind .refl)
  obtain ⟨t, more, hb⟩ := writeExpr_begins e proper
  rw [hb.eq]
  refine Next.cons ?_
  have begins := hb.call hg
  unfold beginsCall at begins
  split at begins <;> first | rename_i hk; rw [hk]; rfl | cases begins

theorem leadsCall_literal (value : Literal) : LeadsCall (.literal value) := by
  refine leadsCall_of_primary (e := .literal value) trivial rfl fun loops fuel rest hfuel => ?_
  simp only [writeExpr, List.length_singleton] at hfuel
  obtain ⟨fuel, rfl⟩ : ∃ k, fuel = k + 1 := ⟨fuel - 1, by omega⟩
  rw [primary, Rules.primary]
  cases value with
  | bool b => cases b <;> exact Leads.peek.bind (Leads.advance.bind .refl)
  | _ => exact Leads.peek.bind (Leads.advance.bind .refl)

theorem leadsCall_variable (name : Name) : LeadsCall (.variable name ()) := by
  refine leadsCall_of_primary (e := .variable name ()) trivial rfl fun loops fuel rest hfuel => ?_
  simp only [writeExpr, List.length_singleton] at hfuel
  obtain ⟨fuel, rfl⟩ : ∃ k, fuel = k + 1 := ⟨fuel - 1, by omega⟩
  rw [primary, Rules.primary]
  exact Leads.peek.bind (Leads.advance.bind .refl)

theorem leadsCall_this (line : Nat) : LeadsCall (.this line ()) := by
  refine leadsCall_of_primary (e := .this line ()) trivial rfl fun loops fuel rest hfuel => ?_
  simp only [writeExpr, List.length_singleton] at hfuel
  obtain ⟨fuel, rfl⟩ : ∃ k, fuel = k + 1 := ⟨fuel - 1, by omega⟩
  rw [primary, Rules.primary]
  exact Leads.peek.bind (Leads.advance.bind .refl)

theorem leadsCall_get {property : Name} (h : LeadsCall e) :
    LeadsCall (.get e property) := by
  intro loops fuel rest hfuel
  simp only [writeExpr, List.length_append, List.length_cons, List.length_nil, List.append_assoc,
    List.cons_append, List.nil_append] at hfuel ⊢
  obtain ⟨left, hleft, leads⟩ := h loops fuel _ (by omega)
  obtain ⟨left, rfl⟩ : ∃ k, left = k + 1 := ⟨left - 1, by omega⟩
  refine ⟨left, by omega, leads.trans ?_⟩
  rw [callTail, Rules.callTail]
  refine (Leads.accept_no (Next.symbol (by decide))).bind ?_
  refine Leads.accept_symbol.bind ?_
  exact Leads.expectName.bind .refl

theorem takesUnary_unary {op : UnaryOp} {line : Nat} (h : TakesUnary e) :
    TakesUnary (.unary op line e) := by
  intro loops fuel rest hfuel hrest
  simp only [writeExpr, List.length_cons, List.cons_append] at hfuel ⊢
  obtain ⟨fuel, rfl⟩ : ∃ k, fuel = k + 1 := ⟨fuel - 1, by omega⟩
  rw [unary, Rules.unary]
  have meaning : unaryOp? (symbolAt op.symbol line).kind = some op := by cases op <;> rfl
  exact (Leads.acceptMeaning_some meaning).bind ((h loops fuel rest (by omega) hrest).bind .refl)

/-- An operator of a level between operands. -/
theorem leadsLevel_join {l : Level} {t : Token} {connective : Connective}
    (ht : l.connective? t.kind = some connective)
    (hjoin : writeExpr (connective.join left t.line right) = writeExpr left ++ t :: writeExpr right)
    (hended : ∀ rest, Ended (l.rank + 1) (t :: rest)) (hleft : LeadsLevel left l)
    (hright : TakesOperand right l) : LeadsLevel (connective.join left t.line right) l := by
  intro loops fuel rest hfuel hrest
  rw [hjoin] at hfuel ⊢
  simp only [List.length_append, List.length_cons, List.append_assoc, List.cons_append] at hfuel ⊢
  have := rank_bounds l
  obtain ⟨first, hfirst, leads⟩ := hleft loops fuel _ (by omega) (hended _)
  obtain ⟨first, rfl⟩ : ∃ k, first = k + 1 := ⟨first - 1, by omega⟩
  refine ⟨first, by omega, leads.trans ?_⟩
  rw [operationTail, Rules.operationTail]
  exact (Leads.acceptMeaning_some ht).bind ((hright loops first rest (by omega) hrest).bind .refl)

theorem leadsSequence_sequence (hearlier : LeadsSequence left) (hlast : TakesConditional right) :
    LeadsSequence (.sequence left right) := by
  intro loops fuel rest hfuel hrest
  simp only [writeExpr, List.length_append, List.length_cons, List.append_assoc, List.cons_append]
    at hfuel ⊢
  obtain ⟨first, hfirst, leads⟩ := hearlier loops fuel _ (by omega) ended_comma
  obtain ⟨first, rfl⟩ : ∃ k, first = k + 1 := ⟨first - 1, by omega⟩
  refine ⟨first, by omega, leads.trans ?_⟩
  rw [sequenceTail, Rules.sequenceTail]
  refine Leads.accept_symbol.bind ?_
  exact (hlast loops first rest (by omega) hrest).bind .refl

theorem takesConditional_assign (target : RawExpr) {value result : RawExpr}
    (hjoin : writeExpr result = writeExpr target ++ symbol .equal :: writeExpr value)
    (hassign : assignTo target 0 value = pure result) (htarget : LeadsLevel target .or)
    (hvalue : TakesConditional value) : TakesConditional result := by
  intro loops fuel rest hfuel hrest
  rw [hjoin] at hfuel ⊢
  simp only [List.length_append, List.length_cons, List.append_assoc, List.cons_append] at hfuel ⊢
  obtain ⟨fuel, rfl⟩ : ∃ k, fuel = k + 2 := ⟨fuel - 2, by omega⟩
  have rank : Level.or.rank = 2 := rfl
  have assigned : Takes loops (assignment (fuel + 1))
      (writeExpr target ++ symbol .equal :: (writeExpr value ++ rest)) result rest := by
    rw [assignment, Rules.assignment]
    refine (htarget.takes loops fuel _ (by omega) ended_equal).bind ?_
    refine Leads.accept_only.bind ?_
    refine (hvalue loops fuel rest (by omega) hrest).bind ?_
    show Leads loops (assignTo target 0 value) rest rest (pure result)
    rw [hassign]
    exact .refl
  rw [conditional, Rules.conditional]
  refine assigned.bind ((Leads.accept_no ?_).bind .refl)
  refine (hrest.not_continues .conditional (Nat.le_refl _)).mono ?_
  rintro k hk rfl
  cases hk

theorem takesConditional_ternary {condition yes no : RawExpr} (hcondition : LeadsLevel condition .or)
    (hw : 1 ≤ (writeExpr condition).length) (hyes : TakesConditional yes)
    (hno : TakesConditional no) : TakesConditional (.ternary condition yes no) := by
  intro loops fuel rest hfuel hrest
  simp only [writeExpr, List.length_append, List.length_cons, List.append_assoc, List.cons_append]
    at hfuel ⊢
  obtain ⟨fuel, rfl⟩ : ∃ k, fuel = k + 1 := ⟨fuel - 1, by omega⟩
  rw [conditional, Rules.conditional]
  refine (hcondition.takesAssignment hw loops fuel _ (by omega) ended_question
    (Next.symbol (by decide))).bind ?_
  refine Leads.accept_symbol.bind ?_
  refine (hyes loops fuel _ (by omega)
    ((ended_closer (.inr (.inr rfl)) 0).mono (Nat.zero_le _))).bind ?_
  exact Leads.expect.bind ((hno loops fuel rest (by omega) hrest).bind .refl)

theorem leadsCall_grouping (proper : ProperExpr e) (h : TakesExpression e) :
    LeadsCall (.grouping e) := by
  refine leadsCall_of_primary (e := .grouping e) proper rfl fun loops fuel rest hfuel => ?_
  simp only [writeExpr, List.length_append, List.length_cons, List.length_nil, List.append_assoc,
    List.cons_append, List.nil_append] at hfuel ⊢
  obtain ⟨fuel, rfl⟩ : ∃ k, fuel = k + 1 := ⟨fuel - 1, by omega⟩
  rw [primary, Rules.primary]
  refine Leads.peek.bind (Leads.advance.bind ?_)
  refine (h loops fuel _ (by omega) (ended_closer (.inl rfl) 0)).bind ?_
  exact Leads.expect.bind .refl

def TakesArguments (arguments : List RawExpr) : Prop :=
  ∀ loops fuel count line rest, arguments ≠ [] → count + arguments.length ≤ maxArguments →
    24 * (writeArguments arguments).length + 16 ≤ fuel →
    Takes loops (argumentsFrom fuel count)
      (writeArguments arguments ++ symbolAt .rightParen line :: rest) arguments
      (symbolAt .rightParen line :: rest)

theorem takesArguments_one (h : TakesConditional e) : TakesArguments [e] := by
  intro loops fuel count line rest _ hcount hfuel
  simp only [writeArguments, List.length_singleton] at hcount hfuel ⊢
  obtain ⟨fuel, rfl⟩ : ∃ k, fuel = k + 1 := ⟨fuel - 1, by omega⟩
  rw [argumentsFrom, Rules.argumentsFrom]
  refine Leads.not_noted (by omega) ?_
  have ended : Ended 0 (symbolAt .rightParen line :: rest) := ended_closer (.inl rfl) line
  refine (h loops fuel _ (by omega) (ended.mono (Nat.zero_le _))).bind ?_
  exact (Leads.accept_no (Next.symbol (by decide))).bind .refl

theorem takesArguments_more {more : List RawExpr} (h : TakesConditional e)
    (hmore : TakesArguments more) (hne : more ≠ []) : TakesArguments (e :: more) := by
  intro loops fuel count line rest _ hcount hfuel
  have written : writeArguments (e :: more) = writeExpr e ++ symbol .comma :: writeArguments more := by
    cases more with
    | nil => exact absurd rfl hne
    | cons f more => rfl
  rw [written] at hfuel ⊢
  simp only [List.length_append, List.length_cons, List.append_assoc, List.cons_append]
    at hcount hfuel ⊢
  obtain ⟨fuel, rfl⟩ : ∃ k, fuel = k + 1 := ⟨fuel - 1, by omega⟩
  rw [argumentsFrom, Rules.argumentsFrom]
  refine Leads.not_noted (by omega) ?_
  refine (h loops fuel _ (by omega) ended_comma).bind ?_
  refine Leads.accept_symbol.bind ?_
  exact (hmore loops fuel (count + 1) line rest hne (by omega) (by omega)).bind .refl

theorem leadsCall_call {arguments : List RawExpr} {line : Nat} (h : LeadsCall e)
    (hcount : arguments.length ≤ maxArguments) (hproper : ProperArguments arguments)
    (harguments : TakesArguments arguments) : LeadsCall (.call e line arguments) := by
  intro loops fuel rest hfuel
  simp only [writeExpr, List.length_append, List.length_cons, List.length_nil, List.append_assoc,
    List.cons_append, List.nil_append] at hfuel ⊢
  obtain ⟨left, hleft, leads⟩ := h loops fuel _ (by omega)
  obtain ⟨left, rfl⟩ : ∃ k, left = k + 1 := ⟨left - 1, by omega⟩
  refine ⟨left, by omega, leads.trans ?_⟩
  rw [callTail, Rules.callTail]
  refine Leads.accept_symbol.bind ?_
  cases arguments with
  | nil => exact Leads.unlessAt_symbol.bind (Leads.expect.bind .refl)
  | cons a more =>
    refine (Leads.unlessAt_no ?_ (harguments loops left 0 line rest (List.cons_ne_nil _ _)
      (by omega) (by omega))).bind (Leads.expect.bind .refl)
    have next : ∀ others, Next (· ≠ .symbol .rightParen) (writeExpr a ++ others) :=
      fun others => writeExpr_next hproper.2.1 rfl others
    cases more with
    | nil => exact next _
    | cons b more =>
      simp only [writeArguments, List.append_assoc, List.cons_append]
      exact next _

theorem parametersFrom_takes {params : List Name} {loops fuel count line : Nat} {rest : List Token}
    (hne : params ≠ []) (hcount : count + params.length ≤ maxArguments)
    (hfuel : params.length ≤ fuel) :
    Takes loops (parametersFrom fuel count)
      (writeParams params ++ symbolAt .rightParen line :: rest) params
      (symbolAt .rightParen line :: rest) := by
  induction params generalizing fuel count with
  | nil => exact absurd rfl hne
  | cons n more ih =>
    simp only [List.length_cons] at hcount hfuel
    obtain ⟨fuel, rfl⟩ : ∃ k, fuel = k + 1 := ⟨fuel - 1, by omega⟩
    rw [parametersFrom, Rules.parametersFrom]
    refine Leads.not_noted (by omega) ?_
    cases more with
    | nil => exact Leads.expectName.bind ((Leads.accept_no (Next.symbol (by decide))).bind .refl)
    | cons m more =>
      refine Leads.expectName.bind ?_
      refine Leads.accept_symbol.bind ?_
      exact (ih (List.cons_ne_nil _ _) (by omega) (by omega)).bind .refl

theorem writeParams_length (params : List Name) : params.length ≤ (writeParams params).length := by
  match params with
  | [] => exact Nat.le_refl _
  | [_] => exact Nat.le_refl _
  | n :: m :: more =>
    have := writeParams_length (m :: more)
    simp only [writeParams, List.length_cons] at this ⊢
    omega

theorem parameters_takes {params : List Name} {loops fuel : Nat} {role : Role} {rest : List Token}
    (hcount : params.length ≤ maxArguments) (hfuel : params.length ≤ fuel) :
    Takes loops (parameters fuel role) (writeParams params ++
      symbol .rightParen :: symbol .leftBrace :: rest) params rest := by
  rw [parameters, Rules.parameters]
  cases params with
  | nil => exact Leads.unlessAt_symbol.bind (Leads.expect.bind (Leads.expect.bind .refl))
  | cons n more =>
    refine (Leads.unlessAt_no ?_ (parametersFrom_takes (List.cons_ne_nil _ _) (by omega)
      hfuel)).bind (Leads.expect.bind (Leads.expect.bind .refl))
    cases more <;> exact Next.name (by decide)

/-- A body up to behind its closing brace, where it may hold jumps only within loops. -/
def TakesBody (inLoop : Bool) (body : List RawStmt) : Prop :=
  ∀ loops fuel rest, (inLoop = true → loops ≠ 0) → 24 * (writeStmts body).length + 4 ≤ fuel →
    Takes loops (blockBody fuel) (writeStmts body ++ symbol .rightBrace :: rest) body rest

theorem leadsCall_function {params : List Name} {body : List RawStmt}
    (proper : ProperExpr (.function params body)) (hbody : TakesBody false body) :
    LeadsCall (.function params body) := by
  refine leadsCall_of_primary proper rfl fun loops fuel rest hfuel => ?_
  have hparams := writeParams_length params
  simp only [writeExpr, writeCode, List.length_append, List.length_cons, List.length_nil,
    List.append_assoc, List.cons_append, List.nil_append] at hfuel ⊢
  obtain ⟨fuel, rfl⟩ : ∃ k, fuel = k + 1 := ⟨fuel - 1, by omega⟩
  rw [primary, Rules.primary]
  refine Leads.peek.bind (Leads.advance.bind ?_)
  refine Leads.expect.bind ?_
  refine (parameters_takes proper.1 (by omega)).bind ?_
  exact (Leads.outsideLoops (hbody 0 fuel rest nofun (by omega))).bind .refl

end Steps

end Script.Grammar
