import Script.Proofs.Grammar.Echoing

/-! The last token of a declaration.
A declaration ends with a semicolon or with a closing brace, whatever is complained of in it. -/
namespace Script.Grammar

variable {α β : Type}

/-- What lies between the tokens and a rest of them ends with a token that ends declarations. -/
def EndsBefore (tokens rest : List Token) : Prop :=
  ∃ taken t, tokens = taken ++ t :: rest ∧
    (t.kind = .symbol .semicolon ∨ t.kind = .symbol .rightBrace)

theorem EndsBefore.before {tokens middle rest : List Token} (h : EndsBefore middle rest)
    (behind : middle <:+ tokens) : EndsBefore tokens rest := by
  obtain ⟨taken, t, rfl, ht⟩ := h
  obtain ⟨front, rfl⟩ := behind
  exact ⟨front ++ taken, t, (List.append_assoc _ _ _).symm, ht⟩

theorem EndsBefore.suffix {tokens rest : List Token} (h : EndsBefore tokens rest) :
    rest <:+ tokens := by
  obtain ⟨taken, t, rfl, -⟩ := h
  exact (List.suffix_cons t rest).trans (List.suffix_append _ _)

def Shrinks (x : Reading α) : Prop := ∀ r a s, x r = .ok a s → s.rest <:+ r.rest

/-- The last token the reading takes ends a declaration. -/
def Concludes (x : Reading α) : Prop := ∀ r a s, x r = .ok a s → EndsBefore r.rest s.rest

def Completes (x : Reading α) : Prop :=
  ∀ r a s, x r = .ok a s → s.rest = r.rest ∨ EndsBefore r.rest s.rest

theorem Echoes.shrinks {calm : Bool} {k : Nat} {behind : Option Kind → Prop} {x : Reading α}
    (h : Echoes Anywhere calm k behind x) : Shrinks x := by
  intro r a s hx
  have he := h r trivial
  rw [hx] at he
  cases he with
  | ok taken rest added split => exact ⟨taken, split.symm⟩

section Rules

variable {x y : Reading α} {f : α → Reading β} {kind : Kind}

theorem shrinks_accept : Shrinks (accept kind) := by
  intro r a s hx
  unfold accept at hx
  split at hx <;> cases hx
  · exact List.tail_suffix _
  · exact List.suffix_refl _

theorem shrinks_look (h : ∀ r, ∃ a, x r = .ok a r) : Shrinks x := by
  intro r a s hx
  obtain ⟨b, hb⟩ := h r
  cases hb.symm.trans hx
  exact List.suffix_refl _

theorem shrinks_advance : Shrinks advance := by
  rintro r a s ⟨⟩
  exact List.tail_suffix _

theorem Shrinks.bind (hx : Shrinks x) (hf : ∀ a, Shrinks (f a)) : Shrinks (x >>= f) := by
  intro r b s h
  obtain ⟨a, s', ha, hb⟩ := bind_ok h
  exact (hf a s' b s hb).trans (hx r a s' ha)

theorem Concludes.behind (hx : Shrinks x) (hf : ∀ a, Concludes (f a)) : Concludes (x >>= f) := by
  intro r b s h
  obtain ⟨a, s', ha, hb⟩ := bind_ok h
  exact (hf a s' b s hb).before (hx r a s' ha)

theorem Concludes.bind (hx : Concludes x) (hf : ∀ a, Completes (f a)) : Concludes (x >>= f) := by
  intro r b s h
  obtain ⟨a, s', ha, hb⟩ := bind_ok h
  have first := hx r a s' ha
  rcases hf a s' b s hb with same | ends
  · rwa [same]
  · exact ends.before first.suffix

theorem Concludes.completes (hx : Concludes x) : Completes x := fun r a s h => .inr (hx r a s h)

theorem completes_pure (a : α) : Completes (pure a) := by
  rintro r b s ⟨⟩
  exact .inl rfl

/-- What is there only behind a token of some kind. -/
theorem completes_accept {g : Bool → Reading α} (yes : Concludes (g true))
    (no : Completes (g false)) : Completes (accept kind >>= g) := by
  intro r a s h
  obtain ⟨found, s', hs, ha⟩ := bind_ok h
  cases found with
  | true => exact .inr ((yes s' a s ha).before (shrinks_accept r true s' hs))
  | false =>
    unfold accept at hs
    split at hs <;> cases hs
    exact no r a s ha

theorem Concludes.map {g : α → β} (hx : Concludes x) : Concludes (g <$> x) :=
  hx.bind fun _ => completes_pure _

theorem concludes_exhaust : Concludes (exhaust : Reading α) := nofun

theorem concludes_expect {s : Symbol} {landmark : Landmark}
    (h : s = .semicolon ∨ s = .rightBrace) : Concludes (expect s landmark) := by
  intro r a s' hx
  by_cases hr : ahead r.rest = some (.symbol s)
  · obtain ⟨t, rest, split, hk⟩ := exists_cons_of_ahead hr
    obtain ⟨_, endLine, reports, loops⟩ := r
    cases split
    cases (expect_takes hk endLine reports).symm.trans hx
    rcases h with rfl | rfl
    · exact ⟨[], t, rfl, .inl hk⟩
    · exact ⟨[], t, rfl, .inr hk⟩
  · cases (expect_stops hr).symm.trans hx

theorem Concludes.withLoops {change : Nat → Nat} (hx : Concludes x) :
    Concludes (withLoops change x) := by
  intro r a s h
  simp only [Grammar.withLoops] at h
  cases ha : x { r with loops := change r.loops } with
  | error e s' =>
    rw [ha] at h
    cases h
  | ok b s' =>
    rw [ha] at h
    cases h
    exact hx { r with loops := change r.loops } _ s' ha

theorem Concludes.ite {c : Prop} [Decidable c] (h : Concludes x) (h' : Concludes y) :
    Concludes (if c then x else y) := by
  split
  · exact h
  · exact h'

end Rules

structure Concluding (fuel : Nat) : Prop where
  blockBody : Concludes (blockBody fuel)
  declared : Concludes (declared fuel)
  named : ∀ role, Concludes (named fuel role)
  variableDeclaration : Concludes (variableDeclaration fuel)
  expressionStatement : Concludes (expressionStatement fuel)
  statement : Concludes (statement fuel)
  forStatement : Concludes (forStatement fuel)

variable {fuel : Nat}

theorem Concluding.zero : Concluding 0 where
  blockBody := concludes_exhaust
  declared := concludes_exhaust
  named _ := concludes_exhaust
  variableDeclaration := concludes_exhaust
  expressionStatement := concludes_exhaust
  statement := concludes_exhaust
  forStatement := concludes_exhaust

theorem semicolon_concludes {landmark : Landmark} (a : α) : Concludes (do
    let _ ← expect .semicolon landmark
    pure a : Reading α) :=
  (concludes_expect (.inl rfl)).bind fun _ => completes_pure a

theorem expression_shrinks (fuel : Nat) : Shrinks (expression fuel) :=
  (echoing fuel).expression.shrinks

theorem expect_shrinks {s : Symbol} {landmark : Landmark} : Shrinks (expect s landmark) := by
  intro r line s' hx
  unfold expect at hx
  split at hx
  · split at hx <;> cases hx
    rename_i hr _
    exact hr ▸ List.suffix_cons _ _
  · cases hx

theorem expectName_shrinks {missing : Missing} : Shrinks (expectName missing) := by
  have echoes : Echoes Anywhere false 1 anything (expectName missing) := .expectName
  exact echoes.shrinks

theorem unlessAt_shrinks (fuel : Nat) (kind : Kind) : Shrinks (unlessAt kind (expression fuel)) :=
  Echoes.shrinks (.unlessAt (echoing fuel).expression)

theorem condition_concludes {x : RawExpr → Reading RawStmt} {landmark landmark' : Landmark}
    (h : ∀ e, Concludes (x e)) : Concludes (do
      let _ ← expect .leftParen landmark
      let e ← expression fuel
      let _ ← expect .rightParen landmark'
      x e) :=
  .behind expect_shrinks fun _ => .behind (expression_shrinks fuel) fun e =>
    .behind expect_shrinks fun _ => h e

theorem jump_concludes (jump : Jump) (line : Nat) : Concludes (jumpStatement jump line) := by
  refine .behind (shrinks_look fun r => ⟨_, rfl⟩) fun _ => .ite ?_ (semicolon_concludes _)
  refine .behind ?_ fun _ => semicolon_concludes _
  rintro r a s ⟨⟩
  exact List.suffix_refl _

theorem statement_concludes (ih : Concluding fuel) : Concludes (statement (fuel + 1)) := by
  refine .behind (shrinks_look fun r => ⟨_, rfl⟩) fun next => ?_
  cases next with
  | none => exact ih.expressionStatement
  | some t =>
    simp only
    -- by the first token: print, for, if, return, while, break, continue, a brace, an expression
    split
    case h_1 =>
      exact .behind shrinks_advance fun _ => .behind (expression_shrinks fuel) fun _ =>
        semicolon_concludes _
    case h_2 => exact .behind shrinks_advance fun _ => ih.forStatement
    case h_3 =>
      refine .behind shrinks_advance fun _ => condition_concludes fun e =>
        ih.statement.bind fun yes => ?_
      exact completes_accept (ih.statement.map.bind fun _ => completes_pure _) (completes_pure _)
    case h_4 =>
      refine .behind shrinks_advance fun _ => .behind (shrinks_look fun r => ⟨_, rfl⟩) fun _ => ?_
      exact .behind (unlessAt_shrinks fuel _) fun _ => semicolon_concludes _
    case h_5 =>
      exact .behind shrinks_advance fun _ => condition_concludes fun e =>
        ih.statement.withLoops.bind fun _ => completes_pure _
    case h_6 => exact .behind shrinks_advance fun _ => jump_concludes _ _
    case h_7 => exact .behind shrinks_advance fun _ => jump_concludes _ _
    case h_8 => exact .behind shrinks_advance fun _ => ih.blockBody.bind fun _ => completes_pure _
    case h_9 => exact ih.expressionStatement

theorem forStatement_concludes (ih : Concluding fuel) : Concludes (forStatement (fuel + 1)) := by
  have clauses (initial : Option RawStmt) : Concludes (do
      let condition ← unlessAt (.symbol .semicolon) (expression fuel)
      let _ ← expect .semicolon .afterLoopCondition
      let increment ← unlessAt (.symbol .rightParen) (expression fuel)
      let _ ← expect .rightParen .afterForClauses
      let body ← insideLoop (statement fuel)
      pure (.forLoop initial condition increment body) : Reading RawStmt) :=
    .behind (unlessAt_shrinks fuel _) fun _ => .behind expect_shrinks fun _ =>
      .behind (unlessAt_shrinks fuel _) fun _ => .behind expect_shrinks fun _ =>
        ih.statement.withLoops.bind fun _ => completes_pure _
  refine .behind expect_shrinks fun _ => .behind shrinks_accept fun _ => .ite (clauses none) ?_
  refine .behind (shrinks_look fun r => ⟨_, rfl⟩) fun _ => .ite ?_ ?_
  · exact ih.variableDeclaration.map.bind fun initial => (clauses initial).completes
  · exact ih.expressionStatement.map.bind fun initial => (clauses initial).completes

theorem variableDeclaration_concludes (fuel : Nat) :
    Concludes (variableDeclaration (fuel + 1)) := by
  refine .behind shrinks_advance fun _ => .behind expectName_shrinks fun name =>
    .behind shrinks_accept fun _ => .ite ?_ (semicolon_concludes _)
  have value : Echoes Anywhere true 1 nothing (some <$> expression fuel) :=
    (echoing fuel).expression.map
  exact .behind value.shrinks fun _ => semicolon_concludes _

theorem parameters_shrinks (fuel : Nat) (role : Role) : Shrinks (parameters fuel role) := by
  have names : Echoes Anywhere true 0 nothing
      (unlessAt (.symbol .rightParen) (parametersFrom fuel 0)) :=
    .unlessAt (parametersFrom_echoes fuel 0)
  exact names.shrinks.bind fun _ => expect_shrinks.bind fun _ => expect_shrinks.bind fun _ =>
    shrinks_look fun r => ⟨_, rfl⟩

theorem named_concludes (ih : Concluding fuel) (role : Role) :
    Concludes (named (fuel + 1) role) :=
  .behind expectName_shrinks fun _ => .behind expect_shrinks fun _ =>
    .behind (parameters_shrinks fuel role) fun _ => ih.blockBody.withLoops.bind fun _ =>
      completes_pure _

theorem blockBody_concludes (ih : Concluding fuel) : Concludes (blockBody (fuel + 1)) := by
  refine .behind (shrinks_look fun r => ⟨_, rfl⟩) fun _ =>
    .behind (shrinks_look fun r => ⟨_, rfl⟩) fun _ => .ite ?_ ?_
  · exact (concludes_expect (.inr rfl)).bind fun _ => completes_pure _
  · exact .behind (echoing fuel).declaration.shrinks fun _ => ih.blockBody.bind fun _ =>
      completes_pure _

theorem declared_concludes (ih : Concluding fuel) : Concludes (declared (fuel + 1)) := by
  refine .behind shrinks_accept fun _ => .ite ?_ ?_
  · exact .behind expectName_shrinks fun _ => .behind expect_shrinks fun _ =>
      .behind (echoing fuel).methodList.shrinks fun _ =>
        (concludes_expect (.inr rfl)).bind fun _ => completes_pure _
  · refine .behind (shrinks_look fun r => ⟨_, rfl⟩) fun _ =>
      .behind (shrinks_look fun r => ⟨_, rfl⟩) fun _ => .ite ?_ ?_
    · exact .behind shrinks_advance fun _ => (ih.named .function).bind fun _ => completes_pure _
    · exact .behind (shrinks_look fun r => ⟨_, rfl⟩) fun _ =>
        .ite ih.variableDeclaration ih.statement

theorem concluding (fuel : Nat) : Concluding fuel := by
  induction fuel with
  | zero => exact .zero
  | succ fuel ih =>
    exact
      { blockBody := blockBody_concludes ih
        declared := declared_concludes ih
        named := named_concludes ih
        variableDeclaration := variableDeclaration_concludes fuel
        expressionStatement := .behind (expression_shrinks fuel) fun _ => semicolon_concludes _
        statement := statement_concludes ih
        forStatement := forStatement_concludes ih }

end Script.Grammar
