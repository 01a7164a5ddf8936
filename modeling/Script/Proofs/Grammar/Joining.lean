import Script.Proofs.Grammar.Accepted

/-! Programs behind one another.
The declarations of an accepted program are read in the same way when an accepted program follows:
only a conditional looks past its end, for an `else`, and no accepted program begins with one. -/
namespace Script

open Lexical

namespace Grammar

variable {α β : Type}

/-- The kinds of token that end a statement or a list of declarations in front of them. -/
def EndsList (kind : Kind) : Prop := kind = .keyword .else_ ∨ kind = .symbol .rightBrace

/-- The reading stops where it stands. -/
def Refuses (x : Reading α) (r : Reader) : Prop := ∃ e, x r = .error e r

theorem refuses_exhaust (r : Reader) : Refuses (exhaust : Reading α) r := ⟨_, rfl⟩

theorem Refuses.bind {x : Reading α} {r : Reader} (h : Refuses x r) (f : α → Reading β) :
    Refuses (x >>= f) r := by
  obtain ⟨e, he⟩ := h
  exact ⟨e, by simp only [Bind.bind, EStateM.bind, he]⟩

theorem Refuses.led {x : Reading α} {f : α → Reading β} {a : α} {r : Reader}
    (hx : x r = .ok a r) (h : Refuses (f a) r) : Refuses (x >>= f) r := by
  obtain ⟨e, he⟩ := h
  exact ⟨e, by simp only [Bind.bind, EStateM.bind, hx, he]⟩

section Refused

variable {r : Reader} {t : Token} {rest : List Token}

theorem accept_other {kind : Kind} (hr : r.rest = t :: rest) (hk : t.kind ≠ kind) :
    accept kind r = .ok false r := by
  simp [accept, Reader.leads, hr, hk]

theorem at_other {kind : Kind} (hr : r.rest = t :: rest) (hk : t.kind ≠ kind) :
    at_ kind r = .ok false r := by
  simp [at_, Reader.leads, hr, hk]

theorem acceptMeaning_other {meaning : Kind → Option α} (hr : r.rest = t :: rest)
    (hk : meaning t.kind = none) : acceptMeaning meaning r = .ok none r := by
  simp [acceptMeaning, hr, hk]

theorem peek_next (hr : r.rest = t :: rest) : peek r = .ok (some t) r := by
  simp [peek, hr]

variable (hr : r.rest = t :: rest) (hk : EndsList t.kind)
include hr hk

theorem primary_refuses (fuel : Nat) : Refuses (primary fuel) r := by
  cases fuel with
  | zero => exact refuses_exhaust r
  | succ fuel =>
    apply Refuses.led (peek_next hr)
    rcases hk with hk | hk <;> simp only [hk] <;> exact ⟨_, rfl⟩

theorem unary_refuses (fuel : Nat) : Refuses (unary fuel) r := by
  cases fuel with
  | zero => exact refuses_exhaust r
  | succ fuel =>
    apply Refuses.led (acceptMeaning_other hr (by rcases hk with hk | hk <;> rw [hk] <;> rfl))
    exact (primary_refuses hr hk fuel).bind _

theorem operation_refuses (fuel : Nat) (level : Level) :
    Refuses (operation fuel level) r ∧ Refuses (operand fuel level) r := by
  induction fuel generalizing level with
  | zero => exact ⟨refuses_exhaust r, refuses_exhaust r⟩
  | succ fuel ih =>
    constructor
    · exact (ih level).2.bind _
    · unfold operand Rules.operand
      split
      · exact (ih _).1
      · exact unary_refuses hr hk fuel

theorem expression_refuses (fuel : Nat) : Refuses (expression fuel) r := by
  have assignment : ∀ fuel, Refuses (assignment fuel) r := by
    intro fuel
    cases fuel with
    | zero => exact refuses_exhaust r
    | succ fuel => exact (operation_refuses hr hk fuel .or).1.bind _
  have conditional : ∀ fuel, Refuses (conditional fuel) r := by
    intro fuel
    cases fuel with
    | zero => exact refuses_exhaust r
    | succ fuel => exact (assignment fuel).bind _
  cases fuel with
  | zero => exact refuses_exhaust r
  | succ fuel => exact (conditional fuel).bind _

theorem statement_refuses (fuel : Nat) : Refuses (statement fuel) r := by
  cases fuel with
  | zero => exact refuses_exhaust r
  | succ fuel =>
    apply Refuses.led (peek_next hr)
    have expression : Refuses (expressionStatement fuel) r := by
      cases fuel with
      | zero => exact refuses_exhaust r
      | succ fuel => exact (expression_refuses hr hk fuel).bind _
    rcases hk with hk | hk <;> simp only [hk] <;> exact expression

theorem declared_refuses (fuel : Nat) : Refuses (declared fuel) r := by
  have other : ∀ k, k ≠ Keyword.else_ → t.kind ≠ .keyword k := by
    intro k hne he
    rcases hk with hk | hk <;> cases hk.symm.trans he
    exact hne rfl
  cases fuel with
  | zero => exact refuses_exhaust r
  | succ fuel =>
    apply Refuses.led (accept_other hr (other .class_ nofun))
    rw [if_neg Bool.false_ne_true]
    apply Refuses.led (at_other hr (other .fun_ nofun))
    obtain ⟨_, hn⟩ : ∃ b, nameFollows r = .ok b r := ⟨_, rfl⟩
    apply Refuses.led hn
    rw [Bool.false_and, if_neg Bool.false_ne_true]
    apply Refuses.led (at_other hr (other .var_ nofun))
    exact statement_refuses hr hk fuel

/-- A declaration that begins so is stopped. -/
theorem declaration_refused {fuel : Nat} {found : Option RawStmt} {s : Reader}
    (h : declaration fuel r = .ok found s) : ∃ report, s.reports = r.reports ++ [report] := by
  cases fuel with
  | zero => cases h
  | succ fuel =>
    obtain ⟨e, he⟩ := declared_refuses hr hk fuel
    rw [declaration_succ, recovering, he] at h
    cases e with
    | complaint report =>
      cases h
      exact ⟨report, rfl⟩
    | exhausted => cases h

end Refused

theorem declarations_split {fuel : Nat} {r s : Reader} {t : Token} {rest : List Token}
    {program : List RawStmt} (hr : r.rest = t :: rest)
    (h : declarations (fuel + 1) r = .ok program s) : ∃ found s' others,
      declaration fuel r = .ok found s' ∧ declarations fuel s' = .ok others s ∧
        program = found.toList ++ others := by
  rw [declarations_cons hr] at h
  simp only [Bind.bind, EStateM.bind, Functor.map, EStateM.map] at h
  split at h
  · rename_i found s' hd
    split at h
    · rename_i others s'' ho
      cases h
      exact ⟨found, s', others, hd, ho, rfl⟩
    · cases h
  · cases h

theorem declarations_kept {fuel : Nat} {r s : Reader} {program : List RawStmt}
    (h : declarations fuel r = .ok program s) : r.reports <+: s.reports := by
  induction fuel generalizing r program with
  | zero => cases h
  | succ fuel ih =>
    cases hr : r.rest with
    | nil =>
      rw [declarations_nil hr] at h
      cases h
      exact List.prefix_refl _
    | cons t rest =>
      obtain ⟨found, s', others, hd, ho, rfl⟩ := declarations_split hr h
      have first := (covering_alone fuel).declaration t r
        (by rw [hr]; rfl)
      rw [hd] at first
      cases first with
      | ok taken split many kept loops post again => exact kept.trans (ih ho)

/-- The tokens of an accepted program do not begin with `else`. -/
theorem declarations_next {fuel : Nat} {r s : Reader} {program : List RawStmt}
    (h : declarations fuel r = .ok program s) (clean : s.reports = r.reports) :
    Next (· ≠ .keyword .else_) r.rest := by
  intro t ht hk
  obtain ⟨rest, hr⟩ := List.head?_eq_some_iff.mp ht
  cases fuel with
  | zero => cases h
  | succ fuel =>
    obtain ⟨found, s', others, hd, ho, rfl⟩ := declarations_split hr h
    have first := (covering_alone fuel).declaration t r
      (by rw [hr]; rfl)
    rw [hd] at first
    cases first with
    | ok taken split many kept loops post again =>
      obtain ⟨report, stopped⟩ := declaration_refused hr (.inl hk) hd
      rw [(reports_between kept (declarations_kept ho) clean).1] at stopped
      exact absurd stopped.symm (by simp)

theorem Leads.fmap {loops : Nat} {tokens rest : List Token} {x y : Reading α} {f : α → β}
    (h : Leads loops x tokens rest y) : Leads loops (f <$> x) tokens rest (f <$> y) := by
  intro endLine reports
  show EStateM.map f x _ = EStateM.map f y _
  unfold EStateM.map
  rw [h endLine reports]

/-- Declarations that are read without a complaint are read so before more tokens, with more fuel,
and the reading goes on with those. -/
theorem declarations_lead {more : List Token} (next : Next (· ≠ .keyword .else_) more)
    (extra : Nat) {fuel : Nat} {r s : Reader} {program : List RawStmt}
    (h : declarations fuel r = .ok program s) (clean : s.reports = r.reports) :
    ∃ left, fuel ≤ left + r.rest.length ∧ 0 < left ∧
      Leads r.loops (declarations (extra + fuel)) (r.rest ++ more) more
        ((program ++ ·) <$> declarations (extra + left)) := by
  -- each declaration uses one unit of fuel and takes a token at least, so enough fuel is left
  induction fuel generalizing r program with
  | zero => cases h
  | succ fuel ih =>
    cases hr : r.rest with
    | nil =>
      rw [declarations_nil hr] at h
      cases h
      refine ⟨fuel + 1, Nat.le_add_right _ _, Nat.succ_pos _, ?_⟩
      intro endLine reports
      exact congrFun (id_map _).symm _
    | cons t rest =>
      obtain ⟨found, s', others, hd, ho, rfl⟩ := declarations_split hr h
      have covers : Covering more 0 extra fuel := covering (.inr ⟨rfl, next⟩) fuel
      have first := covers.declaration t r (by rw [hr]; rfl)
      rw [hd] at first
      cases first with
      | ok taken split many kept loops post again =>
        obtain ⟨same, same'⟩ := reports_between kept (declarations_kept ho) clean
        obtain ⟨left, enough, pos, leads⟩ := ih ho same'
        have fewer := congrArg List.length split
        rw [List.length_append] at fewer
        refine ⟨left, by rw [← hr]; omega, pos, ?_⟩
        rw [loops] at leads
        have both := (again same (Nat.zero_le _)).bind
          (f := fun found => (found.toList ++ ·) <$> declarations (extra + fuel)) leads.fmap
        rw [hr] at both
        have append : (found.toList ++ ·) <$> (others ++ ·) <$> declarations (extra + left) =
            (found.toList ++ others ++ ·) <$> declarations (extra + left) := by
          rw [← comp_map]
          congr 1
          funext more
          exact (List.append_assoc _ _ _).symm
        intro endLine reports
        rw [← Nat.add_assoc, declarations_cons (r := ⟨t :: rest ++ more, _, _, _⟩) rfl, ← append]
        exact both endLine reports

/-- An accepted program and another one behind it are accepted and read as they are on their own. -/
theorem readProgram_append {tokens more : List Token} {endLine endLine' : Nat} (last : Nat)
    (clean : (readProgram tokens endLine).reports = [])
    (clean' : (readProgram more endLine').reports = []) :
    (readProgram (tokens ++ more) last).reports = [] ∧
      (readProgram (tokens ++ more) last).statements =
        (readProgram tokens endLine).statements ++ (readProgram more endLine').statements := by
  obtain ⟨program, s, hp, -, -⟩ := declarations_ends (fuelFor tokens) ⟨tokens, endLine, [], 0⟩
    (by simp only [fuelFor]; omega)
  obtain ⟨program', s', hp', -, -⟩ := declarations_ends (fuelFor more) ⟨more, endLine', [], 0⟩
    (by simp only [fuelFor]; omega)
  simp only [readProgram, hp, hp'] at clean clean' ⊢
  obtain ⟨left, enough, -, leads⟩ := declarations_lead (declarations_next hp' clean')
    (24 * more.length) hp clean
  obtain ⟨left', -, pos', leads'⟩ := declarations_lead .nil (left - 24) hp' clean'
  have first := leads last []
  have second := leads' last []
  have fuel : fuelFor (tokens ++ more) = 24 * more.length + fuelFor tokens := by
    simp only [fuelFor, List.length_append]
    omega
  have fuel' : 24 * more.length + left = left - 24 + fuelFor more := by
    simp only [fuelFor] at enough ⊢
    omega
  obtain ⟨rest, hl⟩ : ∃ rest, left - 24 + left' = rest + 1 := ⟨left - 24 + left' - 1, by omega⟩
  rw [List.append_nil, hl] at second
  rw [fuel, first, fuel']
  simp only [Functor.map, EStateM.map, second, declarations_nil, List.append_nil, and_self]

end Grammar

end Script
