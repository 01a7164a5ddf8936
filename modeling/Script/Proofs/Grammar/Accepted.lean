import Script.Proofs.Grammar.Accounting
import Script.Proofs.Lexical.Trees
import Script.Source.Scan

/-! Accepted programs.
A program that is read without complaints is written as the very tokens it was read from, so two
accepted token lists with one tree differ in lines and in the spelling of numbers only. -/
namespace Script

open Lexical

namespace Grammar

/-- A declaration that is left out is complained of. -/
theorem declaration_dropped {fuel : Nat} {r s : Reader} (h : declaration fuel r = .ok none s) :
    ∃ complaints, complaints ≠ [] ∧ s.reports = r.reports ++ complaints := by
  cases fuel with
  | zero => cases h
  | succ fuel =>
    have covers := (covering_alone fuel).declared r trivial
    rw [declaration_succ, recovering] at h
    split at h
    · cases h
    · rename_i report s' hs
      rw [hs] at covers
      cases h
      cases covers with
      | complaint left kept loops =>
        obtain ⟨earlier, he⟩ := kept
        exact ⟨earlier ++ [report], by simp, by rw [← List.append_assoc, he]⟩
    · cases h

theorem declaration_error {fuel : Nat} {r s : Reader} {e : Stop}
    (h : declaration fuel r = .error e s) : e = .exhausted := by
  cases fuel with
  | zero =>
    cases h
    rfl
  | succ fuel =>
    rw [declaration_succ, recovering] at h
    split at h <;> cases h
    rfl

theorem declarations_nil {fuel : Nat} {r : Reader} (hr : r.rest = []) :
    declarations (fuel + 1) r = .ok [] r := by
  simp only [declarations, Rules.declarations, Bind.bind, EStateM.bind, TokenReader.atEnd, atEnd,
    hr]
  rfl

theorem declarations_cons {fuel : Nat} {r : Reader} {t : Token} {rest : List Token}
    (hr : r.rest = t :: rest) : declarations (fuel + 1) r = (declaration fuel >>= fun found =>
      (found.toList ++ ·) <$> declarations fuel) r := by
  simp only [declarations, Rules.declarations, Bind.bind, EStateM.bind, TokenReader.atEnd, atEnd,
    hr]
  rfl

theorem declarations_ends (fuel : Nat) (r : Reader) (enough : 24 * r.rest.length + 22 ≤ fuel) :
    ∃ program s, declarations fuel r = .ok program s ∧ r.reports <+: s.reports ∧
      (s.reports = r.reports → Written (writeStmts program) r.rest) := by
  induction fuel generalizing r with
  | zero => omega
  | succ fuel ih =>
    cases hr : r.rest with
    | nil => exact ⟨[], r, declarations_nil hr, List.prefix_refl _, fun _ => .nil⟩
    | cons t rest =>
      rw [hr, List.length_cons] at enough
      have first := (covering_alone fuel).declaration t r
        (by rw [hr]; rfl)
      rw [declarations_cons hr]
      simp only [Bind.bind, EStateM.bind, Functor.map, EStateM.map]
      cases hd : declaration fuel r with
      | error e s =>
        cases declaration_error hd
        rw [hd] at first
        cases first with
        | exhausted short => rw [hr, List.length_cons] at short; omega
      | ok found s =>
        rw [hd] at first
        cases first with
        | ok taken split many kept loops post =>
          have length := congrArg List.length split
          rw [hr, List.length_append, List.length_cons] at length
          obtain ⟨program, s', hp, kept', post'⟩ := ih s (by omega)
          refine ⟨found.toList ++ program, s', by simp only [hp], kept.trans kept', ?_⟩
          intro clean
          obtain ⟨first, second⟩ := reports_between kept kept' clean
          obtain ⟨declared, rfl, hs⟩ := post first
          rw [← hr, split]
          exact hs.append (post' second)

/-- The tokens of an accepted program are written in its tree. -/
theorem readProgram_written (tokens : List Token) (endLine : Nat)
    (clean : (readProgram tokens endLine).reports = []) :
    Written (writeStmts (readProgram tokens endLine).statements) tokens := by
  obtain ⟨program, s, hp, kept, post⟩ := declarations_ends (fuelFor tokens)
    ⟨tokens, endLine, [], 0⟩ (by simp only [fuelFor]; omega)
  rw [readProgram, hp] at clean ⊢
  exact post clean

def Kind.IsNumber : Kind → Prop
  | .number _ => True
  | _ => False

/-- Two tokens differ at most in their lines and, for a number, in how it is spelled. -/
structure Alike (t u : Token) : Prop where
  kind : t.kind = u.kind
  text : t.lexeme = u.lexeme ∨ Kind.IsNumber u.kind

/-- A token is what is written. Its line is kept, counted one higher, or it is written on line 0. -/
structure Rendered (u t : Token) : Prop extends Alike u t where
  line : u.line = 0 ∨ u.line = t.line + 1

structure Plain (tokens : List Token) : Prop where
  spelled : ∀ t ∈ tokens, t.Spelled
  noFor : ∀ t ∈ tokens, t.kind ≠ .keyword .for_

theorem Stands.alike {u t : Token} (h : Stands u t) (spelled : t.Spelled) : Alike u t where
  kind := h.kind
  text := by
    have spelled' := h.spelled
    unfold Token.Spelled at spelled spelled'
    rw [h.kind] at spelled'
    cases hk : t.kind with
    | name => exact .inl (h.name hk)
    | number value => exact .inr trivial
    | _ =>
      rw [hk] at spelled spelled'
      exact .inl ((spelled' _ rfl).trans (spelled _ rfl).symm)

theorem relined_token (line : Nat → Nat) (t : Token) :
    (Renaming.relined line).token t = { t with line := line t.line } := by
  simp [Renaming.token, Renaming.relined]

/-- With other lines the tokens of an accepted program are written in the tree with these lines. -/
theorem readProgram_relined {tokens : List Token} {endLine : Nat} (line : Nat → Nat)
    (plain : Plain tokens) (clean : (readProgram tokens endLine).reports = []) :
    List.Forall₂ (fun u t => Alike u t ∧ (u.line = 0 ∨ u.line = line t.line))
      (writeStmts (translateStmts (.relined line) (fun u => u)
        (readProgram tokens endLine).statements)) tokens := by
  obtain ⟨same, count⟩ := readProgram_renamed (ρ := .relined line) tokens endLine endLine
  rw [clean, List.length_nil, List.length_eq_zero_iff] at count
  have written := readProgram_written _ _ count
  rw [same] at written
  have stands := List.forall₂_map_right_iff.mp (written (by
    intro t ht
    obtain ⟨u, hu, rfl⟩ := List.mem_map.mp ht
    exact plain.noFor u hu))
  have both := (List.forall₂_and_left _ _).mpr ⟨plain.spelled, List.Forall₂.flip stands⟩
  refine List.Forall₂.flip (both.imp fun t u h => ?_)
  obtain ⟨spelled, stand⟩ := h
  rw [relined_token] at stand
  have same := stand.alike (t := { t with line := line t.line }) spelled
  exact ⟨⟨same.kind, same.text⟩, stand.line⟩

theorem forall₂_meet {α β γ : Type} {R : α → β → Prop} {S : α → γ → Prop} {us : List α}
    {ts : List β} {vs : List γ} (h : List.Forall₂ R us ts) (h' : List.Forall₂ S us vs) :
    List.Forall₂ (fun t v => ∃ u, R u t ∧ S u v) ts vs := by
  induction h generalizing vs with
  | nil =>
    cases h'
    exact .nil
  | cons first _ ih =>
    cases h' with
    | cons first' rest' => exact .cons ⟨_, first, first'⟩ (ih rest')

/-- An accepted program without `for` loops accounts for all of its tokens and for nothing else:
it is written as they are, with the lines it keeps. A token list with the same tree differs in lines
and in the spelling of numbers only, and no declaration is left out without a complaint. -/
theorem readProgram_accounts (tokens : List Token) (endLine : Nat) (plain : Plain tokens)
    (clean : (readProgram tokens endLine).reports = []) :
    List.Forall₂ Rendered
        (writeStmts (translateStmts (.relined (· + 1)) (fun u => u)
          (readProgram tokens endLine).statements)) tokens ∧
      (∀ tokens' endLine', Plain tokens' → (readProgram tokens' endLine').reports = [] →
        translateStmts (.relined fun _ => 0) (fun u => u) (readProgram tokens' endLine').statements =
          translateStmts (.relined fun _ => 0) (fun u => u) (readProgram tokens endLine).statements →
        List.Forall₂ Alike tokens tokens') ∧
      ∀ fuel r s, declaration fuel r = .ok none s →
        ∃ complaints, complaints ≠ [] ∧ s.reports = r.reports ++ complaints := by
  refine ⟨?_, fun tokens' endLine' plain' clean' same => ?_, fun _ _ _ => declaration_dropped⟩
  · exact (readProgram_relined (· + 1) plain clean).imp fun u t h => ⟨h.1, h.2⟩
  · have written := readProgram_relined (fun _ => 0) plain clean
    have written' := readProgram_relined (fun _ => 0) plain' clean'
    rw [same] at written'
    refine (forall₂_meet written written').imp fun t t' h => ?_
    obtain ⟨u, ⟨hu, _⟩, hu', _⟩ := h
    refine ⟨hu.kind.symm.trans hu'.kind, ?_⟩
    rcases hu.text with text | number
    · rcases hu'.text with text' | number'
      · exact .inl (text.symm.trans text')
      · exact .inr number'
    · rw [← hu.kind, hu'.kind] at number
      exact .inr number

/-- The tokens of `print a - (b);`. -/
def difference : List Token :=
  [keywordAt .print_ 1, nameToken ⟨"a", 1⟩, symbolAt .minus 1, symbolAt .leftParen 1,
    nameToken ⟨"b", 1⟩, symbolAt .rightParen 1, symbolAt .semicolon 1]

theorem readProgram_accounts_difference : Plain difference ∧
    (readProgram difference 1).reports = [] ∧
    List.Forall₂ Rendered
      (writeStmts (translateStmts (.relined (· + 1)) (fun u => u)
        (readProgram difference 1).statements)) difference := by
  have plain : Plain difference := ⟨by decide, by decide⟩
  have clean : (readProgram difference 1).reports = [] := by decide
  exact ⟨plain, clean, (readProgram_accounts difference 1 plain clean).1⟩

end Grammar

end Script
