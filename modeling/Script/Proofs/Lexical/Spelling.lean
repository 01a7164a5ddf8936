import Script.Proofs.Lexical.Bound
import Script.Proofs.Lexical.Declaration
import Script.Proofs.Lexical.Forgetting
import Script.Proofs.Lexical.Trees

/-! Renaming a local in the tokens of a program.
Tokens that are numbered in the place of their lines can be told apart in the tree that is read of
them. -/
namespace Script

open Lexical Grammar

namespace Lexical

/-- The tokens with their numbers in the place of their lines. -/
def numbered (tokens : List Token) : List Token :=
  tokens.zipIdx.map fun x => { x.1 with line := x.2 }

def respell (numbers : List Nat) (text : String) (tokens : List Token) : List Token :=
  tokens.zipIdx.map fun x => if x.2 ∈ numbers then { x.1 with lexeme := text } else x.1

def numberedNodes (tokens : List Token) : List (Position × Node Unit) :=
  programNodes 0 (readProgram (numbered tokens) 0).statements

/-- The variables and parameters that are declared in a region, with their numbers. -/
def localsOf (tokens : List Token) : List Declaration := (numberedNodes tokens).flatMap localsAt

/-- Gives a local another name, where it is declared and wherever it is referred to. -/
def renameLocal (tokens : List Token) (d : Declaration) (fresh : String) : List Token :=
  respell (d.lines (numberedNodes tokens)) fresh tokens

def lineOf (tokens : List Token) (number : Nat) : Nat := (tokens[number]?.map Token.line).getD 0

theorem mem_numbered {tokens : List Token} {t : Token} (h : t ∈ numbered tokens) :
    ∃ u, tokens[t.line]? = some u ∧ u.kind = t.kind ∧ u.lexeme = t.lexeme := by
  obtain ⟨⟨u, i⟩, hu, rfl⟩ := List.mem_map.mp h
  exact ⟨u, List.mem_zipIdx_iff_getElem?.mp hu, rfl, rfl⟩

theorem numbered_relined (tokens : List Token) :
    (numbered tokens).map (Renaming.relined (lineOf tokens)).token = tokens := by
  apply List.ext_getElem?
  intro i
  simp only [numbered, List.getElem?_map, List.getElem?_zipIdx, Nat.zero_add]
  cases ht : tokens[i]? with
  | none => rfl
  | some t =>
    simp [Renaming.token, Renaming.relined, lineOf, ht]

theorem numbered_renamed {tokens : List Token} {d : Declaration} {lines : List Nat}
    {fresh : String} (h : ∀ i ∈ lines, ∀ t, tokens[i]? = some t →
      t.kind = .name ∧ t.lexeme = d.name.text) :
    (numbered tokens).map (d.toRenaming lines fresh (lineOf tokens)).token =
      respell lines fresh tokens := by
  apply List.ext_getElem?
  intro i
  simp only [numbered, respell, List.getElem?_map, List.getElem?_zipIdx, Nat.zero_add]
  cases ht : tokens[i]? with
  | none => rfl
  | some t =>
    by_cases hi : i ∈ lines
    · obtain ⟨kind, lexeme⟩ := h i hi t ht
      simp [Renaming.token, Declaration.toRenaming, lineOf, ht, hi, kind, lexeme]
    · simp [Renaming.token, Declaration.toRenaming, lineOf, ht, hi]

theorem tokensOf_numbered_le (word : Name) (tokens : List Token) :
    tokensOf word (numbered tokens) ≤ 1 := by
  have from_ : ∀ (tokens : List Token) (start : Nat),
      let count := tokensOf word ((tokens.zipIdx start).map fun x => { x.1 with line := x.2 })
      count ≤ 1 ∧ (word.line < start → count = 0) := by
    intro tokens
    induction tokens with
    | nil => exact fun _ => ⟨Nat.zero_le _, fun _ => rfl⟩
    | cons t rest ih =>
      intro start
      obtain ⟨le, zero⟩ := ih (start + 1)
      simp only [List.zipIdx_cons, List.map_cons, tokensOf_cons]
      split
      · rename_i h
        have hline : start = word.line := by
          have hn : (⟨t.lexeme, start⟩ : Name) = word :=
            beq_iff_eq.mp (Bool.and_eq_true_iff.mp h).2
          rw [← hn]
        rw [zero (by omega)]
        exact ⟨Nat.le_refl _, fun h => by omega⟩
      · exact ⟨le, fun h => zero (by omega)⟩
  exact (from_ tokens 0).1

theorem mem_of_tokensOf {word : Name} {tokens : List Token} (h : 0 < tokensOf word tokens) :
    ∃ t ∈ tokens, t.kind = .name ∧ (⟨t.lexeme, t.line⟩ : Name) = word := by
  obtain ⟨t, ht, hp⟩ := List.countP_pos_iff.mp h
  obtain ⟨hk, hn⟩ := Bool.and_eq_true_iff.mp hp
  exact ⟨t, ht, beq_iff_eq.mp hk, beq_iff_eq.mp hn⟩

variable {tokens : List Token}

theorem namesOf_numberedNodes_le (word : Name) :
    namesOf word (numberedNodes tokens) ≤ tokensOf word (numbered tokens) :=
  (readProgram_held (numbered tokens) 0 word).names (Position.top 0)

theorem token_of_name {x : Position × Node Unit} {m : Name} (hx : x ∈ numberedNodes tokens)
    (hm : m ∈ x.2.names) :
    ∃ t, tokens[m.line]? = some t ∧ t.kind = .name ∧ t.lexeme = m.text := by
  have held : 0 < namesOf m (numberedNodes tokens) :=
    List.count_pos_iff.mpr (List.mem_flatMap.mpr ⟨x, hx, hm⟩)
  obtain ⟨t, ht, hk, hn⟩ := mem_of_tokensOf (Nat.lt_of_lt_of_le held (namesOf_numberedNodes_le m))
  obtain ⟨u, hu, hkind, hlexeme⟩ := mem_numbered ht
  subst hn
  exact ⟨u, hu, hkind.trans hk, hlexeme⟩

section Sited

variable {β γ : Type} (f : β → γ)

theorem names_sited (n : Node β) : (n.sited f).names = n.names := by
  have methodNames : ∀ ms : List (Method β),
      (translateMethods .identity f ms).map Method.name = ms.map Method.name := by
    intro ms
    rw [translateMethods_eq_map, List.map_map]
    exact List.map_congr_left fun _ _ => rfl
  cases n with
  | expr e => cases e <;> rfl
  | stmt s =>
    cases s with
    | var _ initial => cases initial <;> rfl
    | if_ _ _ no => cases no <;> rfl
    | return_ _ value => cases value <;> rfl
    | class_ name methods => exact congrArg (name :: ·) (methodNames methods)
    | _ => rfl
  | code params body => rfl

theorem plain_sited (n : Node β) : (n.sited f).Plain ↔ n.Plain := by
  cases n with
  | expr e => cases e <;> rfl
  | stmt s =>
    cases s with
    | var _ initial => cases initial <;> rfl
    | if_ _ yes no =>
      cases no <;> simp [Node.sited, translateStmt, Node.Plain, declared?_site]
    | while_ _ body => simp [Node.sited, translateStmt, Node.Plain, declared?_site]
    | step body _ => simp [Node.sited, translateStmt, Node.Plain, declared?_site]
    | return_ _ value => cases value <;> rfl
    | _ => rfl
  | code params body => rfl

theorem Orderly.sited {known : Name → Prop} {x : Position × Node β} (h : Orderly known x) :
    Orderly known (sitedAt f x) where
  around := h.around
  declared s name hs hd := by
    obtain ⟨p, node⟩ := x
    cases node with
    | expr e => cases hs
    | stmt s' =>
      cases hs
      exact h.declared s' name rfl (by rwa [declared?_site] at hd)
    | code params body => cases hs
  distinct params body hc := by
    obtain ⟨p, node⟩ := x
    cases node with
    | expr e => cases hc
    | stmt s => cases hc
    | code params' body' =>
      cases hc
      rw [declaredNames_site]
      exact h.distinct _ _ rfl

end Sited

/-- In a program that is bound without complaints every node is in orderly regions. -/
theorem bindProgram_orderly {known : Name → Prop} {number : Nat} {program : List RawStmt}
    (plain : ∀ x ∈ programNodes number program, x.2.Plain)
    (names : ∀ x ∈ programNodes number program, ∀ m ∈ x.2.names, known m)
    (accepted : (Binding.bindProgram program).reports = []) :
    ∀ x ∈ programNodes number program, Orderly known x := by
  have nodes : programNodes number program =
      (programNodes number (Binding.bindProgram program).statements).map (sitedAt unsited) := by
    have sited := stmtsNodes_site unsited (Position.top number) (Binding.bindProgram program).statements
    rwa [bindProgram_unsited] at sited
  have tidy : ∀ x ∈ programNodes number (Binding.bindProgram program).statements,
      Tidy known x := by
    intro x hx
    have hx' : sitedAt unsited x ∈ programNodes number program := nodes ▸ List.mem_map_of_mem hx
    refine ⟨bindProgram_scoped number program plain accepted x hx, ?_, ?_⟩
    · exact (plain_sited unsited x.2).mp (plain _ hx')
    · intro m hm
      exact names _ hx' m (by rw [← names_sited unsited] at hm; exact hm)
  rw [nodes]
  intro x hx
  obtain ⟨y, hy, rfl⟩ := List.mem_map.mp hx
  exact (programNodes_orderly number _ tidy y hy).sited unsited

/-- A local of accepted tokens can be given any name that no token is. -/
theorem renamable {d : Declaration} {fresh : String}
    (accepted : (Binding.bindProgram (readProgram (numbered tokens) 0).statements).reports = [])
    (isLocal : d ∈ localsOf tokens) (isName : d.name.text ≠ Keyword.this_.spelling)
    (freshName : fresh ≠ Keyword.this_.spelling)
    (unused : ∀ t ∈ tokens, t.kind = .name → t.lexeme ≠ fresh) :
    Renamable (numberedNodes tokens) d fresh := by
  have names : ∀ x ∈ numberedNodes tokens, ∀ m ∈ x.2.names, m.text ≠ fresh := by
    intro x hx m hm
    obtain ⟨t, ht, hk, hl⟩ := token_of_name hx hm
    exact hl ▸ unused t (List.mem_of_getElem? ht) hk
  exact
    { declared := List.mem_flatMap.mp isLocal
      once := fun m => Nat.le_trans (namesOf_numberedNodes_le m) (tokensOf_numbered_le m tokens)
      unused := names
      orderly := bindProgram_orderly
        (fun x hx => (readProgram_held (numbered tokens) 0 ⟨"", 0⟩).plain _ x hx) names accepted
      this_ := isName
      this_fresh := freshName }

/-- The renamed tokens are a renaming of the numbered ones. -/
theorem renameLocal_eq {d : Declaration} {fresh : String}
    (h : Renamable (numberedNodes tokens) d fresh) :
    (numbered tokens).map
        (d.toRenaming (d.lines (numberedNodes tokens)) fresh (lineOf tokens)).token =
      renameLocal tokens d fresh := by
  refine numbered_renamed fun i hi t ht => ?_
  have spelled : ∀ x ∈ numberedNodes tokens, ∀ m ∈ x.2.names, m.line = i →
      t.kind = .name ∧ t.lexeme = m.text := by
    intro x hx m hm hline
    obtain ⟨u, hu, hk, hl⟩ := token_of_name hx hm
    rw [hline, ht, Option.some.injEq] at hu
    exact hu ▸ ⟨hk, hl⟩
  rcases List.mem_cons.mp hi with hi | hi
  · obtain ⟨x, hx, hd⟩ := h.declared
    exact spelled x hx d.name (mem_names_of_localsAt hd) hi.symm
  · obtain ⟨m, hm, hline⟩ := List.mem_map.mp hi
    obtain ⟨x, hx, hmention⟩ := List.mem_filterMap.mp hm
    obtain ⟨hm, htext⟩ := mem_names_of_mentionedAt hmention
    exact htext ▸ spelled x hx m hm hline

end Lexical

end Script
