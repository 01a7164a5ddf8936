import Script.Proofs.Grammar.Accepted

/-! The tokens of a source.
A keyword, symbol or string is spelled as its kind asks, and no name is spelled as a keyword. -/
namespace Script.Source

def Piece.Proper (p : Piece) : Prop :=
  ∀ kind, p.form = .token kind → (∀ text ∈ kind.spelling?, String.ofList p.text = text) ∧
    (kind = .name → Keyword.ofSpelling? (String.ofList p.text) = none)

theorem ofWord_spelling (word : String) :
    (∀ text ∈ (Kind.ofWord word).spelling?, word = text) ∧
      (Kind.ofWord word = .name → Keyword.ofSpelling? word = none) := by
  unfold Kind.ofWord
  cases h : Keyword.ofSpelling? word with
  | none => exact ⟨nofun, fun _ => rfl⟩
  | some k =>
    have found := List.find?_some h
    refine ⟨fun text ht => ?_, nofun⟩
    cases ht
    exact (beq_iff_eq.mp found).symm

theorem ofChar_spelling {c : Char} {s : Symbol} (h : Symbol.ofChar? c = some s) :
    String.ofList [c] = s.spelling := by
  unfold Symbol.ofChar? at h
  split at h <;> cases h <;> rfl

theorem withEqual_spelling {c : Char} {s : Symbol} (h : Symbol.withEqual? c = some s) :
    String.ofList [c, '='] = s.spelling := by
  unfold Symbol.withEqual? at h
  split at h <;> cases h <;> rfl

theorem cutOne_proper (c : Char) (s : List Char) : (cutOne c s).1.Proper := by
  intro kind
  unfold cutOne
  split
  · rintro ⟨⟩
    refine ⟨fun text ht => ?_, nofun⟩
    cases ht
    exact ofChar_spelling ‹_›
  · nofun

theorem cutSymbol_proper (c : Char) (s : List Char) : (cutSymbol c s).1.Proper := by
  intro kind
  unfold cutSymbol
  split
  · split
    · rintro ⟨⟩
      refine ⟨fun text ht => ?_, nofun⟩
      cases ht
      exact withEqual_spelling ‹_›
    · exact cutOne_proper _ _ kind
  · exact cutOne_proper _ _ kind

theorem cutString_proper (s : List Char) : (cutString s).1.Proper := by
  intro kind
  unfold cutString
  split
  · intro h
    cases h
  · rintro ⟨⟩
    refine ⟨fun text ht => ?_, fun h => by cases h⟩
    cases ht
    apply String.toList_inj.mp
    simp

theorem cut_proper (c : Char) (s : List Char) : (cut c s).1.Proper := by
  intro kind
  unfold cut
  split
  · nofun
  split
  · rintro ⟨⟩
    exact ⟨nofun, nofun⟩
  split
  · rintro ⟨⟩
    exact ofWord_spelling _
  split
  · exact cutString_proper _ kind
  split
  · nofun
  · unfold cutComment
    split <;> nofun
  · exact cutSymbol_proper _ _ kind

theorem pieces_proper (s : List Char) : ∀ p ∈ pieces s, p.Proper := by
  fun_induction pieces s with
  | case1 => exact List.forall_mem_nil _
  | case2 c s ih => exact List.forall_mem_cons.mpr ⟨cut_proper c s, ih⟩

theorem mem_located {line : Nat} {ps : List Piece} {x : Nat × Piece} (h : x ∈ located line ps) :
    x.2 ∈ ps := by
  induction ps generalizing line with
  | nil => nomatch h
  | cons p ps ih =>
    rcases List.mem_cons.mp h with rfl | h
    · exact List.mem_cons_self
    · exact List.mem_cons_of_mem _ (ih h)

/-- The tokens of a source are as their kinds ask. -/
theorem scan_proper (source : String) (t : Token) (h : t ∈ (scan source).tokens) :
    t.Spelled ∧ (t.kind = .name → Keyword.ofSpelling? t.lexeme = none) := by
  obtain ⟨⟨line, p⟩, hx, ht⟩ := List.mem_filterMap.mp h
  have proper := pieces_proper source.toList p (mem_located hx)
  simp only [Piece.token?] at ht
  split at ht
  · rename_i kind hk
    cases ht
    exact proper kind hk
  · cases ht

theorem scan_names (source : String) (t : Token) (h : t ∈ (scan source).tokens)
    (hk : t.kind = .name) : t.lexeme ≠ Keyword.this_.spelling := by
  intro hthis
  have none := (scan_proper source t h).2 hk
  rw [hthis] at none
  cases none

end Script.Source
