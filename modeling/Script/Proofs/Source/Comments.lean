import Script.Source.Piece

/-! Block comments.
A block comment ends with the closing mark that belongs to its own opening mark: the comments inside
it are closed first. -/
namespace Script.Source

def BeginsMark (s : List Char) : Prop := ['/', '*'] <+: s ∨ ['*', '/'] <+: s

/-- What stands behind the opening mark of a block comment, to its closing mark. -/
inductive Closes : List Char → Prop where
  | mark : Closes ['*', '/']
  | comment {inside rest : List Char} : Closes inside → Closes rest →
      Closes ('/' :: '*' :: inside ++ rest)
  | char {c : Char} {rest : List Char} : ¬ BeginsMark (c :: rest) → Closes rest → Closes (c :: rest)

variable {s u rest : List Char} {depth : Nat}

theorem Closes.ne_nil (h : Closes u) : u ≠ [] := by
  cases h <;> exact List.cons_ne_nil _ _

theorem beginsMark_append {c d : Char} (h : ¬ BeginsMark (c :: d :: rest)) (s : List Char) :
    ¬ BeginsMark (c :: d :: rest ++ s) := by
  simpa [BeginsMark] using h

theorem afterComment?_char {c : Char} (h : ¬ BeginsMark (c :: s)) :
    afterComment? (depth + 1) (c :: s) = afterComment? (depth + 1) s := by
  rw [afterComment?]
  · rintro u rfl rfl
    exact h (.inl (List.prefix_append ['/', '*'] u))
  · rintro u rfl rfl
    exact h (.inr (List.prefix_append ['*', '/'] u))

/-- A comment that is closed leaves those around it open. -/
theorem afterComment?_closes (h : Closes u) (depth : Nat) (s : List Char) :
    afterComment? (depth + 1) (u ++ s) = afterComment? depth s := by
  induction h generalizing depth s with
  | mark => simp only [List.cons_append, List.nil_append, afterComment?]
  | @comment inside rest _ _ ihi ihr =>
    rw [List.append_assoc, List.cons_append, List.cons_append, afterComment?, ihi, ihr]
  | @char c rest plain closes ih =>
    cases rest with
    | nil => exact absurd rfl closes.ne_nil
    | cons d rest => exact (afterComment?_char (beginsMark_append plain s)).trans (ih depth s)

/-- Where several comments are open, the innermost is closed first. -/
theorem exists_closes (h : afterComment? (depth + 1) s = some rest) :
    ∃ u t, s = u ++ t ∧ Closes u ∧ afterComment? depth t = some rest := by
  induction hn : s.length using Nat.strongRecOn generalizing s depth with
  | ind n ih =>
  cases s with
  | nil => cases h
  | cons c s =>
    by_cases marked : BeginsMark (c :: s)
    · rcases marked with ⟨t, opens⟩ | ⟨t, closes⟩
      · rw [← opens] at h hn ⊢
        simp only [List.cons_append, List.nil_append, List.length_cons, afterComment?] at h hn ⊢
        obtain ⟨inside, t, rfl, closed, h⟩ := ih t.length (by omega) h rfl
        rw [List.length_append] at hn
        obtain ⟨u, t, rfl, closes, h⟩ := ih t.length (by omega) h rfl
        exact ⟨'/' :: '*' :: inside ++ u, t, by simp, .comment closed closes, h⟩
      · rw [← closes] at h ⊢
        simp only [List.cons_append, List.nil_append, afterComment?] at h
        exact ⟨['*', '/'], t, rfl, .mark, h⟩
    · rw [afterComment?_char marked] at h
      obtain ⟨u, t, rfl, closes, h⟩ := ih s.length (by rw [← hn]; exact Nat.lt_succ_self _) h rfl
      refine ⟨c :: u, t, rfl, .char (fun hm => marked ?_) closes, h⟩
      rcases hm with opens | closes
      · exact .inl (opens.trans (List.prefix_append _ _))
      · exact .inr (closes.trans (List.prefix_append _ _))

/-- A comment is closed where its closing mark is found, and is open where there is none. -/
theorem afterComment?_eq_some : afterComment? 1 s = some rest ↔ ∃ u, Closes u ∧ s = u ++ rest := by
  constructor
  · intro h
    obtain ⟨u, t, rfl, closes, h⟩ := exists_closes h
    simp only [afterComment?, Option.some.injEq] at h
    exact ⟨u, closes, h ▸ rfl⟩
  · rintro ⟨u, closes, rfl⟩
    rw [afterComment?_closes closes]
    simp only [afterComment?]

theorem afterComment?_eq_none : afterComment? 1 s = none ↔ ∀ u, Closes u → ¬ u <+: s := by
  rw [Option.eq_none_iff_forall_ne_some]
  constructor
  · rintro h u closes ⟨rest, rfl⟩
    exact h rest (afterComment?_eq_some.mpr ⟨u, closes, rfl⟩)
  · intro h rest hr
    obtain ⟨u, closes, rfl⟩ := afterComment?_eq_some.mp hr
    exact h u closes (List.prefix_append u rest)

end Script.Source
