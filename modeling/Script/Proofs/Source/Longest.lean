import Script.Proofs.Source.Lexemes

/-! Tokens are as long as they can be.
At the position of a token no longer text of the source has the form of any token, and its kind is
the only one that its lexeme spells. -/
namespace Script.Source

variable {c : Char} {s text rest : List Char} {kind other : Kind}

/-- What stands behind the first character of a token, by that character. -/
inductive Shape : Char → List Char → Prop where
  | whole {c : Char} {rest : List Char} : c.isDigit = true → (∀ d ∈ rest, d.isDigit = true) →
      Shape c rest
  | fraction {c f : Char} {rest more : List Char} : c.isDigit = true →
      (∀ d ∈ rest, d.isDigit = true) → f.isDigit = true → (∀ d ∈ more, d.isDigit = true) →
      Shape c (rest ++ '.' :: f :: more)
  | word {c : Char} {rest : List Char} : isWordStart c = true → (∀ d ∈ rest, isWordChar d = true) →
      Shape c rest
  | string {text : List Char} : '"' ∉ text → Shape '"' (text ++ ['"'])
  | one {c : Char} : Single c → Shape c []
  | two {c : Char} : Single c → (Symbol.withEqual? c).isSome = true → Shape c ['=']

theorem symbol_shape (symbol : Symbol) :
    ∃ c rest, symbol.spelling.toList = c :: rest ∧ Shape c rest := by
  cases symbol with
  | bangEqual => exact ⟨_, _, rfl, .two ⟨by decide, by decide, by decide, by decide⟩ rfl⟩
  | equalEqual => exact ⟨_, _, rfl, .two ⟨by decide, by decide, by decide, by decide⟩ rfl⟩
  | lessEqual => exact ⟨_, _, rfl, .two ⟨by decide, by decide, by decide, by decide⟩ rfl⟩
  | greaterEqual => exact ⟨_, _, rfl, .two ⟨by decide, by decide, by decide, by decide⟩ rfl⟩
  | _ => exact ⟨_, _, rfl, .one ⟨by decide, by decide, by decide, by decide⟩⟩

theorem Spells.shape (h : Spells kind text) : ∃ c rest, text = c :: rest ∧ Shape c rest := by
  cases h with
  | whole nonempty digits =>
    obtain ⟨d, rest, rfl⟩ := List.exists_cons_of_ne_nil nonempty
    obtain ⟨digit, digits⟩ := List.forall_mem_cons.mp digits
    exact ⟨d, rest, rfl, .whole digit digits⟩
  | fraction nonempty digits nonempty' digits' =>
    obtain ⟨d, rest, rfl⟩ := List.exists_cons_of_ne_nil nonempty
    obtain ⟨f, more, rfl⟩ := List.exists_cons_of_ne_nil nonempty'
    obtain ⟨digit, digits⟩ := List.forall_mem_cons.mp digits
    obtain ⟨digit', digits'⟩ := List.forall_mem_cons.mp digits'
    exact ⟨d, _, rfl, .fraction digit digits digit' digits'⟩
  | string unquoted => exact ⟨'"', _, rfl, .string unquoted⟩
  | keyword k =>
    obtain ⟨c, rest, spelled, start, word, -⟩ := keyword_word k
    exact ⟨c, rest, spelled, .word start word⟩
  | name start word _ => exact ⟨_, _, rfl, .word start word⟩
  | symbol symbol => exact symbol_shape symbol

theorem run_longest {p : Char → Bool} (all : ∀ d ∈ rest, p d = true) (here : rest <+: s) :
    rest.length ≤ (s.takeWhile p).length := by
  obtain ⟨behind, rfl⟩ := here
  rw [List.takeWhile_append_of_pos all, List.length_append]
  exact Nat.le_add_right _ _

theorem cutNumber_whole (c : Char) (s : List Char) :
    (s.takeWhile Char.isDigit).length < (cutNumber c s).1.text.length := by
  simp only [cutNumber]
  split
  · exact Nat.lt_succ_self _
  · rw [List.length_append, List.length_cons]
    omega

theorem cutNumber_fraction {f : Char} {more : List Char} (digits : ∀ d ∈ rest, d.isDigit = true)
    (digit : f.isDigit = true) (digits' : ∀ d ∈ more, d.isDigit = true)
    (here : rest ++ '.' :: f :: more <+: s) :
    (rest ++ '.' :: f :: more).length < (cutNumber c s).1.text.length := by
  obtain ⟨behind, rfl⟩ := here
  have whole : (rest ++ '.' :: f :: more ++ behind).takeWhile Char.isDigit = rest := by
    rw [List.append_assoc, List.takeWhile_append_of_pos digits]
    exact List.append_nil rest
  have left : (rest ++ '.' :: f :: more ++ behind).dropWhile Char.isDigit =
      '.' :: f :: (more ++ behind) := by
    rw [List.append_assoc, List.dropWhile_append_of_pos digits]
    rfl
  have taken := run_longest digits' (List.prefix_append more behind)
  simp only [cutNumber, whole, left, splitFraction, if_pos digit, List.isEmpty_cons,
    Bool.false_eq_true, if_false, List.length_append, List.length_cons]
  omega

theorem cut_single (single : Single c) (slash : c = '/' → ∀ d ∈ s.head?, d ≠ '/' ∧ d ≠ '*') :
    cut c s = cutSymbol c s :=
  cut_symbol single.blank single.digit single.word single.quote slash

/-- No text of the form of a token is longer than what is cut. -/
theorem cut_longest (spells : Spells kind text) (here : text <+: c :: s) :
    text.length ≤ (cut c s).1.text.length := by
  obtain ⟨d, rest, rfl, shape⟩ := spells.shape
  obtain ⟨rfl, behind⟩ := List.cons_prefix_cons.mp here
  cases shape with
  | whole digit digits =>
    rw [cut_number digit]
    have run := run_longest digits behind
    have cut := cutNumber_whole d s
    rw [List.length_cons]
    omega
  | fraction digit digits digit' digits' =>
    rw [cut_number digit]
    exact cutNumber_fraction digits digit' digits' behind
  | word start word =>
    rw [cut_word start]
    exact Nat.succ_le_succ (run_longest word behind)
  | @string text unquoted =>
    obtain ⟨after, rfl⟩ := behind
    obtain ⟨_, _, same, cut⟩ := cut_string unquoted after
    cases same
    exact Nat.le_of_eq (congrArg (fun x => x.1.text.length) cut).symm
  | one => exact List.length_pos_iff.mpr (cut_nonempty _ _)
  | two single equal =>
    obtain ⟨after, rfl⟩ := behind
    obtain ⟨symbol, found⟩ := Option.isSome_iff_exists.mp equal
    have slash : d = '/' → ∀ c ∈ ('=' :: after).head?, c ≠ '/' ∧ c ≠ '*' := by
      rintro - c ⟨⟩
      decide
    rw [show ['='] ++ after = '=' :: after from rfl, cut_single single slash]
    simp only [cutSymbol, found]
    exact Nat.le_refl _

theorem cut_division (h : (cut c s).1.form = .token (.symbol .slash)) :
    ∀ d ∈ (cut c s).2.head?, d ≠ '/' ∧ d ≠ '*' := by
  have spells := cut_spells h
  generalize ht : (cut c s).1.text = text at spells
  cases spells
  have whole := cut_text c s
  rw [ht] at whole
  obtain ⟨rfl, left⟩ := List.cons.inj (show '/' :: (cut c s).2 = c :: s from whole)
  rw [left]
  rcases cut_token h with ⟨digit, -⟩ | ⟨word, -⟩ | ⟨quote, -⟩ | ⟨-, slash, -⟩
  · cases digit
  · cases word
  · exact absurd quote (by decide)
  · exact slash rfl

/-- The token at a position is the longest there, and its lexeme alone makes it what it is. -/
structure Longest (source : List Char) (p : Nat) (t : Token) : Prop where
  here : t.lexeme.toList <+: source.drop p
  spells : Spells t.kind t.lexeme.toList
  only : ∀ kind, Spells kind t.lexeme.toList → kind = t.kind
  longest : ∀ kind text, Spells kind text → text <+: source.drop p →
    text.length ≤ t.lexeme.length
  division : t.kind = .symbol .slash →
    ∀ c ∈ (source.drop (p + t.lexeme.length)).head?, c ≠ '/' ∧ c ≠ '*'

theorem CutAt.longest {source : List Char} {p : Nat} {t : Token} (h : CutAt source p t) :
    Longest source p t := by
  obtain ⟨c, s, at_, cut⟩ := h
  have form : (Source.cut c s).1.form = .token t.kind := congrArg Piece.form cut
  have text : (Source.cut c s).1.text = t.lexeme.toList := congrArg Piece.text cut
  have whole : source.drop p = t.lexeme.toList ++ (Source.cut c s).2 := by
    rw [at_, ← cut_text c s, text]
  have spells : Spells t.kind t.lexeme.toList := text ▸ cut_spells form
  refine ⟨?_, spells, fun kind other => other.unique spells, fun kind text' other here => ?_, ?_⟩
  · rw [whole]
    exact List.prefix_append _ _
  · rw [← String.length_toList, ← text]
    exact cut_longest other (at_ ▸ here)
  · intro slash
    rw [← String.length_toList, drop_add whole]
    exact cut_division (slash ▸ form)

/-- Every token of a source is the longest that stands at its position, of the one kind and value that
its lexeme has: a word is the keyword that it spells, or else a name; a number is what its digits
mean, and a string what is between its quotes. A division is followed by no comment mark. -/
theorem scan_longest (source : String) :
    ∃ placed : List (Nat × Token), placed.map Prod.snd = (scan source).tokens ∧
      Laid source.toList 0 placed (scan source).reports ∧
      ∀ x ∈ placed, Longest source.toList x.1 x.2 := by
  have whole : source.toList.drop 0 = source.toList := List.drop_zero
  obtain ⟨placed, tokens, laid, each⟩ := cut_pieces whole (Nat.zero_le _)
  exact ⟨placed, tokens, laid, fun x hx => (each x hx).longest⟩

end Script.Source
