import Script.Proofs.Grammar.Accepted
import Script.Source.Scan

/-! A source followed by another one on the next line.
A piece that has an end of its own does not change with what follows the next newline, and blanks
are of no account, so the tokens of the two sources stand behind one another. -/
namespace Script.Source

open Lexical Grammar

theorem newlines_append (s t : List Char) : newlines (s ++ t) = newlines s + newlines t :=
  List.count_append

theorem splitFraction_text (s : List Char) :
    (if (splitFraction s).1.isEmpty then [] else '.' :: (splitFraction s).1) ++
      (splitFraction s).2 = s := by
  unfold splitFraction
  split
  · split
    · simp
    · rfl
  · rfl

theorem cutNumber_text (d : Char) (s : List Char) :
    (cutNumber d s).1.text ++ (cutNumber d s).2 = d :: s := by
  have fraction := splitFraction_text (s.dropWhile Char.isDigit)
  simp only [cutNumber]
  split at fraction
  · rename_i he
    rw [if_pos he]
    simp only [List.nil_append] at fraction
    rw [fraction, List.cons_append, List.takeWhile_append_dropWhile]
  · rename_i he
    rw [if_neg he, List.append_assoc, fraction, List.cons_append, List.takeWhile_append_dropWhile]

theorem afterComment?_text {depth : Nat} {s rest : List Char}
    (h : afterComment? depth s = some rest) : s.take (s.length - rest.length) ++ rest = s := by
  have suffix : rest <:+ s := by
    fun_induction afterComment? depth s with
    | case1 s => cases h; exact List.suffix_refl _
    | case2 => cases h
    | case3 depth s ih => exact (ih h).trans (List.suffix_append ['/', '*'] s)
    | case4 depth s ih => exact (ih h).trans (List.suffix_append ['*', '/'] s)
    | case5 depth c s _ _ ih => exact (ih h).trans (List.suffix_cons c s)
  obtain ⟨inside, rfl⟩ := suffix
  simp

theorem cutOne_text (c : Char) (s : List Char) :
    (cutOne c s).1.text ++ (cutOne c s).2 = c :: s := by
  unfold cutOne
  split <;> rfl

theorem cut_text (c : Char) (s : List Char) : (cut c s).1.text ++ (cut c s).2 = c :: s := by
  unfold cut
  split
  · exact congrArg (c :: ·) List.takeWhile_append_dropWhile
  split
  · exact cutNumber_text c s
  split
  · exact congrArg (c :: ·) List.takeWhile_append_dropWhile
  split
  · rename_i hq
    rw [beq_iff_eq.mp hq]
    have text := List.takeWhile_append_dropWhile (p := (· != '"')) (l := s)
    unfold cutString
    split
    · simp
    · rename_i d rest hr
      have quote : d = '"' := by
        have := List.head_dropWhile_not (· != '"') (l := s) (by rw [hr]; exact List.cons_ne_nil _ _)
        simpa [hr] using this
      rw [hr, quote] at text
      simp [text]
  split
  · exact congrArg ('/' :: '/' :: ·) List.takeWhile_append_dropWhile
  · unfold cutComment
    split
    · simp
    · rename_i hr
      exact congrArg ('/' :: '*' :: ·) (afterComment?_text hr)
  · unfold cutSymbol
    split
    · split
      · rfl
      · exact cutOne_text _ _
    · exact cutOne_text _ _

/-! Before a newline every piece but a blank ends as it does at the end of the source. -/

def Piece.Closed (p : Piece) : Prop := p.form ≠ .openComment ∧ p.form ≠ .openString

section Newline

variable {p : Char → Bool}

theorem takeWhile_newline (hp : p '\n' = false) (s t : List Char) :
    (s ++ '\n' :: t).takeWhile p = s.takeWhile p := by
  induction s with
  | nil => simp [hp]
  | cons c s ih => simp only [List.cons_append, List.takeWhile_cons, ih]

theorem dropWhile_newline (hp : p '\n' = false) (s t : List Char) :
    (s ++ '\n' :: t).dropWhile p = s.dropWhile p ++ '\n' :: t := by
  induction s with
  | nil => simp [hp]
  | cons c s ih =>
    simp only [List.cons_append, List.dropWhile_cons, ih]
    split <;> rfl

theorem dropWhile_stops {s : List Char} (h : s.dropWhile p ≠ []) (u : List Char) :
    (s ++ u).takeWhile p = s.takeWhile p ∧ (s ++ u).dropWhile p = s.dropWhile p ++ u := by
  induction s with
  | nil => exact absurd rfl h
  | cons c s ih =>
    simp only [List.cons_append, List.takeWhile_cons, List.dropWhile_cons] at h ⊢
    split at h
    · rename_i hc
      simp only [if_pos hc, (ih h).1, (ih h).2, and_self]
    · rename_i hc
      simp only [if_neg hc, List.cons_append, and_self]

end Newline

/-- A cut that does not look past the next newline. -/
def Ends {γ : Type} (f : List Char → γ × List Char) (s : List Char) : Prop :=
  ∀ t, f (s ++ '\n' :: t) = ((f s).1, (f s).2 ++ '\n' :: t)

variable {c : Char} {s : List Char}

theorem splitFraction_of_ne (h : c ≠ '.') (u : List Char) :
    splitFraction (c :: u) = ([], c :: u) := by
  unfold splitFraction
  split
  · rename_i he
    cases he
    exact absurd rfl h
  · rfl

theorem splitFraction_ends (s : List Char) : Ends splitFraction s := by
  intro t
  cases s with
  | nil => rfl
  | cons c s =>
    by_cases hc : c = '.'
    · subst hc
      cases s with
      | nil => rfl
      | cons d s =>
        simp only [List.cons_append, splitFraction, takeWhile_newline (p := Char.isDigit) rfl,
          dropWhile_newline (p := Char.isDigit) rfl]
        split <;> rfl
    · rw [List.cons_append, splitFraction_of_ne hc, splitFraction_of_ne hc]
      rfl

theorem cutNumber_ends (d : Char) (s : List Char) : Ends (cutNumber d) s := by
  intro t
  simp only [cutNumber, takeWhile_newline (p := Char.isDigit) rfl,
    dropWhile_newline (p := Char.isDigit) rfl, splitFraction_ends _ t]

theorem cutString_ends (closed : (cutString s).1.Closed) : Ends cutString s := by
  intro t
  unfold cutString at closed ⊢
  split at closed
  · exact absurd rfl closed.2
  · rename_i hr
    obtain ⟨taken, left⟩ := dropWhile_stops (by rw [hr]; exact List.cons_ne_nil _ _) ('\n' :: t)
    rw [hr] at left
    simp only [taken, left, List.cons_append]

theorem afterComment?_append {depth : Nat} {rest : List Char}
    (h : afterComment? depth s = some rest) (u : List Char) :
    afterComment? depth (s ++ u) = some (rest ++ u) := by
  fun_induction afterComment? depth s with
  | case1 s =>
    cases h
    simp only [afterComment?]
  | case2 => cases h
  | case3 depth s ih => exact ih h
  | case4 depth s ih => exact ih h
  | case5 depth c s opens closes ih =>
    cases s with
    | nil => cases h
    | cons d s =>
      rw [List.cons_append, List.cons_append, afterComment?]
      · exact ih h
      · rintro v rfl hv
        cases hv
        exact opens s rfl rfl
      · rintro v rfl hv
        cases hv
        exact closes s rfl rfl

theorem cutComment_ends (closed : (cutComment s).1.Closed) : Ends cutComment s := by
  intro t
  unfold cutComment at closed ⊢
  split at closed
  · exact absurd rfl closed.1
  · rename_i rest hr
    have shorter := length_afterComment? 1 s rest hr
    have taken : (s ++ '\n' :: t).length - (rest ++ '\n' :: t).length = s.length - rest.length := by
      simp only [List.length_append]
      omega
    simp only [afterComment?_append hr, taken]
    rw [List.take_append_of_le_length (Nat.sub_le _ _)]

theorem cutOne_append (c : Char) (s u : List Char) :
    cutOne c (s ++ u) = ((cutOne c s).1, (cutOne c s).2 ++ u) := by
  unfold cutOne
  split <;> rfl

theorem cutSymbol_of_ne {d : Char} (h : d ≠ '=') (u : List Char) :
    cutSymbol c (d :: u) = cutOne c (d :: u) := by
  unfold cutSymbol
  split
  · rename_i he
    cases he
    exact absurd rfl h
  · rfl

theorem cutSymbol_ends (c : Char) (s : List Char) : Ends (cutSymbol c) s := by
  intro t
  cases s with
  | nil => exact (cutSymbol_of_ne (by decide) t).trans (cutOne_append c [] _)
  | cons d s =>
    by_cases hd : d = '='
    · subst hd
      simp only [List.cons_append, cutSymbol]
      split
      · rfl
      · exact cutOne_append c ('=' :: s) _
    · rw [List.cons_append, cutSymbol_of_ne hd, cutSymbol_of_ne hd]
      exact cutOne_append c (d :: s) _

theorem cut_symbol (blank : isBlank c = false) (digit : c.isDigit = false)
    (word : isWordStart c = false) (quote : c ≠ '"')
    (slash : c = '/' → ∀ d ∈ s.head?, d ≠ '/' ∧ d ≠ '*') : cut c s = cutSymbol c s := by
  unfold cut
  rw [if_neg (by simp [blank]), if_neg (by simp [digit]), if_neg (by simp [word]),
    if_neg (by simpa using quote)]
  split
  · exact absurd rfl (slash rfl _ rfl).1
  · exact absurd rfl (slash rfl _ rfl).2
  · rfl

theorem cut_ends (blank : isBlank c = false) (closed : (cut c s).1.Closed) : Ends (cut c) s := by
  intro t
  by_cases digit : c.isDigit = true
  · simp only [cut, blank, digit]
    exact cutNumber_ends c s t
  rw [Bool.not_eq_true] at digit
  by_cases word : isWordStart c = true
  · simp only [cut, blank, digit, word, cutWord, takeWhile_newline (p := isWordChar) rfl,
      dropWhile_newline (p := isWordChar) rfl]
    rfl
  rw [Bool.not_eq_true] at word
  by_cases quote : c = '"'
  · subst quote
    exact cutString_ends closed t
  by_cases comment : c = '/' ∧ ∃ d ∈ s.head?, d = '/' ∨ d = '*'
  · obtain ⟨rfl, d, hd, hc⟩ := comment
    obtain ⟨s, rfl⟩ := List.head?_eq_some_iff.mp hd
    rcases hc with rfl | rfl
    · show cutLineComment (s ++ '\n' :: t) = _
      simp only [cutLineComment, takeWhile_newline (p := (· != '\n')) rfl,
        dropWhile_newline (p := (· != '\n')) rfl]
      rfl
    · exact cutComment_ends closed t
  · have slash : c = '/' → ∀ d ∈ s.head?, d ≠ '/' ∧ d ≠ '*' := by
      intro hc d hd
      constructor
      · intro he
        exact comment ⟨hc, d, hd, .inl he⟩
      · intro he
        exact comment ⟨hc, d, hd, .inr he⟩
    have slash' : c = '/' → ∀ d ∈ (s ++ '\n' :: t).head?, d ≠ '/' ∧ d ≠ '*' := by
      cases s with
      | nil =>
        rintro - d ⟨⟩
        decide
      | cons d s => exact slash
    rw [cut_symbol blank digit word quote slash, cut_symbol blank digit word quote slash']
    exact cutSymbol_ends c s t

/-- What a measure finds in the pieces of a text that starts on a line. -/
def found {α : Type} (f : Nat → Piece → Option α) (line : Nat) (s : List Char) : List α :=
  (located line (pieces s)).filterMap fun p => f p.1 p.2

section Found

variable {α : Type} {f : Nat → Piece → Option α}

theorem closed_of_report? {line : Nat} {p : Piece} (h : p.report? line = none) : p.Closed := by
  constructor
  · intro hp
    simp only [Piece.report?, hp] at h
    cases h
  · intro hp
    simp only [Piece.report?, hp] at h
    cases h

theorem found_nil (line : Nat) : found f line [] = [] := by
  unfold found
  rw [pieces]
  rfl

theorem found_cons (line : Nat) : found f line (c :: s) =
    (f line (cut c s).1).toList ++ found f (line + newlines (cut c s).1.text) (cut c s).2 := by
  unfold found
  rw [pieces, located, List.filterMap_cons]
  cases f line (cut c s).1 <;> rfl

theorem found_blank (blanks : ∀ line text, f line ⟨.blank, text⟩ = none) (line : Nat)
    (blank : isBlank c = true) : found f line (c :: s) = found f (line + newlines [c]) s := by
  have run : ∀ c s line, isBlank c = true → found f line (c :: s) =
      found f (line + newlines (c :: s.takeWhile isBlank)) (s.dropWhile isBlank) := by
    intro c s line h
    have hc : cut c s = cutBlank c s := if_pos h
    rw [found_cons, hc, cutBlank, blanks]
    rfl
  rw [run c s line blank]
  cases s with
  | nil => rfl
  | cons d s =>
    by_cases hd : isBlank d = true
    · rw [run d s _ hd, List.takeWhile_cons, if_pos hd, List.dropWhile_cons, if_pos hd,
        Nat.add_assoc, ← newlines_append]
      rfl
    · rw [List.takeWhile_cons, if_neg hd, List.dropWhile_cons, if_neg hd]

/-- Nothing is found in blanks, and what is found behind a newline does not depend on what stands
before. -/
theorem found_newline (blanks : ∀ line text, f line ⟨.blank, text⟩ = none) (line : Nat)
    (s t : List Char) (clean : found Piece.report? line s = []) :
    found f line (s ++ '\n' :: t) = found f line s ++ found f (line + newlines s + 1) t := by
  induction hn : s.length using Nat.strongRecOn generalizing s line with
  | ind n ih =>
  cases s with
  | nil =>
    rw [found_nil]
    exact found_blank blanks line rfl
  | cons c s =>
    by_cases blank : isBlank c = true
    · rw [found_blank (fun _ _ => rfl) line blank] at clean
      rw [List.cons_append, found_blank blanks line blank, found_blank blanks line blank,
        ih s.length (by rw [← hn]; exact Nat.lt_succ_self _) _ _ clean rfl, Nat.add_assoc line,
        ← newlines_append]
      rfl
    · rw [Bool.not_eq_true] at blank
      have shorter := length_cut c s
      rw [found_cons, List.append_eq_nil_iff] at clean
      have closed : (cut c s).1.Closed := closed_of_report? (Option.toList_eq_nil_iff.mp clean.1)
      rw [List.cons_append, found_cons, cut_ends blank closed, found_cons,
        ih _ (by rw [← hn]; exact Nat.lt_succ_of_le shorter) _ _ clean.2 rfl,
        List.append_assoc, ← cut_text c s, newlines_append]
      simp only [Nat.add_assoc]

theorem found_moved {g : α → α} {k : Nat} (moved : ∀ line p, f (line + k) p = (f line p).map g)
    (line : Nat) (s : List Char) : found f (line + k) s = (found f line s).map g := by
  fun_induction pieces s generalizing line with
  | case1 => simp only [found_nil, List.map_nil]
  | case2 c s ih =>
    rw [found_cons, found_cons, moved, Nat.add_right_comm, ih, List.map_append]
    cases f line (cut c s).1 <;> rfl

/-- What is cut is closed unless it is a string or a comment without an end. -/
theorem closed_or_open (c : Char) (s : List Char) : (cut c s).1.Closed ∨
    (c = '"' ∧ s.dropWhile (· != '"') = []) ∨
    c = '/' ∧ ∃ inside, s = '*' :: inside ∧ afterComment? 1 inside = none := by
  have one (d : Char) (t : List Char) : (cutOne d t).1.Closed := by
    unfold cutOne
    split
    · simp [Piece.Closed]
    · simp [Piece.Closed]
  unfold cut
  split
  · simp [cutBlank, Piece.Closed]
  split
  · simp [cutNumber, Piece.Closed]
  split
  · simp [cutWord, Piece.Closed]
  split
  · rename_i quote
    unfold cutString
    split
    · exact .inr (.inl ⟨beq_iff_eq.mp quote, ‹_›⟩)
    · simp [Piece.Closed]
  split
  · simp [cutLineComment, Piece.Closed]
  · unfold cutComment
    split
    · exact .inr (.inr ⟨rfl, _, rfl, ‹_›⟩)
    · simp [Piece.Closed]
  · refine .inl ?_
    unfold cutSymbol
    split
    · split
      · simp [Piece.Closed]
      · exact one _ _
    · exact one _ _

theorem afterComment?_newline {depth : Nat} (h : afterComment? depth s = none) :
    afterComment? depth (s ++ ['\n']) = none := by
  fun_induction afterComment? depth s with
  | case1 => cases h
  | case2 => simp [afterComment?]
  | case3 depth s ih => exact ih h
  | case4 depth s ih => exact ih h
  | case5 depth c s opens closes ih =>
    rw [List.cons_append, afterComment?]
    · exact ih h
    · rintro u rfl hu
      cases s <;> cases hu
      exact opens _ rfl rfl
    · rintro u rfl hu
      cases s <;> cases hu
      exact closes _ rfl rfl

theorem closed_of_newline (h : (cut c (s ++ ['\n'])).1.Closed) : (cut c s).1.Closed := by
  rcases closed_or_open c s with closed | ⟨rfl, open_⟩ | ⟨rfl, inside, rfl, open_⟩
  · exact closed
  · have left : (s ++ ['\n']).dropWhile (· != '"') = [] := by
      rw [List.dropWhile_append, open_]
      rfl
    have cut : (cut '"' (s ++ ['\n'])).1 = ⟨.openString, '"' :: (s ++ ['\n'])⟩ := by
      show (cutString (s ++ ['\n'])).1 = _
      simp only [cutString, left]
    rw [cut] at h
    exact absurd rfl h.2
  · have cut : (cut '/' ('*' :: inside ++ ['\n'])).1 =
        ⟨.openComment, '/' :: '*' :: (inside ++ ['\n'])⟩ := by
      show (cutComment (inside ++ ['\n'])).1 = _
      simp only [cutComment, afterComment?_newline open_]
    rw [cut] at h
    exact absurd rfl h.1

/-- Without complaints about a source that ends with a newline there are none without it. -/
theorem clean_of_newline (line : Nat) (s : List Char)
    (clean : found Piece.report? line (s ++ ['\n']) = []) : found Piece.report? line s = [] := by
  induction hn : s.length using Nat.strongRecOn generalizing s line with
  | ind n ih =>
  cases s with
  | nil => exact found_nil line
  | cons c s =>
    by_cases blank : isBlank c = true
    · rw [List.cons_append, found_blank (fun _ _ => rfl) line blank] at clean
      rw [found_blank (fun _ _ => rfl) line blank]
      exact ih s.length (by rw [← hn]; exact Nat.lt_succ_self _) _ _ clean rfl
    · rw [Bool.not_eq_true] at blank
      have shorter := length_cut c s
      rw [List.cons_append, found_cons, List.append_eq_nil_iff] at clean
      have closed := closed_of_newline
        (closed_of_report? (Option.toList_eq_nil_iff.mp clean.1))
      rw [cut_ends blank closed] at clean
      rw [found_cons, List.append_eq_nil_iff]
      exact ⟨clean.1, ih _ (by rw [← hn]; exact Nat.lt_succ_of_le shorter) _ _ clean.2 rfl⟩

end Found

def height (source : String) : Nat := newlines source.toList + 1

/-- A source and another one on the next line. -/
def joined (first second : String) : String := first ++ "\n" ++ second

/-- A source that follows one without complaints is scanned as it is on its own, further down. -/
theorem scan_joined (first second : String) (clean : (scan first).reports = []) :
    (scan (joined first second)).tokens = (scan first).tokens ++
        (scan second).tokens.map (Renaming.relined (· + height first)).token ∧
      ((scan second).reports = [] → (scan (joined first second)).reports = []) := by
  have chars : (joined first second).toList = first.toList ++ '\n' :: second.toList := by
    simp [joined]
  have line : 1 + newlines first.toList + 1 = 1 + height first := Nat.add_assoc _ _ _
  constructor
  · show found Piece.token? 1 _ = found Piece.token? 1 _ ++ (found Piece.token? 1 _).map _
    rw [chars, found_newline (fun _ _ => rfl) 1 _ _ clean, line]
    congr 1
    refine found_moved (fun line p => ?_) 1 second.toList
    unfold Piece.token?
    split
    · rw [Option.map_some, relined_token]
    · rfl
  · intro clean'
    show found Piece.report? 1 _ = []
    have moved := found_moved (f := Piece.report?) (k := height first)
      (g := fun r => { r with line := r.line + height first }) (fun line p => by
        unfold Piece.report?
        split
        · rfl
        · rfl
        · simp only [Option.map_some, Nat.add_right_comm]
        · rfl) 1 second.toList
    rw [chars, found_newline (fun _ _ => rfl) 1 _ _ clean, line, moved]
    exact List.append_eq_nil_iff.mpr ⟨clean, congrArg _ clean'⟩

end Script.Source
