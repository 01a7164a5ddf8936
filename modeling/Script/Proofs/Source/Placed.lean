import Mathlib.Data.List.TakeWhile
import Script.Proofs.Source.Comments
import Script.Proofs.Source.Joining

/-! Where the tokens of a source stand.
Between the tokens of a source, and before and behind them, are only blanks, comments and characters
that no token begins with, up to a string or a comment that is never closed. -/
namespace Script.Source

def lineAt (source : List Char) (p : Nat) : Nat := 1 + newlines (source.take p)

/-- Nothing that the language knows begins with the character. -/
structure Unrecognized (c : Char) : Prop where
  blank : c ∉ [' ', '\t', '\r', '\n']
  digit : c.isDigit = false
  word : isWordStart c = false
  quote : c ≠ '"'
  symbol : ∀ s : Symbol, s.spelling.toList.head? ≠ some c

/-- What stands from one position to another is no token; it may be complained of. -/
inductive Filler (source : List Char) : Nat → Nat → List Report → Prop where
  | blank {p : Nat} {c : Char} {rest : List Char} : source.drop p = c :: rest →
      c ∈ [' ', '\t', '\r', '\n'] → Filler source p (p + 1) []
  | lineComment {p : Nat} {text rest : List Char} : source.drop p = '/' :: '/' :: text ++ rest →
      '\n' ∉ text → (∀ c ∈ rest.head?, c = '\n') → Filler source p (p + 2 + text.length) []
  | blockComment {p : Nat} {text rest : List Char} : source.drop p = '/' :: '*' :: text ++ rest →
      Closes text → Filler source p (p + 2 + text.length) []
  | stray {p : Nat} {c : Char} {rest : List Char} : source.drop p = c :: rest → Unrecognized c →
      Filler source p (p + 1) [⟨lineAt source p, .unnamed, .unexpectedCharacter⟩]

/-- From one position to another there is one filler behind the other. -/
inductive Gap (source : List Char) : Nat → Nat → List Report → Prop where
  | none (p : Nat) : Gap source p p []
  | cons {p q r : Nat} {reports more : List Report} : Filler source p q reports →
      Gap source q r more → Gap source p r (reports ++ more)

/-- From a position to its end the source holds nothing, or what is opened there and never
closed. -/
inductive Tail (source : List Char) : Nat → List Report → Prop where
  | none : Tail source source.length []
  | openString {p : Nat} {text : List Char} : source.drop p = '"' :: text → '"' ∉ text →
      Tail source p [⟨lineAt source source.length, .unnamed, .unterminatedString⟩]
  | openComment {p : Nat} {text : List Char} : source.drop p = '/' :: '*' :: text →
      (∀ u, Closes u → ¬ u <+: text) →
      Tail source p [⟨lineAt source p, .unnamed, .unterminatedComment⟩]

structure TokenAt (source : List Char) (p : Nat) (t : Token) : Prop where
  nonempty : t.lexeme ≠ ""
  text : t.lexeme.toList <+: source.drop p
  line : t.line = lineAt source p

/-- From a position to its end the source holds the tokens at their positions and else only what is
no token, with so many complaints. -/
inductive Laid (source : List Char) : Nat → List (Nat × Token) → List Report → Prop where
  | last {p q : Nat} {reports more : List Report} : Gap source p q reports → Tail source q more →
      Laid source p [] (reports ++ more)
  | token {p q : Nat} {t : Token} {placed : List (Nat × Token)} {reports more : List Report} :
      Gap source p q reports → TokenAt source q t →
      Laid source (q + t.lexeme.length) placed more →
      Laid source p ((q, t) :: placed) (reports ++ more)

variable {source : List Char} {p q : Nat} {reports more : List Report}

theorem Filler.le (h : Filler source p q reports) : p ≤ q := by
  cases h <;> omega

theorem Gap.le (h : Gap source p q reports) : p ≤ q := by
  induction h with
  | none p => exact Nat.le_refl p
  | cons filler _ ih => exact Nat.le_trans filler.le ih

theorem Gap.of_filler (h : Filler source p q reports) : Gap source p q reports := by
  have gap := Gap.cons h (.none q)
  rwa [List.append_nil] at gap

theorem Gap.append {r : Nat} (h : Gap source p q reports) (h' : Gap source q r more) :
    Gap source p r (reports ++ more) := by
  induction h with
  | none p => exact h'
  | cons filler _ ih =>
    rw [List.append_assoc]
    exact .cons filler (ih h')

namespace Laid

variable {placed : List (Nat × Token)}

theorem behind (h : Gap source p q reports) (laid : Laid source q placed more) :
    Laid source p placed (reports ++ more) := by
  cases laid with
  | last gap tail =>
    rw [← List.append_assoc]
    exact .last (h.append gap) tail
  | token gap token rest =>
    rw [← List.append_assoc]
    exact .token (h.append gap) token rest

theorem le (h : Laid source p placed reports) : ∀ x ∈ placed, p ≤ x.1 := by
  induction h with
  | last => exact List.forall_mem_nil _
  | token gap _ _ ih =>
    refine List.forall_mem_cons.mpr ⟨gap.le, fun x hx => ?_⟩
    exact Nat.le_trans gap.le (Nat.le_trans (Nat.le_add_right _ _) (ih x hx))

theorem tokenAt (h : Laid source p placed reports) : ∀ x ∈ placed, TokenAt source x.1 x.2 := by
  induction h with
  | last => exact List.forall_mem_nil _
  | token _ token _ ih => exact List.forall_mem_cons.mpr ⟨token, ih⟩

theorem apart (h : Laid source p placed reports) :
    placed.Pairwise fun x y => x.1 + x.2.lexeme.length ≤ y.1 := by
  induction h with
  | last => exact List.Pairwise.nil
  | token _ _ rest ih => exact List.pairwise_cons.mpr ⟨rest.le, ih⟩

end Laid

variable {text rest s : List Char} {c : Char}

theorem drop_add (h : source.drop p = text ++ rest) : source.drop (p + text.length) = rest := by
  rw [← List.drop_drop, h, List.drop_left]

theorem lineAt_add (h : source.drop p = text ++ rest) :
    lineAt source (p + text.length) = lineAt source p + newlines text := by
  rw [lineAt, List.take_add, h, List.take_left, newlines_append, ← Nat.add_assoc, lineAt]

theorem lineAt_length (h : source.drop p = text) :
    lineAt source source.length = lineAt source p + newlines text := by
  rw [lineAt, List.take_length, lineAt, Nat.add_assoc, ← newlines_append, ← h,
    List.take_append_drop]

def Stands (source : List Char) (p : Nat) (x : Piece × List Char) : Prop :=
  match x.1.form with
  | .token _ => True
  | .openString | .openComment => x.2 = [] ∧ Tail source p (x.1.report? (lineAt source p)).toList
  | _ => Gap source p (p + x.1.text.length) (x.1.report? (lineAt source p)).toList

theorem isBlank_iff : isBlank c = true ↔ c ∈ [' ', '\t', '\r', '\n'] := by
  simp [isBlank, or_assoc]

theorem gap_blanks (h : source.drop p = text ++ rest) (blanks : ∀ c ∈ text, isBlank c = true) :
    Gap source p (p + text.length) [] := by
  induction text generalizing p with
  | nil => exact .none p
  | cons c text ih =>
    obtain ⟨hc, blanks⟩ := List.forall_mem_cons.mp blanks
    have next : source.drop (p + 1) = text ++ rest := by
      rw [← List.drop_drop, h]
      rfl
    rw [List.length_cons, Nat.add_comm text.length, ← Nat.add_assoc]
    exact .cons (.blank h (isBlank_iff.mp hc)) (ih next blanks)

theorem cutBlank_stands (h : source.drop p = c :: s) (blank : isBlank c = true) :
    Stands source p (cutBlank c s) := by
  have whole : source.drop p = (c :: s.takeWhile isBlank) ++ s.dropWhile isBlank := by
    rw [h, List.cons_append, List.takeWhile_append_dropWhile]
  exact gap_blanks whole (List.forall_mem_cons.mpr ⟨blank, fun d => List.mem_takeWhile_imp⟩)

theorem cutString_stands (h : source.drop p = '"' :: s) : Stands source p (cutString s) := by
  unfold cutString
  split
  · rename_i open_
    refine ⟨rfl, ?_⟩
    simp only [Piece.report?, ← lineAt_length h]
    exact .openString h fun quoted => by
      have := List.dropWhile_eq_nil_iff.mp open_ _ quoted
      simp at this
  · trivial

theorem cutLineComment_stands (h : source.drop p = '/' :: '/' :: s) :
    Stands source p (cutLineComment s) := by
  have whole : source.drop p =
      '/' :: '/' :: s.takeWhile (· != '\n') ++ s.dropWhile (· != '\n') := by
    rw [h, List.cons_append, List.cons_append, List.takeWhile_append_dropWhile]
  have comment := Filler.lineComment whole (fun newline => by
      have := List.mem_takeWhile_imp newline
      simp at this)
    (fun c hc => by
      have := List.head?_dropWhile_not (· != '\n') s
      rw [Option.mem_def.mp hc] at this
      simpa using this)
  have gap := Gap.of_filler comment
  rwa [Nat.add_assoc, Nat.add_comm 2] at gap

theorem cutComment_stands (h : source.drop p = '/' :: '*' :: s) :
    Stands source p (cutComment s) := by
  unfold cutComment
  split
  · rename_i open_
    exact ⟨rfl, .openComment h (afterComment?_eq_none.mp open_)⟩
  · rename_i rest closed
    obtain ⟨u, closes, rfl⟩ := afterComment?_eq_some.mp closed
    have taken : (u ++ rest).take ((u ++ rest).length - rest.length) = u := by simp
    have gap := Gap.of_filler (.blockComment h closes)
    rw [Nat.add_assoc, Nat.add_comm 2] at gap
    simp only [Stands, taken]
    exact gap

theorem ofChar?_symbol {symbol : Symbol} (h : symbol.spelling.toList.head? = some c) :
    Symbol.ofChar? c ≠ none := by
  cases symbol <;> cases h <;> decide

theorem cutOne_stands (h : source.drop p = c :: s) (blank : isBlank c = false)
    (digit : c.isDigit = false) (word : isWordStart c = false) (quote : c ≠ '"') :
    Stands source p (cutOne c s) := by
  unfold cutOne
  split
  · trivial
  · rename_i none
    refine Gap.of_filler (.stray h ⟨fun hb => ?_, digit, word, quote, fun symbol hs => ?_⟩)
    · rw [isBlank_iff.mpr hb] at blank
      cases blank
    · exact ofChar?_symbol hs none

theorem cut_stands (h : source.drop p = c :: s) : Stands source p (cut c s) := by
  unfold cut
  split
  · exact cutBlank_stands h ‹_›
  rename_i blank
  split
  · trivial
  rename_i digit
  split
  · trivial
  rename_i word
  split
  · rename_i quote
    rw [beq_iff_eq.mp quote] at h
    exact cutString_stands h
  rename_i quote
  rw [Bool.not_eq_true] at blank digit word
  have quote : c ≠ '"' := by simpa using quote
  split
  · exact cutLineComment_stands h
  · exact cutComment_stands h
  · unfold cutSymbol
    split
    · split
      · trivial
      · exact cutOne_stands h blank digit word quote
    · exact cutOne_stands h blank digit word quote

theorem cut_nonempty (c : Char) (s : List Char) : (cut c s).1.text ≠ [] := by
  intro empty
  have length := congrArg List.length (cut_text c s)
  rw [empty, List.nil_append, List.length_cons] at length
  exact absurd (length_cut c s) (by omega)

theorem tokenAt_cut {kind : Kind} (h : source.drop p = c :: s) :
    TokenAt source p ⟨kind, String.ofList (cut c s).1.text, lineAt source p⟩ := by
  refine ⟨fun empty => ?_, ?_, rfl⟩
  · have chars := congrArg String.toList empty
    rw [String.toList_ofList] at chars
    exact cut_nonempty c s chars
  · rw [h, ← cut_text c s, String.toList_ofList]
    exact List.prefix_append _ _

def CutAt (source : List Char) (p : Nat) (t : Token) : Prop :=
  ∃ c s, source.drop p = c :: s ∧ (cut c s).1 = ⟨.token t.kind, t.lexeme.toList⟩

/-- From a position on the pieces give the tokens that are cut there and the complaints. -/
theorem cut_pieces (h : source.drop p = s) (inside : p ≤ source.length) :
    ∃ placed, placed.map Prod.snd = found Piece.token? (lineAt source p) s ∧
      Laid source p placed (found Piece.report? (lineAt source p) s) ∧
      ∀ x ∈ placed, CutAt source x.1 x.2 := by
  fun_induction pieces s generalizing p with
  | case1 =>
    have last : p = source.length := Nat.le_antisymm inside (List.drop_eq_nil_iff.mp h)
    rw [found_nil, found_nil, last]
    exact ⟨[], rfl, .last (.none _) .none, List.forall_mem_nil _⟩
  | case2 c s ih =>
    have whole : source.drop p = (cut c s).1.text ++ (cut c s).2 := h.trans (cut_text c s).symm
    have length := congrArg List.length whole
    rw [List.length_drop, List.length_append] at length
    obtain ⟨placed, tokens, laid, each⟩ := ih (drop_add whole) (by omega)
    have stands := cut_stands h
    have token : ∀ kind, TokenAt source p
        ⟨kind, String.ofList (cut c s).1.text, lineAt source p⟩ := fun _ => tokenAt_cut h
    have first : ∀ kind, (cut c s).1.form = .token kind → CutAt source p
        ⟨kind, String.ofList (cut c s).1.text, lineAt source p⟩ := by
      intro kind form
      refine ⟨c, s, h, ?_⟩
      rw [String.toList_ofList, ← form]
    rw [found_cons, found_cons, ← lineAt_add whole]
    generalize cut c s = x at stands token first tokens laid ⊢
    obtain ⟨⟨form, text⟩, rest⟩ := x
    cases form with
    | token kind =>
      refine ⟨(p, _) :: placed, congrArg₂ List.cons rfl tokens, ?_,
        List.forall_mem_cons.mpr ⟨first kind rfl, each⟩⟩
      refine .token (.none p) (token kind) ?_
      rw [String.length_ofList]
      exact laid
    | openString =>
      obtain ⟨rfl, tail⟩ := stands
      have laid := Laid.last (.none p) tail
      rw [found_nil, found_nil, List.append_nil]
      exact ⟨[], rfl, laid, List.forall_mem_nil _⟩
    | openComment =>
      obtain ⟨rfl, tail⟩ := stands
      have laid := Laid.last (.none p) tail
      rw [found_nil, found_nil, List.append_nil]
      exact ⟨[], rfl, laid, List.forall_mem_nil _⟩
    | _ => exact ⟨placed, tokens, .behind stands laid, each⟩

theorem laid_pieces (h : source.drop p = s) (inside : p ≤ source.length) :
    ∃ placed, placed.map Prod.snd = found Piece.token? (lineAt source p) s ∧
      Laid source p placed (found Piece.report? (lineAt source p) s) := by
  obtain ⟨placed, tokens, laid, -⟩ := cut_pieces h inside
  exact ⟨placed, tokens, laid⟩

theorem label_ne_end (kind : Kind) : kind.label ≠ endLabel := by
  cases kind with
  | name => decide
  | number value => exact (by decide : "NUMBER" ≠ endLabel)
  | string text => exact (by decide : "STRING" ≠ endLabel)
  | keyword k => cases k <;> decide
  | symbol s => cases s <;> decide

/-- Every character of a source belongs to one of its tokens, to a blank, a comment or a stray, or to
a string or comment that is not closed before the end. The tokens stand in the source one behind the
other, each as its lexeme and on the line of its first character; the complaints are those about the
strays, in order, each on its line, and behind them the one about what is not closed. The input ends
once, on the last line. -/
theorem scan_placed (source : String) :
    (∃ placed : List (Nat × Token), placed.map Prod.snd = (scan source).tokens ∧
      Laid source.toList 0 placed (scan source).reports ∧
      (∀ x ∈ placed, TokenAt source.toList x.1 x.2) ∧
      placed.Pairwise fun x y => x.1 + x.2.lexeme.length ≤ y.1) ∧
    (∀ t ∈ (scan source).tokens, t.kind.label ≠ endLabel) ∧
    (scan source).endLine = lineAt source.toList source.toList.length := by
  have whole : source.toList.drop 0 = source.toList := List.drop_zero
  obtain ⟨placed, tokens, laid⟩ := laid_pieces whole (Nat.zero_le _)
  refine ⟨⟨placed, tokens, laid, laid.tokenAt, laid.apart⟩, fun t _ => label_ne_end t.kind, ?_⟩
  rw [lineAt, List.take_length]
  rfl

end Script.Source
