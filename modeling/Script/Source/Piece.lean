import Script.Token
import Script.Number.Numeral

/-! A source text cut into pieces.
Every character belongs to exactly one piece: a run of blanks, a comment, a token, or text that is
none of these. A piece is as long as its form allows. Names and digits are ASCII; a block comment
may hold others, and one that is never closed runs to the end of the source. -/
namespace Script.Source

inductive Form where
  | blank
  | lineComment
  | blockComment
  | openComment
  | openString
  | stray
  | token (kind : Kind)
deriving Repr, DecidableEq

/-- A stretch of source text and what it is. -/
structure Piece where
  form : Form
  text : List Char
deriving Repr, DecidableEq

def isBlank (c : Char) : Bool := c == ' ' || c == '\t' || c == '\r' || c == '\n'

def isWordStart (c : Char) : Bool := c.isAlpha || c == '_'

def isWordChar (c : Char) : Bool := isWordStart c || c.isDigit

/-- What follows the block comments that are open, `depth` of them, once all are closed. -/
def afterComment? : Nat → List Char → Option (List Char)
  | 0, s => some s
  | _ + 1, [] => none
  | depth + 1, '/' :: '*' :: s => afterComment? (depth + 2) s
  | depth + 1, '*' :: '/' :: s => afterComment? depth s
  | depth + 1, _ :: s => afterComment? (depth + 1) s

/-- A fraction behind a whole number, if a point and a digit follow. -/
def splitFraction : List Char → List Char × List Char
  | '.' :: d :: s =>
    if d.isDigit then (d :: s.takeWhile Char.isDigit, s.dropWhile Char.isDigit)
    else ([], '.' :: d :: s)
  | s => ([], s)

def cutNumber (d : Char) (s : List Char) : Piece × List Char :=
  let whole := d :: s.takeWhile Char.isDigit
  let (fraction, rest) := splitFraction (s.dropWhile Char.isDigit)
  let text := if fraction.isEmpty then whole else whole ++ '.' :: fraction
  (⟨.token (.number (Number.ofDigits whole fraction)), text⟩, rest)

def cutString (s : List Char) : Piece × List Char :=
  let inside := s.takeWhile (· != '"')
  match s.dropWhile (· != '"') with
  | [] => (⟨.openString, '"' :: s⟩, [])
  | _ :: rest => (⟨.token (.string (String.ofList inside)), '"' :: inside ++ ['"']⟩, rest)

def cutComment (s : List Char) : Piece × List Char :=
  match afterComment? 1 s with
  | none => (⟨.openComment, '/' :: '*' :: s⟩, [])
  | some rest => (⟨.blockComment, '/' :: '*' :: s.take (s.length - rest.length)⟩, rest)

def cutLineComment (s : List Char) : Piece × List Char :=
  (⟨.lineComment, '/' :: '/' :: s.takeWhile (· != '\n')⟩, s.dropWhile (· != '\n'))

def cutWord (c : Char) (s : List Char) : Piece × List Char :=
  let word := c :: s.takeWhile isWordChar
  (⟨.token (Kind.ofWord (String.ofList word)), word⟩, s.dropWhile isWordChar)

def cutBlank (c : Char) (s : List Char) : Piece × List Char :=
  (⟨.blank, c :: s.takeWhile isBlank⟩, s.dropWhile isBlank)

/-- A single character that no other form begins with: a symbol, or a stray. -/
def cutOne (c : Char) (s : List Char) : Piece × List Char :=
  match Symbol.ofChar? c with
  | some symbol => (⟨.token (.symbol symbol), [c]⟩, s)
  | none => (⟨.stray, [c]⟩, s)

/-- A symbol of two characters where there is one, else of one. -/
def cutSymbol (c : Char) : List Char → Piece × List Char
  | '=' :: s =>
    match Symbol.withEqual? c with
    | some symbol => (⟨.token (.symbol symbol), [c, '=']⟩, s)
    | none => cutOne c ('=' :: s)
  | s => cutOne c s

def cut (c : Char) (s : List Char) : Piece × List Char :=
  if isBlank c then cutBlank c s
  else if c.isDigit then cutNumber c s
  else if isWordStart c then cutWord c s
  else if c == '"' then cutString s
  else
    match c, s with
    | '/', '/' :: rest => cutLineComment rest
    | '/', '*' :: rest => cutComment rest
    | c, s => cutSymbol c s

theorem length_dropWhile_le (p : Char → Bool) (s : List Char) :
    (s.dropWhile p).length ≤ s.length := by
  induction s with
  | nil => simp
  | cons c s ih =>
    simp only [List.dropWhile_cons]
    split
    · exact Nat.le_succ_of_le ih
    · exact Nat.le_refl _

theorem length_afterComment? (depth : Nat) (s rest : List Char)
    (h : afterComment? depth s = some rest) : rest.length ≤ s.length := by
  fun_induction afterComment? depth s with
  | case1 s => simp_all
  | case2 => simp at h
  | case3 depth s ih => have := ih h; simp only [List.length_cons]; omega
  | case4 depth s ih => have := ih h; simp only [List.length_cons]; omega
  | case5 depth c s _ _ ih => have := ih h; simp only [List.length_cons]; omega

theorem length_splitFraction (s : List Char) : (splitFraction s).2.length ≤ s.length := by
  unfold splitFraction
  split
  · split
    · have := length_dropWhile_le Char.isDigit ‹List Char›
      simp only [List.length_cons]; omega
    · exact Nat.le_refl _
  · exact Nat.le_refl _

theorem length_cutOne (c : Char) (s : List Char) : (cutOne c s).2.length ≤ s.length := by
  unfold cutOne
  split <;> exact Nat.le_refl _

theorem length_cut (c : Char) (s : List Char) : (cut c s).2.length ≤ s.length := by
  unfold cut
  split
  · exact length_dropWhile_le _ _
  split
  · exact Nat.le_trans (length_splitFraction _) (length_dropWhile_le _ _)
  split
  · exact length_dropWhile_le _ _
  split
  · unfold cutString
    have := length_dropWhile_le (· != '"') s
    split
    · simp
    · simp_all; omega
  split
  · have := length_dropWhile_le (· != '\n') ‹List Char›
    simp only [cutLineComment, List.length_cons]; omega
  · unfold cutComment
    split
    · simp
    · have := length_afterComment? _ _ _ ‹_›
      simp only [List.length_cons]; omega
  · unfold cutSymbol
    split
    · split
      · simp
      · exact length_cutOne _ _
    · exact length_cutOne _ _

def pieces : List Char → List Piece
  | [] => []
  | c :: s => (cut c s).1 :: pieces (cut c s).2
termination_by s => s.length
decreasing_by
  have := length_cut c s
  simp only [List.length_cons]; omega

end Script.Source
