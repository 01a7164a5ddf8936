import Script.Source.Piece
import Script.Report

/-! The tokens of a source and the complaints about its characters, each with its line.
A line is one more than the number of newlines in front. A token, a stray character and an open
comment are on the line where they start, an open string on the line where the source ends. -/
namespace Script.Source

def newlines (text : List Char) : Nat := text.count '\n'

def located : Nat → List Piece → List (Nat × Piece)
  | _, [] => []
  | line, p :: ps => (line, p) :: located (line + newlines p.text) ps

def Piece.token? (line : Nat) (p : Piece) : Option Token :=
  match p.form with
  | .token kind => some ⟨kind, String.ofList p.text, line⟩
  | _ => none

def Piece.report? (line : Nat) (p : Piece) : Option Report :=
  match p.form with
  | .stray => some ⟨line, .unnamed, .unexpectedCharacter⟩
  | .openComment => some ⟨line, .unnamed, .unterminatedComment⟩
  | .openString => some ⟨line + newlines p.text, .unnamed, .unterminatedString⟩
  | _ => none

/-- What reading the characters of a source gives: its tokens, the complaints in the order of the
text, and the line on which it ends. -/
structure Scan where
  tokens : List Token
  reports : List Report
  endLine : Nat
deriving Repr, DecidableEq

def scanChars (source : List Char) : Scan :=
  let ps := located 1 (pieces source)
  { tokens := ps.filterMap fun p => p.2.token? p.1
    reports := ps.filterMap fun p => p.2.report? p.1
    endLine := 1 + newlines source }

def scan (source : String) : Scan := scanChars source.toList

end Script.Source
