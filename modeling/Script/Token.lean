/-! Tokens of the language.
A keyword or symbol is determined by its spelling; a number or string carries the value it denotes.
A token list has no end marker: the end of the input is the end of the list, and its line is kept
beside it. -/
namespace Script

inductive Keyword where
  | and_ | break_ | class_ | continue_ | else_ | false_ | for_ | fun_ | if_ | nil_ | or_ | print_
  | return_ | this_ | true_ | var_ | while_
deriving Repr, DecidableEq

namespace Keyword

def spelling : Keyword → String
  | and_ => "and"
  | break_ => "break"
  | class_ => "class"
  | continue_ => "continue"
  | else_ => "else"
  | false_ => "false"
  | for_ => "for"
  | fun_ => "fun"
  | if_ => "if"
  | nil_ => "nil"
  | or_ => "or"
  | print_ => "print"
  | return_ => "return"
  | this_ => "this"
  | true_ => "true"
  | var_ => "var"
  | while_ => "while"

def all : List Keyword :=
  [and_, break_, class_, continue_, else_, false_, for_, fun_, if_, nil_, or_, print_, return_,
    this_, true_, var_, while_]

def ofSpelling? (word : String) : Option Keyword :=
  all.find? fun k => k.spelling == word

def opensStatement : Keyword → Bool
  | class_ | fun_ | var_ | for_ | if_ | while_ | print_ | return_ | break_ | continue_ => true
  | _ => false

end Keyword

inductive Symbol where
  | leftParen | rightParen | leftBrace | rightBrace | comma | dot | minus | plus | semicolon
  | star | slash | question | colon | bang | equal | less | greater
  | bangEqual | equalEqual | lessEqual | greaterEqual
deriving Repr, DecidableEq

namespace Symbol

def spelling : Symbol → String
  | leftParen => "("
  | rightParen => ")"
  | leftBrace => "\x7b"
  | rightBrace => "\x7d"
  | comma => ","
  | dot => "."
  | minus => "-"
  | plus => "+"
  | semicolon => ";"
  | star => "*"
  | slash => "/"
  | question => "?"
  | colon => ":"
  | bang => "!"
  | equal => "="
  | less => "<"
  | greater => ">"
  | bangEqual => "!="
  | equalEqual => "=="
  | lessEqual => "<="
  | greaterEqual => ">="

def ofChar? : Char → Option Symbol
  | '(' => some leftParen
  | ')' => some rightParen
  | '\x7b' => some leftBrace
  | '\x7d' => some rightBrace
  | ',' => some comma
  | '.' => some dot
  | '-' => some minus
  | '+' => some plus
  | ';' => some semicolon
  | '*' => some star
  | '/' => some slash
  | '?' => some question
  | ':' => some colon
  | '!' => some bang
  | '=' => some equal
  | '<' => some less
  | '>' => some greater
  | _ => none

/-- The symbol that a character spells together with an equals sign behind it. -/
def withEqual? : Char → Option Symbol
  | '!' => some bangEqual
  | '=' => some equalEqual
  | '<' => some lessEqual
  | '>' => some greaterEqual
  | _ => none

end Symbol

inductive Kind where
  | name
  | number (value : Float)
  | string (text : String)
  | keyword (keyword : Keyword)
  | symbol (symbol : Symbol)
deriving Repr, DecidableEq

namespace Kind

def label : Kind → String
  | name => "IDENT"
  | number _ => "NUMBER"
  | string _ => "STRING"
  | keyword k => k.spelling
  | symbol s => s.spelling

def ofWord (word : String) : Kind :=
  match Keyword.ofSpelling? word with
  | some k => keyword k
  | none => name

end Kind

/-- The label of the end of the input in a token listing. -/
def endLabel : String := "EOF"

/-- A token with its exact source text and the line it starts on. -/
structure Token where
  kind : Kind
  lexeme : String
  line : Nat
deriving Repr, DecidableEq

end Script
