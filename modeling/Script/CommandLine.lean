import Script.Dialogue

/-! The command line: a script file, or a prompt where no file is named.
What the outside world holds comes in as data: the content of a file or why it cannot be had, and
the text of the standard input. -/
namespace Script.CommandLine

inductive Mode where
  | run | tokens
deriving Repr, DecidableEq

inductive Misuse where
  | unknownFlag (argument : String)
  | unexpectedArgument (argument : String)
deriving Repr, DecidableEq

def Misuse.message : Misuse → String
  | unknownFlag argument => "ze: unknown flag '" ++ argument ++ "'\n"
  | unexpectedArgument argument => "ze: unexpected argument '" ++ argument ++ "'\n"

inductive Command where
  | help
  | misuse (misuse : Misuse)
  | prompt (mode : Mode)
  | script (path : String) (mode : Mode)
deriving Repr, DecidableEq

def usage : String :=
  "ze [OPTIONS] [FILE]\n\n" ++
  "Run a Ze script, or start an interactive prompt when FILE is omitted.\n\n" ++
  "Options:\n" ++
  "  --tokens           Print the token stream instead of running\n" ++
  "  --help             Show this help message\n"

/-- Reads arguments from the left with the path and the mode found so far; the first argument that
settles the matter ends it. An empty path is no path. -/
def Command.ofRest (path : String) (mode : Mode) : List String → Command
  | [] => if path = "" then .prompt mode else .script path mode
  | argument :: rest =>
    if argument = "--help" ∨ argument = "-h" then .help
    else if argument = "--tokens" then ofRest path .tokens rest
    else if argument.startsWith "-" then .misuse (.unknownFlag argument)
    else if path = "" then ofRest argument mode rest
    else .misuse (.unexpectedArgument argument)

def Command.ofArguments (arguments : List String) : Command := ofRest "" .run arguments

inductive Refusal where
  | absent
  | isDirectory
  | notDirectory
  | other (number : Nat) (reason : String)
deriving Repr, DecidableEq

def hexDigits (width n : Nat) : List Char :=
  let ds := Nat.toDigits 16 n
  List.replicate (width - ds.length) '0' ++ ds

/-- A character of a quoted path. The quote and the backslash get a backslash; a control character
is written by its number. -/
def escapeChar (quote c : Char) : List Char :=
  if c = '\\' ∨ c = quote then ['\\', c]
  else if c = '\n' then ['\\', 'n']
  else if c = '\r' then ['\\', 'r']
  else if c = '\t' then ['\\', 't']
  else if c.toNat < 32 ∨ 127 ≤ c.toNat ∧ c.toNat ≤ 160 then '\\' :: 'x' :: hexDigits 2 c.toNat
  else [c]

/-- A path between single quotes, or between double ones if it holds single and no double ones. -/
def quoted (path : String) : String :=
  let cs := path.toList
  let quote := if '\'' ∈ cs ∧ '"' ∉ cs then '"' else '\''
  String.ofList (quote :: cs.flatMap (escapeChar quote) ++ [quote])

def Refusal.message (path : String) : Refusal → String
  | absent => "No such file or directory"
  | isDirectory => numbered 21 "Is a directory"
  | notDirectory => numbered 20 "Not a directory"
  | other number reason => numbered number reason
where
  numbered (number : Nat) (reason : String) : String :=
    "[Errno " ++ toString number ++ "] " ++ reason ++ ": " ++ quoted path

structure Ending where
  outcome : Outcome
  exitCode : Nat
  output : String
  complaints : String
deriving Repr, DecidableEq

def Ending.ofStep (step : Step) : Ending :=
  ⟨step.outcome, step.outcome.exitCode, step.output, step.outcome.complaints⟩

def step (limits : Limits) (mode : Mode) (source : String) (d : Dialogue) : Step × Dialogue :=
  match mode with
  | .run => d.run limits source
  | .tokens => (Dialogue.listTokens source, d)

def unreadable (path message : String) : Ending :=
  ⟨.finished, 66, "", "ze: " ++ path ++ ": " ++ message ++ "\n"⟩

def runScript (limits : Limits) (clock : Nat → Float) (path : String) (mode : Mode) :
    Except Refusal ByteArray → Ending
  | .error refusal => unreadable path (refusal.message path)
  | .ok bytes =>
    match String.fromUTF8? bytes with
    | none => unreadable path "invalid utf-8"
    | some source => .ofStep (step limits mode source (.initial clock)).1

def promptText : String := "> "

/-- Every way to end a line is read as a newline. -/
def unifyNewlines : List Char → List Char
  | [] => []
  | '\r' :: '\n' :: s => '\n' :: unifyNewlines s
  | '\r' :: s => '\n' :: unifyNewlines s
  | c :: s => c :: unifyNewlines s

def lines : List Char → List (List Char)
  | [] => []
  | '\n' :: s => ['\n'] :: lines s
  | c :: s =>
    match lines s with
    | [] => [[c]]
    | line :: rest => (c :: line) :: rest

def inputLines (input : String) : List String :=
  (lines (unifyNewlines input.toList)).map String.ofList

/-- Answers lines at the prompt. Complaints and failures do not end it; an escape does. -/
def answer (limits : Limits) (mode : Mode) : Dialogue → List String → Ending
  | _, [] => ⟨.finished, 0, promptText, ""⟩
  | d, line :: rest =>
    let (s, d) := step limits mode line d
    match s.outcome with
    | .escaped e => ⟨.escaped e, s.outcome.exitCode, promptText ++ s.output, ""⟩
    | outcome =>
      let ending := answer limits mode d rest
      { ending with
        output := promptText ++ s.output ++ ending.output
        complaints := outcome.complaints ++ ending.complaints }

def perform (limits : Limits) (clock : Nat → Float) (file : String → Except Refusal ByteArray)
    (input : String) : Command → Ending
  | .help => ⟨.finished, 0, usage, ""⟩
  | .misuse misuse => ⟨.finished, 64, "", misuse.message ++ usage⟩
  | .prompt mode => answer limits mode (.initial clock) (inputLines input)
  | .script path mode => runScript limits clock path mode (file path)

end Script.CommandLine
