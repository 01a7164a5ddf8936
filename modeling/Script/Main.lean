import Script.CommandLine

/-! The program: arguments, files and streams are read here, and everything else is decided by the
command line. At the prompt a line is answered before the next one is read. -/
namespace Script.Main

open CommandLine

/-- The number of a failed system call, which some calls give with its sign changed. -/
def errorNumber (number : UInt32) : Nat :=
  if number < 2147483648 then number.toNat else (0 - number).toNat

def refusalOfNumber (number : Nat) (reason : String) : Refusal :=
  if number = 20 then .notDirectory
  else if number = 21 then .isDirectory
  else .other number reason

def refusalOf : IO.Error → Refusal
  | .noFileOrDirectory _ _ _ => .absent
  | .inappropriateType _ number reason => refusalOfNumber (errorNumber number) reason
  | .permissionDenied _ number _ => .other (errorNumber number) "Permission denied"
  | .invalidArgument _ number reason => refusalOfNumber (errorNumber number) reason
  | .resourceExhausted _ number reason => .other (errorNumber number) reason
  | e => .other 5 (toString e)

def readScript (path : String) : IO (Except Refusal ByteArray) := do
  try
    return .ok (← IO.FS.readBinFile path)
  catch e => return .error (refusalOf e)

def clockFrom (now : Nat) (reading : Nat) : Float := (now + reading).toFloat / 1000

def readClock : IO (Nat → Float) := do
  return clockFrom (← IO.monoMsNow)

/-- Answers the lines that are already read, then reads on. -/
partial def converse (mode : Mode) (d : Dialogue) : List String → IO UInt32
  | [] => do
    IO.print promptText
    (← IO.getStdout).flush
    let line ← (← IO.getStdin).getLine
    if line.isEmpty then return 0
    converse mode { d with machine := { d.machine with clock := ← readClock } } (inputLines line)
  | line :: rest => do
    let (s, d) := step .standard mode line d
    IO.print s.output
    IO.eprint s.outcome.complaints
    match s.outcome with
    | .escaped _ => return s.outcome.exitCode.toUInt32
    | _ =>
      unless rest.isEmpty do IO.print promptText
      converse mode d rest

def run (arguments : List String) : IO UInt32 := do
  let clock ← readClock
  let command := Command.ofArguments arguments
  match command with
  | .prompt mode => converse mode (.initial clock) []
  | _ =>
    let file ← match command with
      | .script path _ => readScript path
      | _ => pure (.error .absent)
    let ending := perform .standard clock (fun _ => file) "" command
    IO.print ending.output
    IO.eprint ending.complaints
    return ending.exitCode.toUInt32

end Script.Main

def main (arguments : List String) : IO UInt32 := Script.Main.run arguments
