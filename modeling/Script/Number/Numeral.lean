import Script.Number.Shortest

/-! The written forms of a double.
`written` identifies the double: the fewest digits that read back, positional while the leading
digit stands for a power of ten from -4 to 15, otherwise with a signed exponent of at least two
digits. -/
namespace Script.Number

def digitsText (n : Nat) : String := String.ofList (Nat.toDigits 10 n)

def zeros (n : Nat) : String := String.ofList (List.replicate n '0')

def exponentText (e : Int) : String :=
  let digits := digitsText e.natAbs
  (if e < 0 then "e-" else "e+") ++ (if digits.length < 2 then "0" ++ digits else digits)

/-- The digits with a point behind the first `before` of them; a whole number keeps one zero
behind its point, a fraction one zero in front of it. -/
def positional (digits : String) (before : Int) : String :=
  let count : Int := digits.length
  if before ≤ 0 then "0." ++ zeros (-before).toNat ++ digits
  else if count ≤ before then digits ++ zeros (before - count).toNat ++ ".0"
  else
    let cs := digits.toList
    String.ofList (cs.take before.toNat) ++ "." ++ String.ofList (cs.drop before.toNat)

def scientific (digits : String) (exponent : Int) : String :=
  match digits.toList with
  | [] => ""
  | [d] => String.singleton d ++ exponentText exponent
  | d :: rest => String.singleton d ++ "." ++ String.ofList rest ++ exponentText exponent

/-- A decimal is laid out positionally while its leading exponent is from -4 to 15. -/
def Decimal.text (d : Decimal) : String :=
  let digits := digitsText d.digits
  let leading := d.exponent + digits.length - 1
  if -4 ≤ leading ∧ leading < 16 then positional digits (leading + 1)
  else scientific digits leading

def signText (x : Float) : String := if isNegative x then "-" else ""

def written (x : Float) : String :=
  if x.isNaN then "nan"
  else if !x.isFinite then signText x ++ "inf"
  else
    let bits := x.toBits.toNat % twoTo 63
    if bits = 0 then signText x ++ "0.0" else signText x ++ (shortest bits).text

def Magnitude.whole? (x : Magnitude) : Option Nat :=
  if x.numerator % x.denominator = 0 then some (x.numerator / x.denominator) else none

/-- The form for people: whole numbers in full, without point or exponent, and no negative zero. -/
def printed (x : Float) : String :=
  if !x.isFinite then written x
  else match (magnitude x).whole? with
    | some n => (if isNegative x ∧ n ≠ 0 then "-" else "") ++ digitsText n
    | none => written x

/-- The double nearest to a numeral of decimal digits, those of the fraction given apart. -/
def ofDigits (whole fraction : List Char) : Float :=
  nearest (Nat.ofDigitChars 10 (whole ++ fraction) 0) (tenTo fraction.length)

/-- The integer that a sign and decimal digits stand for. -/
def readExponent? : List Char → Option Int
  | '-' :: ds => if ds.isEmpty then none else some (-(Nat.ofDigitChars 10 ds 0 : Int))
  | '+' :: ds => if ds.isEmpty then none else some (Nat.ofDigitChars 10 ds 0 : Int)
  | ds => if ds.isEmpty then none else some (Nat.ofDigitChars 10 ds 0 : Int)

def readMagnitude? (cs : List Char) : Option Float :=
  if cs = ['i', 'n', 'f'] then some (Float.ofBits (UInt64.ofNat infinityBits))
  else
    let whole := cs.takeWhile Char.isDigit
    let rest := cs.dropWhile Char.isDigit
    let (fraction, rest) := match rest with
      | '.' :: tail => (tail.takeWhile Char.isDigit, tail.dropWhile Char.isDigit)
      | _ => ([], rest)
    if whole.isEmpty then none
    else
      let digits := Nat.ofDigitChars 10 (whole ++ fraction) 0
      match rest with
      | [] => some (nearest digits (tenTo fraction.length))
      | 'e' :: tail =>
        (readExponent? tail).map fun e => (Decimal.mk digits (e - fraction.length)).nearest
      | _ => none

def ofWritten? (s : String) : Option Float :=
  match s.toList with
  | ['n', 'a', 'n'] => some (Float.ofBits 0x7FF8000000000000)
  | '-' :: cs => (readMagnitude? cs).map fun x => -x
  | cs => readMagnitude? cs

end Script.Number
