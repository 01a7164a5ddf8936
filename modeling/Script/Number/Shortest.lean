import Script.Number.Nearest

/-! The shortest decimal that reads back to a given double.
A decimal reads back when the double nearest to it is the given one. The search goes through grids
of one, two, three, ... leading digits; on each grid only the two neighbours of the value can read
back, and the nearer one is tried first. No bound on the number of digits is proved here: past
seventeen digits the exact decimal expansion is taken. -/
namespace Script.Number

/-- The decimal `digits * 10 ^ exponent`. -/
structure Decimal where
  digits : Nat
  exponent : Int
deriving Repr, DecidableEq

def Decimal.numerator (d : Decimal) : Nat := d.digits * tenTo d.exponent.toNat

def Decimal.denominator (d : Decimal) : Nat := tenTo (-d.exponent).toNat

def Decimal.nearest (d : Decimal) : Float := Number.nearest d.numerator d.denominator

def Decimal.readsBack (d : Decimal) (bits : Nat) : Bool :=
  nearestBits d.numerator d.denominator == bits

/-- How many decimal digits a natural number has; zero has one. -/
def digitCount (n : Nat) : Nat := (Nat.toDigits 10 n).length

/-- The least `k` with `num / den < 10 ^ k`, for a positive quotient. -/
def decimalWidth (num den : Nat) : Int :=
  if den ≤ num then digitCount (num / den) else 1 - digitCount ((den - 1) / num)

/-- The two multiples of `10 ^ exponent` around a quotient, the nearer one first. -/
def neighbours (num den : Nat) (exponent : Int) : List Decimal :=
  let num := num * tenTo (-exponent).toNat
  let den := den * tenTo exponent.toNat
  let below := num / den
  let near := roundQuotient num den
  [⟨near, exponent⟩, ⟨2 * below + 1 - near, exponent⟩]

def Magnitude.exact (x : Magnitude) : Decimal :=
  ⟨x.significand * twoTo x.unit.toNat * Nat.pow 5 (-x.unit).toNat, min x.unit 0⟩

/-- Moves the zeros at the end of the digits into the exponent, `fuel` of them at most. -/
def Decimal.trim : Nat → Decimal → Decimal
  | 0, d => d
  | fuel + 1, d =>
    if d.digits ≠ 0 ∧ d.digits % 10 = 0 then trim fuel ⟨d.digits / 10, d.exponent + 1⟩ else d

/-- The shortest decimal that reads back to a positive finite double, the nearest one of these. -/
def shortest (bits : Nat) : Decimal :=
  let x := Magnitude.ofBits bits
  let width := decimalWidth x.numerator x.denominator
  let onGrid (n : Nat) : Option Decimal :=
    (neighbours x.numerator x.denominator (width - (n + 1))).find? fun d => d.readsBack bits
  let found := ((List.range 17).findSome? onGrid).getD x.exact
  found.trim (found.digits.log2 + 1)

end Script.Number
