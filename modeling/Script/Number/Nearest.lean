/-! Rounding a quotient of naturals to the nearest double.
A finite nonnegative double is a significand below 2^53 times a power of two not below 2^-1074; read
as a number, its bit pattern grows with its value, so carries and overflow need no case of their
own. -/
namespace Script.Number

def twoTo (n : Nat) : Nat := Nat.pow 2 n

def tenTo (n : Nat) : Nat := Nat.pow 10 n

/-- The quotient rounded to a natural number; a half goes to the even neighbour. -/
def roundQuotient (num den : Nat) : Nat :=
  let whole := num / den
  let twice := 2 * (num % den)
  if twice < den then whole
  else if den < twice then whole + 1
  else whole + whole % 2

/-- The least `b` with `num / den < 2 ^ b`. -/
def binaryWidth (num den : Nat) : Int :=
  let guess : Int := (num.log2 : Int) - den.log2
  if num * twoTo (-guess).toNat < den * twoTo guess.toNat then guess else guess + 1

/-- The exponent of the unit in which the quotient is rounded: 53 binary digits are kept, fewer
near zero. -/
def unitExponent (num den : Nat) : Int :=
  max (binaryWidth num den - 53) (-1074)

/-- The bit pattern of positive infinity, above that of every finite double. -/
def infinityBits : Nat := 2047 * twoTo 52

/-- The bit pattern of `significand * 2 ^ unit`. A significand of 2^53 carries into the exponent. -/
def bitsOf (significand : Nat) (unit : Int) : Nat :=
  min ((unit + 1074).toNat * twoTo 52 + significand) infinityBits

def nearestBits (num den : Nat) : Nat :=
  if num = 0 then 0
  else
    let unit := unitExponent num den
    bitsOf (roundQuotient (num * twoTo (-unit).toNat) (den * twoTo unit.toNat)) unit

/-- The double nearest to the quotient, a tie going to the even significand. -/
def nearest (num den : Nat) : Float :=
  Float.ofBits (UInt64.ofNat (nearestBits num den))

/-- The magnitude of a finite double: `significand * 2 ^ unit`. -/
structure Magnitude where
  significand : Nat
  unit : Int
deriving Repr, DecidableEq

/-- The magnitude that a bit pattern of a finite double stands for; the sign bit is ignored. -/
def Magnitude.ofBits (bits : Nat) : Magnitude :=
  let exponent : Nat := bits / twoTo 52 % 2048
  let fraction : Nat := bits % twoTo 52
  if exponent = 0 then ⟨fraction, -1074⟩ else ⟨twoTo 52 + fraction, (exponent : Int) - 1075⟩

def magnitude (x : Float) : Magnitude :=
  Magnitude.ofBits x.toBits.toNat

/-- The sign bit, set for `-0.0` too. -/
def isNegative (x : Float) : Bool :=
  decide (twoTo 63 ≤ x.toBits.toNat)

def Magnitude.numerator (x : Magnitude) : Nat := x.significand * twoTo x.unit.toNat

def Magnitude.denominator (x : Magnitude) : Nat := twoTo (-x.unit).toNat

end Script.Number
