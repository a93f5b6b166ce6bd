/-! Numbers of 64 bits with a binary point, as exact data: a sign, a mantissa below 2^53 and an
exponent of at least -1074. Rounding is to the nearest number, a tie to the even mantissa. -/
namespace Scad

inductive Binary64 where
  /-- The value is `mantissa * 2 ^ exponent`, with the sign in front. -/
  | finite (negative : Bool) (mantissa : Nat) (exponent : Int)
  | infinite (negative : Bool)
  /-- Not a number. The sign tells apart the two that readers produce. -/
  | nan (negative : Bool)
  deriving DecidableEq

namespace Binary64

def leastExponent : Int := -1074

def greatestExponent : Int := 971

def zero (negative : Bool) : Binary64 := .finite negative 0 leastExponent

/-- The quotient rounded to the nearest integer, a tie to the even one. -/
def roundDiv (num den : Nat) : Nat :=
  let q := num / den
  let r := num % den
  if den < 2 * r ∨ (2 * r = den ∧ q % 2 = 1) then q + 1 else q

/-- `num / den` in units of `2 ^ e`, as a fraction. -/
def scaled (num den : Nat) (e : Int) : Nat × Nat :=
  if 0 ≤ e then (num, den * Nat.pow 2 e.toNat) else (num * Nat.pow 2 (-e).toNat, den)

/-- The exponent at which the quotient of two positive numbers has a mantissa of 53 bits. -/
def exponentFor (num den : Nat) : Int :=
  let e : Int := num.log2 - den.log2 - 53
  let (n, d) := scaled num den e
  if d * Nat.pow 2 53 ≤ n then e + 1 else e

/-- The number of a mantissa of at most 53 bits, if its exponent is not too great. -/
def bounded (negative : Bool) (mantissa : Nat) (exponent : Int) : Binary64 :=
  if greatestExponent < exponent then .infinite negative else .finite negative mantissa exponent

/-- The number of a rounded mantissa, which may have reached `2 ^ 53`. -/
def pack (negative : Bool) (mantissa : Nat) (exponent : Int) : Binary64 :=
  if mantissa = Nat.pow 2 53 then bounded negative (Nat.pow 2 52) (exponent + 1)
  else bounded negative mantissa exponent

/-- The exponent of the number nearest to a fraction. -/
def unitFor (num den : Nat) : Int := max (exponentFor num den) leastExponent

/-- The mantissa of the number nearest to a fraction, before it is packed. -/
def mantissaFor (num den : Nat) : Nat :=
  let fraction := scaled num den (unitFor num den)
  roundDiv fraction.1 fraction.2

/-- The number nearest to a fraction. -/
def ofRatio (negative : Bool) (num den : Nat) : Binary64 :=
  if num = 0 then zero negative else pack negative (mantissaFor num den) (unitFor num den)

def ofInt (n : Int) : Binary64 := ofRatio (n < 0) n.natAbs 1

/-- The number of decimal digits, 1 for zero. -/
def decimalLength (n : Nat) : Nat := (Nat.toDigits 10 n).length

/-- The number nearest to `digits * 10 ^ exponent`. What lies beyond every finite number or below
every positive one is settled by the number of digits alone. -/
def ofDecimal (negative : Bool) (digits : Nat) (exponent : Int) : Binary64 :=
  let magnitude := exponent + decimalLength digits
  if digits = 0 then zero negative
  else if 310 < magnitude then .infinite negative
  else if magnitude < -330 then zero negative
  else if 0 ≤ exponent then ofRatio negative (digits * Nat.pow 10 exponent.toNat) 1
  else ofRatio negative digits (Nat.pow 10 (-exponent).toNat)

/-- The size of a finite number as a fraction. -/
def magnitude (mantissa : Nat) (exponent : Int) : Nat × Nat :=
  if 0 ≤ exponent then (mantissa * Nat.pow 2 exponent.toNat, 1)
  else (mantissa, Nat.pow 2 (-exponent).toNat)

/-- `mantissa * 2 ^ exponent`, rounded. -/
def ofDyadic (mantissa : Nat) (exponent : Int) : Binary64 :=
  let (num, den) := magnitude mantissa exponent
  ofRatio false num den

/-- The rounded sum of two numbers without a sign. -/
def addUnsigned : Binary64 → Binary64 → Binary64
  | .finite _ m e, .finite _ n f =>
    let low := min e f
    ofDyadic (m * Nat.pow 2 (e - low).toNat + n * Nat.pow 2 (f - low).toNat) low
  | .finite _ _ _, y => y
  | x, _ => x

/-- The rounded product of two numbers without a sign, not of zero and infinity. -/
def mulUnsigned : Binary64 → Binary64 → Binary64
  | .finite _ m e, .finite _ n f => ofDyadic (m * n) (e + f)
  | .finite _ _ _, y => y
  | x, _ => x

def negate : Binary64 → Binary64
  | .finite negative m e => .finite (!negative) m e
  | .infinite negative => .infinite (!negative)
  | .nan negative => .nan (!negative)

/-- The integer that a number equals, if it is finite and whole. -/
def toInt? : Binary64 → Option Int
  | .finite negative mantissa exponent =>
    let (num, den) := magnitude mantissa exponent
    if num % den = 0 then
      some (if negative then -(num / den : Nat) else (num / den : Nat))
    else none
  | _ => none

end Binary64

end Scad
