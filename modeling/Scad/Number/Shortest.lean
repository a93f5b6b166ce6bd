import Scad.Number.Binary64

/-! The fewest decimal digits that read back. For 1, 2, … 17 digits the two neighbours of the number
on that decimal grid are read; the first grid with a hit wins, of two hits the nearer, and of two
equally near the even one. -/
namespace Scad.Binary64

/-- A positive decimal: `digits * 10 ^ exponent`. -/
structure Decimal where
  digits : Nat
  exponent : Int
  deriving DecidableEq

namespace Decimal

/-- The same value without trailing zeros; `fuel` bounds their number. -/
def trim : (fuel : Nat) → Decimal → Decimal
  | 0, d => d
  | fuel + 1, d =>
    if d.digits ≠ 0 ∧ d.digits % 10 = 0 then trim fuel ⟨d.digits / 10, d.exponent + 1⟩ else d

def reads (d : Decimal) (mantissa : Nat) (exponent : Int) : Bool :=
  ofDecimal false d.digits d.exponent = .finite false mantissa exponent

end Decimal

/-- `num / den` in units of `10 ^ e`, as a fraction. -/
def decimalScaled (num den : Nat) (e : Int) : Nat × Nat :=
  if 0 ≤ e then (num, den * Nat.pow 10 e.toNat) else (num * Nat.pow 10 (-e).toNat, den)

/-- The place of the leading digit: the least `p` with `num / den < 10 ^ p`. -/
def leadingPlace (num den : Nat) : Int :=
  let p : Int := decimalLength num - decimalLength den
  let (n, d) := decimalScaled num den p
  if n < d then p else p + 1

/-- The better of the two neighbours on the grid of `count` digits, if one reads back. -/
def onGrid (mantissa : Nat) (exponent : Int) (count : Nat) : Option Decimal :=
  let (num, den) := magnitude mantissa exponent
  let unit := leadingPlace num den - count
  let (n, d) := decimalScaled num den unit
  let below : Decimal := ⟨n / d, unit⟩
  let above : Decimal := ⟨n / d + 1, unit⟩
  let twice := 2 * (n % d)
  match below.reads mantissa exponent, above.reads mantissa exponent with
  | true, true =>
    some (if twice < d ∨ (twice = d ∧ below.digits % 2 = 0) then below else above)
  | true, false => some below
  | false, true => some above
  | false, false => none

/-- Every finite number is a decimal with finitely many digits. -/
def exactDecimal (mantissa : Nat) (exponent : Int) : Decimal :=
  if 0 ≤ exponent then ⟨mantissa * Nat.pow 2 exponent.toNat, 0⟩
  else ⟨mantissa * Nat.pow 5 (-exponent).toNat, exponent⟩

/-- The shortest decimal that reads back as a positive finite number. -/
def shortest (mantissa : Nat) (exponent : Int) : Decimal :=
  ((List.range 17).findSome? fun i => onGrid mantissa exponent (i + 1)).getD
    (exactDecimal mantissa exponent) |>.trim 20

end Scad.Binary64
