import Scad.Number.Shortest

/-! How a number is written. Decimal exponents from -4 to 15 are written out, with a point and at
least one digit behind it; others have a mark, a sign and at least two digits of exponent. -/
namespace Scad

/-- What the formats differ in. -/
structure RealStyle where
  infinity : String
  notANumber : String
  /-- Whether a single digit before an exponent still gets a point and a zero. -/
  pointAlways : Bool

namespace Binary64

def zeros (n : Nat) : List Char := List.replicate n '0'

def exponentText (e : Int) : List Char :=
  let digits := (toString e.natAbs).toList
  (if e < 0 then '-' else '+') :: (if digits.length < 2 then '0' :: digits else digits)

/-- Writes the digits `ds` with the point behind the first `point` of them. -/
def layout (style : RealStyle) (ds : List Char) (point : Int) : List Char :=
  if -4 < point ∧ point ≤ 16 then
    if point ≤ 0 then '0' :: '.' :: zeros (-point).toNat ++ ds
    else
      let whole := point.toNat
      if ds.length ≤ whole then ds ++ zeros (whole - ds.length) ++ ['.', '0']
      else ds.take whole ++ '.' :: ds.drop whole
  else
    let fraction := match ds.drop 1 with
      | [] => if style.pointAlways then ['.', '0'] else []
      | rest => '.' :: rest
    ds.take 1 ++ fraction ++ 'e' :: exponentText (point - 1)

def write (style : RealStyle) : Binary64 → String
  | .nan _ => style.notANumber
  | .infinite negative => (if negative then "-" else "") ++ style.infinity
  | .finite negative mantissa exponent =>
    let body :=
      if mantissa = 0 then ['0', '.', '0']
      else
        let d := shortest mantissa exponent
        let ds := (toString d.digits).toList
        layout style ds (ds.length + d.exponent)
    String.ofList (if negative then '-' :: body else body)

/-- As source text and messages show numbers. -/
def plainStyle : RealStyle := ⟨"inf", "nan", false⟩

end Binary64

/-- A numeric value: a literal in a text gives a `real`, restored data may hold an integer. -/
inductive Number where
  | int (n : Int)
  | real (x : Binary64)
  deriving DecidableEq

/-- Why a number has no source text. -/
inductive NumberFault where
  | infinite
  | notANumber
  deriving DecidableEq

def NumberFault.message : NumberFault → String
  | infinite => "cannot convert float infinity to integer"
  | notANumber => "cannot convert float NaN to integer"

namespace Number

/-- Integers and whole numbers below 10^16 have no point; infinities have no text. -/
def render : Number → Except NumberFault String
  | .int n => .ok (toString n)
  | .real (.nan _) => .error .notANumber
  | .real (.infinite _) => .error .infinite
  | .real x =>
    match x.toInt? with
    | some n => .ok (if n.natAbs < Nat.pow 10 16 then toString n else x.write Binary64.plainStyle)
    | none => .ok (x.write Binary64.plainStyle)

/-- A finite value as `coefficient * 2 ^ exponent`. -/
def dyadic? : Number → Option (Int × Int)
  | .int n => some (n, 0)
  | .real (.finite negative mantissa exponent) =>
    some (if negative then -(mantissa : Int) else mantissa, exponent)
  | .real _ => none

/-- Equal in value: zero has no sign, an integer equals the real of its value. Of numbers without a
finite value each equals only itself. -/
def same (a b : Number) : Bool :=
  match a.dyadic?, b.dyadic? with
  | some (m, e), some (m', e') =>
    let low := min e e'
    m * Nat.pow 2 (e - low).toNat = m' * Nat.pow 2 (e' - low).toNat
  | none, none => a = b
  | _, _ => false

end Number

end Scad
