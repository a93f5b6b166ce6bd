import Scad.Number.Layout
import Scad.Text.DecimalDigit
import Scad.Text.Quoted

/-! Reading the text of a number token. Digits of every script count by their value. Blanks around
a numeral are dropped, and one underscore may stand between two digits. -/
namespace Scad

inductive NumeralFault where
  | notDecimal (text : String)
  | notInteger (base : Nat) (text : String)
  /-- An integer beyond every finite number. -/
  | tooLarge
  /-- More decimal digits than an integer may have. -/
  | tooManyDigits (count : Nat)
  deriving DecidableEq

def NumeralFault.message : NumeralFault → String
  | notDecimal text => "could not convert string to float: " ++ Text.quoted text
  | notInteger base text => "invalid literal for int() with base " ++ toString base ++ ": "
      ++ String.ofList ((Text.quoted text).toList.take 200)
  | tooLarge => "int too large to convert to float"
  | tooManyDigits count =>
    "Exceeds the limit (4300 digits) for integer string conversion: value has "
      ++ toString count ++ " digits; use sys.set_int_max_str_digits() to increase the limit"

namespace Numeral

/-- The spaces outside of ASCII. -/
def isWideSpace (c : Char) : Bool :=
  let n := c.toNat
  n = 0x85 || n = 0xA0 || n = 0x1680 || (0x2000 ≤ n && n ≤ 0x200A) || n = 0x2028 || n = 0x2029 ||
    n = 0x202F || n = 0x205F || n = 0x3000

def isSpace (c : Char) : Bool :=
  c = ' ' || c = '\t' || c = '\n' || c = '\r' || c = '\x0c' || c = '\x0b'

/-- A character as a numeral reads it: in ASCII, or as a question mark that fits nowhere. -/
def plainChar (c : Char) : Char :=
  if c.toNat < 128 then c
  else if isWideSpace c then ' '
  else
    match Text.decimalDigit? c with
    | some d => Char.ofNat ('0'.toNat + d)
    | none => '?'

def trim (cs : List Char) : List Char :=
  ((cs.dropWhile isSpace).reverse.dropWhile isSpace).reverse

/-- Drops underscores that stand between two digits; any other is a fault. -/
def joinDigits (isDigit : Char → Bool) (afterDigit : Bool) : List Char → Option (List Char)
  | [] => some []
  | '_' :: c :: cs =>
    if afterDigit && isDigit c then (joinDigits isDigit true cs).map (c :: ·) else none
  | c :: cs =>
    if c = '_' then none else (joinDigits isDigit (isDigit c) cs).map (c :: ·)

def digitsValue (base : Nat) (digit? : Char → Option Nat) (cs : List Char) : Nat :=
  cs.foldl (fun n c => n * base + (digit? c).getD 0) 0

def decimalValue (cs : List Char) : Nat := digitsValue 10 Text.decimalDigit? cs

/-- The integer of some decimal digits, unless they are more than 4300. -/
def integer (ds : List Char) : Except NumeralFault Nat :=
  if 4300 < ds.length then .error (.tooManyDigits ds.length) else .ok (decimalValue ds)

def isAsciiDigit (c : Char) : Bool := '0' ≤ c && c ≤ '9'

/-- Whether there is a minus in front, and what stands behind the sign. -/
def splitSign : List Char → Bool × List Char
  | '-' :: cs => (true, cs)
  | '+' :: cs => (false, cs)
  | cs => (false, cs)

/-- `e`, an optional sign and digits, up to the end. -/
def exponent? : List Char → Option Int
  | [] => some 0
  | e :: cs =>
    if e = 'e' ∨ e = 'E' then
      let (negative, ds) := splitSign cs
      if ds ≠ [] ∧ ds.all isAsciiDigit then
        some (if negative then -(decimalValue ds : Int) else decimalValue ds)
      else none
    else none

/-- The digits behind a point, if there is one, and what follows. -/
def splitFraction : List Char → List Char × List Char
  | '.' :: ds => (ds.takeWhile isAsciiDigit, ds.dropWhile isAsciiDigit)
  | rest => ([], rest)

/-- Digits with an optional point among them, and an optional exponent. -/
def unsigned? (negative : Bool) (cs : List Char) : Option Binary64 :=
  let whole := cs.takeWhile isAsciiDigit
  let (fraction, rest) := splitFraction (cs.drop whole.length)
  if whole ++ fraction = [] then none
  else
    (exponent? rest).map fun e =>
      Binary64.ofDecimal negative (decimalValue (whole ++ fraction)) (e - fraction.length)

def lower (c : Char) : Char := if 'A' ≤ c ∧ c ≤ 'Z' then Char.ofNat (c.toNat + 32) else c

/-- A decimal number, an infinity or a nan, with an optional sign. -/
def signed? (cs : List Char) : Option Binary64 :=
  let (negative, body) := splitSign cs
  let word := String.ofList (body.map lower)
  if word = "inf" ∨ word = "infinity" then some (.infinite negative)
  else if word = "nan" then some (.nan negative)
  else unsigned? negative body

def readDecimal (text : String) : Except NumeralFault Binary64 :=
  let cs := trim (text.toList.map plainChar)
  match (joinDigits isAsciiDigit false cs).bind signed? with
  | some x => .ok x
  | none => .error (.notDecimal text)

/-- The digits behind `0x`. One underscore may also follow the `x`. -/
def readHexadecimal (text : String) : Except NumeralFault Binary64 :=
  let cs := (trim (text.toList.map plainChar)).drop 2
  match joinDigits Text.isHexDigit true cs with
  | some ds =>
    if ds ≠ [] ∧ ds.all Text.isHexDigit then
      match Binary64.ofInt (digitsValue 16 Text.hexDigit? ds) with
      | .infinite _ => .error .tooLarge
      | x => .ok x
    else .error (.notInteger 16 text)
  | none => .error (.notInteger 16 text)

/-- The value of a number token. -/
def read (text : String) : Except NumeralFault Binary64 :=
  match text.toList with
  | '0' :: 'x' :: _ => readHexadecimal text
  | '0' :: 'X' :: _ => readHexadecimal text
  | _ => readDecimal text

end Numeral

end Scad
