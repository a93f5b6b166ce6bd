import Scad.Token
import Scad.Text.DecimalDigit

/-! The three classes of words and signs that the scanner tells apart by the longest match. Each
function gives the length of the longest lexeme of its class at the head of a text, 0 if there is
none. -/
namespace Scad.Lexeme

def isWordChar (c : Char) : Bool :=
  ('a' ≤ c && c ≤ 'z') || ('A' ≤ c && c ≤ 'Z') || ('0' ≤ c && c ≤ '9') || c = '_'

/-- The number of leading characters with a property. -/
def run (p : Char → Bool) (cs : List Char) : Nat := (cs.takeWhile p).length

/-- An optional `$`, then ASCII letters, digits and underscores. -/
def identifierLength : List Char → Nat
  | '$' :: cs => if run isWordChar cs = 0 then 0 else run isWordChar cs + 1
  | cs => run isWordChar cs

/-- `0x` and at least one hexadecimal digit. -/
def hexLength : List Char → Nat
  | '0' :: x :: cs =>
    if (x = 'x' ∨ x = 'X') ∧ run Text.isHexDigit cs ≠ 0 then run Text.isHexDigit cs + 2 else 0
  | _ => 0

/-- Digits of any script with an optional fraction, or a point and at least one digit. -/
def significandLength (cs : List Char) : Nat :=
  let whole := run Text.isDecimalDigit cs
  match cs.drop whole with
  | '.' :: rest =>
    let fraction := run Text.isDecimalDigit rest
    if whole = 0 ∧ fraction = 0 then 0 else whole + 1 + fraction
  | _ => whole

/-- `e`, an optional sign and at least one digit. -/
def exponentLength : List Char → Nat
  | e :: cs =>
    if e = 'e' ∨ e = 'E' then
      let sign := match cs with
        | s :: _ => if s = '+' ∨ s = '-' then 1 else 0
        | [] => 0
      let digits := run Text.isDecimalDigit (cs.drop sign)
      if digits = 0 then 0 else 1 + sign + digits
    else 0
  | [] => 0

def decimalLength (cs : List Char) : Nat :=
  let n := significandLength cs
  if n = 0 then 0 else n + exponentLength (cs.drop n)

def numberLength (cs : List Char) : Nat :=
  if hexLength cs = 0 then decimalLength cs else hexLength cs

/-- The longest symbol at the head of a text. -/
def symbol? (cs : List Char) : Option Symbol :=
  Symbol.all.find? fun s => s.text.toList.isPrefixOf cs

end Scad.Lexeme
