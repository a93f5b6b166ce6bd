import Scad.Data.Value
import Scad.Number.Numeral
import Scad.Text.Pieces

/-! What a word of YAML stands for when it is written without quotes: nothing, a truth value, a
number, or itself. The writer quotes every text that would stand for something else. -/
namespace Scad.Yaml

/-- A line ends here. -/
def isBreak (c : Char) : Bool := c = '\n' || c = '\x85' || c = '\u2028' || c = '\u2029'

/-- A word ends here. -/
def isGap (c : Char) : Bool := c = ' ' || c = '\t' || c = '\r' || c = '\x00' || isBreak c

/-- The end of the text counts as a gap. -/
def gapAhead : List Char → Bool
  | [] => true
  | c :: _ => isGap c

/-- Three dashes or dots: the mark between documents. -/
def opensWithMark (cs : List Char) : Bool :=
  "---".toList.isPrefixOf cs || "...".toList.isPrefixOf cs

/-- Characters with a meaning of their own at the start of a word. -/
def isIndicator (c : Char) : Bool := "#,[]\x7b\x7d&*!|>'\"%@\x60".toList.contains c

/-- Whether the head of a text can start a word. A dash, a question mark and a colon can if the word
goes on behind them. -/
def opensWord : List Char → Bool
  | [] => false
  | c :: rest =>
    !isIndicator c && !((c = '-' || c = '?' || c = ':') && gapAhead rest)

/-- Why a text gives no data. -/
inductive Fault where
  /-- The text breaks the rules of the format. -/
  | malformed
  /-- An escape names a code that no character has. -/
  | noCharacter (code : Nat)
  | numeral (fault : NumeralFault)
  | calendar (fault : CalendarFault)
  deriving DecidableEq

def Fault.message? : Fault → Option String
  | malformed => none
  | noCharacter code =>
    some (if code < 0x80000000 then "chr() arg not in range(0x110000)"
      else "Python int too large to convert to C int")
  | numeral fault => some fault.message
  | calendar fault => some fault.message

/-- What a word stands for. -/
inductive Reading where
  | value (s : Scalar)
  | faulty (f : Fault)
  /-- `<<`, the key under which other records are merged into this one. -/
  | merge
  /-- `=`, the key of the value that stands for a whole record. -/
  | standIn
  /-- Itself. -/
  | text
  deriving DecidableEq

namespace Reading

def isDigit (c : Char) : Bool := '0' ≤ c && c ≤ '9'

/-- Underscores may stand among the digits of a number. -/
def isDigitOrBar (c : Char) : Bool := isDigit c || c = '_'

def startsWithDigit (cs : List Char) : Bool := cs.head?.any isDigit

def dropBars (cs : List Char) : List Char := cs.filter (· ≠ '_')

def value10 (cs : List Char) : Nat := Numeral.decimalValue (dropBars cs)

def splitSign : List Char → Bool × List Char
  | '-' :: cs => (true, cs)
  | '+' :: cs => (false, cs)
  | cs => (false, cs)

/-- A digit of base sixty. -/
def isSixtieth : List Char → Bool
  | [d] => isDigit d
  | [t, d] => '0' ≤ t && t ≤ '5' && isDigit d
  | _ => false

/-- The digits of an integer in base two, eight or sixteen. In base eight a zero has gone before. -/
def based? (base : Nat) (cs : List Char) : Option (Except NumeralFault Nat) :=
  if cs ≠ [] ∧ cs.all (fun c => c = '_' || (Text.hexDigit? c).any (· < base)) then
    let ds := dropBars cs
    some (if ds = [] ∧ base ≠ 8 then .error (.notInteger base "")
      else .ok (Numeral.digitsValue base Text.hexDigit? ds))
  else none

/-- In base two behind `0b`, sixteen behind `0x`, eight behind any other zero; in base ten, and in
base sixty with colons between the digits, without a zero in front. -/
def natural? : List Char → Option (Except NumeralFault Nat)
  | ['0'] => some (.ok 0)
  | '0' :: 'b' :: cs => based? 2 cs
  | '0' :: 'x' :: cs => based? 16 cs
  | '0' :: cs => based? 8 cs
  | cs =>
    let parts := Text.pieces ':' cs
    let whole := parts.headD []
    if startsWithDigit whole ∧ whole.all isDigitOrBar ∧ (parts.drop 1).all isSixtieth then
      some ((Numeral.integer (dropBars whole)).map fun n =>
        (parts.drop 1).foldl (fun n part => n * 60 + value10 part) n)
    else none

def int? (cs : List Char) : Option (Except NumeralFault Int) :=
  let (negative, body) := splitSign cs
  (natural? body).map fun n => n.map fun n => if negative then -(n : Int) else n

/-- The exponent of a real number needs its sign. -/
def isExponent : List Char → Bool
  | [] => true
  | e :: s :: ds => (e = 'e' || e = 'E') && (s = '+' || s = '-') && ds ≠ [] && ds.all isDigit
  | _ => false

/-- Digits with a point among them, rounded to a number. -/
def decimal (whole fraction : List Char) (exponent : Int) : Binary64 :=
  let places := (dropBars fraction).length
  .ofDecimal false (value10 (whole ++ fraction)) (exponent - places)

/-- A number of base sixty: its digits, the lowest first, times the powers from `power` on. Every
product and every sum is rounded. -/
def addSixtieths (sum : Binary64) (power : Nat) : List Binary64 → Except NumeralFault Binary64
  | [] => .ok sum
  | digit :: rest =>
    match Binary64.ofInt power with
    | .infinite _ => .error .tooLarge
    | p => addSixtieths (sum.addUnsigned (digit.mulUnsigned p)) (power * 60) rest

/-- Digits with a point. Only a number without a sign may start with the point, and one of base
sixty has no exponent. -/
def pointed? (cs : List Char) : Option (Except NumeralFault Binary64) :=
  let (negative, body) := splitSign cs
  let head := body.takeWhile fun c => isDigitOrBar c || c = ':'
  match body.drop head.length with
  | '.' :: rest =>
    let fraction := rest.takeWhile isDigitOrBar
    let tail := rest.drop fraction.length
    let parts := Text.pieces ':' head
    let fits :=
      if head = [] then cs = body && startsWithDigit fraction && isExponent tail
      else startsWithDigit head && (parts.drop 1).all isSixtieth &&
        (if parts.length = 1 then isExponent tail else tail = [])
    if fits then
      (Numeral.exponent? tail).map fun e =>
        let lowest := decimal (parts.getLast?.getD []) fraction e
        let higher := parts.dropLast.reverse.map fun part => decimal part [] 0
        let x := if higher = [] then .ok lowest else addSixtieths (.zero false) 1 (lowest :: higher)
        x.map fun x => if negative then x.negate else x
    else none
  | _ => none

def real? (cs : List Char) : Option (Except NumeralFault Binary64) :=
  let (negative, body) := splitSign cs
  if [".inf", ".Inf", ".INF"].contains (String.ofList body) then some (.ok (.infinite negative))
  else if [".nan", ".NaN", ".NAN"].contains (String.ofList cs) then some (.ok (.nan true))
  else pointed? cs

/-- At least `least` and at most `most` digits, and what follows them. -/
def takeDigits (least most : Nat) (cs : List Char) : Option (Nat × List Char) :=
  let ds := (cs.take most).takeWhile isDigit
  if least ≤ ds.length then some (Numeral.decimalValue ds, cs.drop ds.length) else none

def dropOne (allowed : List Char) : List Char → Option (List Char)
  | c :: cs => if allowed.contains c then some cs else none
  | [] => none

/-- Year, month and day, the latter two with at least `least` digits. -/
def takeDay (least : Nat) (cs : List Char) : Option ((Nat × Nat × Nat) × List Char) := do
  let (year, cs) ← takeDigits 4 4 cs
  let (month, cs) ← takeDigits least 2 (← dropOne ['-'] cs)
  let (day, cs) ← takeDigits least 2 (← dropOne ['-'] cs)
  return ((year, month, day), cs)

def date? (cs : List Char) : Option (Except CalendarFault Date) := do
  let ((year, month, day), rest) ← takeDay 2 cs
  if rest = [] then return Date.ofNumbers year month day else none

def isBlank (c : Char) : Bool := c = ' ' || c = '\t'

/-- A distance from the common time, up to the end: `Z`, or a sign and hours, with or without
minutes. -/
def distance? (cs : List Char) : Option Int := do
  if cs = ['Z'] then return 0
  let negative := cs.head? = some '-'
  let (hours, rest) ← takeDigits 1 2 (← dropOne ['+', '-'] cs)
  let (minutes, rest) ←
    if rest = [] then pure (0, []) else takeDigits 2 2 (← dropOne [':'] rest)
  let seconds : Int := (hours * 60 + minutes : Nat) * 60
  if rest = [] then return if negative then -seconds else seconds else none

/-- The first six digits behind the point, as millionths. -/
def millionths (ds : List Char) : Nat :=
  Numeral.decimalValue ((ds ++ List.replicate 6 '0').take 6)

/-- A day, a `T` or blanks, a time and an optional distance from the common time. -/
def moment? (cs : List Char) : Option (Except CalendarFault Moment) := do
  let ((year, month, day), rest) ← takeDay 1 cs
  let rest ← if rest.head?.any isBlank then some (rest.dropWhile isBlank)
    else dropOne ['T', 't'] rest
  let (hour, rest) ← takeDigits 1 2 rest
  let (minute, rest) ← takeDigits 2 2 (← dropOne [':'] rest)
  let (second, rest) ← takeDigits 2 2 (← dropOne [':'] rest)
  let (fraction, rest) := match rest with
    | '.' :: rest => (rest.takeWhile isDigit, rest.dropWhile isDigit)
    | rest => ([], rest)
  let distance ← if rest = [] then pure none else some <$> distance? (rest.dropWhile isBlank)
  return Moment.ofNumbers year month day hour minute second (millionths fraction) distance

def bool? (s : String) : Option Bool :=
  if ["yes", "Yes", "YES", "true", "True", "TRUE", "on", "On", "ON"].contains s then some true
  else if ["no", "No", "NO", "false", "False", "FALSE", "off", "Off", "OFF"].contains s then
    some false
  else none

def isNull (s : String) : Bool := ["", "~", "null", "Null", "NULL"].contains s

def ofNumeral {α : Type} (make : α → Scalar) : Except NumeralFault α → Reading
  | .ok a => .value (make a)
  | .error f => .faulty (.numeral f)

def ofCalendar {α : Type} (make : α → Scalar) : Except CalendarFault α → Reading
  | .ok a => .value (make a)
  | .error f => .faulty (.calendar f)

/-- What a word stands for other than itself. -/
def special? (cs : List Char) : Option Reading :=
  let s := String.ofList cs
  if isNull s then some (.value .null)
  else if s = "<<" then some .merge
  else if s = "=" then some .standIn
  else
    (bool? s).map (.value ∘ .bool) <|> (real? cs).map (ofNumeral .real)
      <|> (int? cs).map (ofNumeral .int) <|> (date? cs).map (ofCalendar .date)
      <|> (moment? cs).map (ofCalendar .moment)

end Reading

/-- What a word stands for. -/
def reading (cs : List Char) : Reading := (Reading.special? cs).getD .text

end Scad.Yaml
