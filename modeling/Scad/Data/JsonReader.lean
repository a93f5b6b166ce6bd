import Scad.Data.JsonWriter
import Scad.Number.Numeral
import Scad.Span
import Scad.Text.DecimalDigit

/-! Reading JSON text. A number without fraction and exponent is an integer; of fields with one
key the last counts. A fault names the place where the reader stopped. -/
namespace Scad.Json

inductive Complaint where
  | byteOrderMark
  | expectedValue
  | expectedKey
  | expectedComma
  | expectedColon
  | extraData
  | unterminatedString
  | controlCharacter
  | badEscape
  | badUnicodeEscape
  /-- An integer that is well formed but too long. -/
  | tooLong (fault : NumeralFault)
  deriving DecidableEq

def Complaint.text : Complaint → String
  | byteOrderMark => "Unexpected UTF-8 BOM (decode using utf-8-sig)"
  | expectedValue => "Expecting value"
  | expectedKey => "Expecting property name enclosed in double quotes"
  | expectedComma => "Expecting ',' delimiter"
  | expectedColon => "Expecting ':' delimiter"
  | extraData => "Extra data"
  | unterminatedString => "Unterminated string starting at"
  | controlCharacter => "Invalid control character at"
  | badEscape => "Invalid \\escape"
  | badUnicodeEscape => "Invalid \\uXXXX escape"
  | tooLong fault => fault.message

/-- A complaint about the character at an offset. -/
structure Fault where
  complaint : Complaint
  offset : Nat
  deriving DecidableEq

/-- Whether the text breaks the rules of the format. -/
def Fault.isMalformed (f : Fault) : Bool :=
  match f.complaint with
  | .tooLong _ => false
  | _ => true

/-- The complaint, with its line, column and offset in a malformed text. -/
def Fault.message (f : Fault) (source : String) : String :=
  let p := Position.start.advanceAll (source.toList.take f.offset)
  if f.isMalformed then
    f.complaint.text ++ ": line " ++ toString p.line ++ " column " ++ toString p.column
      ++ " (char " ++ toString f.offset ++ ")"
  else f.complaint.text

/-- The text ahead and the offset of its first character. -/
structure Input where
  ahead : List Char
  offset : Nat

namespace Input

def drop (i : Input) (n : Nat) : Input := ⟨i.ahead.drop n, i.offset + n⟩

def isBlank (c : Char) : Bool := c = ' ' || c = '\t' || c = '\n' || c = '\r'

def skipBlanks (i : Input) : Input := i.drop (i.ahead.takeWhile isBlank).length

def fault {α : Type} (i : Input) (c : Complaint) : Except Fault α := .error ⟨c, i.offset⟩

end Input

/-- The value of four hexadecimal digits. -/
def fourDigits? : List Char → Option Nat
  | [a, b, c, d] => do
    let a ← Text.hexDigit? a
    let b ← Text.hexDigit? b
    let c ← Text.hexDigit? c
    let d ← Text.hexDigit? d
    return ((a * 16 + b) * 16 + c) * 16 + d
  | _ => none

def simpleEscape? : Char → Option Char
  | '"' => some '"'
  | '\\' => some '\\'
  | '/' => some '/'
  | 'b' => some '\x08'
  | 'f' => some '\x0c'
  | 'n' => some '\n'
  | 'r' => some '\r'
  | 't' => some '\t'
  | _ => none

/-- A code unit by itself; half of a pair stands for no character. -/
def ofUnit (n : Nat) : Char := if 0xD800 ≤ n ∧ n < 0xE000 then '\uFFFD' else Char.ofNat n

/-- The second half of a pair behind a first one, if it is there. A broken escape is a fault. -/
def lowUnit? (i : Input) : Except Fault (Option Nat) :=
  match i.ahead with
  | '\\' :: 'u' :: rest =>
    -- The pair has to be followed by at least one more character.
    if (rest.drop 4).isEmpty then .ok none
    else
      match fourDigits? (rest.take 4) with
      | none => (i.drop 1).fault .badUnicodeEscape
      | some n => .ok (if 0xDC00 ≤ n ∧ n < 0xE000 then some n else none)
  | _ => .ok none

/-- A character escaped by its code units and the number of their characters, from behind the
`u`. -/
def unicodeEscape (i : Input) : Except Fault (Char × Nat) :=
  let broken : Except Fault (Char × Nat) := .error ⟨.badUnicodeEscape, i.offset - 1⟩
  if (i.ahead.drop 4).isEmpty then broken
  else
    match fourDigits? (i.ahead.take 4) with
    | none => broken
    | some high =>
      if 0xD800 ≤ high ∧ high < 0xDC00 then do
        match ← lowUnit? (i.drop 4) with
        | some low => return (Char.ofNat (0x10000 + (high - 0xD800) * 0x400 + (low - 0xDC00)), 10)
        | none => return (ofUnit high, 4)
      else .ok (ofUnit high, 4)

/-- The character of an escape and the number of its characters, from behind the backslash. -/
def readEscape (start : Nat) (i : Input) : Except Fault (Char × Nat) :=
  match i.ahead with
  | [] => .error ⟨.unterminatedString, start⟩
  | 'u' :: _ => (unicodeEscape (i.drop 1)).map fun (c, n) => (c, n + 1)
  | e :: _ =>
    match simpleEscape? e with
    | none => .error ⟨.badEscape, i.offset - 1⟩
    | some c => .ok (c, 1)

/-- The characters of a string up to its closing quote. `start` is where it opened. -/
def stringBody (start : Nat) (i : Input) : Except Fault (List Char × Input) :=
  match _h : i.ahead with
  | [] => .error ⟨.unterminatedString, start⟩
  | '"' :: _ => .ok ([], i.drop 1)
  | '\\' :: _ => do
    let (c, n) ← readEscape start (i.drop 1)
    let (cs, rest) ← stringBody start (i.drop (n + 1))
    return (c :: cs, rest)
  | c :: _ =>
    if c.toNat ≤ 0x1F then i.fault .controlCharacter
    else do
      let (cs, rest) ← stringBody start (i.drop 1)
      return (c :: cs, rest)
termination_by i.ahead.length
decreasing_by all_goals simp only [Input.drop, List.length_drop, _h, List.length_cons]; omega

/-- A string, from behind its opening quote. -/
def readString (i : Input) : Except Fault (String × Input) := do
  let (cs, rest) ← stringBody (i.offset - 1) i
  return (String.ofList cs, rest)

def digits (cs : List Char) : List Char := cs.takeWhile Numeral.isAsciiDigit

/-- The length of the whole part: a zero, or digits that do not start with one. -/
def wholeLength (cs : List Char) : Nat :=
  match cs with
  | '0' :: _ => 1
  | _ => (digits cs).length

def fractionLength : List Char → Nat
  | '.' :: cs => if digits cs = [] then 0 else 1 + (digits cs).length
  | _ => 0

def exponentLength : List Char → Nat
  | e :: cs =>
    let sign := match cs with
      | s :: _ => if s = '+' ∨ s = '-' then 1 else 0
      | [] => 0
    let count := (digits (cs.drop sign)).length
    if (e = 'e' ∨ e = 'E') ∧ count ≠ 0 then 1 + sign + count else 0
  | [] => 0

/-- A number at the head of the text and its length. -/
def number? (cs : List Char) : Option (Except Complaint Data × Nat) :=
  let sign := if cs.head? = some '-' then 1 else 0
  let body := cs.drop sign
  let whole := wholeLength body
  let fraction := fractionLength (body.drop whole)
  let exponent := exponentLength (body.drop (whole + fraction))
  let length := sign + whole + fraction + exponent
  if whole = 0 then none
  else if fraction + exponent = 0 then
    let value := (Numeral.integer (body.take whole)).mapError Complaint.tooLong
    some (value.map fun n => .int (if sign = 1 then -(n : Int) else n), length)
  else
    (Numeral.signed? (cs.take length)).map fun x => (.ok (.real x), length)

/-- The words that are values. -/
def word? (cs : List Char) : Option (Data × Nat) :=
  [("null", Data.null), ("true", .bool true), ("false", .bool false),
    ("NaN", .real (.nan false)), ("Infinity", .real (.infinite false)),
    ("-Infinity", .real (.infinite true))].findSome? fun (word, d) =>
      if word.toList.isPrefixOf cs then some (d, word.length) else none

/-- A comma before another item, or the bracket that closes the list; tells which. -/
def separator (close : Char) (i : Input) : Except Fault (Bool × Input) :=
  let i := i.skipBlanks
  match i.ahead with
  | c :: _ =>
    if c = close then .ok (false, i.drop 1)
    else if c = ',' then .ok (true, (i.drop 1).skipBlanks)
    else i.fault .expectedComma
  | [] => i.fault .expectedComma

mutual
def readValue : (fuel : Nat) → Input → Except Fault (Data × Input)
  | 0, i => i.fault .expectedValue
  | fuel + 1, i =>
    match i.ahead with
    | '"' :: _ => do
      let (s, i) ← readString (i.drop 1)
      return (.text s, i)
    | '\x7b' :: _ => do
      let i := (i.drop 1).skipBlanks
      if i.ahead.head? = some '\x7d' then return (.record [], i.drop 1)
      let (fields, i) ← readMembers fuel i
      return (.ofFields fields, i)
    | '[' :: _ => do
      let i := (i.drop 1).skipBlanks
      if i.ahead.head? = some ']' then return (.list [], i.drop 1)
      let (items, i) ← readItems fuel i
      return (.list items, i)
    | cs =>
      match word? cs, number? cs with
      | some (d, n), _ => .ok (d, i.drop n)
      | none, some (.ok d, n) => .ok (d, i.drop n)
      | none, some (.error c, _) => i.fault c
      | none, none => i.fault .expectedValue

/-- The items of a list that is not empty, with the bracket that closes it. -/
def readItems : (fuel : Nat) → Input → Except Fault (List Data × Input)
  | 0, i => i.fault .expectedValue
  | fuel + 1, i => do
    let (d, i) ← readValue fuel i
    let (more, i) ← separator ']' i
    if more then
      let (rest, i) ← readItems fuel i
      return (d :: rest, i)
    else return ([d], i)

/-- The fields of a record that is not empty, with the brace that closes it. -/
def readMembers : (fuel : Nat) → Input → Except Fault (List (Scalar × Data) × Input)
  | 0, i => i.fault .expectedKey
  | fuel + 1, i => do
    if i.ahead.head? ≠ some '"' then i.fault .expectedKey
    let (key, i) ← readString (i.drop 1)
    let i := i.skipBlanks
    if i.ahead.head? ≠ some ':' then i.fault .expectedColon
    let (d, i) ← readValue fuel (i.drop 1).skipBlanks
    let (more, i) ← separator '\x7d' i
    if more then
      let (rest, i) ← readMembers fuel i
      return ((.text key, d) :: rest, i)
    else return ([(.text key, d)], i)
end

/-- Reads a whole text as one value. -/
def read (source : String) : Except Fault Data := do
  let cs := source.toList
  if cs.head? = some '\uFEFF' then .error ⟨.byteOrderMark, 0⟩
  let (d, i) ← readValue (2 * cs.length + 2) (Input.mk cs 0).skipBlanks
  let i := i.skipBlanks
  if i.ahead.isEmpty then return d else i.fault .extraData

end Scad.Json
