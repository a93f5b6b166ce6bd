import Scad.Data.Value

/-! JSON text. It is pure ASCII: every other character is escaped by its code units of 16 bits. -/
namespace Scad.Json

/-- Infinities and nan go beyond the standard, by the names that readers of it know. -/
def realStyle : RealStyle := ⟨"Infinity", "NaN", false⟩

def escapeUnit (n : Nat) : List Char := '\\' :: 'u' :: Text.hexDigits 4 n

def escapeChar (c : Char) : List Char :=
  if c = '"' then ['\\', '"']
  else if c = '\\' then ['\\', '\\']
  else if c = '\n' then ['\\', 'n']
  else if c = '\r' then ['\\', 'r']
  else if c = '\t' then ['\\', 't']
  else if c = '\x0c' then ['\\', 'f']
  else if c = '\x08' then ['\\', 'b']
  else if ' ' ≤ c ∧ c ≤ '~' then [c]
  else
    let n := c.toNat
    if n < 0x10000 then escapeUnit n
    else
      let above := n - 0x10000
      escapeUnit (0xD800 + above / 0x400) ++ escapeUnit (0xDC00 + above % 0x400)

def writeText (s : String) : String :=
  String.ofList ('"' :: s.toList.flatMap escapeChar ++ ['"'])

/-- What stands before an item at a depth: a new line if the text is indented. -/
def lineStart (indent : Option Nat) (depth : Nat) : String :=
  match indent with
  | none => ""
  | some width => String.ofList ('\n' :: List.replicate (width * depth) ' ')

/-- Items between brackets, each on its own line if the text is indented. -/
def enclose (indent : Option Nat) (depth : Nat) (left right : String) (items : List String) :
    String :=
  match items with
  | [] => left ++ right
  | _ =>
    let comma := if indent.isNone then ", " else ","
    left ++ lineStart indent (depth + 1)
      ++ (comma ++ lineStart indent (depth + 1)).intercalate items
      ++ lineStart indent depth ++ right

/-- Days and moments are written as texts. -/
def writeScalar : Scalar → String
  | .null => "null"
  | .bool b => if b then "true" else "false"
  | .int n => toString n
  | .real x => x.write realStyle
  | .text s => writeText s
  | .date d => writeText d.text
  | .moment m => writeText m.text

/-- A key is always a text. -/
def writeKey : Scalar → String
  | .bool b => writeText (writeScalar (.bool b))
  | .null => writeText (writeScalar .null)
  | .int n => writeText (writeScalar (.int n))
  | .real x => writeText (writeScalar (.real x))
  | s => writeScalar s

mutual
def writeAt (indent : Option Nat) : Data → (depth : Nat) → String
  | .scalar s, _ => writeScalar s
  | .list items, depth => enclose indent depth "[" "]" (writeItems indent items (depth + 1))
  | .record fields, depth =>
    enclose indent depth "\x7b" "\x7d" (writeFields indent fields (depth + 1))

def writeItems (indent : Option Nat) : List Data → (depth : Nat) → List String
  | [], _ => []
  | d :: rest, depth => writeAt indent d depth :: writeItems indent rest depth

def writeFields (indent : Option Nat) : List (Scalar × Data) → (depth : Nat) → List String
  | [], _ => []
  | (k, d) :: rest, depth =>
    (writeKey k ++ ": " ++ writeAt indent d depth) :: writeFields indent rest depth
end

/-- The text of data, on one line or with an indent for each level. -/
def write (indent : Option Nat) (d : Data) : String := writeAt indent d 0

def scalarIntegers : Scalar → List Int
  | .int n => [n]
  | _ => []

mutual
/-- The integers in data, those of its keys included. -/
def integers : Data → List Int
  | .scalar s => scalarIntegers s
  | .list items => itemIntegers items
  | .record fields => fieldIntegers fields

def itemIntegers : List Data → List Int
  | [] => []
  | d :: rest => integers d ++ itemIntegers rest

def fieldIntegers : List (Scalar × Data) → List Int
  | [] => []
  | (k, d) :: rest => scalarIntegers k ++ integers d ++ fieldIntegers rest
end

/-- Why data has no text. -/
inductive WriteFault where
  /-- An integer of more than 4300 decimal digits. -/
  | tooManyDigits
  deriving DecidableEq

def WriteFault.message : WriteFault → String
  | tooManyDigits =>
    "Exceeds the limit (4300 digits) for integer string conversion; "
      ++ "use sys.set_int_max_str_digits() to increase the limit"

/-- Whether an integer is short enough to be written. -/
def hasText (n : Int) : Bool := Binary64.decimalLength n.natAbs ≤ 4300

/-- The text of data, unless an integer in it is too long. -/
def encode (indent : Option Nat) (d : Data) : Except WriteFault String :=
  if (integers d).all hasText then .ok (write indent d) else .error .tooManyDigits

end Scad.Json
