import Scad.Data.YamlScalar

/-! YAML text in block style. A text is written plain where it stands for itself, else between
single quotes, and between double quotes if it holds something that only an escape can express.
Lines are folded at a single space behind column 80. -/
namespace Scad.Yaml

def realStyle : RealStyle := ⟨".inf", ".nan", true⟩

def width : Nat := 80

def spaces (n : Nat) : List Char := List.replicate n ' '

def newLine (indent : Nat) : List Char := '\n' :: spaces indent

inductive ScalarStyle where
  | plain | single | double
  deriving DecidableEq

/-- A character that only an escape can express. -/
def isSpecial (c : Char) : Bool :=
  let n := c.toNat
  !(c = '\n' || (' ' ≤ c && c ≤ '~') || c = '\x85' || (0xA0 ≤ n && n ≤ 0xFFFD && n ≠ 0xFEFF) ||
    (0x10000 ≤ n && n < 0x10FFFF))

/-- Whether two characters in a row satisfy a test. -/
def adjacent (test : Char → Char → Bool) : List Char → Bool
  | a :: b :: rest => test a b || adjacent test (b :: rest)
  | _ => false

/-- A colon before a gap or a number sign behind one would end the word. -/
def endsInside : List Char → Bool
  | [] => false
  | c :: rest => (c = ':' && gapAhead rest) || (isGap c && rest.head? = some '#') || endsInside rest

def fitsPlain (cs : List Char) : Bool :=
  opensWord cs && !opensWithMark cs && !endsInside cs && cs.head? ≠ some ' ' &&
    cs.getLast? ≠ some ' ' && !cs.any fun c => isBreak c || isSpecial c

/-- A space beside the end of a line is lost, except between double quotes. -/
def fitsSingle (cs : List Char) : Bool :=
  !cs.any isSpecial && !adjacent (fun a b => a = ' ' && isBreak b || isBreak a && b = ' ') cs

def styleOf (cs : List Char) : ScalarStyle :=
  match reading cs with
  | .text => if fitsPlain cs then .plain else if fitsSingle cs then .single else .double
  | _ => if fitsSingle cs then .single else .double

/-- The characters of a plain or single-quoted text from a column on. A single space behind the
width becomes a new line. The first line end of a row is written twice. -/
def foldText (write : Char → List Char) (indent : Nat) (before : Option Char) (column : Nat) :
    List Char → List Char
  | [] => []
  | c :: rest =>
    let next := rest.head?
    if c = ' ' && width < column && before.any (· ≠ ' ') && next.any (· ≠ ' ') then
      newLine indent ++ foldText write indent (some c) indent rest
    else if isBreak c then
      let twice := if c = '\n' && !before.any isBreak then ['\n', c] else [c]
      let margin := if next.any isBreak then [] else spaces indent
      twice ++ margin ++ foldText write indent (some c) indent rest
    else write c ++ foldText write indent (some c) (column + (write c).length) rest

def escapeLetter? (c : Char) : Option Char :=
  [('\x00', '0'), ('\x07', 'a'), ('\x08', 'b'), ('\t', 't'), ('\n', 'n'), ('\x0b', 'v'),
    ('\x0c', 'f'), ('\r', 'r'), ('\x1b', 'e'), ('"', '"'), ('\\', '\\'), ('\x85', 'N'),
    ('\u2028', 'L'), ('\u2029', 'P')].lookup c

def upperHex (width n : Nat) : List Char := (Text.hexDigits width n).map Char.toUpper

def escape (c : Char) : List Char :=
  let n := c.toNat
  match escapeLetter? c with
  | some letter => ['\\', letter]
  | none =>
    if n < 0x100 then '\\' :: 'x' :: upperHex 2 n
    else if n < 0x10000 then '\\' :: 'u' :: upperHex 4 n
    else '\\' :: 'U' :: upperHex 8 n

/-- Double quotes also escape what lies beyond 16 bits. -/
def needsEscape (c : Char) : Bool :=
  c = '"' || c = '\\' || isBreak c || isSpecial c || 0x10000 ≤ c.toNat

/-- The characters of a double-quoted text. A line ends with a backslash at a space or beside an
escape; a space that starts the next line gets a backslash too. `fresh` tells that an escape or the
quote stands just before. -/
def foldEscaped (indent : Nat) (inside fresh : Bool) (column : Nat) : List Char → List Char
  | [] => []
  | c :: rest =>
    let cut := inside && rest ≠ []
    let line := '\\' :: newLine indent
    if needsEscape c then
      let column := column + (escape c).length
      if cut && width < column - 1 then
        let guard := if rest.head? = some ' ' then ['\\'] else []
        escape c ++ line ++ guard ++ foldEscaped indent true true (indent + guard.length) rest
      else escape c ++ foldEscaped indent true true column rest
    else if cut && (c = ' ' || fresh) && width < column then
      let guard := if c = ' ' then ['\\'] else []
      line ++ guard ++ c :: foldEscaped indent true false (indent + guard.length + 1) rest
    else c :: foldEscaped indent true false (column + 1) rest

/-- A text in its style. -/
def wordText (indent column : Nat) (s : String) : List Char :=
  let cs := s.toList
  match styleOf cs with
  | .plain => foldText (fun c => [c]) indent none column cs
  | .single =>
    let double (c : Char) := if c = '\'' then [c, c] else [c]
    '\'' :: foldText double indent none (column + 1) cs ++ ['\'']
  | .double => '"' :: foldEscaped indent false true (column + 1) cs ++ ['"']

def scalarText (indent column : Nat) : Scalar → List Char
  | .null => "null".toList
  | .bool b => (if b then "true" else "false").toList
  | .int n => (toString n).toList
  | .real x => (x.write realStyle).toList
  | .text s => wordText indent column s
  | .date d => d.text.toList
  | .moment m => m.text.toList

/-- The text of what is no collection, or of an empty one. -/
def inline? (indent column : Nat) : Data → Option (List Char)
  | .scalar s => some (scalarText indent column s)
  | .list [] => some "[]".toList
  | .record [] => some "\x7b\x7d".toList
  | _ => none

mutual
/-- A collection that is not empty, from behind the margin of its first line. -/
def writeBlock : Data → (margin : Nat) → List Char
  | .list items, margin => writeItems items margin true
  | .record fields, margin => writeFields fields margin true
  | _, _ => []

def writeItems : List Data → (margin : Nat) → (first : Bool) → List Char
  | [], _, _ => []
  | d :: rest, margin, first =>
    let body := match inline? (margin + 2) (margin + 2) d with
      | some cs => cs ++ ['\n']
      | none => writeBlock d (margin + 2)
    (if first then [] else spaces margin) ++ '-' :: ' ' :: body ++ writeItems rest margin false

def writeFields : List (Scalar × Data) → (margin : Nat) → (first : Bool) → List Char
  | [], _, _ => []
  | (key, d) :: rest, margin, first =>
    let name := scalarText (margin + 2) margin key
    let body := match inline? (margin + 2) (margin + name.length + 2) d with
      | some cs => ' ' :: cs ++ ['\n']
      | none =>
        -- A list stands under its key, a record is moved in.
        let below := match d with
          | .list _ => margin
          | _ => margin + 2
        newLine below ++ writeBlock d below
    (if first then [] else spaces margin) ++ name ++ ':' :: body ++ writeFields rest margin false
end

/-- Whether data is written as a word alone; as a document of its own it needs an end mark. -/
def isWord : Data → Bool
  | .text s => styleOf s.toList = .plain
  | .list _ | .record _ => false
  | _ => true

def write (d : Data) : String :=
  match inline? 2 0 d with
  | some cs => String.ofList (cs ++ '\n' :: (if isWord d then "...\n".toList else []))
  | none => String.ofList (writeBlock d 0)

end Scad.Yaml
