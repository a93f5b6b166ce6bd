import Scad.Data.Calendar
import Scad.Number.Layout
import Scad.Text.Quoted

/-! Plain data: what the text formats carry. A record keeps its fields in the order in which their
keys first came. -/
namespace Scad

/-- A value without parts. -/
inductive Scalar where
  | null
  | bool (value : Bool)
  | int (value : Int)
  | real (value : Binary64)
  | text (value : String)
  | date (value : Date)
  | moment (value : Moment)
  deriving DecidableEq

namespace Scalar

/-- Truth values count as zero and one. -/
def number? : Scalar → Option Number
  | .bool b => some (.int (if b then 1 else 0))
  | .int n => some (.int n)
  | .real x => some (.real x)
  | _ => none

/-- Equal as keys: numbers by value, moments by the point in time. -/
def same (a b : Scalar) : Bool :=
  match a.number?, b.number? with
  | some m, some n => m.same n
  | some _, none | none, some _ => false
  | none, none =>
    match a, b with
    | .moment m, .moment n => m.same n
    | _, _ => a = b

/-- As a message shows it inside of other data. -/
def shown : Scalar → String
  | .null => "None"
  | .bool b => if b then "True" else "False"
  | .int n => toString n
  | .real x => x.write Binary64.plainStyle
  | .text s => Text.quoted s
  | .date d => d.shown
  | .moment m => m.shown

/-- As a message shows it alone: texts and dates stand as they are written. -/
def display : Scalar → String
  | .text s => s
  | .date d => d.text
  | .moment m => m.text
  | s => s.shown

end Scalar

inductive Data where
  | scalar (value : Scalar)
  | list (items : List Data)
  | record (fields : List (Scalar × Data))

namespace Data

@[match_pattern]
def null : Data := .scalar .null

@[match_pattern]
def bool (value : Bool) : Data := .scalar (.bool value)

@[match_pattern]
def int (value : Int) : Data := .scalar (.int value)

@[match_pattern]
def real (value : Binary64) : Data := .scalar (.real value)

@[match_pattern]
def text (value : String) : Data := .scalar (.text value)

/-- A record whose keys are texts. -/
def named (fields : List (String × Data)) : Data := .record (fields.map fun (k, d) => (.text k, d))

/-- Sets a field: a key that is there keeps its place and gets the new value. -/
def setField (key : Scalar) (value : Data) : List (Scalar × Data) → List (Scalar × Data)
  | [] => [(key, value)]
  | (k, v) :: rest =>
    if k.same key then (k, value) :: rest else (k, v) :: setField key value rest

/-- A record from fields as they were read, of which the last of one key counts. -/
def ofFields (fields : List (Scalar × Data)) : Data :=
  .record (fields.foldl (fun found (k, v) => setField k v found) [])

/-- The value of a key that is a text. -/
def lookup (key : String) (fields : List (Scalar × Data)) : Option Data :=
  (fields.find? (·.1 = .text key)).map (·.2)

def ofNumber : Number → Data
  | .int n => .int n
  | .real x => .real x

mutual
/-- Data as a message shows it inside of other data. -/
def shown : Data → String
  | .scalar s => s.shown
  | .list items => "[" ++ ", ".intercalate (shownItems items) ++ "]"
  | .record fields => "\x7b" ++ ", ".intercalate (shownFields fields) ++ "\x7d"

def shownItems : List Data → List String
  | [] => []
  | d :: rest => d.shown :: shownItems rest

def shownFields : List (Scalar × Data) → List String
  | [] => []
  | (k, d) :: rest => (k.shown ++ ": " ++ d.shown) :: shownFields rest
end

/-- Data as a message shows it: a text stands without quotes. -/
def display : Data → String
  | .scalar s => s.display
  | d => d.shown

end Data

end Scad
