import Scad.Span

/-! Findings about a text. They are collected and never stop the work. -/
namespace Scad

/-- Which part of the work found the fault, with what that part adds to the report. -/
inductive Fault where
  /-- A character that starts no token. -/
  | lexical (character : String)
  /-- Tokens that do not fit the grammar. -/
  | syntactic
  /-- A name that no enclosing scope declares. -/
  | unbound (identifier : String)
  deriving DecidableEq

structure Diagnostic where
  fault : Fault
  span : Span
  message : String
  deriving DecidableEq

/-- The columns that a run of characters takes on a terminal whose tab stops are eight apart,
counted over all lines of the run; a carriage return or line feed goes back to the first stop. -/
def tabbedWidth (cs : List Char) : Nat := go 0 cs
where
  go (column : Nat) : List Char → Nat
    | [] => 0
    | '\t' :: cs => (8 - column % 8) + go (column + (8 - column % 8)) cs
    | c :: cs => 1 + go (if c = '\n' ∨ c = '\r' then 0 else column + 1) cs

/-- The lines of a text, cut at line feeds; never empty. -/
def linesOf : List Char → List (List Char)
  | [] => [[]]
  | '\n' :: cs => [] :: linesOf cs
  | c :: cs =>
    match linesOf cs with
    | [] => [[c]]
    | line :: rest => (c :: line) :: rest

namespace Diagnostic

/-- Every finding is an error; there are no milder ones. -/
def severity (_ : Diagnostic) : String := "error"

def render (d : Diagnostic) : String := d.span.render ++ ": " ++ d.message

def headline (d : Diagnostic) : String :=
  d.severity ++ " in " ++ d.span.origin ++ " at line " ++ toString d.span.start.line ++ ", column "
    ++ toString d.span.start.column ++ ": " ++ d.message

/-- The line that a finding starts in, if the text has it. -/
def lineIn (d : Diagnostic) (source : String) : Option (List Char) :=
  if d.span.start.line < 1 then none
  else (linesOf source.toList)[(d.span.start.line - 1).toNat]?

/-- The finding above its line and a caret below the place. A line outside of the text leaves the
headline alone; a column outside of the line moves the caret to the line's nearer end. -/
def format (d : Diagnostic) (source : String) : String :=
  match d.lineIn source with
  | none => d.headline
  | some line =>
    let before := line.take (d.span.start.column - 1).toNat
    d.headline ++ "\n" ++ String.ofList line ++ "\n"
      ++ String.ofList (List.replicate (tabbedWidth before) ' ') ++ "^"

end Diagnostic

end Scad
