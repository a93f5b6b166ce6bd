/-! Cutting text at single characters, and line ends of one make. -/
namespace Scad.Text

/-- The stretches between separators, one more than there are separators. -/
def pieces (separator : Char) : List Char → List (List Char)
  | [] => [[]]
  | c :: cs =>
    match pieces separator cs with
    | piece :: rest => if c = separator then [] :: piece :: rest else (c :: piece) :: rest
    | [] => [[c]]

/-- Turns a carriage return, with or without a line feed behind it, into a line feed. -/
def joinLineEnds : List Char → List Char
  | [] => []
  | '\r' :: '\n' :: cs => '\n' :: joinLineEnds cs
  | c :: cs => (if c = '\r' then '\n' else c) :: joinLineEnds cs

end Scad.Text
