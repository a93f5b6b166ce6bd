/-! Places and ranges in a source text. A place counts characters: `offset` from 0, `line` and
`column` from 1. The fields are integers because a caller may hand over places of its own. -/
namespace Scad

structure Position where
  offset : Int
  line : Int
  column : Int
  deriving DecidableEq

namespace Position

/-- Where every text begins. -/
def start : Position := ⟨0, 1, 1⟩

/-- The place behind one character. Only a line feed opens a new line. -/
def advance (p : Position) (c : Char) : Position :=
  if c = '\n' then ⟨p.offset + 1, p.line + 1, 1⟩ else ⟨p.offset + 1, p.line, p.column + 1⟩

/-- The place behind a run of characters. -/
def advanceAll (p : Position) (cs : List Char) : Position := cs.foldl advance p

def render (p : Position) : String := toString p.line ++ ":" ++ toString p.column

theorem offset_advance (p : Position) (c : Char) : (p.advance c).offset = p.offset + 1 := by
  unfold advance; split <;> rfl

theorem advanceAll_append (p : Position) (cs ds : List Char) :
    p.advanceAll (cs ++ ds) = (p.advanceAll cs).advanceAll ds := List.foldl_append

theorem offset_advanceAll (p : Position) (cs : List Char) :
    (p.advanceAll cs).offset = p.offset + cs.length := by
  induction cs generalizing p with
  | nil => simp [advanceAll]
  | cons c cs ih =>
    show ((p.advance c).advanceAll cs).offset = _
    rw [ih, offset_advance, List.length_cons]
    omega

end Position

/-- A half-open range of the text called `origin`: `start` belongs to it, `stop` does not. -/
structure Span where
  origin : String
  start : Position
  stop : Position
  deriving DecidableEq

namespace Span

/-- The smallest range that covers both, in the text of the first. Of two places with one offset
the first operand's is kept. -/
def merge (a b : Span) : Span where
  origin := a.origin
  start := if a.start.offset ≤ b.start.offset then a.start else b.start
  stop := if a.stop.offset ≥ b.stop.offset then a.stop else b.stop

def render (s : Span) : String := s.origin ++ ":" ++ s.start.render

/-- The range of something that was never written in a text. -/
def unknown : Span := ⟨"<unknown>", ⟨0, 0, 0⟩, ⟨0, 0, 0⟩⟩

end Span

end Scad
