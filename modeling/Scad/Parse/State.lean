import Scad.Number.Numeral
import Scad.Token
import Scad.Tree.Document

/-! The parser's state and the steps that all productions are made of. A production ends in one of
three ways: with a value, with its statement abandoned, or with a number token that is no number. -/
namespace Scad.Parse

/-- What stays the same while a text is parsed. -/
structure Source where
  origin : String
  /-- The marker behind the last token. -/
  stop : Token

/-- What happened on the way. Tokens are given by their place, counted from the first one. -/
inductive Event where
  | error (d : Diagnostic)
  /-- The tokens from the place `first` up to `behind` were skipped. -/
  | recovered (start stop : Span) (first behind : Nat)
  /-- A block was read with the braces at these places. -/
  | block (opening closing : Nat)
  /-- A closing brace that no block was open for was dropped. -/
  | discarded (place : Nat)

structure State where
  /-- The tokens ahead, without the end marker. -/
  rest : List Token
  /-- The place of the first token ahead. -/
  position : Nat
  /-- How many levels are open. -/
  depth : Nat
  /-- The token consumed last; at the beginning the first one. -/
  previous : Token
  /-- All nodes made so far; each has its place here as its id. -/
  made : Array Node
  events : Array Event
  /-- Where the last error was reported. A second one at that offset is not. -/
  lastErrorAt : Int

inductive Outcome (α : Type) where
  | done (value : α) (next : State)
  | abandoned (next : State)
  | broken (fault : NumeralFault)

/-- A production. -/
def Parser (α : Type) : Type := Source → State → Outcome α

namespace Parser

variable {α β : Type}

def pure (a : α) : Parser α := fun _ s => .done a s

def bind (p : Parser α) (f : α → Parser β) : Parser β := fun src s =>
  match p src s with
  | .done a next => f a src next
  | .abandoned next => .abandoned next
  | .broken fault => .broken fault

instance : Monad Parser where
  pure := pure
  bind := bind

/-- Repeats a step until it gives nothing. Every step that gives something has to consume a token,
so a list as long as the tokens ahead is enough to count them. -/
def iterate (step : Parser (Option α)) : (ahead : List Token) → Parser (List α)
  | [] => bind step fun last => pure last.toList
  | _ :: ahead => bind step fun
    | none => pure []
    | some a => bind (iterate step ahead) fun rest => pure (a :: rest)

def many (step : Parser (Option α)) : Parser (List α) := fun src s => iterate step s.rest src s

end Parser

def current : Parser Token := fun src s => .done (s.rest.head?.getD src.stop) s

/-- The token behind the current one. -/
def peek : Parser Token := fun src s => .done (s.rest.tail.head?.getD src.stop) s

def atKind (k : TokenKind) : Parser Bool := do
  return (← current).kind = k

/-- Consumes the current token. The end marker is never consumed. -/
def advance : Parser Token := fun src s =>
  match s.rest with
  | [] => .done src.stop s
  | t :: rest => .done t { s with rest, position := s.position + 1, previous := t }

/-- The place of the current token. -/
def place : Parser Nat := fun _ s => .done s.position s

def note (e : Event) : Parser Unit := fun _ s => .done () { s with events := s.events.push e }

/-- Reports a syntax error, unless the last one was at the same offset. -/
def report (message : String) (span : Span) : Parser Unit := fun _ s =>
  if span.start.offset = s.lastErrorAt then .done () s
  else
    .done () { s with
      events := s.events.push (.error ⟨.syntactic, span, message⟩)
      lastErrorAt := span.start.offset }

/-- Consumes a token of a kind, or reports it missing and consumes nothing. -/
def expect (k : TokenKind) : Parser (Option Token) := do
  let t ← current
  if t.kind = k then
    return some (← advance)
  else
    report ("expected " ++ k.describe ++ " but found " ++ t.describe) t.span
    return none

def expectSymbol (sign : Symbol) : Parser Unit := do
  let _ ← expect (.symbol sign)

def abandon {α : Type} : Parser α := fun _ s => .abandoned s

/-- Reports an error at the current token and gives the statement up. -/
def fail {α : Type} (message : String) : Parser α := do
  report message (← current).span
  abandon

/-- How many levels may be open at once. -/
def maxNesting : Nat := 40

def tooDeep {α : Type} : Parser α := fail "too deeply nested"

/-- Leaves the level that was opened last. -/
def Outcome.leave {α : Type} : Outcome α → Outcome α
  | .done a s => .done a { s with depth := s.depth - 1 }
  | .abandoned s => .abandoned { s with depth := s.depth - 1 }
  | .broken fault => .broken fault

/-- Runs a production one level further in, if another level may be opened. -/
def nested {α : Type} (p : Parser α) : Parser α := fun src s =>
  if maxNesting ≤ s.depth then tooDeep src s
  else (p src { s with depth := s.depth + 1 }).leave

/-- From a token to the last one consumed; nothing wide if none was. -/
def spanFrom (src : Source) (s : State) (start : Token) : Span :=
  let stop := s.previous.span.stop
  ⟨src.origin, start.span.start,
    if stop.offset < start.span.start.offset then start.span.start else stop⟩

/-- Makes a node that begins at a token, with the next id. -/
def make (start : Token) (form : Form Node) : Parser Node := fun src s =>
  let n : Node := ⟨⟨s.made.size, spanFrom src s start, none⟩, form⟩
  .done n { s with made := s.made.push n }

def comma? : Parser (Option Token) := do
  if ← atKind (.symbol .comma) then
    return some (← advance)
  else return none

/-- Consumes a run of commas and tells whether there was one. -/
def skipCommas : Parser Bool := do
  let commas ← Parser.many comma?
  return !commas.isEmpty

/-- An item that begins with a token of some kinds, if one is next. -/
def item? (starts : TokenKind → Bool) (item : Parser Node) : Parser (Option Node) := do
  if starts (← current).kind then
    return some (← item)
  else return none

/-- An item behind a run of commas. -/
def nextItem? (starts : TokenKind → Bool) (item : Parser Node) : Parser (Option Node) := do
  if ← skipCommas then item? starts item else return none

/-- Items with runs of commas between them and possibly behind the last. -/
def separated (starts : TokenKind → Bool) (item : Parser Node) : Parser (List Node) := do
  match ← item? starts item with
  | none => return []
  | some first =>
    let more ← Parser.many (nextItem? starts item)
    return first :: more

/-- An identifier's text; empty if it is missing. -/
def identifier : Parser String := do
  match ← expect .identifier with
  | some t => return t.text
  | none => return ""

end Scad.Parse
