import Scad.Parse.Expression

/-! Statements, and parsing as a whole. A missing delimiter is reported and taken for read. A token
that fits nowhere abandons its statement, and the work goes on behind it. -/
namespace Scad

namespace Parse

/-- The productions that open a level of their own. -/
structure StatementRules where
  /-- What stands between the braces of a block, with the brace that opens it. -/
  block : Parser (List Node)
  /-- An instantiation as the child of another. -/
  instantiation : Parser Node

/-- Consumes the brace that closes a block, and keeps the places of both braces. -/
def closeBlock (opening : Nat) : Parser Unit := do
  let closing ← place
  match ← expect (.symbol .rightBrace) with
  | some _ => note (.block opening closing)
  | none => return ()

def block (deeper : StatementRules) : Parser Node := do
  let start ← current
  let opening ← place
  let statements ← deeper.block
  closeBlock opening
  make start (.block statements)

def child (deeper : StatementRules) : Parser Node := do
  let t ← current
  match t.kind with
  | .symbol .semicolon =>
    let _ ← advance
    make t .empty
  | .symbol .leftBrace => block deeper
  | _ => deeper.instantiation

/-- The modules whose named arguments declare variables. -/
def declaresVariables (head : Token) : Bool :=
  head.kind ≠ .identifier || head.text = "intersection_for"

def moduleCall (deeper : StatementRules) (rules : ExpressionRules) (start : Token) :
    Parser Node := do
  let _ ← advance
  let name ← make start (.moduleName start.text)
  let args ← arguments rules (declaresVariables start)
  let head ← make start (.moduleHead name args)
  let below ← child deeper
  make start (.moduleCall head below)

def moduleRemark (deeper : StatementRules) (rules : ExpressionRules) (verb : Verb)
    (start : Token) : Parser Node := do
  let _ ← advance
  let args ← arguments rules false
  let below ← child deeper
  make start (.moduleRemark verb args below)

/-- What is instantiated. -/
def payload (deeper : StatementRules) (rules : ExpressionRules) : Parser Node := do
  let start ← current
  match start.kind with
  | .keyword .ifThen =>
    let _ ← advance
    expectSymbol .leftParen
    let condition ← rules.expression
    expectSymbol .rightParen
    let whenTrue ← child deeper
    let whenFalse ← elseBranch (child deeper)
    make start (.moduleIf condition whenTrue whenFalse)
  | .keyword .echo => moduleRemark deeper rules .echo start
  | .keyword .assert => moduleRemark deeper rules .assert start
  | .keyword .forLoop | .keyword .letIn | .keyword .each | .identifier =>
    moduleCall deeper rules start
  | _ => fail ("expected a statement but found " ++ start.describe)

/-- A mark before an instantiation. -/
def modifier? (k : TokenKind) : Option String :=
  (Symbol.modifiers.find? (k = .symbol ·)).map (·.text)

def mark? : Parser (Option String) := do
  match modifier? (← current).kind with
  | some mark =>
    let _ ← advance
    return some mark
  | none => return none

def instantiation (deeper : StatementRules) (rules : ExpressionRules) : Parser Node := do
  let start ← current
  let marks ← Parser.many mark?
  let below ← payload deeper rules
  make start (.instantiation (.ofList marks) below)

def functionDefinition (rules : ExpressionRules) : Parser Node := do
  let start ← advance
  let name ← identifier
  let params ← parameters rules
  expectSymbol .assign
  let expr ← rules.expression
  expectSymbol .semicolon
  make start (.functionDefinition name params expr)

/-- `include <…>` or `use <…>`; without a file there is no statement. -/
def fileReference (inclusion : Inclusion) : Parser (Option Node) := do
  let start ← advance
  let t ← current
  if t.kind = .file then
    let _ ← advance
    return some (← make start (.fileReference inclusion t.text))
  else
    report ("expected " ++ TokenKind.file.describe ++ " after '" ++ start.text ++ "' but found "
      ++ t.describe) t.span
    return none

/-- An assignment whose range covers its semicolon. -/
def assignmentStatement (rules : ExpressionRules) : Parser Node := do
  let (start, target, expr) ← assignmentParts rules
  expectSymbol .semicolon
  make start (.assignment target expr)

/-- Any statement but a module definition. -/
def plainStatement (deeper : StatementRules) (rules : ExpressionRules) :
    Parser (Option Node) := do
  let t ← current
  match t.kind with
  | .symbol .semicolon =>
    let _ ← advance
    return some (← make t .empty)
  | .symbol .leftBrace => return some (← block deeper)
  | .keyword .function => return some (← functionDefinition rules)
  | .keyword .includeFile => fileReference .everything
  | .keyword .useFile => fileReference .definitions
  | .identifier =>
    if (← peek).kind = .symbol .assign then
      return some (← assignmentStatement rules)
    else
      return some (← instantiation deeper rules)
  | _ => return some (← instantiation deeper rules)

/-- `module name(…)` before the body. -/
structure ModuleHeader where
  start : Token
  name : String
  parameters : List Node

def moduleHeader? (rules : ExpressionRules) : Parser (Option ModuleHeader) := do
  if ← atKind (.keyword .moduleDef) then
    let start ← advance
    let name ← identifier
    let params ← parameters rules
    return some ⟨start, name, params⟩
  else
    return none

/-- Makes the definitions around a body, the innermost first. -/
def wrapModules (body : Node) : List ModuleHeader → Parser Node
  | [] => return body
  | header :: rest => do
    let inner ← wrapModules body rest
    make header.start (.moduleDefinition header.name header.parameters inner)

/-- A statement. The body of a module definition may itself be one, to any depth: the limit that an
interpreter sets on its own recursion, which a production that calls itself once for each definition
runs into, is left out. A body that is no statement is empty. -/
def statement (deeper : StatementRules) (rules : ExpressionRules) : Parser (Option Node) := do
  let headers ← Parser.many (moduleHeader? rules)
  let body ← plainStatement deeper rules
  match headers, body with
  | [], body => return body
  | headers, some body => return some (← wrapModules body headers)
  | headers, none =>
    let empty ← make (← current) .empty
    return some (← wrapModules empty headers)

/-- Skips the rest of an abandoned statement: up to and with a semicolon outside of braces, or the
brace that closes the first one opened here, or up to a brace that closes an enclosing block. Gives
the last token skipped and the tokens ahead. -/
def skipStatement (depth : Nat) (previous : Token) : List Token → Token × List Token
  | [] => (previous, [])
  | t :: rest =>
    if t.kind = .symbol .semicolon ∧ depth = 0 then (t, rest)
    else if t.kind = .symbol .leftBrace then skipStatement (depth + 1) t rest
    else if t.kind = .symbol .rightBrace then
      if depth = 0 then (previous, t :: rest)
      else if depth = 1 then (t, rest)
      else skipStatement (depth - 1) t rest
    else skipStatement depth t rest

def synchronize : Parser Unit := fun src s =>
  let (previous, rest) := skipStatement 0 s.previous s.rest
  let start := s.rest.head?.getD src.stop
  let stop := rest.head?.getD src.stop
  let position := s.position + (s.rest.length - rest.length)
  .done () { s with
    rest, position, previous
    events := s.events.push (.recovered start.span stop.span s.position position) }

/-- Runs a production; if it is abandoned, skips the rest of the statement. -/
def recovering (p : Parser (Option Node)) : Parser (Option Node) := fun src s =>
  match p src s with
  | .abandoned next => (do synchronize; return none : Parser (Option Node)) src next
  | outcome => outcome

/-- One pass over a statement list: nothing at its end, else the statement if there is one. -/
def statementStep (deeper : StatementRules) (rules : ExpressionRules) (inBlock : Bool) :
    Parser (Option (Option Node)) := do
  let t ← current
  match t.kind with
  | .eof => return none
  | .symbol .rightBrace =>
    if inBlock then
      return none
    else
      note (.discarded (← place))
      let brace ← advance
      report "unmatched '\x7d'" brace.span
      return some none
  | _ => return some (← recovering (statement deeper rules))

def statements (deeper : StatementRules) (rules : ExpressionRules) (inBlock : Bool) :
    Parser (List Node) := do
  let found ← Parser.many (statementStep deeper rules inBlock)
  return found.filterMap id

def blockBody (deeper : StatementRules) (rules : ExpressionRules) : Parser (List Node) := do
  let _ ← advance
  statements deeper rules true

/-- The rules when `budget` more levels may be opened. -/
def statementRules : (budget : Nat) → StatementRules
  | 0 => ⟨tooDeep, tooDeep⟩
  | budget + 1 =>
    let deeper := statementRules budget
    let rules := expressionRules budget
    ⟨nested (blockBody deeper rules), nested (instantiation deeper rules)⟩

def program : Parser (List Node) :=
  statements (statementRules maxNesting) (expressionRules maxNesting) false

/-- The end marker of a token list that lacks one. -/
def endMarker (tokens : List Token) (origin : Option String) : Token :=
  match tokens.getLast? with
  | some t => ⟨.eof, "", ⟨t.span.origin, t.span.stop, t.span.stop⟩⟩
  | none =>
    let name := match origin with
      | none | some "" => "<string>"
      | some name => name
    ⟨.eof, "", ⟨name, .start, .start⟩⟩

/-- A document with what happened while it was parsed. -/
structure Parsed where
  document : Document
  events : List Event

def Event.error? : Event → Option Diagnostic
  | .error d => some d
  | _ => none

end Parse

/-- Parses a token list up to its first end marker. Unless it is given, the document's origin is
that of the first token. Only a number token that is no number stops the work. -/
def parse (tokens : List Token) (origin : Option String) : Except NumeralFault Parse.Parsed :=
  let rest := tokens.takeWhile (·.kind ≠ .eof)
  let stop := (tokens.find? (·.kind = .eof)).getD (Parse.endMarker tokens origin)
  let first := tokens.head?.getD stop
  let src : Parse.Source := ⟨origin.getD first.span.origin, stop⟩
  match Parse.program src ⟨rest, 0, 0, first, #[], #[], -1⟩ with
  | .done statements s =>
    .ok ⟨⟨src.origin, statements, .ofMade s.made.toList, [],
      s.events.toList.filterMap Parse.Event.error?, []⟩, s.events.toList⟩
  | .abandoned s =>
    .ok ⟨⟨src.origin, [], .ofMade s.made.toList, [],
      s.events.toList.filterMap Parse.Event.error?, []⟩, s.events.toList⟩
  | .broken fault => .error fault

end Scad
