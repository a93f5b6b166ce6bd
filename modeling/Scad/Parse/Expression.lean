import Scad.Parse.State

/-! Expressions and vector elements. Whatever nests goes through the rules of one level deeper, so
the number of levels bounds the nesting. -/
namespace Scad.Parse

/-- The productions that open a level of their own. -/
structure ExpressionRules where
  expression : Parser Node
  /-- An operand behind a sign or a power. -/
  unary : Parser Node
  /-- A vector element inside of another. -/
  element : Parser Node

def startsExpression : TokenKind → Bool
  | .identifier | .number | .string => true
  | .keyword .true | .keyword .false | .keyword .undef | .keyword .letIn | .keyword .assert
  | .keyword .echo | .keyword .function => true
  | .symbol .leftParen | .symbol .leftBracket | .symbol .minus | .symbol .plus | .symbol .bang =>
    true
  | _ => false

/-- The kinds that make a parenthesis in a vector the start of a generator. -/
def startsGenerator : TokenKind → Bool
  | .keyword .forLoop | .keyword .each | .keyword .ifThen => true
  | _ => false

def isIdentifier (k : TokenKind) : Bool := k = .identifier

/-- The operators of a level. -/
def operators : ChainLevel → List Symbol
  | .disjunction => [.orElse]
  | .conjunction => [.andAlso]
  | .equality => [.equal, .notEqual]
  | .comparison => [.less, .lessEqual, .greater, .greaterEqual]
  | .additive => [.plus, .minus]
  | .multiplicative => [.star, .slash, .percent]

def isOperator (level : ChainLevel) (k : TokenKind) : Bool := (operators level).any (k = .symbol ·)

/-- One argument. Where arguments declare variables, a named one is a declaration. -/
def argument (rules : ExpressionRules) (declares : Bool) : Parser Node := do
  let start ← current
  if start.kind = .identifier ∧ (← peek).kind = .symbol .assign then
    let _ ← advance
    let name ← make start
      (if declares then .variableDefinition start.text else .argumentName start.text)
    let _ ← advance
    let expr ← rules.expression
    make start (.argument (some name) expr)
  else
    let expr ← rules.expression
    make start (.argument none expr)

def arguments (rules : ExpressionRules) (declares : Bool) : Parser (List Node) := do
  expectSymbol .leftParen
  let found ← separated startsExpression (argument rules declares)
  expectSymbol .rightParen
  return found

def parameter (rules : ExpressionRules) : Parser Node := do
  let start ← advance
  if ← atKind (.symbol .assign) then
    let _ ← advance
    let default ← rules.expression
    make start (.parameter start.text (some default))
  else
    make start (.parameter start.text none)

def parameters (rules : ExpressionRules) : Parser (List Node) := do
  expectSymbol .leftParen
  let found ← separated isIdentifier (parameter rules)
  expectSymbol .rightParen
  return found

/-- `name = expr`, up to where the caller makes the node. -/
def assignmentParts (rules : ExpressionRules) : Parser (Token × Node × Node) := do
  let start ← advance
  let target ← make start (.variableDefinition start.text)
  expectSymbol .assign
  let expr ← rules.expression
  return (start, target, expr)

def assignment (rules : ExpressionRules) : Parser Node := do
  let (start, target, expr) ← assignmentParts rules
  make start (.assignment target expr)

def assignments (rules : ExpressionRules) : Parser (List Node) :=
  separated isIdentifier (assignment rules)

def letAssignments (rules : ExpressionRules) : Parser (List Node) := do
  expectSymbol .leftParen
  let found ← assignments rules
  expectSymbol .rightParen
  return found

def loopUpdate (rules : ExpressionRules) : Parser Node := do
  let start ← advance
  let target ← make start (.variableRef start.text)
  expectSymbol .assign
  let expr ← rules.expression
  make start (.loopUpdate target expr)

/-- The part of a loop behind its first semicolon: a condition and updates. -/
def loopControl (rules : ExpressionRules) : Parser (Option Node × List Node) := do
  if ← atKind (.symbol .semicolon) then
    let _ ← advance
    let condition ← rules.expression
    expectSymbol .semicolon
    let updates ← separated isIdentifier (loopUpdate rules)
    return (some condition, updates)
  else
    return (none, [])

def forElement (rules : ExpressionRules) : Parser Node := do
  let start ← advance
  expectSymbol .leftParen
  let inits ← assignments rules
  let (condition, updates) ← loopControl rules
  expectSymbol .rightParen
  let body ← rules.element
  make start (.forElement inits condition updates body)

/-- An `else` branch, if there is one. -/
def elseBranch (branch : Parser Node) : Parser (Option Node) := do
  if ← atKind (.keyword .otherwise) then
    let _ ← advance
    return some (← branch)
  else
    return none

/-- An element of a vector: a generator, or an expression. -/
def element (rules : ExpressionRules) : Parser Node := do
  let start ← current
  match start.kind with
  | .keyword .forLoop => forElement rules
  | .keyword .each =>
    let _ ← advance
    let body ← rules.element
    make start (.each body)
  | .keyword .ifThen =>
    let _ ← advance
    expectSymbol .leftParen
    let condition ← rules.expression
    expectSymbol .rightParen
    let whenTrue ← rules.element
    let whenFalse ← elseBranch rules.element
    make start (.ifElement condition whenTrue whenFalse)
  | .keyword .letIn =>
    let _ ← advance
    let inits ← letAssignments rules
    let body ← rules.element
    make start (.letIn inits body)
  | .symbol .leftParen =>
    if startsGenerator (← peek).kind then
      let _ ← advance
      let inner ← rules.element
      expectSymbol .rightParen
      return inner
    else
      rules.expression
  | _ => rules.expression

/-- Reports the first element that generates where the first one does not, or the other way. -/
def checkUniform (elements : List Node) : Parser Unit :=
  match elements with
  | [] => return ()
  | first :: rest =>
    match rest.find? (·.isGenerator ≠ first.isGenerator) with
    | none => return ()
    | some odd =>
      report "list comprehension elements cannot be mixed with plain vector elements" odd.span

/-- A range, from its first colon. -/
def rangeRest (rules : ExpressionRules) (start : Token) (first : Node) : Parser Node := do
  if first.isGenerator then
    report "a list comprehension element cannot start a range" (← current).span
  let _ ← advance
  let second ← rules.expression
  if ← atKind (.symbol .colon) then
    let _ ← advance
    let stop ← rules.expression
    expectSymbol .rightBracket
    make start (.range first stop (some second))
  else
    expectSymbol .rightBracket
    make start (.range first second none)

/-- A further element of a vector, behind a run of commas. -/
def nextElement? (rules : ExpressionRules) : Parser (Option Node) := do
  if ← skipCommas then
    if ← atKind (.symbol .rightBracket) then
      return none
    else
      return some (← element rules)
  else return none

def vectorOrRange (rules : ExpressionRules) : Parser Node := do
  let start ← advance
  if ← atKind (.symbol .rightBracket) then
    let _ ← advance
    make start (.vector [])
  else
    let first ← element rules
    if ← atKind (.symbol .colon) then
      rangeRest rules start first
    else
      let more ← Parser.many (nextElement? rules)
      expectSymbol .rightBracket
      let elements := first :: more
      let vector ← make start (.vector elements)
      checkUniform elements
      return vector

def numberValue (text : String) : Parser Number := fun _ s =>
  match Numeral.read text with
  | .ok x => .done (.real x) s
  | .error fault => .broken fault

def primary (rules : ExpressionRules) : Parser Node := do
  let t ← current
  match t.kind with
  | .symbol .leftParen =>
    let _ ← advance
    let expr ← rules.expression
    expectSymbol .rightParen
    make t (.paren expr)
  | .symbol .leftBracket => vectorOrRange rules
  | .keyword .true =>
    let _ ← advance
    make t (.boolean true)
  | .keyword .false =>
    let _ ← advance
    make t (.boolean false)
  | .keyword .undef =>
    let _ ← advance
    make t .undefined
  | .number =>
    let _ ← advance
    let value ← numberValue t.text
    make t (.number value)
  | .string =>
    let _ ← advance
    make t (.string t.text)
  | .identifier =>
    let _ ← advance
    make t (.variableRef t.text)
  | _ => fail ("expected an expression but found " ++ t.describe)

/-- A call, index or member suffix, if one is next. -/
def suffix? (rules : ExpressionRules) : Parser (Option Node) := do
  let t ← current
  match t.kind with
  | .symbol .leftParen =>
    let args ← arguments rules false
    return some (← make t (.callSuffix args))
  | .symbol .leftBracket =>
    let _ ← advance
    let index ← rules.expression
    expectSymbol .rightBracket
    return some (← make t (.indexSuffix index))
  | .symbol .dot =>
    let _ ← advance
    let member ← identifier
    return some (← make t (.memberSuffix member))
  | _ => return none

def suffixed (rules : ExpressionRules) : Parser Node := do
  let start ← current
  let target ← primary rules
  match ← Parser.many (suffix? rules) with
  | [] => return target
  | suffixes => make start (.call target suffixes)

def power (rules : ExpressionRules) : Parser Node := do
  let start ← current
  let base ← suffixed rules
  if ← atKind (.symbol .caret) then
    let _ ← advance
    let exponent ← rules.unary
    make start (.power base exponent)
  else
    return base

def isSign (k : TokenKind) : Bool :=
  k = .symbol .plus || k = .symbol .minus || k = .symbol .bang

def unary (rules : ExpressionRules) : Parser Node := do
  let start ← current
  if isSign start.kind then
    let _ ← advance
    let expr ← rules.unary
    make start (.unary start.text expr)
  else
    power rules

/-- An operator of a level with the operand behind it. -/
def operation? (level : ChainLevel) (operand : Parser Node) : Parser (Option (String × Node)) := do
  if isOperator level (← current).kind then
    let sign ← advance
    let x ← operand
    return some (sign.text, x)
  else return none

/-- Operands of one level with its operators between them; a single operand stays as it is. -/
def chain (level : ChainLevel) (operand : Parser Node) : Parser Node := do
  let start ← current
  let first ← operand
  let more ← Parser.many (operation? level operand)
  match more with
  | [] => return first
  | _ => make start (.chain level (first :: more.map (·.2)) (more.map (·.1)))

/-- From the loosest operators to the tightest. -/
def chains (rules : ExpressionRules) : Parser Node :=
  chain .disjunction <| chain .conjunction <| chain .equality <| chain .comparison <|
    chain .additive <| chain .multiplicative <| unary rules

def ternary (rules : ExpressionRules) : Parser Node := do
  let start ← current
  let condition ← chains rules
  if ← atKind (.symbol .question) then
    let _ ← advance
    let whenTrue ← rules.expression
    expectSymbol .colon
    let whenFalse ← rules.expression
    make start (.ternary condition whenTrue whenFalse)
  else
    return condition

/-- `echo(…)` or `assert(…)` with the value behind it, if there is one. -/
def remark (rules : ExpressionRules) (verb : Verb) (start : Token) : Parser Node := do
  let _ ← advance
  let args ← arguments rules false
  if startsExpression (← current).kind then
    let body ← rules.expression
    make start (.remark verb args (some body))
  else
    make start (.remark verb args none)

def expression (rules : ExpressionRules) : Parser Node := do
  let start ← current
  match start.kind with
  | .keyword .letIn =>
    let _ ← advance
    let inits ← letAssignments rules
    let body ← rules.expression
    make start (.letIn inits body)
  | .keyword .assert => remark rules .assert start
  | .keyword .echo => remark rules .echo start
  | .keyword .function =>
    let _ ← advance
    let params ← parameters rules
    let body ← rules.expression
    make start (.functionLiteral params body)
  | _ => ternary rules

/-- The rules when `budget` more levels may be opened. -/
def expressionRules : (budget : Nat) → ExpressionRules
  | 0 => ⟨tooDeep, tooDeep, tooDeep⟩
  | budget + 1 =>
    let rules := expressionRules budget
    ⟨nested (expression rules), nested (unary rules), nested (element rules)⟩

end Scad.Parse
