import Scad.NameSet
import Scad.Number.Layout

/-! The shapes of syntax tree nodes. A `Form α` is one node without its children's insides: each
child is an `α`. Every form has a kind, and its fields in a fixed order under fixed names. -/
namespace Scad

/-- The levels of left associative binary operators, loosest first. -/
inductive ChainLevel where
  | disjunction | conjunction | equality | comparison | additive | multiplicative
  deriving DecidableEq

/-- The two constructs that report on the way to a value or a child. -/
inductive Verb where
  | echo | assert
  deriving DecidableEq

def Verb.text : Verb → String
  | echo => "echo"
  | assert => "assert"

/-- What a file reference brings in: all declarations, or functions and modules only. -/
inductive Inclusion where
  | everything | definitions
  deriving DecidableEq

def Inclusion.text : Inclusion → String
  | everything => "include"
  | definitions => "use"

inductive Form (α : Type) where
  | number (value : Number)
  | string (value : String)
  | boolean (value : Bool)
  | undefined
  | variableRef (name : String)
  | paren (expr : α)
  | vector (elements : List α)
  | range (start stop : α) (step : Option α)
  | ternary (condition whenTrue whenFalse : α)
  | chain (level : ChainLevel) (operands : List α) (operators : List String)
  | unary (operator : String) (expr : α)
  | power (base exponent : α)
  /-- A primary with at least one suffix, when a parser made it. -/
  | call (target : α) (suffixes : List α)
  | callSuffix (arguments : List α)
  | indexSuffix (index : α)
  | memberSuffix (member : String)
  | functionLiteral (parameters : List α) (body : α)
  | letIn (assignments : List α) (body : α)
  | remark (verb : Verb) (arguments : List α) (body : Option α)
  | each (body : α)
  | loopUpdate (target expr : α)
  | forElement (assignments : List α) (condition : Option α) (updates : List α) (body : α)
  | ifElement (condition whenTrue : α) (whenFalse : Option α)
  | variableDefinition (name : String)
  | parameter (name : String) (default : Option α)
  | argumentName (name : String)
  | argument (name : Option α) (expr : α)
  | empty
  | block (statements : List α)
  | assignment (target expr : α)
  | moduleName (name : String)
  | moduleHead (callee : α) (arguments : List α)
  | moduleCall (head child : α)
  | moduleRemark (verb : Verb) (arguments : List α) (child : α)
  | moduleIf (condition whenTrue : α) (whenFalse : Option α)
  | instantiation (modifiers : NameSet) (payload : α)
  | moduleDefinition (name : String) (parameters : List α) (body : α)
  | functionDefinition (name : String) (parameters : List α) (expr : α)
  | fileReference (inclusion : Inclusion) (filename : String)

/-- The kinds of nodes, one for each shape and each variant that has a name of its own. -/
inductive Kind where
  | number | string | boolean | undefined | variableRef | paren | vector | range
  | variableDefinition | parameter | argumentName | argument
  | ternary | chain (level : ChainLevel) | unary | power
  | call | callSuffix | indexSuffix | memberSuffix | functionLiteral | letIn | remark (verb : Verb)
  | each | forElement | ifElement | loopUpdate
  | empty | block | assignment | instantiation | moduleName | moduleHead | moduleCall
  | moduleRemark (verb : Verb) | moduleIf | moduleDefinition | functionDefinition
  | fileReference (inclusion : Inclusion)
  deriving DecidableEq

namespace Kind

/-- The name under which a kind is stored. -/
def name : Kind → String
  | number => "NumberLiteral"
  | string => "StringLiteral"
  | boolean => "BooleanLiteral"
  | undefined => "UndefinedLiteral"
  | variableRef => "VariableRef"
  | paren => "ParenExpr"
  | vector => "Vector"
  | range => "RangeLiteral"
  | variableDefinition => "VariableDefinition"
  | parameter => "ParameterDefinition"
  | argumentName => "ArgumentName"
  | argument => "Argument"
  | ternary => "TernaryOp"
  | chain .disjunction => "LogicalOrOp"
  | chain .conjunction => "LogicalAndOp"
  | chain .equality => "EqualityOp"
  | chain .comparison => "ComparisonOp"
  | chain .additive => "AdditiveOp"
  | chain .multiplicative => "MultiplicativeOp"
  | unary => "UnaryOp"
  | power => "ExponentOp"
  | call => "CallExpr"
  | callSuffix => "CallOp"
  | indexSuffix => "IndexOp"
  | memberSuffix => "MemberOp"
  | functionLiteral => "FunctionLiteral"
  | letIn => "LetOp"
  | remark .echo => "EchoOp"
  | remark .assert => "AssertOp"
  | each => "ListCompEach"
  | forElement => "ListCompFor"
  | ifElement => "ListCompIfElse"
  | loopUpdate => "LoopUpdate"
  | empty => "EmptyStatement"
  | block => "Block"
  | assignment => "Assignment"
  | instantiation => "ModuleInstantiation"
  | moduleName => "ModuleId"
  | moduleHead => "SingleModuleInstantiation"
  | moduleCall => "ModularCall"
  | moduleRemark .echo => "ModularEcho"
  | moduleRemark .assert => "ModularAssert"
  | moduleIf => "ModularIfElse"
  | moduleDefinition => "ModuleDefinition"
  | functionDefinition => "FunctionDefinition"
  | fileReference .everything => "IncludeStatement"
  | fileReference .definitions => "UseStatement"

def all : List Kind :=
  [number, string, boolean, undefined, variableRef, paren, vector, range, variableDefinition,
    parameter, argumentName, argument, ternary, chain .disjunction, chain .conjunction,
    chain .equality, chain .comparison, chain .additive, chain .multiplicative, unary, power, call,
    callSuffix, indexSuffix, memberSuffix, functionLiteral, letIn, remark .echo, remark .assert,
    each, forElement, ifElement, loopUpdate, empty, block, assignment, instantiation, moduleName,
    moduleHead, moduleCall, moduleRemark .echo, moduleRemark .assert, moduleIf, moduleDefinition,
    functionDefinition, fileReference .definitions, fileReference .everything]

def ofName? (s : String) : Option Kind := all.find? (·.name = s)

/-- The kinds that stand for a declared name and are bound to its declaration. -/
def isReference (k : Kind) : Bool := k = variableRef || k = moduleName || k = argumentName

end Kind

/-- The value of one field of a form. -/
inductive Field (α : Type) where
  | node (child : α)
  | optional (child : Option α)
  | nodes (children : List α)
  | text (value : String)
  | texts (values : List String)
  | names (values : NameSet)
  | number (value : Number)
  | flag (value : Bool)

/-- What a field may hold. -/
inductive Slot where
  | node | optional | nodes | text | texts | names | number | flag
  deriving DecidableEq

namespace Field

def slot {α : Type} : Field α → Slot
  | node _ => .node
  | optional _ => .optional
  | nodes _ => .nodes
  | text _ => .text
  | texts _ => .texts
  | names _ => .names
  | number _ => .number
  | flag _ => .flag

def children {α : Type} : Field α → List α
  | node c => [c]
  | optional c => c.toList
  | nodes cs => cs
  | _ => []

end Field

/-- The names and slots of a kind's fields, in their fixed order. -/
def Kind.slots : Kind → List (String × Slot)
  | number => [("val", .number)]
  | string => [("val", .text)]
  | boolean => [("val", .flag)]
  | undefined => []
  | variableRef => [("name", .text)]
  | paren => [("expr", .node)]
  | vector => [("elements", .nodes)]
  | range => [("start", .node), ("end", .node), ("step", .optional)]
  | variableDefinition => [("name", .text)]
  | parameter => [("name", .text), ("default", .optional)]
  | argumentName => [("name", .text)]
  | argument => [("name", .optional), ("expr", .node)]
  | ternary => [("condition", .node), ("true_expr", .node), ("false_expr", .node)]
  | chain _ => [("operands", .nodes), ("operators", .texts)]
  | unary => [("operator", .text), ("expr", .node)]
  | power => [("base", .node), ("exponent", .node)]
  | call => [("target", .node), ("chain", .nodes)]
  | callSuffix => [("arguments", .nodes)]
  | indexSuffix => [("index", .node)]
  | memberSuffix => [("member", .text)]
  | functionLiteral => [("parameters", .nodes), ("body", .node)]
  | letIn => [("assignments", .nodes), ("body", .node)]
  | remark _ => [("arguments", .nodes), ("body", .optional)]
  | each => [("body", .node)]
  | loopUpdate => [("target", .node), ("expr", .node)]
  | forElement =>
    [("assignments", .nodes), ("condition", .optional), ("updates", .nodes), ("body", .node)]
  | ifElement => [("condition", .node), ("true_expr", .node), ("false_expr", .optional)]
  | empty => []
  | block => [("statements", .nodes)]
  | assignment => [("target", .node), ("expr", .node)]
  | moduleName => [("name", .text)]
  | moduleHead => [("module", .node), ("arguments", .nodes)]
  | moduleCall => [("callee", .node), ("child", .node)]
  | moduleRemark _ => [("arguments", .nodes), ("child", .node)]
  | moduleIf => [("condition", .node), ("true_branch", .node), ("false_branch", .optional)]
  | instantiation => [("modifiers", .names), ("payload", .node)]
  | moduleDefinition => [("name", .text), ("parameters", .nodes), ("body", .node)]
  | functionDefinition => [("name", .text), ("parameters", .nodes), ("expr", .node)]
  | fileReference _ => [("filename", .text)]

namespace Form

variable {α β : Type}

def kind : Form α → Kind
  | number _ => .number
  | string _ => .string
  | boolean _ => .boolean
  | undefined => .undefined
  | variableRef _ => .variableRef
  | paren _ => .paren
  | vector _ => .vector
  | range .. => .range
  | ternary .. => .ternary
  | chain level _ _ => .chain level
  | unary .. => .unary
  | power .. => .power
  | call .. => .call
  | callSuffix _ => .callSuffix
  | indexSuffix _ => .indexSuffix
  | memberSuffix _ => .memberSuffix
  | functionLiteral .. => .functionLiteral
  | letIn .. => .letIn
  | remark verb _ _ => .remark verb
  | each _ => .each
  | loopUpdate .. => .loopUpdate
  | forElement .. => .forElement
  | ifElement .. => .ifElement
  | variableDefinition _ => .variableDefinition
  | parameter .. => .parameter
  | argumentName _ => .argumentName
  | argument .. => .argument
  | empty => .empty
  | block _ => .block
  | assignment .. => .assignment
  | moduleName _ => .moduleName
  | moduleHead .. => .moduleHead
  | moduleCall .. => .moduleCall
  | moduleRemark verb _ _ => .moduleRemark verb
  | moduleIf .. => .moduleIf
  | instantiation .. => .instantiation
  | moduleDefinition .. => .moduleDefinition
  | functionDefinition .. => .functionDefinition
  | fileReference inclusion _ => .fileReference inclusion

/-- The fields in the order of `Kind.slots`. -/
def fields : Form α → List (Field α)
  | number v => [.number v]
  | string v => [.text v]
  | boolean v => [.flag v]
  | undefined => []
  | variableRef n => [.text n]
  | paren e => [.node e]
  | vector es => [.nodes es]
  | range a b s => [.node a, .node b, .optional s]
  | ternary c t e => [.node c, .node t, .node e]
  | chain _ xs ops => [.nodes xs, .texts ops]
  | unary op e => [.text op, .node e]
  | power b e => [.node b, .node e]
  | call t ss => [.node t, .nodes ss]
  | callSuffix as => [.nodes as]
  | indexSuffix i => [.node i]
  | memberSuffix m => [.text m]
  | functionLiteral ps b => [.nodes ps, .node b]
  | letIn as b => [.nodes as, .node b]
  | remark _ as b => [.nodes as, .optional b]
  | each b => [.node b]
  | loopUpdate t e => [.node t, .node e]
  | forElement as c us b => [.nodes as, .optional c, .nodes us, .node b]
  | ifElement c t e => [.node c, .node t, .optional e]
  | variableDefinition n => [.text n]
  | parameter n d => [.text n, .optional d]
  | argumentName n => [.text n]
  | argument n e => [.optional n, .node e]
  | empty => []
  | block ss => [.nodes ss]
  | assignment t e => [.node t, .node e]
  | moduleName n => [.text n]
  | moduleHead m as => [.node m, .nodes as]
  | moduleCall h c => [.node h, .node c]
  | moduleRemark _ as c => [.nodes as, .node c]
  | moduleIf c t e => [.node c, .node t, .optional e]
  | instantiation ms p => [.names ms, .node p]
  | moduleDefinition n ps b => [.text n, .nodes ps, .node b]
  | functionDefinition n ps e => [.text n, .nodes ps, .node e]
  | fileReference _ f => [.text f]

/-- The form of a kind with given fields, if they are what the kind has. -/
def ofFields? : Kind → List (Field α) → Option (Form α)
  | .number, [.number v] => some (number v)
  | .string, [.text v] => some (string v)
  | .boolean, [.flag v] => some (boolean v)
  | .undefined, [] => some undefined
  | .variableRef, [.text n] => some (variableRef n)
  | .paren, [.node e] => some (paren e)
  | .vector, [.nodes es] => some (vector es)
  | .range, [.node a, .node b, .optional s] => some (range a b s)
  | .ternary, [.node c, .node t, .node e] => some (ternary c t e)
  | .chain level, [.nodes xs, .texts ops] => some (chain level xs ops)
  | .unary, [.text op, .node e] => some (unary op e)
  | .power, [.node b, .node e] => some (power b e)
  | .call, [.node t, .nodes ss] => some (call t ss)
  | .callSuffix, [.nodes as] => some (callSuffix as)
  | .indexSuffix, [.node i] => some (indexSuffix i)
  | .memberSuffix, [.text m] => some (memberSuffix m)
  | .functionLiteral, [.nodes ps, .node b] => some (functionLiteral ps b)
  | .letIn, [.nodes as, .node b] => some (letIn as b)
  | .remark verb, [.nodes as, .optional b] => some (remark verb as b)
  | .each, [.node b] => some (each b)
  | .loopUpdate, [.node t, .node e] => some (loopUpdate t e)
  | .forElement, [.nodes as, .optional c, .nodes us, .node b] => some (forElement as c us b)
  | .ifElement, [.node c, .node t, .optional e] => some (ifElement c t e)
  | .variableDefinition, [.text n] => some (variableDefinition n)
  | .parameter, [.text n, .optional d] => some (parameter n d)
  | .argumentName, [.text n] => some (argumentName n)
  | .argument, [.optional n, .node e] => some (argument n e)
  | .empty, [] => some empty
  | .block, [.nodes ss] => some (block ss)
  | .assignment, [.node t, .node e] => some (assignment t e)
  | .moduleName, [.text n] => some (moduleName n)
  | .moduleHead, [.node m, .nodes as] => some (moduleHead m as)
  | .moduleCall, [.node h, .node c] => some (moduleCall h c)
  | .moduleRemark verb, [.nodes as, .node c] => some (moduleRemark verb as c)
  | .moduleIf, [.node c, .node t, .optional e] => some (moduleIf c t e)
  | .instantiation, [.names ms, .node p] => some (instantiation ms p)
  | .moduleDefinition, [.text n, .nodes ps, .node b] => some (moduleDefinition n ps b)
  | .functionDefinition, [.text n, .nodes ps, .node e] => some (functionDefinition n ps e)
  | .fileReference inclusion, [.text f] => some (fileReference inclusion f)
  | _, _ => none

/-- The children in field order. -/
def children (f : Form α) : List α := f.fields.flatMap Field.children

def map (g : α → β) : Form α → Form β
  | number v => number v
  | string v => string v
  | boolean v => boolean v
  | undefined => undefined
  | variableRef n => variableRef n
  | paren e => paren (g e)
  | vector es => vector (es.map g)
  | range a b s => range (g a) (g b) (s.map g)
  | ternary c t e => ternary (g c) (g t) (g e)
  | chain level xs ops => chain level (xs.map g) ops
  | unary op e => unary op (g e)
  | power b e => power (g b) (g e)
  | call t ss => call (g t) (ss.map g)
  | callSuffix as => callSuffix (as.map g)
  | indexSuffix i => indexSuffix (g i)
  | memberSuffix m => memberSuffix m
  | functionLiteral ps b => functionLiteral (ps.map g) (g b)
  | letIn as b => letIn (as.map g) (g b)
  | remark verb as b => remark verb (as.map g) (b.map g)
  | each b => each (g b)
  | loopUpdate t e => loopUpdate (g t) (g e)
  | forElement as c us b => forElement (as.map g) (c.map g) (us.map g) (g b)
  | ifElement c t e => ifElement (g c) (g t) (e.map g)
  | variableDefinition n => variableDefinition n
  | parameter n d => parameter n (d.map g)
  | argumentName n => argumentName n
  | argument n e => argument (n.map g) (g e)
  | empty => empty
  | block ss => block (ss.map g)
  | assignment t e => assignment (g t) (g e)
  | moduleName n => moduleName n
  | moduleHead m as => moduleHead (g m) (as.map g)
  | moduleCall h c => moduleCall (g h) (g c)
  | moduleRemark verb as c => moduleRemark verb (as.map g) (g c)
  | moduleIf c t e => moduleIf (g c) (g t) (e.map g)
  | instantiation ms p => instantiation ms (g p)
  | moduleDefinition n ps b => moduleDefinition n (ps.map g) (g b)
  | functionDefinition n ps e => functionDefinition n (ps.map g) (g e)
  | fileReference inclusion f => fileReference inclusion f

/-- Runs an action on every child, in field order. -/
def traverse {m : Type → Type} [Monad m] (g : α → m β) : Form α → m (Form β)
  | number v => return number v
  | string v => return string v
  | boolean v => return boolean v
  | undefined => return undefined
  | variableRef n => return variableRef n
  | paren e => return paren (← g e)
  | vector es => return vector (← es.mapM g)
  | range a b s => return range (← g a) (← g b) (← s.mapM g)
  | ternary c t e => return ternary (← g c) (← g t) (← g e)
  | chain level xs ops => return chain level (← xs.mapM g) ops
  | unary op e => return unary op (← g e)
  | power b e => return power (← g b) (← g e)
  | call t ss => return call (← g t) (← ss.mapM g)
  | callSuffix as => return callSuffix (← as.mapM g)
  | indexSuffix i => return indexSuffix (← g i)
  | memberSuffix m => return memberSuffix m
  | functionLiteral ps b => return functionLiteral (← ps.mapM g) (← g b)
  | letIn as b => return letIn (← as.mapM g) (← g b)
  | remark verb as b => return remark verb (← as.mapM g) (← b.mapM g)
  | each b => return each (← g b)
  | loopUpdate t e => return loopUpdate (← g t) (← g e)
  | forElement as c us b =>
    return forElement (← as.mapM g) (← c.mapM g) (← us.mapM g) (← g b)
  | ifElement c t e => return ifElement (← g c) (← g t) (← e.mapM g)
  | variableDefinition n => return variableDefinition n
  | parameter n d => return parameter n (← d.mapM g)
  | argumentName n => return argumentName n
  | argument n e => return argument (← n.mapM g) (← g e)
  | empty => return empty
  | block ss => return block (← ss.mapM g)
  | assignment t e => return assignment (← g t) (← g e)
  | moduleName n => return moduleName n
  | moduleHead m as => return moduleHead (← g m) (← as.mapM g)
  | moduleCall h c => return moduleCall (← g h) (← g c)
  | moduleRemark verb as c => return moduleRemark verb (← as.mapM g) (← g c)
  | moduleIf c t e => return moduleIf (← g c) (← g t) (← e.mapM g)
  | instantiation ms p => return instantiation ms (← g p)
  | moduleDefinition n ps b => return moduleDefinition n (← ps.mapM g) (← g b)
  | functionDefinition n ps e => return functionDefinition n (← ps.mapM g) (← g e)
  | fileReference inclusion f => return fileReference inclusion f

theorem map_slot_fields (f : Form α) : f.fields.map Field.slot = f.kind.slots.map Prod.snd := by
  cases f <;> rfl

theorem ofFields?_fields (f : Form α) : ofFields? f.kind f.fields = some f := by
  cases f <;> rfl

theorem children_map (g : α → β) (f : Form α) : (f.map g).children = f.children.map g := by
  cases f <;> simp [map, children, fields, Field.children, Option.toList_map]

theorem kind_map (g : α → β) (f : Form α) : (f.map g).kind = f.kind := by
  cases f <;> rfl

end Form

end Scad
