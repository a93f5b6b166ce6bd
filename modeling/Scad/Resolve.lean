import Scad.Builtins
import Scad.Scope
import Scad.Tree.Document

/-! Name resolution. Every reference of a document is bound to the declaration that its scope shows
at its place; a name that nothing declares is reported. Functions and modules are visible in the
whole statement list that defines them, variables from their assignment on. -/
namespace Scad

namespace Resolve

/-- What resolution looks names up in, besides scopes. -/
structure Environment where
  origin : String
  builtins : Option Builtins
  /-- The documents that bindings may point into, by origin. -/
  documents : List (String × Document)

/-- What has been found so far. A call with no suffix on a plain name halts the work: nothing is
bound or reported behind it. -/
structure Progress where
  errors : List Diagnostic
  halted : Bool

abbrev Resolving (α : Type) := StateM Progress α

/-- The modules that are part of the language and declare variables by their arguments. -/
def pseudoModules : List String := ["for", "intersection_for", "let", "each"]

def report (span : Span) (identifier message : String) : Resolving Unit :=
  modify fun p =>
    if p.halted then p
    else { p with errors := p.errors ++ [⟨.unbound identifier, span, message⟩] }

def halt : Resolving Unit := modify fun p => { p with halted := true }

/-- Writes a binding into a reference. -/
def assign (info : Info) (b : Binding) : Resolving Info := do
  return if (← get).halted then info else { info with binding := some b }

namespace Environment

def binding (env : Environment) (kind : BindingKind) (info : Info) : Binding :=
  ⟨kind, some info.id, some env.origin⟩

def hasBuiltin (env : Environment) (c : NameClass) (name : String) : Bool :=
  env.builtins.any fun b =>
    match c with
    | .vars => b.vars.contains name
    | .functions => b.functions.contains name
    | .modules => b.modules.contains name

/-- What a name stands for that no scope declares. -/
def undeclared (env : Environment) (c : NameClass) (name : String) : Binding :=
  if c ≠ .modules ∧ name.toList.head? = some '$' then .special
  else if env.hasBuiltin c name then .builtin
  else .unresolved

def variableBinding (env : Environment) (scope : Scope) (name : String) : Binding :=
  (scope.lookup .vars name).getD (env.undeclared .vars name)

/-- A call's target: functions first, then variables. -/
def functionBinding (env : Environment) (scope : Scope) (name : String) : Binding :=
  (scope.lookup .functions name <|> scope.lookup .vars name).getD
    (env.undeclared .functions name)

def moduleBinding (env : Environment) (scope : Scope) (name : String) : Binding :=
  (scope.lookup .modules name).getD (env.undeclared .modules name)

/-- The declaring node of a binding. -/
def declaration? (env : Environment) (b : Binding) : Option Node := do
  let target ← b.target
  let origin ← b.origin
  let document ← (env.documents.find? (·.1 = origin)).map (·.2)
  document.arena.get? target

end Environment

/-- Binds a reference and reports it if it stays unresolved. -/
def bindReference (info : Info) (name noun : String) (b : Binding) : Resolving Info := do
  if b = .unresolved then
    report info.span name ("unknown " ++ noun ++ " '" ++ name ++ "'")
  assign info b

/-- What named arguments are matched with. -/
structure Callee where
  name : String
  origin : Option String
  /-- The names and ids of the parameters. -/
  parameters : List (String × Int)

/-- The parameters behind a binding, if it points at a definition. -/
def callee? (env : Environment) (name : String) (b : Binding) : Option Callee := do
  match (← env.declaration? b).form with
  | .moduleDefinition _ ps _ | .functionDefinition _ ps _ =>
    return ⟨name, b.origin, ps.map fun p => (p.name?.getD "", p.id)⟩
  | _ => none

/-- Binds the name of an argument to the parameter of that name; the last one counts. -/
def bindArgument (callee : Option Callee) (info : Info) (name : String) : Resolving Info :=
  match callee with
  | none => assign info .unresolved
  | some c =>
    match c.parameters.reverse.find? (·.1 = name) with
    | some (_, id) => assign info ⟨.parameterDef, some id, c.origin⟩
    | none =>
      if name.toList.head? = some '$' then assign info .special
      else do
        report info.span name ("'" ++ c.name ++ "' has no parameter '" ++ name ++ "'")
        assign info .unresolved

/-- A variable that the body of its own value may see. -/
abbrev Pending := Option (String × Binding)

def Pending.open (pending : Pending) (scope : Scope) : Scope :=
  match pending with
  | none => scope
  | some (name, b) => scope.define .vars name b

/-- The definition that a statement brings into the whole list around it. -/
def hoist (env : Environment) (scope : Scope) (n : Node) : Scope :=
  match n.form with
  | .moduleDefinition name _ _ => scope.define .modules name (env.binding .moduleDef n.info)
  | .functionDefinition name _ _ => scope.define .functions name (env.binding .functionDef n.info)
  | _ => scope

def hoistAll (env : Environment) (scope : Scope) (ns : List Node) : Scope :=
  ns.foldl (hoist env) scope

/-- The variable that an assignment declares. -/
def declared (env : Environment) (target : Node) : String × Binding :=
  (target.name?.getD "", env.binding .variableDef target.info)

mutual
/-- Resolves an expression or vector element. `pending` is visible in it if it is a function
literal. -/
def expression (env : Environment) : Node → Pending → Scope → Resolving Node
  | ⟨info, .variableRef name⟩, _, scope => do
    let info ← bindReference info name "variable" (env.variableBinding scope name)
    return ⟨info, .variableRef name⟩
  | ⟨info, .call ⟨ti, .variableRef name⟩ []⟩, _, _ => do
    halt
    return ⟨info, .call ⟨ti, .variableRef name⟩ []⟩
  | ⟨info, .call ⟨ti, .variableRef name⟩ (⟨si, .callSuffix as⟩ :: ss)⟩, _, scope => do
    let b := env.functionBinding scope name
    let ti ← bindReference ti name "function" b
    let as ← arguments env as (callee? env name b) scope
    let ss ← suffixes env ss scope
    return ⟨info, .call ⟨ti, .variableRef name⟩ (⟨si, .callSuffix as⟩ :: ss)⟩
  | ⟨info, .call t ss⟩, _, scope => do
    let t ← expression env t none scope
    let ss ← suffixes env ss scope
    return ⟨info, .call t ss⟩
  | ⟨info, .letIn as b⟩, _, scope => do
    let (as, inner) ← assignments env as scope.enter
    let b ← expression env b none inner
    return ⟨info, .letIn as b⟩
  | ⟨info, .functionLiteral ps b⟩, pending, scope => do
    let (ps, inner) ← parameters env ps scope (pending.open scope.enter)
    let b ← expression env b none inner
    return ⟨info, .functionLiteral ps b⟩
  | ⟨info, .remark verb as b⟩, _, scope => do
    let as ← arguments env as none scope
    let b ← optional env b scope
    return ⟨info, .remark verb as b⟩
  | ⟨info, .forElement as c us b⟩, _, scope => do
    let (as, inner) ← assignments env as scope.enter
    let c ← optional env c inner
    let us ← updates env us inner
    let b ← expression env b none inner
    return ⟨info, .forElement as c us b⟩
  | ⟨info, .paren e⟩, _, scope => do
    return ⟨info, .paren (← expression env e none scope)⟩
  | ⟨info, .vector es⟩, _, scope => do
    return ⟨info, .vector (← expressions env es scope)⟩
  | ⟨info, .range a b s⟩, _, scope => do
    let a ← expression env a none scope
    let b ← expression env b none scope
    let s ← optional env s scope
    return ⟨info, .range a b s⟩
  | ⟨info, .ternary c t e⟩, _, scope => do
    let c ← expression env c none scope
    let t ← expression env t none scope
    let e ← expression env e none scope
    return ⟨info, .ternary c t e⟩
  | ⟨info, .chain level xs ops⟩, _, scope => do
    return ⟨info, .chain level (← expressions env xs scope) ops⟩
  | ⟨info, .unary op e⟩, _, scope => do
    return ⟨info, .unary op (← expression env e none scope)⟩
  | ⟨info, .power b e⟩, _, scope => do
    let b ← expression env b none scope
    let e ← expression env e none scope
    return ⟨info, .power b e⟩
  | ⟨info, .callSuffix as⟩, _, scope => do
    return ⟨info, .callSuffix (← expressions env as scope)⟩
  | ⟨info, .indexSuffix i⟩, _, scope => do
    return ⟨info, .indexSuffix (← expression env i none scope)⟩
  | ⟨info, .each b⟩, _, scope => do
    return ⟨info, .each (← expression env b none scope)⟩
  | ⟨info, .loopUpdate t e⟩, _, scope => do
    let t ← expression env t none scope
    let e ← expression env e none scope
    return ⟨info, .loopUpdate t e⟩
  | ⟨info, .ifElement c t e⟩, _, scope => do
    let c ← expression env c none scope
    let t ← expression env t none scope
    let e ← optional env e scope
    return ⟨info, .ifElement c t e⟩
  | ⟨info, .parameter n d⟩, _, scope => do
    return ⟨info, .parameter n (← optional env d scope)⟩
  | ⟨info, .argument n e⟩, _, scope => do
    let n ← optional env n scope
    let e ← expression env e none scope
    return ⟨info, .argument n e⟩
  | ⟨info, .block ss⟩, _, scope => do
    return ⟨info, .block (← expressions env ss scope)⟩
  | ⟨info, .assignment t e⟩, _, scope => do
    let t ← expression env t none scope
    let e ← expression env e none scope
    return ⟨info, .assignment t e⟩
  | ⟨info, .moduleHead m as⟩, _, scope => do
    let m ← expression env m none scope
    let as ← expressions env as scope
    return ⟨info, .moduleHead m as⟩
  | ⟨info, .moduleCall h c⟩, _, scope => do
    let h ← expression env h none scope
    let c ← expression env c none scope
    return ⟨info, .moduleCall h c⟩
  | ⟨info, .moduleRemark verb as c⟩, _, scope => do
    let as ← expressions env as scope
    let c ← expression env c none scope
    return ⟨info, .moduleRemark verb as c⟩
  | ⟨info, .moduleIf c t e⟩, _, scope => do
    let c ← expression env c none scope
    let t ← expression env t none scope
    let e ← optional env e scope
    return ⟨info, .moduleIf c t e⟩
  | ⟨info, .instantiation ms p⟩, _, scope => do
    return ⟨info, .instantiation ms (← expression env p none scope)⟩
  | ⟨info, .moduleDefinition n ps b⟩, _, scope => do
    let ps ← expressions env ps scope
    let b ← expression env b none scope
    return ⟨info, .moduleDefinition n ps b⟩
  | ⟨info, .functionDefinition n ps e⟩, _, scope => do
    let ps ← expressions env ps scope
    let e ← expression env e none scope
    return ⟨info, .functionDefinition n ps e⟩
  | n, _, _ => return n

def expressions (env : Environment) : List Node → Scope → Resolving (List Node)
  | [], _ => return []
  | n :: rest, scope => do
    let n ← expression env n none scope
    let rest ← expressions env rest scope
    return n :: rest

def optional (env : Environment) : Option Node → Scope → Resolving (Option Node)
  | none, _ => return none
  | some n, scope => do
    return some (← expression env n none scope)

/-- Resolves arguments: each value, then the name if it refers to a parameter. -/
def arguments (env : Environment) :
    List Node → Option Callee → Scope → Resolving (List Node)
  | [], _, _ => return []
  | ⟨info, .argument (some ⟨ni, .argumentName name⟩) e⟩ :: rest, callee, scope => do
    let e ← expression env e none scope
    let ni ← bindArgument callee ni name
    let rest ← arguments env rest callee scope
    return ⟨info, .argument (some ⟨ni, .argumentName name⟩) e⟩ :: rest
  | ⟨info, .argument n e⟩ :: rest, callee, scope => do
    let e ← expression env e none scope
    let rest ← arguments env rest callee scope
    return ⟨info, .argument n e⟩ :: rest
  | n :: rest, callee, scope => do
    let rest ← arguments env rest callee scope
    return n :: rest

/-- Resolves the suffixes that do not apply to a plain name. -/
def suffixes (env : Environment) : List Node → Scope → Resolving (List Node)
  | [], _ => return []
  | ⟨info, .callSuffix as⟩ :: rest, scope => do
    let as ← arguments env as none scope
    let rest ← suffixes env rest scope
    return ⟨info, .callSuffix as⟩ :: rest
  | ⟨info, .indexSuffix i⟩ :: rest, scope => do
    let i ← expression env i none scope
    let rest ← suffixes env rest scope
    return ⟨info, .indexSuffix i⟩ :: rest
  | n :: rest, scope => do
    let rest ← suffixes env rest scope
    return n :: rest

/-- Resolves assignments of which each sees the ones before it. -/
def assignments (env : Environment) : List Node → Scope → Resolving (List Node × Scope)
  | [], scope => return ([], scope)
  | ⟨info, .assignment t e⟩ :: rest, scope => do
    let (name, b) := declared env t
    let e ← expression env e (some (name, b)) scope
    let (rest, scope) ← assignments env rest (scope.define .vars name b)
    return (⟨info, .assignment t e⟩ :: rest, scope)
  | n :: rest, scope => do
    let (rest, scope) ← assignments env rest scope
    return (n :: rest, scope)

/-- Resolves the defaults in the outer scope and defines the parameters in the inner one. -/
def parameters (env : Environment) :
    List Node → (outer inner : Scope) → Resolving (List Node × Scope)
  | [], _, inner => return ([], inner)
  | ⟨info, .parameter name d⟩ :: rest, outer, inner => do
    let d ← optional env d outer
    let (rest, inner) ← parameters env rest outer
      (inner.define .vars name (env.binding .parameterDef info))
    return (⟨info, .parameter name d⟩ :: rest, inner)
  | n :: rest, outer, inner => do
    let (rest, inner) ← parameters env rest outer inner
    return (n :: rest, inner)

def updates (env : Environment) : List Node → Scope → Resolving (List Node)
  | [], _ => return []
  | ⟨info, .loopUpdate ⟨ti, .variableRef name⟩ e⟩ :: rest, scope => do
    let ti ← bindReference ti name "variable" (env.variableBinding scope name)
    let e ← expression env e none scope
    let rest ← updates env rest scope
    return ⟨info, .loopUpdate ⟨ti, .variableRef name⟩ e⟩ :: rest
  | n :: rest, scope => do
    let rest ← updates env rest scope
    return n :: rest
end

/-- Resolves the arguments of a pseudo-module: a named one declares a variable that the later ones
and the child see. -/
def declaringArguments (env : Environment) : List Node → Scope → Resolving (List Node × Scope)
  | [], scope => return ([], scope)
  | ⟨info, .argument n e⟩ :: rest, scope => do
    let e ← expression env e none scope
    match n with
    | some ⟨ni, .variableDefinition name⟩ =>
      let scope := scope.define .vars name (env.binding .variableDef ni)
      let (rest, scope) ← declaringArguments env rest scope
      return (⟨info, .argument n e⟩ :: rest, scope)
    | some ⟨ni, .argumentName name⟩ =>
      let ni ← assign ni .unresolved
      let (rest, scope) ← declaringArguments env rest scope
      return (⟨info, .argument (some ⟨ni, .argumentName name⟩) e⟩ :: rest, scope)
    | n =>
      let (rest, scope) ← declaringArguments env rest scope
      return (⟨info, .argument n e⟩ :: rest, scope)
  | n :: rest, scope => do
    let (rest, scope) ← declaringArguments env rest scope
    return (n :: rest, scope)

/-- The head of a module call: what it is bound to decides how its arguments are read. Gives the
scope that the child stands in. -/
def moduleHead (env : Environment) (name : String) (mi : Info) (as : List Node) (scope : Scope) :
    Resolving (Info × List Node × Scope) := do
  if name ∈ pseudoModules then
    let mi ← assign mi .builtin
    let (as, inner) ← declaringArguments env as scope.enter
    return (mi, as, inner)
  else
    let b := env.moduleBinding scope name
    let mi ← bindReference mi name "module" b
    let as ← arguments env as (callee? env name b) scope
    return (mi, as, scope)

mutual
/-- Resolves a statement and gives the scope behind it. -/
def statement (env : Environment) : Node → Scope → Resolving (Node × Scope)
  | ⟨info, .assignment t e⟩, scope => do
    let (name, b) := declared env t
    let e ← expression env e (some (name, b)) scope
    return (⟨info, .assignment t e⟩, scope.define .vars name b)
  | ⟨info, .block ss⟩, scope => do
    let ss ← statements env ss (hoistAll env scope.enter ss)
    return (⟨info, .block ss.1⟩, scope)
  | ⟨info, .moduleDefinition name ps body⟩, scope => do
    let (ps, inner) ← parameters env ps scope scope.enter
    let body ← statement env body (hoist env inner body)
    return (⟨info, .moduleDefinition name ps body.1⟩, scope)
  | ⟨info, .functionDefinition name ps e⟩, scope => do
    let (ps, inner) ← parameters env ps scope scope.enter
    let e ← expression env e none inner
    return (⟨info, .functionDefinition name ps e⟩, scope)
  | ⟨info, .instantiation ms ⟨pi, .moduleCall ⟨hi, .moduleHead ⟨mi, .moduleName name⟩ as⟩ c⟩⟩,
      scope => do
    let (mi, as, inner) ← moduleHead env name mi as scope
    let c ← statement env c (hoist env inner.enter c)
    return (⟨info, .instantiation ms
      ⟨pi, .moduleCall ⟨hi, .moduleHead ⟨mi, .moduleName name⟩ as⟩ c.1⟩⟩, scope)
  | ⟨info, .instantiation ms ⟨pi, .moduleRemark verb as c⟩⟩, scope => do
    let as ← arguments env as none scope
    let c ← statement env c (hoist env scope.enter c)
    return (⟨info, .instantiation ms ⟨pi, .moduleRemark verb as c.1⟩⟩, scope)
  | ⟨info, .instantiation ms ⟨pi, .moduleIf c t none⟩⟩, scope => do
    let c ← expression env c none scope
    let t ← statement env t (hoist env scope.enter t)
    return (⟨info, .instantiation ms ⟨pi, .moduleIf c t.1 none⟩⟩, scope)
  | ⟨info, .instantiation ms ⟨pi, .moduleIf c t (some e)⟩⟩, scope => do
    let c ← expression env c none scope
    let t ← statement env t (hoist env scope.enter t)
    let e ← statement env e (hoist env scope.enter e)
    return (⟨info, .instantiation ms ⟨pi, .moduleIf c t.1 (some e.1)⟩⟩, scope)
  | n, scope => return (n, scope)

def statements (env : Environment) : List Node → Scope → Resolving (List Node × Scope)
  | [], scope => return ([], scope)
  | n :: rest, scope => do
    let (n, scope) ← statement env n scope
    let (rest, scope) ← statements env rest scope
    return (n :: rest, scope)
end

/-- What file references bring in. -/
structure Exports where
  frame : Frame
  /-- The origins that were visited. -/
  seen : List String
  documents : List (String × Document)

namespace Exports

/-- Visits a document. -/
def enter (exports : Exports) (d : Document) : Exports :=
  { exports with
    seen := d.origin :: exports.seen
    documents := exports.documents ++ [(d.origin, d)] }

def define (exports : Exports) (c : NameClass) (name : String) (b : Binding) : Exports :=
  { exports with frame := exports.frame.define c name b }

end Exports

/-- The documents behind file references, by the text of the reference. -/
abbrev Dependencies := List (String × Document)

def Dependencies.find? (deps : Dependencies) (reference : String) : Option Document :=
  (List.find? (·.1 = reference) deps).map (·.2)

/-- What a statement of a document brings in, where `nested` goes through an included document. -/
def exportStatement (deps : Dependencies) (withVariables : Bool) (origin : String)
    (nested : Document → Exports → Exports) (exports : Exports) (n : Node) : Exports :=
  match n.form with
  | .fileReference .everything file =>
    match deps.find? file with
    | some d => nested d exports
    | none => exports
  | .moduleDefinition name _ _ =>
    exports.define .modules name ⟨.moduleDef, some n.id, some origin⟩
  | .functionDefinition name _ _ =>
    exports.define .functions name ⟨.functionDef, some n.id, some origin⟩
  | .assignment target _ =>
    if withVariables then
      exports.define .vars (target.name?.getD "") ⟨.variableDef, some target.id, some origin⟩
    else exports
  | _ => exports

/-- Defines what a dependency exports, once for each origin. It brings in what it includes itself,
not what it uses. `fuel` bounds the depth by the number of dependencies. -/
def exportFrom (deps : Dependencies) (withVariables : Bool) :
    (fuel : Nat) → Document → Exports → Exports
  | 0, _, exports => exports
  | fuel + 1, d, exports =>
    if d.origin ∈ exports.seen then exports
    else
      d.statements.foldl
        (exportStatement deps withVariables d.origin (exportFrom deps withVariables fuel))
        (exports.enter d)

/-- Goes through the file references at the top level. -/
def importAll (deps : Dependencies) (d : Document) : Exports :=
  d.statements.foldl (fun exports n =>
    match n.form with
    | .fileReference inclusion file =>
      match deps.find? file with
      | some dependency =>
        exportFrom deps (inclusion = .everything) deps.length dependency exports
      | none => exports
    | _ => exports) ⟨Frame.empty, [d.origin], [(d.origin, d)]⟩

/-- The references at the top level that no dependency stands behind. -/
def missing (deps : Dependencies) (d : Document) : List (Inclusion × String) :=
  d.statements.filterMap fun n =>
    match n.form with
    | .fileReference inclusion file =>
      if (deps.find? file).isNone then some (inclusion, file) else none
    | _ => none

/-- The outcome of resolution. -/
structure Resolution where
  document : Document
  /-- The scope of the whole file; the frame around it holds what dependencies export. -/
  scope : Scope
  missing : List (Inclusion × String)
  halted : Bool

end Resolve

/-- Binds every reference of a document from scratch. -/
def resolve (d : Document) (deps : Resolve.Dependencies) (builtins : Option Builtins) :
    Resolve.Resolution :=
  let exports := Resolve.importAll deps d
  let env : Resolve.Environment := ⟨d.origin, builtins, exports.documents⟩
  let start := Resolve.hoistAll env (Scope.enter [exports.frame]) d.statements
  let ((statements, scope), progress) :=
    (Resolve.statements env d.statements start).run ⟨[], false⟩
  { document := { d with
      statements
      arena := d.arena.refresh (Node.walkFrom statements)
      bindingErrors := progress.errors }
    scope
    missing := Resolve.missing deps d
    halted := progress.halted }

end Scad
