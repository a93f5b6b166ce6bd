import Scad.Diagnostic
import Scad.Tree.Arena
import Scad.Tree.Equality
import Scad.Tree.Render

/-! A parsed source: its statements, all nodes made for them, and what was found wrong. -/
namespace Scad

structure Document where
  origin : String
  statements : List Node
  arena : Arena
  lexErrors : List Diagnostic
  syntaxErrors : List Diagnostic
  bindingErrors : List Diagnostic

namespace Document

/-- Every node that the statements reach, in source order. -/
def walk (d : Document) : List Node := Node.walkFrom d.statements

def references (d : Document) : List Node := d.walk.filter (·.kind.isReference)

/-- The files that the top level refers to. -/
def fileNames (d : Document) (inclusion : Inclusion) : List String :=
  d.statements.filterMap fun n =>
    match n.form with
    | .fileReference i f => if i = inclusion then some f else none
    | _ => none

/-- All findings by their offset; those of one offset in the order of the work. -/
def diagnostics (d : Document) : List Diagnostic :=
  (d.lexErrors ++ d.syntaxErrors ++ d.bindingErrors).mergeSort fun a b =>
    a.span.start.offset ≤ b.span.start.offset

/-- The declaring node of a binding into this document. -/
def declarationOf (d : Document) : Option Binding → Option Node
  | none => none
  | some b =>
    match b.target with
    | none => none
    | some target =>
      if b.origin.all (· = d.origin) then d.arena.get? target else none

def render (d : Document) : Rendered := do
  let texts ← renderList d.statements
  return "\n".intercalate texts

def sameStatements (a b : Document) : Bool := Node.sameAll a.statements b.statements

/-- Equal in origin, statements and findings. -/
def same (a b : Document) : Bool :=
  a.origin = b.origin && a.sameStatements b && a.lexErrors = b.lexErrors &&
    a.syntaxErrors = b.syntaxErrors && a.bindingErrors = b.bindingErrors

end Document

/-- The value of an argument given by name, or else by its place among the unnamed ones. -/
def findArgument (args : List Node) (place : Nat) (name : String) : Option Node :=
  let named := args.findSome? fun a =>
    match a.form with
    | .argument (some n) e => if n.name? = some name then some e else none
    | _ => none
  let unnamed := args.filterMap fun a =>
    match a.form with
    | .argument none e => some e
    | _ => none
  named <|> unnamed[place]?

/-- The condition and message of an assertion among statements. -/
def Node.assertion? (n : Node) : Option (Option Node × Option Node) :=
  match n.form with
  | .moduleRemark .assert args _ =>
    some (findArgument args 0 "condition", findArgument args 1 "message")
  | _ => none

end Scad
