import Scad.Tree.Node

/-! Source text for trees. Where the text ends a line or how it was spaced is not kept. -/
namespace Scad

/-- Why a tree has no source text. -/
inductive RenderFault where
  | number (fault : NumberFault)
  /-- A chain of operators without any operand. -/
  | noOperand
  deriving DecidableEq

def RenderFault.message : RenderFault → String
  | number fault => fault.message
  | noOperand => "list index out of range"

abbrev Rendered := Except RenderFault String

/-- Whether raw string text holds a double quote that no backslash keeps. -/
def hasBareQuote : List Char → Bool
  | [] => false
  | '\\' :: [] => false
  | '\\' :: _ :: cs => hasBareQuote cs
  | c :: cs => c = '"' || hasBareQuote cs

/-- Raw string text between quotes that do not close it early. -/
def quoteString (text : String) : String :=
  if hasBareQuote text.toList then "'" ++ text ++ "'" else "\"" ++ text ++ "\""

def commaSeparated (items : List String) : String := ", ".intercalate items

def renderNumber (n : Number) : Rendered := n.render.mapError .number

/-- A child's text as it follows the head of an instantiation: an empty child is the semicolon that
closes it, any other stands apart. -/
def Node.afterHead (child : Node) (text : String) : String :=
  match child.form with
  | .empty => text
  | _ => " " ++ text

mutual
def Node.render : Node → Rendered
  | ⟨_, .number v⟩ => renderNumber v
  | ⟨_, .string v⟩ => .ok (quoteString v)
  | ⟨_, .boolean v⟩ => .ok (if v then "true" else "false")
  | ⟨_, .undefined⟩ => .ok "undef"
  | ⟨_, .variableRef n⟩ => .ok n
  | ⟨_, .paren e⟩ => do
    let e ← e.render
    return "(" ++ e ++ ")"
  | ⟨_, .vector es⟩ => do
    let es ← renderList es
    return "[" ++ commaSeparated es ++ "]"
  | ⟨_, .range a b none⟩ => do
    let a ← a.render
    let b ← b.render
    return "[" ++ a ++ ":" ++ b ++ "]"
  | ⟨_, .range a b (some s)⟩ => do
    let a ← a.render
    let s ← s.render
    let b ← b.render
    return "[" ++ a ++ ":" ++ s ++ ":" ++ b ++ "]"
  | ⟨_, .ternary c t e⟩ => do
    let c ← c.render
    let t ← t.render
    let e ← e.render
    return c ++ " ? " ++ t ++ " : " ++ e
  | ⟨_, .chain _ [] _⟩ => .error .noOperand
  | ⟨_, .chain _ (x :: xs) ops⟩ => do
    let first ← x.render
    let rest ← renderOperands ops xs
    return " ".intercalate (first :: rest)
  | ⟨_, .unary op e⟩ => do
    let e ← e.render
    return op ++ e
  | ⟨_, .power b e⟩ => do
    let b ← b.render
    let e ← e.render
    return b ++ " ^ " ++ e
  | ⟨_, .call t ss⟩ => do
    let t ← t.render
    let ss ← renderList ss
    return t ++ String.join ss
  | ⟨_, .callSuffix as⟩ => do
    let as ← renderList as
    return "(" ++ commaSeparated as ++ ")"
  | ⟨_, .indexSuffix i⟩ => do
    let i ← i.render
    return "[" ++ i ++ "]"
  | ⟨_, .memberSuffix m⟩ => .ok ("." ++ m)
  | ⟨_, .functionLiteral ps b⟩ => do
    let ps ← renderList ps
    let b ← b.render
    return "function(" ++ commaSeparated ps ++ ") " ++ b
  | ⟨_, .letIn as b⟩ => do
    let as ← renderClauses as
    let b ← b.render
    return "let(" ++ commaSeparated as ++ ") " ++ b
  | ⟨_, .remark verb as none⟩ => do
    let as ← renderList as
    return verb.text ++ "(" ++ commaSeparated as ++ ")"
  | ⟨_, .remark verb as (some b)⟩ => do
    let as ← renderList as
    let b ← b.render
    return verb.text ++ "(" ++ commaSeparated as ++ ") " ++ b
  | ⟨_, .each b⟩ => do
    let b ← b.render
    return "each " ++ b
  | ⟨_, .loopUpdate t e⟩ => do
    let t ← t.render
    let e ← e.render
    return t ++ " = " ++ e
  | ⟨_, .forElement as none [] b⟩ => do
    let as ← renderClauses as
    let b ← b.render
    return "for (" ++ commaSeparated as ++ ") " ++ b
  | ⟨_, .forElement as c us b⟩ => do
    let as ← renderClauses as
    let c ← renderCondition c
    let us ← renderList us
    let b ← b.render
    return "for (" ++ commaSeparated as ++ "; " ++ c ++ "; " ++ commaSeparated us ++ ") " ++ b
  | ⟨_, .ifElement c t e⟩ => do
    let c ← c.render
    let t ← t.render
    let e ← renderElse e
    return "if (" ++ c ++ ") " ++ t ++ e
  | ⟨_, .variableDefinition n⟩ => .ok n
  | ⟨_, .parameter n none⟩ => .ok n
  | ⟨_, .parameter n (some d)⟩ => do
    let d ← d.render
    return n ++ " = " ++ d
  | ⟨_, .argumentName n⟩ => .ok n
  | ⟨_, .argument none e⟩ => e.render
  | ⟨_, .argument (some n) e⟩ => do
    let n ← n.render
    let e ← e.render
    return n ++ "=" ++ e
  | ⟨_, .empty⟩ => .ok ";"
  | ⟨_, .block []⟩ => .ok "\x7b \x7d"
  | ⟨_, .block ss⟩ => do
    let ss ← renderList ss
    return "\x7b " ++ " ".intercalate ss ++ " \x7d"
  | ⟨_, .assignment t e⟩ => do
    let t ← t.render
    let e ← e.render
    return t ++ " = " ++ e ++ ";"
  | ⟨_, .moduleName n⟩ => .ok n
  | ⟨_, .moduleHead m as⟩ => do
    let m ← m.render
    let as ← renderList as
    return m ++ "(" ++ commaSeparated as ++ ")"
  | ⟨_, .moduleCall h c⟩ => do
    let h ← h.render
    let text ← c.render
    return h ++ c.afterHead text
  | ⟨_, .moduleRemark verb as c⟩ => do
    let as ← renderList as
    let text ← c.render
    return verb.text ++ "(" ++ commaSeparated as ++ ")" ++ c.afterHead text
  | ⟨_, .moduleIf c t e⟩ => do
    let c ← c.render
    let t ← t.render
    let e ← renderElse e
    return "if (" ++ c ++ ") " ++ t ++ e
  | ⟨_, .instantiation ms p⟩ => do
    let p ← p.render
    return String.join ms.names ++ p
  | ⟨_, .moduleDefinition n ps b⟩ => do
    let ps ← renderList ps
    let b ← b.render
    return "module " ++ n ++ "(" ++ commaSeparated ps ++ ") " ++ b
  | ⟨_, .functionDefinition n ps e⟩ => do
    let ps ← renderList ps
    let e ← e.render
    return "function " ++ n ++ "(" ++ commaSeparated ps ++ ") = " ++ e ++ ";"
  | ⟨_, .fileReference inclusion f⟩ => .ok (inclusion.text ++ " <" ++ f ++ ">")

def renderList : List Node → Except RenderFault (List String)
  | [] => .ok []
  | n :: rest => do
    let text ← n.render
    let texts ← renderList rest
    return text :: texts

/-- Each operator with the operand behind it; what has no partner is left out. -/
def renderOperands : List String → List Node → Except RenderFault (List String)
  | op :: ops, x :: xs => do
    let text ← x.render
    let texts ← renderOperands ops xs
    return (op ++ " " ++ text) :: texts
  | _, _ => .ok []

/-- Assignments inside of parentheses, without a semicolon. -/
def renderClauses : List Node → Except RenderFault (List String)
  | [] => .ok []
  | ⟨_, .assignment t e⟩ :: rest => do
    let t ← t.render
    let e ← e.render
    let texts ← renderClauses rest
    return (t ++ " = " ++ e) :: texts
  | n :: rest => do
    let text ← n.render
    let texts ← renderClauses rest
    return text :: texts

/-- The text of an absent condition beside updates is a word that is no expression. -/
def renderCondition : Option Node → Rendered
  | none => .ok "None"
  | some c => c.render

def renderElse : Option Node → Rendered
  | none => .ok ""
  | some e => do
    let e ← e.render
    return " else " ++ e
end

theorem renderList_eq (ns : List Node) : renderList ns = ns.mapM Node.render := by
  induction ns with
  | nil => rfl
  | cons n rest ih => rw [renderList, ih, List.mapM_cons]

end Scad
