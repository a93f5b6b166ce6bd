import Scad.Span
import Scad.Tree.Binding
import Scad.Tree.Form

/-! Syntax trees. A node is a form whose children are nodes, with its id, its range in the text and,
for a reference, what it is bound to. -/
namespace Scad

structure Info where
  /-- The place in the document's arena; negative for a node that has none. -/
  id : Int
  span : Span
  binding : Option Binding
  deriving DecidableEq

inductive Node where
  | mk (info : Info) (form : Form Node)

namespace Node

def info : Node → Info
  | ⟨info, _⟩ => info

def form : Node → Form Node
  | ⟨_, form⟩ => form

def id (n : Node) : Int := n.info.id

def span (n : Node) : Span := n.info.span

def binding (n : Node) : Option Binding := n.info.binding

def kind (n : Node) : Kind := n.form.kind

def children (n : Node) : List Node := n.form.children

def withId (n : Node) (id : Int) : Node := ⟨{ n.info with id }, n.form⟩

/-- The name that a reference or declaration carries. -/
def name? (n : Node) : Option String :=
  match n.form with
  | .variableRef s | .moduleName s | .argumentName s | .variableDefinition s => some s
  | .parameter s _ | .moduleDefinition s _ _ | .functionDefinition s _ _ => some s
  | _ => none

end Node

mutual
/-- Computes bottom up: `step` gets a node and its form with the results of the children. -/
def Node.fold {β : Type} (step : Node → Form β → β) : Node → β
  | ⟨info, form⟩ => step ⟨info, form⟩ (foldForm step form)

def foldForm {β : Type} (step : Node → Form β → β) : Form Node → Form β
  | .number v => .number v
  | .string v => .string v
  | .boolean v => .boolean v
  | .undefined => .undefined
  | .variableRef n => .variableRef n
  | .paren e => .paren (e.fold step)
  | .vector es => .vector (foldList step es)
  | .range a b s => .range (a.fold step) (b.fold step) (foldOption step s)
  | .ternary c t e => .ternary (c.fold step) (t.fold step) (e.fold step)
  | .chain level xs ops => .chain level (foldList step xs) ops
  | .unary op e => .unary op (e.fold step)
  | .power b e => .power (b.fold step) (e.fold step)
  | .call t ss => .call (t.fold step) (foldList step ss)
  | .callSuffix as => .callSuffix (foldList step as)
  | .indexSuffix i => .indexSuffix (i.fold step)
  | .memberSuffix m => .memberSuffix m
  | .functionLiteral ps b => .functionLiteral (foldList step ps) (b.fold step)
  | .letIn as b => .letIn (foldList step as) (b.fold step)
  | .remark verb as b => .remark verb (foldList step as) (foldOption step b)
  | .each b => .each (b.fold step)
  | .loopUpdate t e => .loopUpdate (t.fold step) (e.fold step)
  | .forElement as c us b =>
    .forElement (foldList step as) (foldOption step c) (foldList step us) (b.fold step)
  | .ifElement c t e => .ifElement (c.fold step) (t.fold step) (foldOption step e)
  | .variableDefinition n => .variableDefinition n
  | .parameter n d => .parameter n (foldOption step d)
  | .argumentName n => .argumentName n
  | .argument n e => .argument (foldOption step n) (e.fold step)
  | .empty => .empty
  | .block ss => .block (foldList step ss)
  | .assignment t e => .assignment (t.fold step) (e.fold step)
  | .moduleName n => .moduleName n
  | .moduleHead m as => .moduleHead (m.fold step) (foldList step as)
  | .moduleCall h c => .moduleCall (h.fold step) (c.fold step)
  | .moduleRemark verb as c => .moduleRemark verb (foldList step as) (c.fold step)
  | .moduleIf c t e => .moduleIf (c.fold step) (t.fold step) (foldOption step e)
  | .instantiation ms p => .instantiation ms (p.fold step)
  | .moduleDefinition n ps b => .moduleDefinition n (foldList step ps) (b.fold step)
  | .functionDefinition n ps e => .functionDefinition n (foldList step ps) (e.fold step)
  | .fileReference inclusion f => .fileReference inclusion f

def foldList {β : Type} (step : Node → Form β → β) : List Node → List β
  | [] => []
  | n :: rest => n.fold step :: foldList step rest

def foldOption {β : Type} (step : Node → Form β → β) : Option Node → Option β
  | none => none
  | some n => some (n.fold step)
end

theorem foldList_eq {β : Type} (step : Node → Form β → β) (ns : List Node) :
    foldList step ns = ns.map (·.fold step) := by
  induction ns with
  | nil => rfl
  | cons n rest ih => simp [foldList, ih]

theorem foldOption_eq {β : Type} (step : Node → Form β → β) (n : Option Node) :
    foldOption step n = n.map (·.fold step) := by
  cases n <;> rfl

theorem foldForm_eq {β : Type} (step : Node → Form β → β) (f : Form Node) :
    foldForm step f = f.map (·.fold step) := by
  cases f <;> simp [foldForm, Form.map, foldList_eq, foldOption_eq]

namespace Node

theorem fold_mk {β : Type} (step : Node → Form β → β) (info : Info) (form : Form Node) :
    (Node.mk info form).fold step = step ⟨info, form⟩ (form.map (·.fold step)) := by
  rw [fold, foldForm_eq]

def total (sizes : List Nat) : Nat := sizes.foldr Nat.add 0

theorem total_cons (n : Nat) (sizes : List Nat) : total (n :: sizes) = n + total sizes := rfl

theorem total_append (a b : List Nat) : total (a ++ b) = total a + total b := by
  induction a with
  | nil => simp [total]
  | cons n rest ih => simp only [List.cons_append, total_cons, ih, Nat.add_assoc]

/-- The number of nodes in a tree. -/
def size (n : Node) : Nat := n.fold fun _ sizes => 1 + total sizes.children

/-- A node, then its children's trees in field order. -/
def preorder (n : Node) : List Node := n.fold fun m below => m :: below.children.flatten

theorem size_eq (n : Node) : n.size = 1 + total (n.children.map size) := by
  obtain ⟨info, form⟩ := n
  rw [size, fold_mk, Form.children_map]
  rfl

theorem preorder_eq (n : Node) : n.preorder = n :: n.children.flatMap preorder := by
  obtain ⟨info, form⟩ := n
  rw [preorder, fold_mk, Form.children_map, List.flatMap_def]
  rfl

/-- Visits the trees on a stack: the top node, and its children before the rest of the stack. -/
def walkFrom : List Node → List Node
  | [] => []
  | n :: stack => n :: walkFrom (n.children ++ stack)
termination_by stack => total (stack.map size)
decreasing_by
  simp only [List.map_append, total_append, List.map_cons, total_cons]
  have := size_eq n
  omega

theorem walkFrom_eq (stack : List Node) : walkFrom stack = stack.flatMap preorder := by
  fun_induction walkFrom stack with
  | case1 => rfl
  | case2 n stack ih =>
    rw [ih, List.flatMap_append, List.flatMap_cons, preorder_eq n, List.cons_append]

theorem mem_walkFrom {stack : List Node} {n : Node} :
    n ∈ walkFrom stack ↔ ∃ m ∈ stack, n ∈ m.preorder := by
  rw [walkFrom_eq, List.mem_flatMap]

/-- All nodes of a tree, parents first, in field order. -/
def walk (n : Node) : List Node := walkFrom [n]

/-- Whether a vector element generates values rather than being one. -/
def isGenerator : Node → Bool
  | ⟨_, .letIn _ body⟩ => body.isGenerator
  | ⟨_, .each _⟩ => true
  | ⟨_, .forElement _ _ _ _⟩ => true
  | ⟨_, .ifElement _ _ _⟩ => true
  | _ => false

end Node

end Scad
