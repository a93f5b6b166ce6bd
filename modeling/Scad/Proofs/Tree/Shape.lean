import Scad.Parse.Statement
import Scad.Proofs.Tree.Unbound
import Scad.Resolve

/-! Which nodes may stand in which places of a tree. -/
namespace Scad

def ChainLevel.tightness : ChainLevel → Nat
  | disjunction => 1
  | conjunction => 2
  | equality => 3
  | comparison => 4
  | additive => 5
  | multiplicative => 6

namespace Kind

/-- How tightly an operator expression binds: operators, then signs and powers, then suffixes, then
primaries. -/
def tightness : Kind → Nat
  | chain level => level.tightness
  | unary | power => 7
  | call => 8
  | number | string | boolean | undefined | variableRef | paren | vector | range => 9
  | _ => 0

def isExpression : Kind → Bool
  | ternary | letIn | functionLiteral | remark _ => true
  | k => 0 < k.tightness

/-- What may stand in a vector. -/
def isElement : Kind → Bool
  | each | forElement | ifElement => true
  | k => k.isExpression

def isSuffix : Kind → Bool
  | callSuffix | indexSuffix | memberSuffix => true
  | _ => false

/-- What an instantiation may have as a child. -/
def isChild : Kind → Bool
  | empty | block | instantiation => true
  | _ => false

def isPayload : Kind → Bool
  | moduleCall | moduleRemark _ | moduleIf => true
  | _ => false

def isStatement : Kind → Bool
  | assignment | moduleDefinition | functionDefinition | fileReference _ => true
  | k => k.isChild

theorem isExpression_of_tight {k : Kind} (h : 0 < k.tightness) : k.isExpression := by
  cases k <;> simp_all [tightness, isExpression]

theorem isElement_of_isExpression {k : Kind} (h : k.isExpression) : k.isElement := by
  cases k <;> simp_all [tightness, isExpression, isElement]

theorem isStatement_of_isChild {k : Kind} (h : k.isChild) : k.isStatement := by
  cases k <;> simp_all [isChild, isStatement]

end Kind

/-- What is known of the texts that a tree takes from its tokens. -/
structure Spelling where
  operator : ChainLevel → String → Prop
  /-- The name of a module, and whether its arguments declare variables. -/
  head : String → Bool → Prop

namespace Spelling

def any : Spelling := ⟨fun _ _ => True, fun _ _ => True⟩

/-- Operators are those of their level, and the modules of the language declare variables. -/
def proper : Spelling :=
  ⟨fun level text => text ∈ (Parse.operators level).map Symbol.text,
    fun name declares => declares = decide (name ∈ Resolve.pseudoModules)⟩

end Spelling

def labelKind (declares : Bool) : Kind := if declares then .variableDefinition else .argumentName

/-- An argument whose name, if it has one, is of a kind. -/
def Node.IsArgument (label : Kind) (n : Node) : Prop :=
  match n.form with
  | .argument name _ => ∀ l ∈ name, l.kind = label
  | _ => False

theorem Node.IsArgument.kind {label : Kind} {n : Node} (h : n.IsArgument label) :
    n.kind = .argument := by
  unfold IsArgument at h
  split at h
  · rename_i hf
    rw [Node.kind, hf]
    rfl
  · exact h.elim

/-- A node's children are of the kinds that have a meaning there. -/
def Form.Shaped (spelling : Spelling) : Form Node → Prop
  | .number _ | .string _ | .boolean _ | .undefined | .variableRef _ | .memberSuffix _
  | .variableDefinition _ | .argumentName _ | .moduleName _ | .empty | .fileReference .. => True
  | .paren e | .indexSuffix e => e.kind.isExpression
  | .vector es => ∀ e ∈ es, e.kind.isElement
  | .range a b s => a.kind.isElement ∧ b.kind.isExpression ∧ ∀ e ∈ s, e.kind.isExpression
  | .ternary c t e => 0 < c.kind.tightness ∧ t.kind.isExpression ∧ e.kind.isExpression
  | .chain level xs ops => xs.length = ops.length + 1 ∧ 2 ≤ xs.length ∧
      (∀ op ∈ ops, spelling.operator level op) ∧ ∀ x ∈ xs, level.tightness < x.kind.tightness
  | .unary _ e => 7 ≤ e.kind.tightness
  | .power b e => 8 ≤ b.kind.tightness ∧ 7 ≤ e.kind.tightness
  | .call t ss => 9 ≤ t.kind.tightness ∧ ss ≠ [] ∧ ∀ s ∈ ss, s.kind.isSuffix
  | .callSuffix as => ∀ a ∈ as, a.IsArgument .argumentName
  | .functionLiteral ps b => (∀ p ∈ ps, p.kind = .parameter) ∧ b.kind.isExpression
  | .letIn as b => (∀ a ∈ as, a.kind = .assignment) ∧ b.kind.isElement
  | .remark _ as b => (∀ a ∈ as, a.IsArgument .argumentName) ∧ ∀ e ∈ b, e.kind.isExpression
  | .each b => b.kind.isElement
  | .loopUpdate t e => t.kind = .variableRef ∧ e.kind.isExpression
  | .forElement as c us b => (∀ a ∈ as, a.kind = .assignment) ∧ (∀ e ∈ c, e.kind.isExpression) ∧
      (∀ u ∈ us, u.kind = .loopUpdate) ∧ (us ≠ [] → c.isSome) ∧ b.kind.isElement
  | .ifElement c t e => c.kind.isExpression ∧ t.kind.isElement ∧ ∀ x ∈ e, x.kind.isElement
  | .parameter _ d => ∀ e ∈ d, e.kind.isExpression
  | .argument n e => (∀ l ∈ n, l.kind = .variableDefinition ∨ l.kind = .argumentName) ∧
      e.kind.isExpression
  | .block ss => ∀ s ∈ ss, s.kind.isStatement
  | .assignment t e => t.kind = .variableDefinition ∧ e.kind.isExpression
  | .moduleHead m as => ∃ name declares, m.form = .moduleName name ∧ spelling.head name declares ∧
      ∀ a ∈ as, a.IsArgument (labelKind declares)
  | .moduleCall h c => h.kind = .moduleHead ∧ c.kind.isChild
  | .moduleRemark _ as c => (∀ a ∈ as, a.IsArgument .argumentName) ∧ c.kind.isChild
  | .moduleIf c t e => c.kind.isExpression ∧ t.kind.isChild ∧ ∀ x ∈ e, x.kind.isChild
  | .instantiation _ p => p.kind.isPayload
  | .moduleDefinition _ ps b => (∀ p ∈ ps, p.kind = .parameter) ∧ b.kind.isStatement
  | .functionDefinition _ ps e => (∀ p ∈ ps, p.kind = .parameter) ∧ e.kind.isExpression

/-- A node is shaped, and so is everything below it. -/
inductive Node.AllShaped (spelling : Spelling) : Node → Prop where
  | mk {n : Node} (self : n.form.Shaped spelling) (children : ∀ c ∈ n.children,
      c.AllShaped spelling) :
      n.AllShaped spelling

namespace Node.AllShaped

variable {spelling : Spelling} {n c : Node}

theorem self (h : n.AllShaped spelling) : n.form.Shaped spelling := by
  cases h with
  | mk self children => exact self

theorem child (h : n.AllShaped spelling) (hc : c ∈ n.children) : c.AllShaped spelling := by
  cases h with
  | mk self children => exact children c hc

end Node.AllShaped

/-! ### Bindings do not matter -/

theorem Node.isArgument_unbound (label : Kind) (n : Node) :
    n.unbound.IsArgument label ↔ n.IsArgument label := by
  rw [IsArgument, IsArgument, form_unbound]
  cases n.form with
  | argument name e => cases name <;> simp [Form.map, kind_unbound]
  | _ => rfl

theorem Node.form_unbound_eq_moduleName {n : Node} {name : String} :
    n.unbound.form = .moduleName name ↔ n.form = .moduleName name := by
  rw [form_unbound]
  cases n.form with
  | moduleName other => rfl
  | _ => exact iff_of_false (fun h => by cases h) (fun h => by cases h)

theorem Form.shaped_map_unbound (spelling : Spelling) (f : Form Node) :
    (f.map Node.unbound).Shaped spelling ↔ f.Shaped spelling := by
  cases f with
  | moduleHead m as => simp [map, Shaped, Node.form_unbound_eq_moduleName, Node.isArgument_unbound]
  | _ => simp [map, Shaped, Node.kind_unbound, Node.isArgument_unbound]

theorem Node.allShaped_unbound {spelling : Spelling} (n : Node) :
    n.unbound.AllShaped spelling ↔ n.AllShaped spelling := by
  induction n using ofChildren with
  | h n ih =>
      have hchildren : (∀ c ∈ n.unbound.children, c.AllShaped spelling) ↔
          ∀ c ∈ n.children, c.AllShaped spelling := by
        rw [children_unbound, List.forall_mem_map]
        exact forall₂_congr ih
      have hself := form_unbound n ▸ Form.shaped_map_unbound spelling n.form
      constructor
      · intro h
        exact ⟨hself.1 h.self, hchildren.1 fun c hc => h.child hc⟩
      · intro h
        exact ⟨hself.2 h.self, hchildren.2 fun c hc => h.child hc⟩

end Scad
