import Scad.Proofs.Tree.Bare
import Scad.Resolve

/-! What is in view at a place of a tree. Going from a node to one of its parts, declarations come
into view; nothing goes out of view on the way down. -/
namespace Scad

/-- A declared name and the id of the node that declares it. -/
structure Declaration where
  kind : BindingKind
  name : String
  id : Int
  deriving DecidableEq

def Declaration.binding (d : Declaration) (origin : String) : Binding :=
  ⟨d.kind, some d.id, some origin⟩

/-- How a node stands in the one around it. -/
inductive Role where
  | plain
  /-- The value of an assignment to a variable. -/
  | value (assigned : Option Declaration)
  /-- What a call with arguments applies to. -/
  | called
  /-- The arguments of such a call, with what its callee is bound to. -/
  | applied (callee : Option Binding)
  /-- One of the arguments. -/
  | passed (callee : Option Binding)
  /-- The name of one of the arguments. -/
  | named (callee : Option Binding)
  deriving DecidableEq

namespace Role

/-- The variable that the body of a function literal sees if the literal is its value. -/
def assigned? : Role → Option Declaration
  | value d => d
  | _ => none

def ofArguments : Role → Role
  | applied b => passed b
  | _ => plain

def ofLabel : Role → Role
  | passed b => named b
  | _ => plain

/-- What the callee is bound to, at the name of an argument. -/
def callee? : Role → Option Binding
  | named b => b
  | _ => none

end Role

structure View where
  /-- The definitions of the statement lists around, the innermost first. -/
  lists : List (List Declaration)
  /-- The variables and parameters, in the order of the text. -/
  vars : List Declaration
  role : Role

namespace Node

def declaration? (n : Node) : Option Declaration :=
  match n.form with
  | .variableDefinition name => some ⟨.variableDef, name, n.id⟩
  | .parameter name _ => some ⟨.parameterDef, name, n.id⟩
  | .functionDefinition name _ _ => some ⟨.functionDef, name, n.id⟩
  | .moduleDefinition name _ _ => some ⟨.moduleDef, name, n.id⟩
  | _ => none

/-- The variable that an assignment or a named argument declares for what stands behind it. -/
def introduces? (n : Node) : Option Declaration :=
  match n.form with
  | .assignment t _ => t.declaration?
  | .argument (some l) _ => l.declaration?
  | _ => none

/-- Whether a module name is one of those whose arguments declare variables. -/
def isPseudo (n : Node) : Bool :=
  match n.form with
  | .moduleName name => name ∈ Resolve.pseudoModules
  | _ => false

/-- The variables that the head of a module call declares for its child. -/
def headVariables (n : Node) : List Declaration :=
  match n.form with
  | .moduleHead m as => if m.isPseudo then as.filterMap introduces? else []
  | _ => []

def appliesName (target suffix : Node) : Bool :=
  target.kind = .variableRef && suffix.kind = .callSuffix

end Node

def lastDefinition? (kind : BindingKind) (name : String) (ds : List Declaration) :
    Option Declaration :=
  (ds.filter fun d => d.kind = kind ∧ d.name = name).getLast?

namespace View

def outside : View := ⟨[], [], .plain⟩

def as (v : View) (role : Role) : View := { v with role }

def plain (v : View) : View := v.as .plain

/-- With more variables in view. -/
def seeing (v : View) (ds : List Declaration) : View :=
  ⟨v.lists, v.vars ++ ds, .plain⟩

/-- Inside of a statement list: all its definitions are in view. -/
def within (v : View) (ns : List Node) : View :=
  ⟨ns.filterMap Node.declaration? :: v.lists, v.vars, .plain⟩

/-- The members of a list of which each sees the variables of those before it. -/
def inOrder (v : View) : List Node → List (View × Node)
  | [] => []
  | n :: ns => (v, n) :: inOrder (v.seeing n.introduces?.toList) ns

def alike (v : View) (ns : List Node) : List (View × Node) := ns.map (v, ·)

/-- The parts of a node, each with what is in view there. -/
def parts (v : View) (n : Node) : List (View × Node) :=
  match n.form with
  | .assignment t e => [(v.plain, t), (v.as (.value t.declaration?), e)]
  | .letIn as b => v.plain.inOrder as ++ [(v.seeing (as.filterMap Node.introduces?), b)]
  | .forElement as c us b =>
    v.plain.inOrder as ++ (v.seeing (as.filterMap Node.introduces?)).alike (c.toList ++ us ++ [b])
  -- Defaults do not see the parameters, nor the variable that a literal is assigned to.
  | .functionLiteral ps b =>
    v.plain.alike ps ++
      [(v.seeing (v.role.assigned?.toList ++ ps.filterMap Node.declaration?), b)]
  | .functionDefinition _ ps e =>
    v.plain.alike ps ++ [(v.seeing (ps.filterMap Node.declaration?), e)]
  | .moduleDefinition _ ps b =>
    v.plain.alike ps ++ [((v.seeing (ps.filterMap Node.declaration?)).within [b], b)]
  | .block ss => (v.within ss).inOrder ss
  | .moduleHead m as =>
    (v.plain, m) ::
      if m.isPseudo then v.plain.inOrder as else (v.as (.passed m.binding)).alike as
  | .moduleCall h c => [(v.plain, h), (v.seeing h.headVariables, c)]
  | .call t (s :: ss) =>
    if t.appliesName s then
      (v.as .called, t) :: (v.as (.applied t.binding), s) :: v.plain.alike ss
    else v.plain.alike (t :: s :: ss)
  | .callSuffix as => (v.as v.role.ofArguments).alike as
  | .argument l e => (v.as v.role.ofLabel).alike l.toList ++ [(v.plain, e)]
  | f => v.plain.alike f.children

/-- The variable of a name that was declared last. -/
def nearest? (v : View) (name : String) : Option Declaration :=
  (v.vars.filter (·.name = name)).getLast?

/-- The variable of a name with the greatest id. -/
def latest? (v : View) (name : String) : Option Declaration :=
  let same := v.vars.filter (·.name = name)
  same.find? fun d => same.all (·.id ≤ d.id)

/-- The last definition of a name in the innermost statement list that has one. -/
def definition? (v : View) (kind : BindingKind) (name : String) : Option Declaration :=
  v.lists.findSome? (lastDefinition? kind name)

theorem seeing_seeing (v : View) (ds es : List Declaration) :
    (v.seeing ds).seeing es = v.seeing (ds ++ es) := by
  simp [seeing]

theorem mem_alike {v w : View} {ns : List Node} {m : Node} (h : (w, m) ∈ v.alike ns) :
    w = v ∧ m ∈ ns := by
  obtain ⟨c, hc, h⟩ := List.mem_map.1 h
  cases h
  exact ⟨rfl, hc⟩

theorem map_snd_inOrder (v : View) (ns : List Node) : (v.inOrder ns).map Prod.snd = ns := by
  induction ns generalizing v with
  | nil => rfl
  | cons n ns ih => rw [inOrder, List.map_cons, ih]

theorem map_snd_alike (v : View) (ns : List Node) : (v.alike ns).map Prod.snd = ns := by
  rw [alike, List.map_map]
  exact List.map_id ns

/-- Every child is seen in one place. -/
theorem map_snd_parts (v : View) (n : Node) : (v.parts n).map Prod.snd = n.children := by
  unfold parts Node.children
  split <;> rename_i h <;> try rw [h]
  case h_8 m as => split <;> simp [map_snd_inOrder, map_snd_alike, Form.children, Form.fields,
    Field.children]
  case h_10 t s ss => split <;> simp [map_snd_alike, Form.children, Form.fields, Field.children]
  all_goals
    simp [map_snd_inOrder, map_snd_alike, Form.children, Form.fields, Field.children]

end View

/-- Places of a text with what is in view there. -/
inductive Stands (top : List Node) : View → Node → Prop where
  | statement {v : View} {n : Node} (h : (v, n) ∈ (View.outside.within top).inOrder top) :
      Stands top v n
  | part {v w : View} {n m : Node} (h : Stands top v n) (hm : (w, m) ∈ v.parts n) : Stands top w m

namespace Stands

variable {top : List Node} {v : View} {n : Node}

/-- Every node of a tree stands somewhere if its root does. -/
theorem preorder (h : Stands top v n) : ∀ m ∈ n.preorder, ∃ w, Stands top w m := by
  induction n using Node.ofChildren generalizing v with
  | h n ih =>
      intro m hm
      rw [Node.preorder_eq] at hm
      rcases List.mem_cons.1 hm with rfl | hm
      · exact ⟨v, h⟩
      · obtain ⟨c, hc, hm⟩ := List.mem_flatMap.1 hm
        obtain ⟨⟨w, c⟩, hp, rfl⟩ := List.mem_map.1 ((v.map_snd_parts n).symm ▸ hc)
        exact ih c hc (.part h hp) m hm

theorem of_mem_walk (h : n ∈ Node.walkFrom top) : ∃ v, Stands top v n := by
  obtain ⟨s, hs, hn⟩ := Node.mem_walkFrom.1 h
  obtain ⟨⟨v, s⟩, hp, rfl⟩ :=
    List.mem_map.1 ((View.map_snd_inOrder (View.outside.within top) top).symm ▸ hs)
  exact (Stands.statement hp).preorder n hn

theorem mem_walk (h : Stands top v n) : n ∈ Node.walkFrom top := by
  induction h with
  | @statement v n h =>
      have hn := List.mem_map_of_mem (f := Prod.snd) h
      rw [View.map_snd_inOrder] at hn
      exact Node.mem_walkFrom.2 ⟨n, hn, n.mem_preorder_self⟩
  | @part v w n m h hm ih =>
      have hc := List.mem_map_of_mem (f := Prod.snd) hm
      rw [View.map_snd_parts] at hc
      exact Node.child_mem_walkFrom ih hc

end Stands

/-- What holds at a place and at all places below. -/
inductive Throughout (P : View → Node → Prop) : View → Node → Prop where
  | mk {v : View} {n : Node} (here : P v n) (below : ∀ w m, (w, m) ∈ v.parts n → Throughout P w m) :
      Throughout P v n

theorem Stands.throughout {top : List Node} {v : View} {n : Node} {P : View → Node → Prop}
    (h : Stands top v n) (ht : ∀ w m, (w, m) ∈ (View.outside.within top).inOrder top →
      Throughout P w m) : Throughout P v n := by
  induction h with
  | statement h => exact ht _ _ h
  | part _ hm ih =>
      cases ih with
      | mk here below => exact below _ _ hm

end Scad
