import Scad.Proofs.Resolve.Work
import Scad.Proofs.Tree.Shape

/-! Trees whose nodes carry other names or bindings, in the same places. What is in view at a place
changes as the tree does. -/
namespace Scad

def Form.mapName {α : Type} (g : String → String) : Form α → Form α
  | .variableRef name => .variableRef (g name)
  | .moduleName name => .moduleName (g name)
  | .argumentName name => .argumentName (g name)
  | .variableDefinition name => .variableDefinition (g name)
  | .parameter name d => .parameter (g name) d
  | .moduleDefinition name ps b => .moduleDefinition (g name) ps b
  | .functionDefinition name ps e => .functionDefinition (g name) ps e
  | f => f

theorem Form.children_mapName {α : Type} (g : String → String) (f : Form α) :
    (f.mapName g).children = f.children := by
  cases f <;> rfl

theorem Form.kind_mapName {α : Type} (g : String → String) (f : Form α) :
    (f.mapName g).kind = f.kind := by
  cases f <;> rfl

/-- A change of names and bindings throughout a tree, and what becomes of declarations by it. -/
structure Relabeling where
  node : Node → Node
  declaration : Declaration → Declaration
  binding : Option Binding → Option Binding
  /-- What a node is, and its children, stay. -/
  form_node : ∀ n, ∃ g, (node n).form = (n.form.map node).mapName g
  declaration?_node : ∀ n, (node n).declaration? = n.declaration?.map declaration
  binding_node : ∀ n, (node n).binding = binding n.binding

namespace Relabeling

variable (r : Relabeling)

def role : Role → Role
  | .plain => .plain
  | .value d => .value (d.map r.declaration)
  | .called => .called
  | .applied b => .applied (r.binding b)
  | .passed b => .passed (r.binding b)
  | .named b => .named (r.binding b)

def view (v : View) : View :=
  ⟨v.lists.map (·.map r.declaration), v.vars.map r.declaration, r.role v.role⟩

def place (x : View × Node) : View × Node := (r.view x.1, r.node x.2)

theorem ofArguments_role (role : Role) :
    (r.role role).ofArguments = r.role role.ofArguments := by
  cases role <;> rfl

theorem ofLabel_role (role : Role) : (r.role role).ofLabel = r.role role.ofLabel := by
  cases role <;> rfl

theorem assigned?_role (role : Role) :
    (r.role role).assigned?.toList = role.assigned?.toList.map r.declaration := by
  cases role with
  | value d => cases d <;> rfl
  | _ => rfl

theorem kind_node (n : Node) : (r.node n).kind = n.kind := by
  obtain ⟨g, h⟩ := r.form_node n
  rw [Node.kind, h, Form.kind_mapName, Form.kind_map, Node.kind]

theorem children_node (n : Node) : (r.node n).children = n.children.map r.node := by
  obtain ⟨g, h⟩ := r.form_node n
  rw [Node.children, h, Form.children_mapName, Form.children_map, Node.children]

theorem introduces?_node (n : Node) : (r.node n).introduces? = n.introduces?.map r.declaration := by
  obtain ⟨g, h⟩ := r.form_node n
  rw [Node.introduces?, h, Node.introduces?]
  cases n.form with
  | assignment t e => exact r.declaration?_node t
  | argument l e =>
      cases l with
      | none => rfl
      | some l => exact r.declaration?_node l
  | _ => rfl

theorem filterMap_node {f : Node → Option Declaration}
    (hf : ∀ n, f (r.node n) = (f n).map r.declaration) (ns : List Node) :
    (ns.map r.node).filterMap f = (ns.filterMap f).map r.declaration := by
  rw [List.filterMap_map, List.map_filterMap]
  exact List.filterMap_congr fun n _ => hf n

theorem declarations_node (ns : List Node) :
    (ns.map r.node).filterMap Node.declaration? =
      (ns.filterMap Node.declaration?).map r.declaration :=
  r.filterMap_node r.declaration?_node ns

theorem introductions_node (ns : List Node) :
    (ns.map r.node).filterMap Node.introduces? =
      (ns.filterMap Node.introduces?).map r.declaration :=
  r.filterMap_node r.introduces?_node ns

theorem appliesName_node (t s : Node) : (r.node t).appliesName (r.node s) = t.appliesName s := by
  rw [Node.appliesName, kind_node, kind_node, Node.appliesName]

theorem view_seeing (v : View) (ds : List Declaration) :
    r.view (v.seeing ds) = (r.view v).seeing (ds.map r.declaration) := by
  rw [view, View.seeing, View.seeing, List.map_append]
  rfl

theorem view_within (v : View) (ns : List Node) :
    r.view (v.within ns) = (r.view v).within (ns.map r.node) := by
  rw [View.within, View.within, declarations_node]
  rfl

theorem inOrder_node (v : View) (ns : List Node) :
    (r.view v).inOrder (ns.map r.node) = (v.inOrder ns).map r.place := by
  induction ns generalizing v with
  | nil => rfl
  | cons n ns ih =>
      have hview : (r.view v).seeing (r.node n).introduces?.toList =
          r.view (v.seeing n.introduces?.toList) := by
        rw [view_seeing, introduces?_node]
        cases n.introduces? <;> rfl
      rw [List.map_cons, View.inOrder, hview, ih, View.inOrder, List.map_cons]
      rfl

theorem alike_node (v : View) (ns : List Node) :
    (r.view v).alike (ns.map r.node) = (v.alike ns).map r.place := by
  rw [View.alike, View.alike, List.map_map, List.map_map]
  rfl

theorem headVariables_node {n : Node} (hp : ∀ m ∈ n.children, (r.node m).isPseudo = m.isPseudo) :
    (r.node n).headVariables = n.headVariables.map r.declaration := by
  obtain ⟨g, h⟩ := r.form_node n
  rw [Node.children] at hp
  rw [Node.headVariables, h, Node.headVariables]
  cases hf : n.form with
  | moduleHead m as =>
      rw [hf] at hp
      show (if (r.node m).isPseudo then (as.map r.node).filterMap Node.introduces? else []) = _
      rw [hp m (List.mem_cons_self ..), introductions_node]
      simp only [apply_ite (List.map r.declaration), List.map_nil]
  | _ => rfl

theorem plain_view (v : View) : (r.view v).plain = r.view v.plain := rfl

/-- The parts of a changed node are the changed parts, if its callee declares variables
as before. -/
theorem parts_node (v : View) {n : Node}
    (hp : ∀ m ∈ n.preorder, (r.node m).isPseudo = m.isPseudo) :
    (r.view v).parts (r.node n) = (v.parts n).map r.place := by
  obtain ⟨g, h⟩ := r.form_node n
  have hchild : ∀ c ∈ n.form.children, c ∈ n.preorder :=
    fun c hc => Node.child_mem_preorder n.mem_preorder_self hc
  have hother : (r.view v).plain.alike ((n.form.map r.node).mapName g).children =
      (v.plain.alike n.form.children).map r.place := by
    rw [Form.children_mapName, Form.children_map]
    exact r.alike_node v.plain _
  rw [View.parts, h, View.parts]
  cases hf : n.form with
  | assignment t e =>
      show [((r.view v).plain, r.node t), ((r.view v).as (.value (r.node t).declaration?),
        r.node e)] = _
      rw [r.declaration?_node]
      rfl
  | moduleHead m as =>
      have hm : m ∈ n.preorder := hchild m (hf ▸ List.mem_cons_self ..)
      simp only [Form.map, Form.mapName, hp m hm, List.map_cons, plain_view, r.binding_node,
        inOrder_node]
      refine congrArg _ ?_
      split
      · rfl
      · exact r.alike_node (v.as (.passed m.binding)) as
  | moduleCall h c =>
      have hh : h ∈ n.preorder := hchild h (hf ▸ List.mem_cons_self ..)
      have hvars : (r.node h).headVariables = h.headVariables.map r.declaration :=
        r.headVariables_node fun m hm => hp m (Node.child_mem_preorder hh hm)
      simp only [Form.map, Form.mapName, hvars, ← view_seeing]
      rfl
  | call t ss =>
      cases ss with
      | nil => exact r.alike_node v.plain [t]
      | cons s ss =>
          simp only [Form.map, Form.mapName, List.map_cons, appliesName_node, r.binding_node]
          split
          · exact congrArg (_ :: _ :: ·) (r.alike_node v.plain ss)
          · exact r.alike_node v.plain (t :: s :: ss)
  | callSuffix as =>
      have hrole : (r.view v).role.ofArguments = r.role v.role.ofArguments :=
        r.ofArguments_role v.role
      simp only [Form.map, Form.mapName, hrole]
      exact r.alike_node (v.as v.role.ofArguments) as
  | argument l e =>
      have hrole : (r.view v).role.ofLabel = r.role v.role.ofLabel := r.ofLabel_role v.role
      simp only [Form.map, Form.mapName, hrole, List.map_append]
      refine congrArg (· ++ _) ?_
      cases l with
      | none => rfl
      | some l => rfl
  | functionLiteral ps b =>
      have hrole : (r.view v).role.assigned?.toList =
          v.role.assigned?.toList.map r.declaration := r.assigned?_role v.role
      simp only [Form.map, Form.mapName, hrole, declarations_node, ← List.map_append,
        ← view_seeing, plain_view, alike_node]
      rw [List.map_append]
      rfl
  | letIn as b =>
      simp only [Form.map, Form.mapName, introductions_node, ← view_seeing, plain_view,
        inOrder_node, List.map_append]
      rfl
  | forElement as c us b =>
      have hinner : c.toList.map r.node ++ us.map r.node ++ [r.node b] =
          (c.toList ++ us ++ [b]).map r.node := by
        simp
      have hc : (c.map r.node).toList = c.toList.map r.node := by cases c <;> rfl
      simp only [Form.map, Form.mapName, hc, hinner, introductions_node, ← view_seeing,
        plain_view, inOrder_node, alike_node]
      exact List.map_append.symm
  | functionDefinition name ps e =>
      simp only [Form.map, Form.mapName, declarations_node, ← view_seeing, plain_view, alike_node,
        List.map_append]
      rfl
  | moduleDefinition name ps b =>
      simp only [Form.map, Form.mapName, declarations_node, ← view_seeing, plain_view, alike_node,
        List.map_append]
      refine congrArg (List.append _) ?_
      exact congrArg (fun w => [(w, r.node b)]) (r.view_within _ [b]).symm
  | block ss =>
      simp only [Form.map, Form.mapName, ← view_within, inOrder_node]
  | _ =>
      rw [hf] at hother
      exact hother

theorem preorder_node (n : Node) : (r.node n).preorder = n.preorder.map r.node :=
  Node.preorder_map r.children_node n

/-- Every place of a changed text is the change of a place. -/
theorem stands_node {top : List Node} (hp : ∀ m ∈ Node.walkFrom top, (r.node m).isPseudo =
    m.isPseudo) {w : View} {m : Node} (h : Stands (top.map r.node) w m) : ∃ v n, Stands top v n ∧
      w = r.view v ∧ m = r.node n := by
  have hplace : ∀ {places : List (View × Node)} {w : View} {m : Node}, (w, m) ∈ places.map r.place →
      ∃ v n, (v, n) ∈ places ∧ w = r.view v ∧ m = r.node n := by
    intro places w m h
    obtain ⟨⟨v, n⟩, hn, he⟩ := List.mem_map.1 h
    obtain ⟨hw, hm⟩ := Prod.mk.inj he
    exact ⟨v, n, hn, hw.symm, hm.symm⟩
  induction h with
  | statement h =>
      rw [show View.outside.within (top.map r.node) = r.view (View.outside.within top) from
        (r.view_within .outside top).symm, inOrder_node] at h
      obtain ⟨v, n, hn, hw, hm⟩ := hplace h
      exact ⟨v, n, .statement hn, hw, hm⟩
  | part _ hm ih =>
      obtain ⟨v, n, hn, rfl, rfl⟩ := ih
      have hbelow : ∀ k ∈ n.preorder, (r.node k).isPseudo = k.isPseudo := by
        intro k hk
        obtain ⟨u, hu⟩ := hn.preorder k hk
        exact hp k hu.mem_walk
      rw [r.parts_node v hbelow] at hm
      obtain ⟨u, k, hk, hw, hm⟩ := hplace hm
      exact ⟨u, k, .part hn hk, hw, hm⟩

/-! ### Shapes -/

theorem isArgument_node (label : Kind) (n : Node) :
    (r.node n).IsArgument label ↔ n.IsArgument label := by
  obtain ⟨g, h⟩ := r.form_node n
  rw [Node.IsArgument, h, Node.IsArgument]
  cases n.form with
  | argument l e => cases l <;> simp [Form.map, Form.mapName, kind_node]
  | _ => rfl

theorem shaped_node {n : Node} (hn : n.form.Shaped .any) : (r.node n).form.Shaped .any := by
  obtain ⟨g, h⟩ := r.form_node n
  rw [h]
  cases hf : n.form <;> rw [hf] at hn
  case moduleHead m as =>
    obtain ⟨name, declares, hm, -, has⟩ := hn
    obtain ⟨g', h'⟩ := r.form_node m
    rw [hm] at h'
    refine ⟨g' name, declares, h', trivial, fun a' ha' => ?_⟩
    obtain ⟨a, ha, rfl⟩ := List.mem_map.1 ha'
    exact (r.isArgument_node _ a).2 (has a ha)
  case number | string | boolean | undefined | variableRef | memberSuffix | variableDefinition |
    argumentName |
      moduleName | empty | fileReference => trivial
  all_goals simpa [Form.map, Form.mapName, Form.Shaped, kind_node, isArgument_node, Spelling.any]
    using hn

theorem allShaped_node {n : Node} (hn : n.AllShaped .any) : (r.node n).AllShaped .any := by
  induction n using Node.ofChildren with
  | h n ih =>
      refine ⟨r.shaped_node hn.self, fun c' hc' => ?_⟩
      rw [children_node] at hc'
      obtain ⟨c, hc, rfl⟩ := List.mem_map.1 hc'
      exact ih c hc (hn.child hc)

end Relabeling
end Scad
