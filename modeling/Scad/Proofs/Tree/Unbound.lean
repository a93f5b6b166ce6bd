import Mathlib.Data.List.Basic
import Scad.Proofs.Tree.Bare
import Scad.Proofs.Tree.Order

/-! Trees without bindings. Two trees that are equal without them have the same nodes in the same
places, with the same ids, names and ranges. -/
namespace Scad

namespace Node

def unbound (n : Node) : Node := n.fold fun m form => ⟨{ m.info with binding := none }, form⟩

theorem unbound_mk (i : Info) (f : Form Node) :
    (mk i f).unbound = ⟨{ i with binding := none }, f.map unbound⟩ := fold_mk _ i f

theorem form_unbound (n : Node) : n.unbound.form = n.form.map unbound := by
  obtain ⟨i, f⟩ := n
  rw [unbound_mk]
  rfl

theorem id_unbound (n : Node) : n.unbound.id = n.id := by
  obtain ⟨i, f⟩ := n
  rw [unbound_mk]
  rfl

theorem kind_unbound (n : Node) : n.unbound.kind = n.kind := by
  rw [kind, form_unbound, Form.kind_map, kind]

theorem children_unbound (n : Node) : n.unbound.children = n.children.map unbound := by
  rw [children, form_unbound, Form.children_map, children]

theorem name?_unbound (n : Node) : n.unbound.name? = n.name? := by
  unfold name?
  rw [form_unbound]
  cases n.form <;> rfl

theorem walkFrom_unbound (ns : List Node) : walkFrom (ns.map unbound) = (walkFrom ns).map unbound :=
  walkFrom_map children_unbound ns

/-- Equal trees have the same nodes, apart from bindings. -/
theorem mem_walkFrom_of_unbound {ms ns : List Node} (h : ms.map unbound = ns.map unbound) {m : Node}
    (hm : m ∈ walkFrom ms) : ∃ n ∈ walkFrom ns, n.unbound = m.unbound := by
  have hu := List.mem_map_of_mem (f := unbound) hm
  rw [← walkFrom_unbound, h, walkFrom_unbound] at hu
  exact List.mem_map.1 hu

end Node

theorem trails_unbound (ns : List Node) : trails (ns.map Node.unbound) = trails ns := by
  rw [trails_map (k := id) Node.form_unbound Node.id_unbound, List.map_id]

end Scad
