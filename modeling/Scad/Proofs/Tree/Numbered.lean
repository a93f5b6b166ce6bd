import Scad.Proofs.Tree.Archive
import Scad.Proofs.Tree.Order

/-! Trees with their ids, but without ranges and bindings. -/
namespace Scad

theorem Form.map_map {α β γ : Type} (g : α → β) (h : β → γ) (f : Form α) :
    (f.map g).map h = f.map (h ∘ g) := by
  cases f <;> simp [Form.map]

namespace Node

/-- A tree in which every node carries something else instead of its id, range and binding. -/
def Relabels (g : Info → Info) (relabel : Node → Node) : Prop :=
  ∀ i f, relabel ⟨i, f⟩ = ⟨g i, f.map relabel⟩

namespace Relabels

variable {g : Info → Info} {relabel : Node → Node} (h : Relabels g relabel)

include h

theorem bare (n : Node) : (relabel n).bare = n.bare := by
  induction n using ofChildren with
  | h n ih =>
      obtain ⟨i, f⟩ := n
      rw [h, bare_mk, bare_mk, Form.map_map]
      exact congrArg (mk blank) (Form.map_congr_of ih)

theorem form (n : Node) : (relabel n).form = n.form.map relabel := by
  obtain ⟨i, f⟩ := n
  rw [h]
  rfl

theorem children (n : Node) : (relabel n).children = n.children.map relabel := by
  rw [Node.children, h.form, Form.children_map, Node.children]

theorem walkFrom (ns : List Node) : walkFrom (ns.map relabel) = (walkFrom ns).map relabel :=
  walkFrom_map h.children ns

theorem trails {k : Int → Int} (hk : ∀ i, (g i).id = k i.id) (ns : List Node) :
    trails (ns.map relabel) = (trails ns).map k := by
  refine trails_map h.form (fun n => ?_) ns
  obtain ⟨i, f⟩ := n
  rw [h]
  exact hk i

end Relabels

def numberedInfo (id : Int) : Info := ⟨id, .unknown, none⟩

def numbered (n : Node) : Node := n.fold fun m form => ⟨numberedInfo m.id, form⟩

theorem numbered_mk (i : Info) (f : Form Node) :
    (mk i f).numbered = ⟨numberedInfo i.id, f.map numbered⟩ := fold_mk _ i f

theorem id_numbered (n : Node) : n.numbered.id = n.id := by
  obtain ⟨i, f⟩ := n
  rw [numbered_mk]
  rfl

theorem id_of_numbered {m n : Node} (h : m.numbered = n.numbered) : m.id = n.id := by
  rw [← id_numbered, h, id_numbered]

theorem relabels_numbered : Relabels (fun i => numberedInfo i.id) numbered := numbered_mk

theorem bare_numbered (n : Node) : n.numbered.bare = n.bare := relabels_numbered.bare n

theorem bare_of_numbered {m n : Node} (h : m.numbered = n.numbered) : m.bare = n.bare := by
  rw [← bare_numbered m, h, bare_numbered]

theorem isGenerator_of_numbered {m n : Node} (h : m.numbered = n.numbered) :
    m.isGenerator = n.isGenerator := by
  rw [← isGenerator_bare m, bare_of_numbered h, isGenerator_bare]

theorem map_bare_of_numbered {ms ns : List Node} (h : ms.map numbered = ns.map numbered) :
    ms.map bare = ns.map bare := by
  have hbare : ∀ xs : List Node, (xs.map numbered).map bare = xs.map bare := by
    intro xs
    rw [List.map_map]
    exact List.map_congr_left fun n _ => n.bare_numbered
  rw [← hbare ms, h, hbare]

end Node

end Scad
