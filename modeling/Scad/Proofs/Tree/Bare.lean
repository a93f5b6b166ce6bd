import Mathlib.Data.List.Basic
import Scad.Tree.Document

/-! Trees without ids, ranges and bindings: what is left is what a text says. -/
namespace Scad

namespace Node

def blank : Info := ⟨0, .unknown, none⟩

def bare (n : Node) : Node := n.fold fun _ form => ⟨blank, form⟩

@[simp] theorem bare_mk (i : Info) (f : Form Node) : (mk i f).bare = ⟨blank, f.map bare⟩ :=
  fold_mk _ i f

/-- Two forms that agree up to their children's ids, ranges and bindings make the same bare node. -/
theorem bare_eq {n : Node} {f g : Form Node} {i : Info} (hn : n.form = f)
    (h : f.map bare = g.map bare) : n.bare = (mk i g).bare := by
  obtain ⟨j, f⟩ := n
  cases hn
  rw [bare_mk, bare_mk]
  exact congrArg (mk blank) h

theorem isGenerator_bare (n : Node) : n.bare.isGenerator = n.isGenerator := by
  fun_induction isGenerator n with
  | case1 i as body ih =>
      rw [bare_mk, Form.map, isGenerator]
      exact ih
  | case2 | case3 | case4 => rw [bare_mk, Form.map, isGenerator]
  | case5 n h1 h2 h3 h4 =>
      obtain ⟨i, f⟩ := n
      cases f with
      | letIn as body => exact absurd rfl (h1 i as body)
      | each body => exact absurd rfl (h2 i body)
      | forElement as c us body => exact absurd rfl (h3 i as c us body)
      | ifElement c t e => exact absurd rfl (h4 i c t e)
      | _ => rfl

/-! ### Equal bare trees are the same -/

theorem size_lt_of_mem_children {n c : Node} (h : c ∈ n.children) : c.size < n.size := by
  have hle : ∀ {ns : List Node}, c ∈ ns → c.size ≤ total (ns.map size) := by
    intro ns hc
    induction ns with
    | nil => cases hc
    | cons m ns ih =>
        rw [List.map_cons, total_cons]
        rcases List.mem_cons.1 hc with rfl | hc
        · exact Nat.le_add_right ..
        · exact Nat.le_trans (ih hc) (Nat.le_add_left ..)
  have := hle h
  rw [size_eq n]
  omega

/-- What holds of a node if it holds of its children holds of all nodes. -/
theorem ofChildren {P : Node → Prop} (h : ∀ n, (∀ c ∈ n.children, P c) → P n) (n : Node) : P n := by
  induction hk : n.size using Nat.strongRecOn generalizing n with
  | ind k ih =>
      subst hk
      exact h n fun c hc => ih _ (size_lt_of_mem_children hc) c rfl

theorem mem_preorder_self (n : Node) : n ∈ n.preorder := by
  rw [preorder_eq]
  exact List.mem_cons_self ..

theorem child_mem_preorder {m n c : Node} (h : n ∈ m.preorder) (hc : c ∈ n.children) :
    c ∈ m.preorder := by
  induction m using ofChildren with
  | h m ih =>
      rw [preorder_eq] at h ⊢
      refine List.mem_cons_of_mem _ ?_
      rcases List.mem_cons.1 h with rfl | h
      · exact List.mem_flatMap.2 ⟨c, hc, mem_preorder_self c⟩
      · obtain ⟨k, hk, h⟩ := List.mem_flatMap.1 h
        exact List.mem_flatMap.2 ⟨k, hk, ih k hk h⟩

theorem child_mem_walkFrom {top : List Node} {n c : Node} (h : n ∈ walkFrom top)
    (hc : c ∈ n.children) :
    c ∈ walkFrom top := by
  obtain ⟨m, hm, h⟩ := mem_walkFrom.1 h
  exact mem_walkFrom.2 ⟨m, hm, child_mem_preorder h hc⟩

/-! ### Trees with the same places -/

section

variable {f : Node → Node} (hf : ∀ n, (f n).children = n.children.map f)

include hf

theorem preorder_map (n : Node) : (f n).preorder = n.preorder.map f := by
  induction n using ofChildren with
  | h n ih =>
      rw [preorder_eq, preorder_eq, hf, List.map_cons, List.flatMap_map, List.map_flatMap]
      exact congrArg _ (List.flatMap_congr ih)

theorem walkFrom_map (ns : List Node) : walkFrom (ns.map f) = (walkFrom ns).map f := by
  rw [walkFrom_eq, walkFrom_eq, List.flatMap_map, List.map_flatMap]
  exact List.flatMap_congr fun n _ => preorder_map hf n

end

end Node

namespace Field

variable {α β : Type}

def map (g : α → β) : Field α → Field β
  | node c => node (g c)
  | optional c => optional (c.map g)
  | nodes cs => nodes (cs.map g)
  | text t => text t
  | texts ts => texts ts
  | names ns => names ns
  | number v => number v
  | flag v => flag v

end Field

theorem Form.fields_map {α β : Type} (g : α → β) (f : Form α) :
    (f.map g).fields = f.fields.map (Field.map g) := by
  cases f <;> rfl

theorem Number.same_self (v : Number) : v.same v = true := by
  unfold Number.same
  cases v.dyadic? <;> simp

namespace Node

theorem sameNodes_of_bare {cs ds : List Node} (h : cs.map bare = ds.map bare)
    (ih : ∀ c ∈ cs, ∀ d, c.bare = d.bare → c.same d) : sameNodes (cs.map same) ds := by
  induction cs generalizing ds with
  | nil =>
      cases ds with
      | nil => rfl
      | cons d ds => cases h
  | cons c cs ihs =>
      cases ds with
      | nil => cases h
      | cons d ds =>
          obtain ⟨hc, hcs⟩ := List.cons.inj h
          rw [List.map_cons, sameNodes, ih c (List.mem_cons_self ..) d hc, Bool.true_and]
          exact ihs hcs fun e he => ih e (List.mem_cons_of_mem _ he)

theorem sameField_of_bare {f g : Field Node} (h : f.map bare = g.map bare)
    (ih : ∀ c ∈ f.children, ∀ d, c.bare = d.bare → c.same d) : sameField (f.map same) g := by
  cases f <;> cases g <;> try cases h
  case node.node c d => exact ih c (List.mem_cons_self ..) d (Field.node.inj h)
  case optional.optional c d =>
    have ho := Field.optional.inj h
    cases c with
    | none =>
        cases d with
        | none => rfl
        | some d => cases ho
    | some c =>
        cases d with
        | none => cases ho
        | some d => exact ih c (List.mem_cons_self ..) d (Option.some.inj ho)
  case nodes.nodes cs ds => exact sameNodes_of_bare (Field.nodes.inj h) ih
  case number.refl v => exact v.same_self
  all_goals exact decide_eq_true rfl

theorem sameFields_of_bare {fs gs : List (Field Node)}
    (h : fs.map (Field.map bare) = gs.map (Field.map bare))
    (ih : ∀ c ∈ fs.flatMap Field.children, ∀ d, c.bare = d.bare → c.same d) :
    sameFields (fs.map (Field.map same)) gs := by
  induction fs generalizing gs with
  | nil =>
      cases gs with
      | nil => rfl
      | cons g gs => cases h
  | cons f fs ihs =>
      cases gs with
      | nil => cases h
      | cons g gs =>
          obtain ⟨hf, hfs⟩ := List.cons.inj h
          rw [List.map_cons, sameFields, Bool.and_eq_true]
          exact ⟨sameField_of_bare hf fun c hc => ih c (List.mem_flatMap.2 ⟨f, by simp, hc⟩),
            ihs hfs fun c hc => ih c (by rw [List.flatMap_cons]; exact List.mem_append_right _ hc)⟩

theorem same_of_bare {a b : Node} (h : a.bare = b.bare) : a.same b := by
  induction a using ofChildren generalizing b with
  | h a ih =>
      obtain ⟨i, f⟩ := a
      obtain ⟨j, g⟩ := b
      rw [bare_mk, bare_mk] at h
      have hmap : f.map bare = g.map bare := congrArg form h
      have hkind := congrArg Form.kind hmap
      have hfields := congrArg Form.fields hmap
      rw [Form.kind_map, Form.kind_map] at hkind
      rw [Form.fields_map, Form.fields_map] at hfields
      rw [same, fold_mk, Bool.and_eq_true, Form.fields_map]
      exact ⟨decide_eq_true hkind, sameFields_of_bare hfields ih⟩

theorem sameAll_of_bare {as bs : List Node} (h : as.map bare = bs.map bare) : sameAll as bs := by
  induction as generalizing bs with
  | nil =>
      cases bs with
      | nil => rfl
      | cons b bs => cases h
  | cons a as ih =>
      cases bs with
      | nil => cases h
      | cons b bs =>
          obtain ⟨ha, has⟩ := List.cons.inj h
          rw [sameAll, same_of_bare ha, ih has]
          rfl

end Node

end Scad
