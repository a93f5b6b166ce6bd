import Scad.Proofs.Render.Printable
import Scad.Proofs.Tree.WalkOrder

/-! What trees that say the same have in common: kinds, parts, and where an `else` behind
them would go. -/
namespace Scad

namespace Node

theorem same_mk (i : Info) (f : Form Node) (n : Node) :
    (mk i f).same n =
      (f.kind = n.kind && sameFields (f.fields.map (Field.map same)) n.form.fields) := by
  rw [← Form.fields_map]
  exact congrFun (fold_mk _ i f) n

/-! ### Parts -/

theorem exists_of_sameNodes {cs ds : List Node} (h : sameNodes (cs.map same) ds) :
    ∀ c ∈ cs, ∃ d ∈ ds, c.same d := by
  induction cs generalizing ds with
  | nil => exact fun c hc => nomatch hc
  | cons c cs ih =>
      cases ds with
      | nil => cases h
      | cons d ds =>
          rw [List.map_cons, sameNodes, Bool.and_eq_true] at h
          refine List.forall_mem_cons.2 ⟨⟨d, List.mem_cons_self .., h.1⟩, fun e he => ?_⟩
          obtain ⟨e', he', hsame⟩ := ih h.2 e he
          exact ⟨e', List.mem_cons_of_mem _ he', hsame⟩

theorem exists_of_sameField {f g : Field Node} (h : sameField (f.map same) g) :
    ∀ c ∈ f.children, ∃ d ∈ g.children, c.same d := by
  cases f with
  | node c =>
      cases g with
      | node d => exact List.forall_mem_singleton.2 ⟨d, List.mem_singleton_self d, h⟩
      | _ => cases h
  | optional c =>
      cases c with
      | none => exact fun c hc => nomatch hc
      | some c =>
          cases g with
          | optional d =>
              cases d with
              | none => cases h
              | some d => exact List.forall_mem_singleton.2 ⟨d, List.mem_singleton_self d, h⟩
          | _ => cases h
  | nodes cs =>
      cases g with
      | nodes ds => exact exists_of_sameNodes h
      | _ => cases h
  | _ => exact fun c hc => nomatch hc

theorem exists_of_sameFields {fs gs : List (Field Node)}
    (h : sameFields (fs.map (Field.map same)) gs) :
    ∀ c ∈ fs.flatMap Field.children, ∃ d ∈ gs.flatMap Field.children, c.same d := by
  induction fs generalizing gs with
  | nil => exact fun c hc => nomatch hc
  | cons f fs ih =>
      cases gs with
      | nil => cases h
      | cons g gs =>
          rw [List.map_cons, sameFields, Bool.and_eq_true] at h
          intro c hc
          rw [List.flatMap_cons] at hc ⊢
          rcases List.mem_append.1 hc with hc | hc
          · obtain ⟨d, hd, hsame⟩ := exists_of_sameField h.1 c hc
            exact ⟨d, List.mem_append_left _ hd, hsame⟩
          · obtain ⟨d, hd, hsame⟩ := ih h.2 c hc
            exact ⟨d, List.mem_append_right _ hd, hsame⟩

theorem exists_child_of_same {a b : Node} (h : a.same b) :
    ∀ c ∈ a.children, ∃ d ∈ b.children, c.same d := by
  obtain ⟨i, f⟩ := a
  rw [same_mk, Bool.and_eq_true] at h
  exact exists_of_sameFields h.2

theorem exists_of_same {a b : Node} (h : a.same b) :
    ∀ m ∈ a.preorder, ∃ n ∈ b.preorder, m.same n := by
  induction a using ofChildren generalizing b with
  | h a ih =>
      intro m hm
      rw [preorder_eq] at hm
      rcases List.mem_cons.1 hm with rfl | hm
      · exact ⟨b, b.mem_preorder_self, h⟩
      · obtain ⟨c, hc, hm⟩ := List.mem_flatMap.1 hm
        obtain ⟨d, hd, hsame⟩ := exists_child_of_same h c hc
        obtain ⟨n, hn, hmn⟩ := ih c hc hsame m hm
        rw [preorder_eq b]
        exact ⟨n, List.mem_cons_of_mem _ (List.mem_flatMap.2 ⟨d, hd, hn⟩), hmn⟩

/-! ### Ends -/

theorem kind_of_same {a b : Node} (h : a.same b) : a.kind = b.kind := by
  obtain ⟨i, f⟩ := a
  rw [same_mk, Bool.and_eq_true] at h
  exact of_decide_eq_true h.1

theorem fields_of_same {i j : Info} {f g : Form Node} (h : (mk i f).same (mk j g)) :
    sameFields (f.fields.map (Field.map same)) g.fields := by
  rw [same_mk, Bool.and_eq_true] at h
  exact h.2

attribute [local simp] Form.fields Field.map sameFields sameField

theorem endsInIf_of_same {a b : Node} (h : a.same b) (ha : a.endsInIf) : b.endsInIf := by
  fun_induction endsInIf a generalizing b with
  | case12 => cases ha
  | case4 | case8 =>
      -- There is no `else` on either side.
      obtain ⟨j, g⟩ := b
      have hk := kind_of_same h
      have hfields := fields_of_same h
      cases g <;> try cases hk
      rename_i e
      cases e with
      | none => rfl
      | some e => simp at hfields
  | case5 | case9 =>
      rename_i ih
      obtain ⟨j, g⟩ := b
      have hk := kind_of_same h
      have hfields := fields_of_same h
      cases g <;> try cases hk
      rename_i e
      cases e with
      | none => simp at hfields
      | some e =>
          rw [endsInIf]
          exact ih (by simp at hfields; exact hfields.2.2) ha
  | case1 | case2 | case3 | case6 | case7 | case10 | case11 =>
      rename_i ih
      obtain ⟨j, g⟩ := b
      have hk := kind_of_same h
      have hfields := fields_of_same h
      cases g <;> try cases hk
      simp only [Form.fields, List.map_cons, List.map_nil, Field.map, sameFields, sameField,
        Bool.and_eq_true, and_true]
        at hfields
      rw [endsInIf]
      exact ih (by tauto) ha

end Node

end Scad
