import Scad.Proofs.Tree.Numbered

/-! A tree is told by what it says and by the ids of its nodes in the order in which they were made.
So two trees that say the same are numbered alike if their ids are alike in that order. -/
namespace Scad

namespace Field

variable {α β : Type} {u : α → β}

theorem children_map (u : α → β) (f : Field α) : (f.map u).children = f.children.map u := by
  cases f with
  | optional c => cases c <;> rfl
  | _ => rfl

theorem ext_children {f g : Field α} (hu : f.map u = g.map u) (hc : f.children = g.children) :
    f = g := by
  cases f <;> cases g <;> try cases hu
  case node.node => exact congrArg node (List.singleton_inj.1 hc)
  case optional.optional c d =>
    have hsame : c.toList.head? = d.toList.head? := congrArg List.head? hc
    rw [Option.head?_toList, Option.head?_toList] at hsame
    exact congrArg optional hsame
  case nodes.nodes => exact congrArg nodes hc
  all_goals rfl

theorem ext_children_list {fs gs : List (Field α)} (hu : fs.map (map u) = gs.map (map u))
    (hc : fs.flatMap children = gs.flatMap children) : fs = gs := by
  induction fs generalizing gs with
  | nil => exact (List.map_eq_nil_iff.1 hu.symm).symm
  | cons f fs ih =>
      cases gs with
      | nil => cases hu
      | cons g gs =>
          obtain ⟨hfg, hmore⟩ := List.cons.inj hu
          have hlength : f.children.length = g.children.length := by
            have hmapped := congrArg (·.children.length) hfg
            simpa only [children_map, List.length_map] using hmapped
          obtain ⟨hfirst, hrest⟩ := List.append_inj hc hlength
          rw [ext_children hfg hfirst, ih hmore hrest]

end Field

namespace Form

variable {α β : Type} {u : α → β} {f g : Form α}

theorem written_of_ne (h : f.kind ≠ .range) : f.written = f.children := by
  cases f <;> first | rfl | exact absurd rfl h

theorem of_kind_range (h : f.kind = .range) : ∃ a b s, f = range a b s := by
  cases f <;> first | exact ⟨_, _, _, rfl⟩ | cases h

/-- Forms of one shape with the same children in the order of the text. -/
theorem ext_written (hu : f.map u = g.map u) (hw : f.written = g.written) : f = g := by
  have hkind : f.kind = g.kind := by rw [← kind_map u f, hu, kind_map]
  by_cases hrange : f.kind = .range
  · obtain ⟨a, b, s, rfl⟩ := of_kind_range hrange
    obtain ⟨a', b', s', rfl⟩ := of_kind_range (hkind.symm.trans hrange)
    have hsteps : s.map u = s'.map u := (range.inj hu).2.2
    have hlength : s.toList.length = s'.toList.length := by
      have hmapped := congrArg (·.toList.length) hsteps
      simpa only [Option.toList_map, List.length_map] using hmapped
    obtain ⟨rfl, hbehind⟩ := List.cons.inj hw
    obtain ⟨hstep, hstop⟩ := List.append_inj hbehind hlength
    have hsame : s.toList.head? = s'.toList.head? := congrArg List.head? hstep
    rw [Option.head?_toList, Option.head?_toList] at hsame
    rw [List.singleton_inj.1 hstop, hsame]
  · rw [written_of_ne hrange, written_of_ne (hkind ▸ hrange)] at hw
    have hfields : f.fields.map (Field.map u) = g.fields.map (Field.map u) := by
      rw [← fields_map, hu, fields_map]
    exact ext_fields hkind (Field.ext_children_list hfields hw)

end Form

namespace Node

theorem relabels_bare : Relabels (fun _ => blank) bare := bare_mk

def shifted (k : Int) (n : Node) : Node :=
  n.fold fun m form => ⟨{ m.info with id := m.id + k }, form⟩

theorem relabels_shifted (k : Int) : Relabels (fun i => { i with id := i.id + k }) (shifted k) :=
  fun i f => fold_mk _ i f

theorem id_shifted (k : Int) (n : Node) : (n.shifted k).id = n.id + k := by
  obtain ⟨i, f⟩ := n
  rw [relabels_shifted k]
  rfl

/-! ### Ids in the order of the text -/

/-- Trees that say the same have equally many nodes. -/
theorem length_trails_of_bare {ms ns : List Node} (h : ms.map bare = ns.map bare) :
    (trails ms).length = (trails ns).length := by
  have hzero : ∀ xs : List Node, (trails (xs.map bare)).length = (trails xs).length := by
    intro xs
    rw [relabels_bare.trails (k := fun _ => 0) fun _ => rfl, List.length_map]
  rw [← hzero ms, h, hzero]

theorem numbered_of_trails {ms ns : List Node}
    (ih : ∀ m ∈ ms, ∀ n : Node, m.bare = n.bare → m.trail = n.trail → m.numbered = n.numbered)
    (hbare : ms.map bare = ns.map bare) (htrails : Scad.trails ms = Scad.trails ns) :
    ms.map numbered = ns.map numbered := by
  induction ms generalizing ns with
  | nil => rw [List.map_eq_nil_iff.1 hbare.symm]
  | cons m ms ihs =>
      cases ns with
      | nil => cases hbare
      | cons n ns =>
          obtain ⟨hmn, hmore⟩ := List.cons.inj hbare
          have hlength : m.trail.length = n.trail.length := by
            rw [← trails_singleton, ← trails_singleton]
            exact length_trails_of_bare (congrArg (fun k => [k]) hmn)
          obtain ⟨hfirst, hrest⟩ := List.append_inj htrails hlength
          rw [List.map_cons, List.map_cons, ih m (List.mem_cons_self ..) n hmn hfirst,
            ihs (fun k hk => ih k (List.mem_cons_of_mem _ hk)) hmore hrest]

theorem numbered_of_trail (m n : Node) (hbare : m.bare = n.bare) (htrail : m.trail = n.trail) :
    m.numbered = n.numbered := by
  induction m using ofChildren generalizing n with
  | h m ih =>
      obtain ⟨i, f⟩ := m
      obtain ⟨j, g⟩ := n
      rw [trail_mk, trail_mk] at htrail
      obtain ⟨hparts, hid⟩ := List.append_inj' htrail rfl
      rw [bare_mk, bare_mk] at hbare
      have hforms : f.map bare = g.map bare := (mk.inj hbare).2
      have hwritten := congrArg Form.written hforms
      rw [Form.written_map, Form.written_map] at hwritten
      have hnumbered :=
        numbered_of_trails (fun c hc => ih c (f.perm_written.mem_iff.1 hc)) hwritten hparts
      have hshape : (f.map numbered).map bare = (g.map numbered).map bare := by
        have hsame : bare ∘ numbered = bare := funext bare_numbered
        rw [Form.map_map, Form.map_map, hsame, hforms]
      rw [numbered_mk, numbered_mk, List.singleton_inj.1 hid]
      refine congrArg (mk _) (Form.ext_written hshape ?_)
      rw [Form.written_map, Form.written_map, hnumbered]

/-- Trees that say the same are the same, ranges and bindings apart, if their ids are the same in
the order in which nodes are made. -/
theorem map_numbered_of_trails {ms ns : List Node} (hbare : ms.map bare = ns.map bare)
    (htrails : Scad.trails ms = Scad.trails ns) : ms.map numbered = ns.map numbered :=
  numbered_of_trails (fun m _ n => numbered_of_trail m n) hbare htrails

/-- Trees that are numbered alike have the same ids in the order of a walk. -/
theorem walk_ids_of_numbered {ms ns : List Node} (h : ms.map numbered = ns.map numbered) :
    (walkFrom ms).map Node.id = (walkFrom ns).map Node.id := by
  have hids : ∀ xs : List Node, (walkFrom (xs.map numbered)).map Node.id =
      (walkFrom xs).map Node.id := by
    intro xs
    rw [relabels_numbered.walkFrom, List.map_map]
    exact List.map_congr_left fun n _ => n.id_numbered
  rw [← hids ms, h, hids]

end Node

end Scad
