import Scad.Proofs.Tree.Bare

/-! The order in which the nodes of a tree are made: parts in the order of the text, and a node
behind its parts. -/
namespace Scad

namespace Form

variable {α β : Type}

def written : Form α → List α
  | range a b s => a :: (s.toList ++ [b])
  | f => f.children

theorem written_vector (xs : List α) : (vector xs).written = xs := List.append_nil xs

theorem written_block (ss : List α) : (block ss).written = ss := List.append_nil ss

theorem written_callSuffix (as : List α) : (callSuffix as).written = as := List.append_nil as

theorem written_moduleHead (name : α) (as : List α) : (moduleHead name as).written = name :: as :=
  congrArg (name :: ·) (List.append_nil as)

theorem written_call (target : α) (ss : List α) : (call target ss).written = target :: ss :=
  congrArg (target :: ·) (List.append_nil ss)

theorem written_forElement (as us : List α) (c : Option α) (body : α) :
    (forElement as c us body).written = as ++ (c.toList ++ us ++ [body]) := by
  simp [written, children, fields, Field.children]

theorem written_map (g : α → β) (f : Form α) : (f.map g).written = f.written.map g := by
  cases f with
  | range a b s => cases s <;> rfl
  | _ => exact children_map g _

theorem perm_written (f : Form α) : f.written.Perm f.children := by
  cases f with
  | range a b s =>
      have hc : (range a b s).children = a :: b :: (s.toList ++ []) := rfl
      rw [hc, List.append_nil]
      exact (List.perm_append_singleton b s.toList).cons a
  | _ => exact .refl _

end Form

/-- The ids of a tree's nodes, each behind those of its parts. -/
def Node.trail (n : Node) : List Int := n.fold fun m below => below.written.flatten ++ [m.id]

def trails (ns : List Node) : List Int := ns.flatMap Node.trail

theorem Node.trail_mk (info : Info) (form : Form Node) :
    (Node.mk info form).trail = trails form.written ++ [info.id] := by
  rw [trail, fold_mk, Form.written_map, trails, List.flatMap_def]
  rfl

theorem Node.trail_eq (n : Node) : n.trail = trails n.form.written ++ [n.id] := by
  obtain ⟨info, form⟩ := n
  exact trail_mk info form

theorem trails_append (ms ns : List Node) : trails (ms ++ ns) = trails ms ++ trails ns :=
  List.flatMap_append

theorem trails_singleton (n : Node) : trails [n] = n.trail := List.append_nil _

theorem mem_trails {ns : List Node} {n : Node} (h : n ∈ ns) : n.id ∈ trails ns := by
  obtain ⟨info, form⟩ := n
  refine List.mem_flatMap.2 ⟨_, h, ?_⟩
  rw [Node.trail_mk]
  exact List.mem_append_right _ (List.mem_singleton_self _)

section

variable {f : Node → Node} {k : Int → Int} (hf : ∀ n, (f n).form = n.form.map f)
  (hk : ∀ n, (f n).id = k n.id)

include hf hk

theorem Node.trail_map (n : Node) : (f n).trail = n.trail.map k := by
  induction n using ofChildren with
  | h n ih =>
      have hparts : ∀ c ∈ n.form.written, (f c).trail = c.trail.map k :=
        fun c hc => ih c (n.form.perm_written.mem_iff.1 hc)
      rw [trail_eq, trail_eq, hf, hk, Form.written_map, List.map_append, trails, trails,
        List.flatMap_map, List.map_flatMap]
      exact congrArg (· ++ _) (List.flatMap_congr hparts)

theorem trails_map (ns : List Node) : trails (ns.map f) = (trails ns).map k := by
  rw [trails, trails, List.flatMap_map, List.map_flatMap]
  exact List.flatMap_congr fun n _ => n.trail_map hf hk

end

structure Rising (ids : List Int) (next : Int) : Prop where
  increasing : ids.Pairwise (· < ·)
  used : ∀ id ∈ ids, id < next

namespace Rising

variable {ids more : List Int} {next : Int}

theorem left (h : Rising (ids ++ more) next) : Rising ids next :=
  ⟨(List.pairwise_append.1 h.increasing).1, fun id hid => h.used id (List.mem_append_left _ hid)⟩

/-- The next id is used. -/
theorem push (h : Rising ids next) : Rising (ids ++ [next]) (next + 1) := by
  refine ⟨List.pairwise_append.2 ⟨h.increasing, List.pairwise_singleton _ _, fun id hid x hx => ?_⟩,
    ?_⟩
  · rw [List.mem_singleton.1 hx]
    exact h.used id hid
  · intro id hid
    rcases List.mem_append.1 hid with hid | hid
    · exact Int.lt_add_one_of_le (Int.le_of_lt (h.used id hid))
    · rw [List.mem_singleton.1 hid]
      exact Int.lt_succ next

end Rising

end Scad
