import Mathlib.Data.List.Nodup
import Mathlib.Logic.Function.Iterate
import Scad.Proofs.Tree.Bare

/-! A walk goes to every place of a tree once. A place is the way down to it by the numbers of the
children. Of two places the first is the one that leads to the other, or that turns to an earlier
child where their ways part. The walk keeps the nodes to come on a stack, and it meets the nodes in
the order of their places. -/
namespace Scad

/-! ### Turns -/

/-- A walk that has come so far: the nodes to come, the next one at the end, and those that
were visited. -/
structure Tour where
  stack : List Node
  visited : List Node

namespace Tour

/-- One turn: the node at the end of the stack is visited, and its children are put there in its
place, the last of them first. -/
def turn (t : Tour) : Tour :=
  match t.stack.getLast? with
  | none => t
  | some n => ⟨t.stack.dropLast ++ n.children.reverse, t.visited ++ [n]⟩

theorem turn_concat (stack visited : List Node) (n : Node) :
    turn ⟨stack ++ [n], visited⟩ = ⟨stack ++ n.children.reverse, visited ++ [n]⟩ := by
  simp only [turn, List.getLast?_concat, List.dropLast_concat]

/-- As many turns as there are nodes empty the stack, and each of them has visited the next node
of the walk. -/
theorem iterate_turn (ns visited : List Node) :
    turn^[(Node.walkFrom ns).length] ⟨ns.reverse, visited⟩ = ⟨[], visited ++ Node.walkFrom ns⟩ := by
  fun_induction Node.walkFrom ns generalizing visited with
  | case1 => rw [List.append_nil]; rfl
  | case2 n ns ih =>
      rw [List.length_cons, Function.iterate_succ_apply, List.reverse_cons, turn_concat,
        ← List.reverse_append, ih, List.append_assoc]
      rfl

end Tour

/-! ### Places -/

namespace Node

def at? (n : Node) : List Nat → Option Node
  | [] => some n
  | i :: place => n.children[i]?.bind fun c => c.at? place

def among (ns : List Node) : List Nat → Option Node
  | [] => none
  | i :: place => ns[i]?.bind fun n => n.at? place

/-- Places in the trees, as they are among all of them. -/
def branches (below : List (List (List Nat × Node))) : List (List Nat × Node) :=
  below.zipIdx.flatMap fun (visits, i) => visits.map fun (place, n) => (i :: place, n)

/-- The nodes of a tree with their places, each before its children's trees. -/
def visits (n : Node) : List (List Nat × Node) :=
  n.fold fun m below => ([], m) :: branches below.children

theorem visits_eq (n : Node) : n.visits = ([], n) :: branches (n.children.map visits) := by
  obtain ⟨info, form⟩ := n
  rw [visits, fold_mk, Form.children_map]
  rfl

theorem nodes_branches (below : List (List (List Nat × Node))) :
    (branches below).map Prod.snd = below.flatMap fun visits => visits.map Prod.snd := by
  have hnodes : ∀ (visits : List (List Nat × Node)) (i : Nat),
      (visits.map fun (place, n) => (i :: place, n)).map Prod.snd = visits.map Prod.snd := by
    intro visits i
    rw [List.map_map]
    rfl
  rw [branches, List.map_flatMap]
  simp only [hnodes]
  rw [← List.flatMap_map Prod.fst, List.zipIdx_map_fst]

theorem nodes_visits (n : Node) : n.visits.map Prod.snd = n.preorder := by
  induction n using ofChildren with
  | h n ih =>
      rw [visits_eq, preorder_eq, List.map_cons, nodes_branches, List.flatMap_map]
      exact congrArg _ (List.flatMap_congr ih)

theorem mem_branches {below : List (List (List Nat × Node))} {place : List Nat} {n : Node} :
    (place, n) ∈ branches below ↔
      ∃ i rest visits, place = i :: rest ∧ below[i]? = some visits ∧ (rest, n) ∈ visits := by
  rw [branches, List.mem_flatMap]
  constructor
  · intro h
    obtain ⟨⟨visits, i⟩, hvisits, h⟩ := h
    obtain ⟨⟨rest, m⟩, hm, heq⟩ := List.mem_map.1 h
    obtain ⟨rfl, rfl⟩ := Prod.mk.inj heq
    exact ⟨i, rest, visits, rfl, List.mk_mem_zipIdx_iff_getElem?.1 hvisits, hm⟩
  · intro h
    obtain ⟨i, rest, visits, rfl, hvisits, hm⟩ := h
    exact ⟨(visits, i), List.mk_mem_zipIdx_iff_getElem?.2 hvisits,
      List.mem_map.2 ⟨(rest, n), hm, rfl⟩⟩

/-- Trees that are each visited at their places are visited at their places among all of them. -/
theorem mem_branches_visits {ns : List Node} {n : Node}
    (h : ∀ m ∈ ns, ∀ rest, (rest, n) ∈ m.visits ↔ m.at? rest = some n) (place : List Nat) :
    (place, n) ∈ branches (ns.map visits) ↔ among ns place = some n := by
  rw [mem_branches]
  constructor
  · intro hmem
    obtain ⟨i, rest, below, rfl, hbelow, hn⟩ := hmem
    rw [List.getElem?_map] at hbelow
    obtain ⟨m, hm, rfl⟩ := Option.map_eq_some_iff.1 hbelow
    rw [among, hm]
    exact (h m (List.mem_of_getElem? hm) rest).1 hn
  · intro hat
    cases place with
    | nil => cases hat
    | cons i rest =>
        obtain ⟨m, hm, hn⟩ := Option.bind_eq_some_iff.1 hat
        refine ⟨i, rest, m.visits, rfl, ?_, (h m (List.mem_of_getElem? hm) rest).2 hn⟩
        rw [List.getElem?_map, hm]
        rfl

theorem mem_visits (n m : Node) (place : List Nat) :
    (place, m) ∈ n.visits ↔ n.at? place = some m := by
  induction n using ofChildren generalizing place with
  | h n ih =>
      rw [visits_eq, List.mem_cons, mem_branches_visits ih]
      cases place with
      | nil => simp [at?, among, eq_comm]
      | cons i rest => simp [at?, among]

/-! ### The order of places -/

/-- The first of two visits is made at the place that comes first. -/
def Earlier (v w : List Nat × Node) : Prop := v.1 < w.1

theorem pairwise_branches {below : List (List (List Nat × Node))}
    (h : ∀ visits ∈ below, visits.Pairwise Earlier) : (branches below).Pairwise Earlier := by
  have hnumbers : below.zipIdx.Pairwise fun a b => a.2 < b.2 := by
    rw [← List.pairwise_map (f := Prod.snd), List.zipIdx_map_snd]
    exact List.pairwise_lt_range' 1
  refine List.pairwise_flatMap.2 ⟨fun a ha => ?_, hnumbers.imp fun {a b} hlt v hv w hw => ?_⟩
  · have hvisits : a.1 ∈ below := List.mem_of_getElem? (List.mem_zipIdx_iff_getElem?.1 ha)
    refine List.pairwise_map.2 ((h a.1 hvisits).imp fun {v w} hvw => ?_)
    exact List.cons_lt_cons_iff.2 (.inr ⟨rfl, hvw⟩)
  · obtain ⟨v', -, rfl⟩ := List.mem_map.1 hv
    obtain ⟨w', -, rfl⟩ := List.mem_map.1 hw
    exact List.cons_lt_cons_iff.2 (.inl hlt)

theorem pairwise_visits (n : Node) : n.visits.Pairwise Earlier := by
  induction n using ofChildren with
  | h n ih =>
      rw [visits_eq]
      refine .cons (fun v hv => ?_) (pairwise_branches fun visits hvisits => ?_)
      · obtain ⟨i, rest, -, hplace, -, -⟩ := mem_branches.1 hv
        rw [Earlier, hplace]
        exact List.nil_lt_cons i rest
      · obtain ⟨c, hc, rfl⟩ := List.mem_map.1 hvisits
        exact ih c hc

/-! ### Traversals -/

/-- The nodes are those that stand at some place, in the order of the places, and every place is
gone to once. -/
def Traverses (stands : List Nat → Node → Prop) (found : List Node) : Prop :=
  ∃ visits : List (List Nat × Node), visits.map Prod.snd = found ∧ visits.Pairwise Earlier ∧
    ∀ place n, (place, n) ∈ visits ↔ stands place n

namespace Traverses

variable {stands : List Nat → Node → Prop} {found found' : List Node}

/-- What stands where leaves no choice. -/
theorem unique (h : Traverses stands found) (h' : Traverses stands found') : found = found' := by
  obtain ⟨visits, rfl, hearlier, hmem⟩ := h
  obtain ⟨visits', rfl, hearlier', hmem'⟩ := h'
  have hne : ∀ {v w : List Nat × Node}, Earlier v w → v ≠ w := by
    rintro v w hlt rfl
    exact List.lt_irrefl v.1 hlt
  have hperm : visits.Perm visits' := by
    refine (List.perm_ext_iff_of_nodup (hearlier.imp hne) (hearlier'.imp hne)).2
      fun (place, n) => ?_
    rw [hmem, hmem']
  have hasymm : ∀ v w : List Nat × Node, v ∈ visits → w ∈ visits' → Earlier v w →
      Earlier w v → v = w := by
    intro v w _ _ hlt hgt
    exact absurd hgt (List.lt_asymm hlt)
  rw [hperm.eq_of_pairwise hasymm hearlier hearlier']

theorem iff_eq (h : Traverses stands found) : Traverses stands found' ↔ found' = found := by
  constructor
  · intro h'
    exact h'.unique h
  · intro heq
    rwa [heq]

theorem filter (h : Traverses stands found) (wanted : Node → Bool) :
    Traverses (fun place n => stands place n ∧ wanted n) (found.filter wanted) := by
  obtain ⟨visits, rfl, hearlier, hmem⟩ := h
  refine ⟨visits.filter (wanted ∘ Prod.snd), List.filter_map.symm, hearlier.filter _,
    fun place n => ?_⟩
  rw [List.mem_filter, hmem]
  rfl

end Traverses

theorem traverses_preorder (n : Node) :
    Traverses (fun place m => n.at? place = some m) n.preorder :=
  ⟨n.visits, n.nodes_visits, n.pairwise_visits, fun place m => n.mem_visits m place⟩

theorem traverses_walkFrom (ns : List Node) :
    Traverses (fun place m => among ns place = some m) (walkFrom ns) := by
  refine ⟨branches (ns.map visits), ?_, pairwise_branches fun below hbelow => ?_, fun place m => ?_⟩
  · rw [nodes_branches, walkFrom_eq, List.flatMap_map]
    exact List.flatMap_congr fun n _ => n.nodes_visits
  · obtain ⟨n, -, rfl⟩ := List.mem_map.1 hbelow
    exact n.pairwise_visits
  · exact mem_branches_visits (fun n _ => n.mem_visits m) place

theorem walk_eq_preorder (n : Node) : n.walk = n.preorder := by
  rw [walk, walkFrom_eq, List.flatMap_singleton]

/-- A node, then the walks of its children, field by field. -/
theorem walk_cons (n : Node) :
    n.walk = n :: n.form.fields.flatMap fun field => field.children.flatMap walk := by
  have hchildren : n.children.flatMap preorder = n.children.flatMap walk :=
    List.flatMap_congr fun c _ => c.walk_eq_preorder.symm
  rw [walk_eq_preorder, preorder_eq, hchildren, children, Form.children, List.flatMap_assoc]

end Node

theorem Kind.isReference_iff {k : Kind} :
    k.isReference = true ↔ k = .variableRef ∨ k = .moduleName ∨ k = .argumentName := by
  simp [isReference, or_assoc]

theorem Document.walk_eq (d : Document) : d.walk = d.statements.flatMap Node.walk := by
  rw [walk, Node.walkFrom_eq]
  exact List.flatMap_congr fun n _ => n.walk_eq_preorder.symm

/-- A walk with a stack is the walk by recursion: a node, then the walks of its children in the
order of the fields, which are all that a node has. It alone goes to each place of the tree once and
in order. So the references of a document are the variables, module names and argument names that
are to be found from its statements, each of them once, in that order. -/
theorem walk_traverses :
    (∀ n : Node, Tour.turn^[n.walk.length] ⟨[n], []⟩ = ⟨[], n.walk⟩ ∧
      n.walk = n :: (n.form.fields.flatMap fun field => field.children.flatMap Node.walk) ∧
      Form.ofFields? n.kind n.form.fields = some n.form ∧
      ∀ found, Node.Traverses (fun place m => n.at? place = some m) found ↔ found = n.walk) ∧
    ∀ d : Document, d.walk = d.statements.flatMap Node.walk ∧
      ∀ found, Node.Traverses (fun place m => Node.among d.statements place = some m ∧
        (m.kind = .variableRef ∨ m.kind = .moduleName ∨ m.kind = .argumentName)) found ↔
          found = d.references := by
  refine ⟨fun n => ⟨Tour.iterate_turn [n] [], n.walk_cons, n.form.ofFields?_fields,
    fun found => ?_⟩, fun d => ⟨d.walk_eq, fun found => ?_⟩⟩
  · rw [n.walk_eq_preorder]
    exact n.traverses_preorder.iff_eq
  · have hreferences := (Node.traverses_walkFrom d.statements).filter (·.kind.isReference)
    simp only [Kind.isReference_iff] at hreferences
    exact hreferences.iff_eq

end Scad
