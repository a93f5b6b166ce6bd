import Mathlib.Data.List.Nodup
import Mathlib.Data.List.Perm.Subperm
import Scad.Proofs.Parse.Acceptance
import Scad.Proofs.Parse.Order
import Scad.Proofs.Parse.Recovery

/-! The arena of a parsed document: every node has the place in it that its id says, parts stand
before the whole, and no part is shared. Nodes are lost only with an error. -/
namespace Scad

open Parse (source body)

/-- Ids that are used once tell nodes apart. -/
theorem Node.find?_id {ns : List Node} (h : (ns.map Node.id).Nodup) {n : Node} (hn : n ∈ ns) :
    ns.find? (·.id = n.id) = some n := by
  cases hf : ns.find? (·.id = n.id) with
  | none => simpa using List.find?_eq_none.1 hf n hn
  | some m =>
      have hid : m.id = n.id := by simpa using List.find?_some hf
      rw [List.inj_on_of_nodup_map h (List.mem_of_find?_eq_some hf) hn hid]

theorem Arena.get?_of_entries {a : Arena} {ns : List Node} {f : Node → Node}
    (ha : a.entries = ns.map fun n => (n.id, f n)) (h : (ns.map Node.id).Nodup) {n : Node}
    (hn : n ∈ ns) :
    a.get? n.id = some (f n) := by
  rw [get?, ha, List.find?_map, Option.map_map]
  exact congrArg (Option.map _) (Node.find?_id h hn)

/-- Nodes numbered from 0 have all ids below their number. -/
theorem ids_of_numbered {ns : List Node} (h : ∀ (i : Nat) (n : Node), ns[i]? = some n → n.id = i) :
    ns.map Node.id = (List.range ns.length).map Int.ofNat := by
  refine List.ext_getElem? fun i => ?_
  rw [List.getElem?_map, List.getElem?_map]
  by_cases hi : i < ns.length
  · rw [List.getElem?_eq_getElem hi, List.getElem?_range hi, Option.map_some, Option.map_some]
    exact congrArg some (h i _ (List.getElem?_eq_getElem hi))
  · rw [List.getElem?_eq_none (by omega), List.getElem?_eq_none (by simpa using by omega)]
    rfl

theorem distinct_of_numbered {ns : List Node}
    (h : ∀ (i : Nat) (n : Node), ns[i]? = some n → n.id = i) :
    (ns.map Node.id).Nodup := by
  rw [ids_of_numbered h]
  exact List.nodup_range.map fun _ _ => Int.ofNat_inj.1

theorem Arena.get?_ofMade {ns : List Node} (h : ∀ (i : Nat) (n : Node), ns[i]? = some n → n.id = i)
    {n : Node} (hn : n ∈ ns) : (ofMade ns).get? n.id = some n :=
  get?_of_entries (a := ofMade ns) (f := fun m => m) rfl (distinct_of_numbered h) hn

/-- Increasing ids that are as many as there are in use are all of them. -/
theorem Rising.mem_of_length {ids : List Int} {size : Nat} (h : Rising ids size)
    (hpos : ∀ id ∈ ids, 0 ≤ id) (hlength : ids.length = size) {id : Nat} (hid : id < size) :
    (id : Int) ∈ ids := by
  have hsub : ids ⊆ (List.range size).map Int.ofNat := by
    intro k hk
    have := hpos k hk
    have := h.used k hk
    exact List.mem_map.2 ⟨k.toNat, List.mem_range.2 (by omega), Int.toNat_of_nonneg (hpos k hk)⟩
  have hperm := (List.subperm_of_subset (h.increasing.imp Int.ne_of_lt) hsub).perm_of_length_le
    (by simp [hlength])
  exact hperm.mem_iff.2 (List.mem_map.2 ⟨id, List.mem_range.2 hid, rfl⟩)

/-- A tree's ids in the two orders. -/
theorem Node.trail_perm (n : Node) : n.trail.Perm (n.preorder.map Node.id) := by
  induction n using ofChildren with
  | h n ih =>
      obtain ⟨info, form⟩ := n
      rw [trail_mk, preorder_eq, List.map_cons, List.map_flatMap, trails]
      refine (List.perm_append_singleton _ _).trans (.cons _ ?_)
      exact (form.perm_written.flatMap_right _).trans (List.Perm.flatMap_left _ ih)

theorem trails_perm (ns : List Node) : (trails ns).Perm ((Node.walkFrom ns).map Node.id) := by
  rw [Node.walkFrom_eq, List.map_flatMap]
  exact List.Perm.flatMap_left _ fun n _ => n.trail_perm

/-- How the arena of a parsed document holds its nodes. -/
structure Document.Arranged (d : Document) : Prop where
  /-- Ids count the nodes in the order in which they were made. -/
  counted : d.arena.entries.map (·.1) = (List.range d.arena.size).map Int.ofNat
  next : d.arena.nextId = d.arena.size
  own : ∀ e ∈ d.arena.entries, e.2.id = e.1
  stored : ∀ n ∈ d.walk, d.arena.get? n.id = some n
  /-- No node is reached in two ways. -/
  tree : (d.walk.map Node.id).Nodup
  /-- Parts were made before the whole, and are stored with it. -/
  below : ∀ n ∈ d.arena.nodes, ∀ c ∈ n.children, c.id < n.id ∧ d.arena.get? c.id = some c

namespace Parse.Produced

variable {spelling : Spelling} {tokens : List Token} {origin : Option String}
  {p : Parsed} {s : State}

theorem made (h : Produced spelling tokens origin p s) {n : Node} (hn : n ∈ p.document.walk) :
    n ∈ s.made.toList := by
  have hpreorder : ∀ m ∈ s.made.toList, ∀ n ∈ m.preorder, n ∈ s.made.toList := by
    intro m hm n hn
    induction m using Node.ofChildren with
    | h m ih =>
        rw [Node.preorder_eq] at hn
        rcases List.mem_cons.1 hn with rfl | hn
        · exact hm
        · obtain ⟨c, hc, hn⟩ := List.mem_flatMap.1 hn
          exact ih c hc (h.closed m hm c hc) hn
  obtain ⟨m, hm, hn⟩ := Node.mem_walkFrom.1 hn
  exact hpreorder m (h.statements m hm).1 n hn

theorem nodes (h : Produced spelling tokens origin p s) :
    p.document.arena.nodes = s.made.toList := by
  rw [h.arena, Arena.nodes, Arena.ofMade, List.map_map]
  exact List.map_id _

theorem arranged (h : Produced spelling tokens origin p s) : p.document.Arranged where
  counted := by
    have hsize : p.document.arena.size = s.made.toList.length := by
      simp [h.arena, Arena.size, Arena.ofMade]
    rw [hsize, ← ids_of_numbered h.numbered, h.arena, Arena.ofMade, List.map_map]
    rfl
  next := by simp [h.arena, Arena.size, Arena.ofMade]
  own e he := by
    rw [h.arena] at he
    obtain ⟨n, -, rfl⟩ := List.mem_map.1 he
    rfl
  stored n hn := by
    rw [h.arena]
    exact Arena.get?_ofMade h.numbered (h.made hn)
  tree := (trails_perm _).nodup_iff.1 (h.rising.increasing.imp Int.ne_of_lt)
  below n hn c hc := by
    rw [h.nodes] at hn
    refine ⟨h.tally.below n hn c hc, ?_⟩
    rw [h.arena]
    exact Arena.get?_ofMade h.numbered (h.closed n hn c hc)

/-- A document without errors has all nodes that were made for it. -/
theorem whole (h : Produced spelling tokens origin p s)
    (ha : Apart (source tokens origin) (body tokens)) (hc : Clean s) {n : Node}
    (hn : n ∈ s.made.toList) : n ∈ p.document.walk := by
  obtain ⟨i, hi⟩ := List.mem_iff_getElem?.1 hn
  have hids := trails_perm p.document.statements
  have hpos : ∀ id ∈ trails p.document.statements, 0 ≤ id := by
    intro id hid
    obtain ⟨m, hm, rfl⟩ := List.mem_map.1 (hids.mem_iff.1 hid)
    obtain ⟨j, hj⟩ := List.mem_iff_getElem?.1 (h.made hm)
    exact h.numbered j m hj ▸ Int.natCast_nonneg j
  have hlt : i < s.made.size := (List.getElem?_eq_some_iff.1 hi).1
  have hmem := h.rising.mem_of_length hpos (h.tally.whole ha hc) hlt
  obtain ⟨m, hm, hid⟩ := List.mem_map.1 (hids.mem_iff.1 hmem)
  obtain ⟨j, hj⟩ := List.mem_iff_getElem?.1 (h.made hm)
  have hij : j = i := Int.ofNat_inj.1 ((h.numbered j m hj).symm.trans hid)
  rw [hij, hi, Option.some_inj] at hj
  exact hj ▸ hm

end Parse.Produced

/-- An error at the offset -1 is taken for one that was reported before. Unless a token stands
there, all nodes of a document without errors are reached. -/
theorem parse_arranges {tokens : List Token} {origin : Option String} {p : Parse.Parsed}
    (h : parse tokens origin = .ok p) : p.document.Arranged ∧
    (Parse.Apart (source tokens origin) (body tokens) → p.document.syntaxErrors = [] →
      ∀ n ∈ p.document.arena.nodes, n ∈ p.document.walk) := by
  obtain ⟨s, hs⟩ := Parse.produced_of_ok h
  refine ⟨hs.arranged, fun ha he n hn => hs.whole ha ?_ (hs.nodes ▸ hn)⟩
  rw [Parse.parse_eq, hs.run] at h
  rw [← Except.ok.inj h] at he
  exact he

def assignOne : List Token := [.plain .identifier "x", .sign .assign, .one, .sign .semicolon]

theorem parse_arranges_assignment : ∃ p, parse assignOne none = .ok p ∧ p.document.Arranged ∧
    p.document.arena.size = 3 ∧ ∀ n ∈ p.document.arena.nodes, n ∈ p.document.walk := by
  have hfacts : (parse assignOne none).toOption.map (fun p =>
      (p.document.syntaxErrors, p.document.arena.size)) = some ([], 3) := by decide +kernel
  have hok : (parse assignOne none).isOk := by decide +kernel
  obtain ⟨p, h⟩ := Parse.exists_of_isOk hok
  rw [h] at hfacts
  obtain ⟨herrors, hsize⟩ := Prod.mk.inj (Option.some.inj hfacts)
  have hp := parse_arranges h
  exact ⟨p, h, hp.1, hsize, hp.2 ⟨by decide, by decide⟩ herrors⟩

/-- `x =` and a parenthesis before the text. -/
def parenBefore : List Token :=
  [.plain .identifier "x", .sign .assign,
    { Token.sign .rightParen with span := ⟨"", ⟨-1, 1, 1⟩, ⟨-1, 1, 1⟩⟩ }]

/-- The error at the offset -1 goes unreported, and the node of `x` is lost with the statement. -/
theorem parse_loses_before : ∃ p, parse parenBefore none = .ok p ∧ p.document.syntaxErrors = [] ∧
    ∃ n ∈ p.document.arena.nodes, n ∉ p.document.walk := by
  have hfacts : (parse parenBefore none).toOption.map (fun p =>
      (p.document.syntaxErrors, p.document.statements.length, p.document.arena.size)) =
        some ([], 0, 1) := by
    decide +kernel
  have hok : (parse parenBefore none).isOk := by decide +kernel
  obtain ⟨p, h⟩ := Parse.exists_of_isOk hok
  rw [h] at hfacts
  obtain ⟨herrors, hrest⟩ := Prod.mk.inj (Option.some.inj hfacts)
  obtain ⟨hlength, hsize⟩ := Prod.mk.inj hrest
  have hstatements : p.document.statements = [] := List.length_eq_zero_iff.1 hlength
  have hpos : 0 < p.document.arena.entries.length := Nat.lt_of_lt_of_eq Nat.one_pos hsize.symm
  refine ⟨p, h, herrors, _, List.mem_map_of_mem (List.getElem_mem hpos), ?_⟩
  rw [Document.walk, hstatements, Node.walkFrom]
  exact List.not_mem_nil

end Scad
