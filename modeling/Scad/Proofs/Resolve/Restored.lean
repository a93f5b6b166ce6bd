import Scad.Proofs.Resolve.Repeated
import Scad.Proofs.Tree.Restore

/-! What was written as plain data is read back: nodes as they were, and documents with an arena in
which their bindings lead to the same declarations. -/
namespace Scad

/-- A document that was read back from what was written of another. -/
structure Document.Restores (positions : Bool) (d d' : Document) : Prop where
  origin : d'.origin = d.origin
  statements : d'.statements = d.statements.map (Node.archived positions)
  /-- The arena holds what is reached, under the same ids. -/
  entries : d'.arena.entries = d.walk.map fun n => (n.id, n.archived positions)
  next : ∀ n ∈ d.walk, n.id < d'.arena.nextId
  declarations : ∀ n ∈ d.references, ∀ b, n.binding = some b → b.origin = some d.origin →
    ∃ m, d.declarationOf n.binding = some m ∧
    d'.declarationOf n.binding = some (m.archived positions)

theorem Document.Ordered.restores {d : Document} (h : d.Ordered) (positions : Bool) :
    ∃ d', restore (Archive.ofDocument positions d) = .ok (.document d') ∧
    d.Restores positions d' := by
  have hids : (d.walk.map (Node.archived positions)).map Node.id = d.walk.map Node.id := by
    rw [List.map_map]
    exact List.map_congr_left fun n _ => n.id_archived positions
  have hpos : ∀ n ∈ d.walk.map (Node.archived positions), 0 ≤ n.id := by
    intro n hn
    obtain ⟨m, hm, rfl⟩ := List.mem_map.1 hn
    rw [Node.id_archived]
    exact h.natural m hm
  obtain ⟨hentries, hnext⟩ := Arena.ofNodes_distinct hpos (hids ▸ h.distinct)
  have hstored : (Arena.ofNodes (d.walk.map (Node.archived positions))).entries =
      d.walk.map fun n => (n.id, n.archived positions) := by
    rw [hentries, List.map_map]
    exact List.map_congr_left fun n _ => congrArg (·, n.archived positions)
      (n.id_archived positions)
  refine ⟨_, restore_ofDocument positions h.natural, rfl, rfl, hstored, ?_, ?_⟩
  · intro n hn
    have hlt := hnext (n.archived positions) (List.mem_map_of_mem hn)
    rw [Node.id_archived] at hlt
    exact hlt
  · intro n hn b hb ho
    obtain ⟨m, hm, ht⟩ := h.closed n hn b hb ho
    obtain ⟨kind, target, origin⟩ := b
    cases ht
    cases ho
    refine ⟨m, ?_, ?_⟩
    · rw [hb, Document.declarationOf]
      simpa using h.consistent.stored m hm
    · rw [hb, Document.declarationOf]
      simpa using Arena.get?_of_entries hstored h.distinct hm

/-- Whatever was written is read back: any node and any list of nodes with all that was written of
it, and every document that comes from a text with its bindings intact. -/
theorem restores_archived (positions : Bool) :
    (∀ n : Node, restore (Archive.ofNode positions n) = .ok (.node (n.archived positions))) ∧
    (∀ ns : List Node, restore (.list (ns.map (Archive.ofNode positions))) =
      .ok (.nodes (ns.map (Node.archived positions)))) ∧
    (∀ n : Node, n.archived true = n) ∧
    ∀ d, FromText d → ∃ d', restore (Archive.ofDocument positions d) = .ok (.document d') ∧
      d.Restores positions d' :=
  ⟨restore_ofNode positions, restore_ofNodes positions, Node.archived_true,
    fun _ h => h.ordered.restores positions⟩

/-- `x = 1; y = x;` and what a file brings in. -/
theorem restores_archived_resolved : ∃ p d',
    parse (tokenize "x = 1; use <lib>\ny = x + f(2);" "t").tokens none = .ok p ∧
    restore (Archive.ofDocument false (resolve p.document [("lib", p.document)] none).document) =
      .ok (.document d') ∧
    (resolve p.document [("lib", p.document)] none).document.Restores false d' := by
  have hok : (parse (tokenize "x = 1; use <lib>\ny = x + f(2);" "t").tokens none).isOk := by
    decide +kernel
  obtain ⟨p, hp⟩ := Parse.exists_of_isOk hok
  obtain ⟨d', hd'⟩ :=
    (restores_archived false).2.2.2 _ (.resolved (.parsed hp) [("lib", p.document)] none)
  exact ⟨p, d', hp, hd'⟩

end Scad
