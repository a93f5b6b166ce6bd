import Scad.Proofs.Parse.Arena
import Scad.Proofs.Tree.Restore

/-! What an arena holds that was made from nodes of which some have ids and others get the
next free one on the way: ids are handed out in the order of the nodes, before the ids
behind them are known. -/
namespace Scad

namespace Arena

def restoreAll (a : Arena) (ns : List Node) : Arena := ns.foldl (fun a n => (a.restore n).2) a

def restored (a : Arena) : List Node → List Node
  | [] => []
  | n :: ns => (a.restore n).1 :: restored (a.restore n).2 ns

/-- No node without an id is handed one that a node behind it has. The argument is the
next free id. -/
def Undisputed (next : Int) : List Node → Prop
  | [] => True
  | n :: ns => (n.id < 0 → next ∉ ns.map Node.id) ∧ Undisputed (n.claimId next).2 ns

instance decidableUndisputed : (next : Int) → (ns : List Node) → Decidable (Undisputed next ns)
  | _, [] => .isTrue trivial
  | next, n :: ns => @instDecidableAnd _ _ _ (decidableUndisputed (n.claimId next).2 ns)

def storedIds (ns : List Node) : List Int := (ns.map Node.id).filter (0 ≤ ·)

section Step

variable (a : Arena) (n : Node)

theorem restore_id : (a.restore n).1.id = (n.claimId a.nextId).1 := by
  rw [restore, Node.claimId]
  split <;> rfl

theorem restore_nextId : (a.restore n).2.nextId = (n.claimId a.nextId).2 := by
  rw [restore, Node.claimId]
  split <;> rfl

theorem restore_entries :
    (a.restore n).2.entries = putEntry (a.restore n).1.id (a.restore n).1 a.entries := by
  rw [restore]
  split <;> rfl

variable {a n}

theorem restore_of_stored (h : 0 ≤ n.id) : (a.restore n).1 = n := by
  rw [restore, if_neg (Int.not_lt.2 h)]

end Step

theorem mem_storedIds {ns : List Node} {i : Int} :
    i ∈ storedIds ns ↔ i ∈ ns.map Node.id ∧ 0 ≤ i := by
  rw [storedIds, List.mem_filter, decide_eq_true_iff]

theorem storedIds_cons (n : Node) (ns : List Node) :
    storedIds (n :: ns) = if 0 ≤ n.id then n.id :: storedIds ns else storedIds ns := by
  rw [storedIds, List.map_cons, List.filter_cons]
  simp only [decide_eq_true_eq, storedIds]

theorem length_restored (a : Arena) (ns : List Node) : (a.restored ns).length = ns.length := by
  induction ns generalizing a with
  | nil => rfl
  | cons n ns ih => exact congrArg (· + 1) (ih _)

/-- Ids that nodes have are kept. -/
theorem mem_restored_of_stored {a : Arena} {ns : List Node} {i : Int} (h : i ∈ storedIds ns) :
    i ∈ (a.restored ns).map Node.id := by
  induction ns generalizing a with
  | nil => exact absurd h List.not_mem_nil
  | cons n ns ih =>
      rw [restored, List.map_cons, List.mem_cons]
      rw [storedIds_cons] at h
      split at h
      next hid =>
        rcases List.mem_cons.1 h with rfl | h
        · exact .inl (congrArg Node.id (restore_of_stored hid)).symm
        · exact .inr (ih h)
      next => exact .inr (ih h)

/-- Every other id is one that was free. -/
theorem stored_or_free {a : Arena} {ns : List Node} {i : Int}
    (h : i ∈ (a.restored ns).map Node.id) :
    i ∈ storedIds ns ∨ a.nextId ≤ i := by
  induction ns generalizing a with
  | nil => exact absurd h List.not_mem_nil
  | cons n ns ih =>
      rw [restored, List.map_cons, List.mem_cons, restore_id] at h
      rw [storedIds_cons]
      rcases h with rfl | h
      · by_cases hid : n.id < 0
        · rw [Node.claimId, if_pos hid]
          exact .inr (Int.le_refl _)
        · rw [Node.claimId, if_neg hid, if_pos (Int.not_lt.1 hid)]
          exact .inl (List.mem_cons_self ..)
      · rcases ih h with h | h
        · left
          split
          · exact List.mem_cons_of_mem _ h
          · exact h
        · right
          rw [restore_nextId, Node.claimId] at h
          split at h <;> omega

/-- Two nodes have the same id afterwards exactly if a node is handed one that stands behind it. -/
theorem nodup_restored_iff {a : Arena} {ns : List Node} (hfree : 0 ≤ a.nextId)
    (h : (storedIds ns).Nodup) :
    ((a.restored ns).map Node.id).Nodup ↔ Undisputed a.nextId ns := by
  induction ns generalizing a with
  | nil => exact iff_of_true List.nodup_nil trivial
  | cons n ns ih =>
      have hnext : 0 ≤ (a.restore n).2.nextId := by
        rw [restore_nextId, Node.claimId]
        split <;> omega
      have htail : (storedIds ns).Nodup := by
        rw [storedIds_cons] at h
        split at h
        · exact (List.nodup_cons.1 h).2
        · exact h
      -- The first id stands again behind it only as one that a node there has: free ones are
      -- larger.
      have hhead : (a.restore n).1.id ∈ ((a.restore n).2.restored ns).map Node.id ↔
          (a.restore n).1.id ∈ storedIds ns := by
        refine ⟨fun hmem => (stored_or_free hmem).resolve_right fun hle => ?_,
          mem_restored_of_stored⟩
        rw [restore_id, restore_nextId, Node.claimId] at hle
        split at hle <;> omega
      have hfirst : (a.restore n).1.id ∉ storedIds ns ↔ (n.id < 0 → a.nextId ∉ ns.map Node.id) := by
        rw [restore_id, Node.claimId]
        split
        next hid =>
          rw [mem_storedIds]
          exact ⟨fun hn _ hm => hn ⟨hm, hfree⟩, fun hn hm => hn hid hm.1⟩
        next hid =>
          rw [storedIds_cons, if_pos (Int.not_lt.1 hid)] at h
          exact iff_of_true (List.nodup_cons.1 h).1 fun hneg => absurd hneg hid
      rw [restored, List.map_cons, List.nodup_cons, hhead, hfirst, ih hnext htail, Undisputed,
        restore_nextId]

/-- Nodes with ids of their own are stored one behind the other, as they are then. -/
theorem entries_restoreAll {a : Arena} {kept ns : List Node}
    (hkept : a.entries = kept.map fun n => (n.id, n))
    (h : ((kept ++ a.restored ns).map Node.id).Nodup) :
    (a.restoreAll ns).entries = (kept ++ a.restored ns).map fun n => (n.id, n) := by
  induction ns generalizing a kept with
  | nil => rw [restored, List.append_nil]; exact hkept
  | cons n ns ih =>
      have hnew : ∀ e ∈ a.entries, e.1 ≠ (a.restore n).1.id := by
        intro e he
        rw [hkept] at he
        obtain ⟨m, hm, rfl⟩ := List.mem_map.1 he
        rw [List.map_append, List.nodup_append] at h
        exact h.2.2 _ (List.mem_map_of_mem hm) _ (List.mem_map_of_mem (List.mem_cons_self ..))
      have hstep : (a.restore n).2.entries = (kept ++ [(a.restore n).1]).map fun n =>
          (n.id, n) := by
        rw [restore_entries, putEntry_new hnew, hkept, List.map_append]
        rfl
      rw [restored, List.append_cons] at h ⊢
      exact ih hstep h

theorem mem_putEntry {id : Int} {n : Node} {es : List (Int × Node)} {e : Int × Node}
    (h : e ∈ putEntry id n es) : e = (id, n) ∨ e ∈ es := by
  induction es with
  | nil => exact .inl (List.mem_singleton.1 h)
  | cons e' es ih =>
      obtain ⟨i, m⟩ := e'
      rw [putEntry] at h
      split at h
      · exact (List.mem_cons.1 h).imp_right (List.mem_cons_of_mem _)
      · rcases List.mem_cons.1 h with rfl | h
        · exact .inr (List.mem_cons_self ..)
        · exact (ih h).imp_right (List.mem_cons_of_mem _)

def Bounded (a : Arena) : Prop := 0 ≤ a.nextId ∧ ∀ e ∈ a.entries, e.1 < a.nextId

theorem Bounded.restore {a : Arena} (h : a.Bounded) (n : Node) : (a.restore n).2.Bounded := by
  have hclaim : (n.claimId a.nextId).1 < (n.claimId a.nextId).2 ∧
      a.nextId ≤ (n.claimId a.nextId).2 := by
    rw [Node.claimId]
    split <;> constructor <;> omega
  rw [Bounded, restore_nextId, restore_entries, restore_id]
  refine ⟨Int.le_trans h.1 hclaim.2, fun e he => ?_⟩
  rcases mem_putEntry he with rfl | he
  · exact hclaim.1
  · exact Int.lt_of_lt_of_le (h.2 e he) hclaim.2

theorem Bounded.restoreAll {a : Arena} (h : a.Bounded) (ns : List Node) :
    (a.restoreAll ns).Bounded := by
  induction ns generalizing a with
  | nil => exact h
  | cons n ns ih => exact ih (h.restore n)

theorem Bounded.ofNodes (ns : List Node) : (ofNodes ns).Bounded :=
  restoreAll ⟨Int.le_refl 0, fun _ he => absurd he List.not_mem_nil⟩ ns

theorem Bounded.unused {a : Arena} (h : a.Bounded) : a.contains a.nextId = false := by
  rw [contains, List.any_eq_false]
  intro e he
  have := h.2 e he
  simp only [decide_eq_true_eq]
  omega

theorem find?_putEntry (id : Int) (n : Node) (es : List (Int × Node)) (i : Int) :
    (putEntry id n es).find? (·.1 = i) = if id = i then some (id, n) else es.find? (·.1 = i) := by
  induction es with
  | nil => by_cases hi : id = i <;> simp [putEntry, hi]
  | cons e es ih =>
      obtain ⟨j, m⟩ := e
      rw [putEntry]
      by_cases hj : j = id
      · subst hj
        by_cases hi : j = i <;> simp [hi]
      · by_cases hi : j = i
        · subst hi
          simp [hj, Ne.symm hj]
        · simp [hj, hi, ih]

/-- Under an id stands the last node that has it. -/
theorem get?_restoreAll (a : Arena) (ns : List Node) (i : Int) :
    (a.restoreAll ns).get? i = ((a.restored ns).reverse.find? (·.id = i)).or (a.get? i) := by
  induction ns generalizing a with
  | nil => rfl
  | cons n ns ih =>
      have hfirst : (a.restore n).2.get? i = if (a.restore n).1.id = i then some (a.restore n).1
          else a.get? i := by
        rw [get?, restore_entries, find?_putEntry]
        split <;> rfl
      show (((a.restore n).2).restoreAll ns).get? i = _
      rw [ih, hfirst, restored, List.reverse_cons, List.find?_append, Option.or_assoc]
      by_cases hi : (a.restore n).1.id = i <;> simp [hi]

/-- Of nodes whose ids are distinct, where they have one, an arena made from them keeps all, each
under its own id, exactly if none that has no id is handed one which a node behind it has. The next
free id is never in use, and under every id stands the last node that has it. -/
theorem ofNodes_keeps {ns : List Node} (h : (storedIds ns).Nodup) :
    (((empty.restored ns).map Node.id).Nodup ∧
      (∀ n ∈ empty.restored ns, (ofNodes ns).get? n.id = some n) ∧ (ofNodes ns).size = ns.length ↔
        Undisputed 0 ns) ∧
    (ofNodes ns).contains (ofNodes ns).nextId = false ∧
    ∀ i, (ofNodes ns).get? i = (empty.restored ns).reverse.find? (·.id = i) := by
  have hget : ∀ i, (ofNodes ns).get? i = (empty.restored ns).reverse.find? (·.id = i) := by
    intro i
    rw [show ofNodes ns = empty.restoreAll ns from rfl, get?_restoreAll]
    exact Option.or_none
  have hnodup := nodup_restored_iff (a := empty) (Int.le_refl 0) h
  refine ⟨⟨fun hall => hnodup.1 hall.1, fun hfree => ?_⟩, (Bounded.ofNodes ns).unused, hget⟩
  have hids := hnodup.2 hfree
  have hentries : (ofNodes ns).entries = (empty.restored ns).map fun n => (n.id, n) :=
    @entries_restoreAll empty [] ns rfl hids
  refine ⟨hids, fun n hn => get?_of_entries hentries hids hn, ?_⟩
  rw [size, hentries, List.length_map, length_restored]

/-- Nodes with the ids 5 and 3 and two without: these get the ids behind the largest so far. -/
theorem ofNodes_keeps_mixed :
    ∃ ns : List Node, ns.map Node.id = [5, -1, 3, -1] ∧ (storedIds ns).Nodup ∧
    (empty.restored ns).map Node.id = [5, 6, 3, 7] ∧
    (∀ n ∈ empty.restored ns, (ofNodes ns).get? n.id = some n) ∧ (ofNodes ns).size = 4 ∧
    (ofNodes ns).contains (ofNodes ns).nextId = false := by
  have hkeeps := @ofNodes_keeps [⟨⟨5, .unknown, none⟩, .number (.int 2)⟩,
    ⟨⟨-1, .unknown, none⟩, .empty⟩, ⟨⟨3, .unknown, none⟩, .empty⟩,
    ⟨⟨-1, .unknown, none⟩, .undefined⟩] (by decide)
  obtain ⟨-, hget, hsize⟩ := hkeeps.1.2 (by decide)
  exact ⟨_, rfl, by decide, by decide, hget, hsize, hkeeps.2.1⟩

/-- A node that has the id 0 takes the place of the one in front of it, which has been
handed that id. -/
theorem ofNodes_loses : ¬ ∀ ns : List Node, (storedIds ns).Nodup →
    ((empty.restored ns).map Node.id).Nodup ∧
      (∀ n ∈ empty.restored ns, (ofNodes ns).get? n.id = some n) ∧ (ofNodes ns).size = ns.length ∧
      (ofNodes ns).contains (ofNodes ns).nextId = false := by
  intro h
  have hsize :=
    (h [⟨⟨-1, .unknown, none⟩, .number (.int 1)⟩, ⟨⟨0, .unknown, none⟩, .empty⟩] (by decide)).2.2.1
  exact absurd hsize (by decide)

end Arena

end Scad
