import Mathlib.Data.List.Induction
import Scad.Proofs.Tree.Archive

/-! A restored document whose nodes have ids of their own keeps them, and its arena holds the nodes
that its statements reach. -/
namespace Scad

/-- Work that gives a certain value in every state. -/
def Yields {α : Type} (m : StateM Int α) (a : α) : Prop := ∀ s, (m.run s).1 = a

namespace Yields

variable {α β : Type}

theorem pure (a : α) : Yields (Pure.pure a) a := fun _ => rfl

theorem bind {m : StateM Int α} {f : α → StateM Int β} {a : α} {b : β} (hm : Yields m a)
    (hf : Yields (f a) b) :
    Yields (m >>= f) b := by
  intro s
  show ((f (m.run s).1).run (m.run s).2).1 = b
  rw [hm s]
  exact hf _

variable {g : α → StateM Int α}

theorem list {as : List α} (h : ∀ a ∈ as, Yields (g a) a) :
    Yields ((as.map g).mapM fun m => m) as := by
  induction as with
  | nil => exact pure []
  | cons a as ih =>
      rw [List.map_cons, List.mapM_cons]
      have has := ih fun b hb => h b (List.mem_cons_of_mem a hb)
      exact (h a (List.mem_cons_self ..)).bind (has.bind (pure _))

theorem option {a : Option α} (h : ∀ b ∈ a, Yields (g b) b) :
    Yields ((a.map g).mapM fun m => m) a := by
  cases a with
  | none => exact pure none
  | some a =>
      intro s
      exact congrArg some (h a rfl s)

section

attribute [local simp] Form.children Form.fields Field.children

/-- Work on all children of a form that gives them back. -/
theorem traverse {f : Form α} (h : ∀ c ∈ f.children, Yields (g c) c) :
    Yields ((f.map g).traverse fun m => m) f := by
  -- The forms are grouped by the slots of their children.
  cases f
  case number | string | boolean | undefined | variableRef | memberSuffix | variableDefinition |
    argumentName | empty |
      moduleName | fileReference =>
    exact pure _
  case paren | unary | indexSuffix | each | instantiation => exact (h _ (by simp)).bind (pure _)
  case vector | chain | callSuffix | block =>
    exact (list fun c hc => h c (by simp [hc])).bind (pure _)
  case parameter => exact (option fun c hc => h c (by simp [Option.mem_def.1 hc])).bind (pure _)
  case power | loopUpdate | assignment | moduleCall =>
    exact (h _ (by simp)).bind ((h _ (by simp)).bind (pure _))
  case call | moduleHead =>
    exact (h _ (by simp)).bind ((list fun c hc => h c (by simp [hc])).bind (pure _))
  case functionLiteral | letIn | moduleRemark | moduleDefinition | functionDefinition =>
    exact (list fun c hc => h c (by simp [hc])).bind ((h _ (by simp)).bind (pure _))
  case remark =>
    exact (list fun c hc => h c (by simp [hc])).bind
      ((option fun c hc => h c (by simp [Option.mem_def.1 hc])).bind (pure _))
  case argument =>
    exact (option fun c hc => h c (by simp [Option.mem_def.1 hc])).bind
      ((h _ (by simp)).bind (pure _))
  case ternary => exact (h _ (by simp)).bind ((h _ (by simp)).bind ((h _ (by simp)).bind (pure _)))
  case range | ifElement | moduleIf =>
    exact (h _ (by simp)).bind ((h _ (by simp)).bind
      ((option fun c hc => h c (by simp [Option.mem_def.1 hc])).bind (pure _)))
  case forElement =>
    exact (list fun c hc => h c (by simp [hc])).bind
      ((option fun c hc => h c (by simp [Option.mem_def.1 hc])).bind
        ((list fun c hc => h c (by simp [hc])).bind ((h _ (by simp)).bind (pure _))))

end

end Yields

/-- Nodes that have ids keep them. -/
theorem Node.yields_number {n : Node} (h : ∀ m ∈ n.preorder, 0 ≤ m.id) : Yields n.number n := by
  induction n using ofChildren with
  | h n ih =>
      obtain ⟨i, f⟩ := n
      have hid : ¬ (mk i f).id < 0 := Int.not_lt.2 (h _ (mem_preorder_self _))
      have hchildren : ∀ c ∈ f.children, Yields c.number c := by
        intro c hc
        refine ih c hc fun m hm => h m ?_
        rw [preorder_eq]
        exact List.mem_cons_of_mem _ (List.mem_flatMap.2 ⟨c, hc, hm⟩)
      have hclaim : ∀ s, ((mk i f).claimId s).1 = i.id := by
        intro s
        rw [claimId, if_neg hid]
        rfl
      intro s
      rw [number, fold_mk]
      show Node.mk { i with id := ((mk i f).claimId s).1 } _ = _
      rw [hclaim]
      exact congrArg (mk i) (Yields.traverse hchildren _)

theorem Node.numberAll_eq {ns : List Node} (h : ∀ m ∈ walkFrom ns, 0 ≤ m.id) :
    numberAll ns = ns := by
  have hnodes : ∀ n ∈ ns, Yields n.number n := by
    intro n hn
    refine yields_number fun m hm => h m ?_
    exact mem_walkFrom.2 ⟨n, hn, hm⟩
  have hall := Yields.list hnodes 0
  rw [List.mapM_map] at hall
  exact hall

namespace Arena

theorem putEntry_new {id : Int} {n : Node} {es : List (Int × Node)} (h : ∀ e ∈ es, e.1 ≠ id) :
    putEntry id n es = es ++ [(id, n)] := by
  induction es with
  | nil => rfl
  | cons e es ih =>
      obtain ⟨i, m⟩ := e
      rw [putEntry, if_neg (h (i, m) (List.mem_cons_self ..)),
        ih fun e he => h e (List.mem_cons_of_mem _ he)]
      rfl

/-- Nodes with ids of their own are stored under them, one behind the other. -/
theorem ofNodes_distinct {ns : List Node} (hpos : ∀ n ∈ ns, 0 ≤ n.id)
    (hn : (ns.map Node.id).Nodup) :
    (ofNodes ns).entries = ns.map (fun n => (n.id, n)) ∧ ∀ n ∈ ns, n.id < (ofNodes ns).nextId := by
  induction ns using List.reverseRecOn with
  | nil => exact ⟨rfl, fun n h => absurd h List.not_mem_nil⟩
  | append_singleton ns n ih =>
      rw [List.map_append, List.nodup_append] at hn
      obtain ⟨hentries, hnext⟩ := ih (fun m hm => hpos m (List.mem_append_left _ hm)) hn.1
      have hnew : ∀ e ∈ (ofNodes ns).entries, e.1 ≠ n.id := by
        intro e he
        rw [hentries] at he
        obtain ⟨m, hm, rfl⟩ := List.mem_map.1 he
        exact hn.2.2 _ (List.mem_map_of_mem hm) _ (List.mem_singleton_self _)
      have hlast : ofNodes (ns ++ [n]) =
          ⟨putEntry n.id n (ofNodes ns).entries, max (ofNodes ns).nextId (n.id + 1)⟩ := by
        have hid : ¬ n.id < 0 :=
          Int.not_lt.2 (hpos n (List.mem_append_right _ (List.mem_singleton_self n)))
        rw [ofNodes, List.foldl_append, List.foldl_cons, List.foldl_nil, restore, if_neg hid]
        rfl
      rw [hlast]
      constructor
      · rw [putEntry_new hnew, hentries, List.map_append]
        rfl
      · intro m hm
        rcases List.mem_append.1 hm with hm | hm
        · have := hnext m hm
          show m.id < max _ _
          omega
        · rw [List.mem_singleton.1 hm]
          show n.id < max _ _
          omega

end Arena

/-- A document that was written is read back, with an arena of the nodes that are reached. -/
theorem restore_ofDocument (positions : Bool) {d : Document} (h : ∀ n ∈ d.walk, 0 ≤ n.id) :
    restore (Archive.ofDocument positions d) =
      .ok (.document ⟨d.origin, d.statements.map (Node.archived positions),
        .ofNodes (d.walk.map (Node.archived positions)), [], [], []⟩) := by
  have hpos : ∀ n ∈ Node.walkFrom (d.statements.map (Node.archived positions)), 0 ≤ n.id := by
    intro n hn
    rw [Node.walkFrom_archived] at hn
    obtain ⟨m, hm, rfl⟩ := List.mem_map.1 hn
    rw [Node.id_archived]
    exact h m hm
  have hdocument :
    Restore.document (Restore.keyed [("_type", .text "Document"), ("origin", .text d.origin),
      ("statements", .list (d.statements.map (Archive.ofNode positions)))]) = .ok ⟨d.origin,
        d.statements.map (Node.archived positions), .ofNodes (d.walk.map (Node.archived positions)),
        [], [], []⟩ := by
    unfold Restore.document
    simp only [Restore.key, Restore.lookup_keyed]
    show (do
      let statements ← (d.statements.map (Archive.ofNode positions)).mapM Restore.node
      _) = _
    rw [mapM_ofNode]
    simp only [bind, Except.bind, Node.numberAll_eq hpos, Node.walkFrom_archived]
    rfl
  exact congrArg (Except.map Restored.document) hdocument

end Scad
