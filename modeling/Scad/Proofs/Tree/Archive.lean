import Mathlib.Data.List.Basic
import Scad.Proofs.Tree.Bare
import Scad.Tree.Restore

/-! A tree that was written as plain data is read back as it was: with its ids and bindings, and
with its ranges if they were written. -/
namespace Scad

theorem Form.ext_fields {α : Type} {f g : Form α} (hk : f.kind = g.kind)
    (hf : f.fields = g.fields) : f = g := by
  have h := ofFields?_fields f
  rw [hk, hf, ofFields?_fields] at h
  exact (Option.some.inj h).symm

theorem Field.map_congr_of {α β : Type} {g h : α → β} {f : Field α}
    (hc : ∀ c ∈ f.children, g c = h c) :
    f.map g = f.map h := by
  cases f with
  | node c => exact congrArg node (hc c (List.mem_singleton_self c))
  | optional c =>
      exact congrArg optional (Option.map_congr fun c hm => hc c (Option.mem_toList.2 hm))
  | nodes cs => exact congrArg nodes (List.map_congr_left hc)
  | _ => rfl

theorem Form.mem_children {α : Type} {f : Form α} {d : Field α} (hd : d ∈ f.fields) {c : α}
    (hc : c ∈ d.children) :
    c ∈ f.children := List.mem_flatMap.2 ⟨d, hd, hc⟩

theorem Form.map_congr_of {α β : Type} {g h : α → β} {f : Form α}
    (hc : ∀ c ∈ f.children, g c = h c) :
    f.map g = f.map h := by
  refine ext_fields (by rw [kind_map, kind_map]) ?_
  rw [fields_map, fields_map]
  exact List.map_congr_left fun d hd => Field.map_congr_of fun c hm => hc c (mem_children hd hm)

theorem Form.map_id {α : Type} (f : Form α) : f.map id = f := by
  refine ext_fields (kind_map _ f) ?_
  rw [fields_map]
  refine (List.map_congr_left fun d _ => ?_).trans (List.map_id _)
  cases d <;> simp [Field.map]

/-- Every field has a slot, under whose name it is written. -/
theorem Form.map_fst_zip_fields {α β : Type} (f : Form α) (g : Field α → β) :
    ((f.kind.slots.map (·.1)).zip (f.fields.map g)).map (·.1) = f.kind.slots.map (·.1) := by
  refine List.map_fst_zip ?_
  simpa using Nat.le_of_eq (congrArg List.length f.map_slot_fields.symm)

namespace Node

/-- What is kept of a tree when it is written. -/
def archived (positions : Bool) (n : Node) : Node :=
  n.fold fun m form => ⟨{ m.info with span := if positions then m.span else .unknown }, form⟩

section

variable (positions : Bool) (n : Node)

theorem archived_mk (i : Info) (f : Form Node) : (mk i f).archived positions =
    ⟨{ i with span := if positions then i.span else .unknown }, f.map (archived positions)⟩ :=
  fold_mk _ i f

theorem id_archived : (n.archived positions).id = n.id := by
  obtain ⟨i, f⟩ := n
  rw [archived_mk]
  rfl

theorem children_archived :
    (n.archived positions).children = n.children.map (archived positions) := by
  obtain ⟨i, f⟩ := n
  rw [archived_mk]
  exact Form.children_map ..

theorem walkFrom_archived (ns : List Node) :
    walkFrom (ns.map (archived positions)) = (walkFrom ns).map (archived positions) :=
  walkFrom_map (children_archived positions) ns

/-- With positions everything is kept. -/
theorem archived_true : n.archived true = n := by
  induction n using ofChildren with
  | h n ih =>
      obtain ⟨i, f⟩ := n
      have hform : f.map (archived true) = f := (Form.map_congr_of ih).trans f.map_id
      rw [archived_mk, hform]
      rfl

end

end Node

namespace Kind

theorem ofName?_name (k : Kind) : ofName? k.name = some k := by
  cases k <;> (try rename_i variant; cases variant) <;> decide

theorem name_ne_document (k : Kind) : k.name ≠ "Document" := by
  cases k <;> (try rename_i variant; cases variant) <;> decide

theorem nodup_slots (k : Kind) : (k.slots.map (·.1)).Nodup := by
  cases k <;> simp [slots]

theorem head_slot {k : Kind} {s : String × Slot} (h : s ∈ k.slots) :
    s.1.toList.head? ≠ some '_' := by
  have hplain : k.slots.all (fun s => s.1.toList.head? ≠ some '_') = true := by cases k <;> rfl
  exact of_decide_eq_true (List.all_eq_true.1 hplain s h)

theorem isField_of_mem {k : Kind} {s : String × Slot} (h : s ∈ k.slots) :
    Restore.isField k s.1 := by
  rw [Restore.isField, decide_eq_true (head_slot h), Bool.true_and]
  exact List.any_eq_true.2 ⟨s, h, decide_eq_true rfl⟩

theorem slot_modifiers {k : Kind} {s : Slot} (h : ("modifiers", s) ∈ k.slots) : s = .names := by
  cases k <;> simp [slots] at h
  exact h

end Kind

namespace Restore

def keyed (fields : List (String × Data)) : Fields := fields.map fun d => (.text d.1, d.2)

theorem lookup_keyed (key : String) (fields : List (String × Data)) :
    Data.lookup key (keyed fields) = (fields.find? (·.1 = key)).map (·.2) := by
  have hkey : (fun d : Scalar × Data => decide (d.1 = .text key)) ∘
    (fun d : String × Data => (.text d.1, d.2)) =
      fun d => decide (d.1 = key) := by
    funext d
    simp
  rw [Data.lookup, keyed, List.find?_map, Option.map_map, hkey]
  rfl

theorem binding_ofBinding (b : Binding) : binding (Archive.ofBinding b) = .ok b := by
  obtain ⟨kind, target, origin⟩ := b
  cases kind <;> cases target <;> cases origin <;> rfl

/-- What a field's data reads as. -/
def loose : Field Node → Loose
  | .node n => .node n
  | .optional n => (n.map Loose.node).getD .null
  | .nodes ns => .list (ns.map .node)
  | .text s => .plain (.text s)
  | .texts ss => .list (ss.map fun s => .plain (.text s))
  | .names set => .list (set.names.map fun s => .plain (.text s))
  | .number n => .plain (Data.ofNumber n)
  | .flag b => .plain (.bool b)

theorem looseNodes_map (ns : List Node) : looseNodes (ns.map .node) = some ns := by
  induction ns with
  | nil => rfl
  | cons n ns ih => simp [looseNodes, ih]

theorem looseTexts_map (ss : List String) :
    looseTexts (ss.map fun s => .plain (.text s)) = some ss := by
  induction ss with
  | nil => rfl
  | cons s ss ih => simp [looseTexts, ih]

theorem members_loose (set : NameSet) : members (loose (.names set)) = .ok set := by
  rw [loose, members, looseTexts_map]
  exact congrArg Except.ok (NameSet.ofList_names set)

theorem fieldOf_loose (f : Field Node) : fieldOf f.slot (loose f) = some f := by
  cases f with
  | optional n => cases n <;> rfl
  | nodes ns => rw [Field.slot, loose, fieldOf, looseNodes_map]; rfl
  | texts ss => rw [Field.slot, loose, fieldOf, looseTexts_map]; rfl
  | names set => rw [Field.slot, fieldOf, members_loose]; rfl
  | number n => cases n <;> rfl
  | _ => rfl

section

variable {positions : Bool}

theorem valueList_map {α : Type} {data : α → Data} {read : α → Loose} {as : List α}
    (h : ∀ a ∈ as, value (data a) = .ok (read a)) :
    valueList (as.map data) = .ok (as.map read) := by
  induction as with
  | nil => rfl
  | cons a as ih =>
      rw [List.map_cons, valueList, h a (List.mem_cons_self ..),
        ih fun b hb => h b (List.mem_cons_of_mem _ hb)]
      rfl

theorem value_list {α : Type} {data : α → Data} {read : α → Loose} {as : List α}
    (h : ∀ a ∈ as, value (data a) = .ok (read a)) :
    value (.list (as.map data)) = .ok (.list (as.map read)) := by
  rw [value, valueList_map h]
  rfl

/-- A field is read if the nodes in it are. -/
theorem value_ofField {f : Field Node}
    (h : ∀ c ∈ f.children, value (Archive.ofNode positions c) =
      .ok (.node (c.archived positions))) :
    value (Archive.ofField (f.map (Archive.ofNode positions))) =
      .ok (loose (f.map (Node.archived positions))) := by
  cases f with
  | node c => exact h c (List.mem_singleton_self c)
  | optional c =>
      cases c with
      | none => rfl
      | some c => exact h c (List.mem_singleton_self c)
  | nodes cs =>
      rw [Field.map, Field.map, Archive.ofField, loose, List.map_map]
      exact value_list h
  | texts ss => exact value_list fun s _ => rfl
  | names set => exact value_list fun s _ => rfl
  | number n => cases n <;> rfl
  | _ => rfl

end

/-- The fields of a node between its kind and its data. -/
theorem fieldValues_zip {k : Kind} {slots : List (String × Slot)} {fields : List (Field Node)}
    {data : Field Node → Data} {read : Field Node → Field Node} (hslots : ∀ s ∈ slots, s ∈ k.slots)
    (hslot : slots.map (·.2) = fields.map Field.slot) (hread : ∀ f ∈ fields, (read f).slot = f.slot)
    (h : ∀ f ∈ fields, value (data f) = .ok (loose (read f))) :
    fieldValues k (keyed ((slots.map (·.1)).zip (fields.map data))) =
      .ok ((slots.map (·.1)).zip (fields.map fun f => loose (read f))) := by
  induction slots generalizing fields with
  | nil => rfl
  | cons s slots ih =>
      cases fields with
      | nil => cases hslot
      | cons f fields =>
          obtain ⟨name, slot⟩ := s
          obtain ⟨hs, hslot⟩ := List.cons.inj hslot
          have hmem := hslots _ (List.mem_cons_self ..)
          have hrest := ih (fun s hs => hslots s (List.mem_cons_of_mem _ hs)) hslot
            (fun f hf => hread f (List.mem_cons_of_mem _ hf)) fun f hf =>
              h f (List.mem_cons_of_mem _ hf)
          have hset : name = "modifiers" → ∃ set, members (loose (read f)) = .ok set := by
            rintro rfl
            have hnames : (read f).slot = .names :=
              (hread f (List.mem_cons_self ..)).trans (hs.symm.trans (Kind.slot_modifiers hmem))
            cases hf : read f <;> rw [hf] at hnames <;> cases hnames
            exact ⟨_, members_loose _⟩
          rw [keyed] at hrest
          simp only [keyed, List.map_cons, List.zip_cons_cons, fieldValues,
            Kind.isField_of_mem hmem, if_true, h f (List.mem_cons_self ..), hrest]
          by_cases hname : name = "modifiers"
          · obtain ⟨set, hset⟩ := hset hname
            simp [hname, hset, bind, Except.bind, pure, Except.pure]
          · simp [hname, bind, Except.bind, pure, Except.pure]

/-! ### Nodes -/

theorem find?_of_mem {ps : List (String × Loose)} (hn : (ps.map (·.1)).Nodup) {p : String × Loose}
    (hp : p ∈ ps) :
    (ps.find? (·.1 = p.1)).map (·.2) = some p.2 := by
  induction ps with
  | nil => cases hp
  | cons q ps ih =>
      obtain ⟨hq, hn⟩ := List.nodup_cons.1 hn
      rcases List.mem_cons.1 hp with rfl | hp
      · simp
      · have hne : q.1 ≠ p.1 := fun he => hq (List.mem_map.2 ⟨p, hp, he.symm⟩)
        rw [List.find?_cons_of_neg (by simpa using hne), ih hn hp]

/-- Fields that are found under their names are put in their slots. -/
theorem gather {slots : List (String × Slot)} {fields : List (Field Node)}
    (found : String → Option Loose) (hslot : slots.map (·.2) = fields.map Field.slot)
    (h : ∀ p ∈ (slots.map (·.1)).zip (fields.map loose), found p.1 = some p.2) :
    (slots.mapM fun s => (found s.1).bind (fieldOf s.2)) = some fields ∧
      slots.filterMap (fun s => if (found s.1).isNone then some s.1 else none) = [] := by
  induction slots generalizing fields with
  | nil =>
      cases fields with
      | nil => exact ⟨rfl, rfl⟩
      | cons f fields => cases hslot
  | cons s slots ih =>
      cases fields with
      | nil => cases hslot
      | cons f fields =>
          obtain ⟨name, slot⟩ := s
          obtain ⟨hs, hrest⟩ := List.cons.inj hslot
          obtain rfl : slot = f.slot := hs
          obtain ⟨hparts, habsent⟩ := ih hrest fun p hp => h p (List.mem_cons_of_mem _ hp)
          have hfound : found name = some (loose f) := h (name, loose f) (List.mem_cons_self ..)
          constructor
          · simp only [List.mapM_cons, hparts, hfound, Option.bind_some, fieldOf_loose]
            rfl
          · rw [List.filterMap_cons, habsent]
            simp [hfound]

section

variable (positions : Bool) (i : Info) (f : Form Node)

theorem ofNode_mk :
    Archive.ofNode positions ⟨i, f⟩ =
      .record (keyed (Archive.header positions f.kind i ++ (f.kind.slots.map (·.1)).zip
      (f.fields.map fun d => Archive.ofField (d.map (Archive.ofNode positions))))) := by
  rw [Archive.ofNode, Node.fold_mk, Form.fields_map, List.map_map]
  rfl

end

/-- What a record of a node says of it, beside its fields. -/
structure Labelled (positions : Bool) (kind : Kind) (i : Info) (record : Fields) : Prop where
  type : Data.lookup "_type" record = some (.text kind.name)
  id : Data.lookup "_id" record = some (.int i.id)
  span : Data.lookup "_span" record = if positions then some (Archive.ofSpan i.span) else none
  binding : Data.lookup "_binding" record = i.binding.map Archive.ofBinding

theorem labelled (positions : Bool) (kind : Kind) (i : Info) {fields : List (String × Data)}
    (h : ∀ d ∈ fields, d.1.toList.head? ≠ some '_') :
    Labelled positions kind i (keyed (Archive.header positions kind i ++ fields)) := by
  have hnone : ∀ key : String, key.toList.head? = some '_' → fields.find? (·.1 = key) = none := by
    intro key hk
    refine List.find?_eq_none.2 fun d hd he => h d hd ?_
    rw [of_decide_eq_true he, hk]
  obtain ⟨id, span, binding⟩ := i
  constructor <;> rw [lookup_keyed, List.find?_append, hnone _ (by decide)] <;>
    cases positions <;> cases binding <;> rfl

theorem opening_of_labelled {positions : Bool} {kind : Kind} {i : Info} {record : Fields}
    (h : Labelled positions kind i record) :
    opening record = .ok ⟨kind, if positions then i.span else .unknown⟩ := by
  have hkind : Restore.kind record = .ok kind := by
    rw [Restore.kind, h.type]
    simp only [Kind.ofName?_name]
  rw [opening, hkind, h.span]
  cases positions <;> rfl

theorem close_of_labelled {positions : Bool} {i : Info} {f : Form Node} {record : Fields}
    (span : Span) (h : Labelled positions f.kind i record) :
    close ⟨f.kind, span⟩ record ((f.kind.slots.map (·.1)).zip (f.fields.map loose)) =
      .ok ⟨{ i with span }, f⟩ := by
  have hslot := f.map_slot_fields.symm
  have hnodup : (((f.kind.slots.map (·.1)).zip (f.fields.map loose)).map (·.1)).Nodup := by
    rw [f.map_fst_zip_fields]
    exact f.kind.nodup_slots
  obtain ⟨hparts, habsent⟩ := gather (fun name =>
    (((f.kind.slots.map (·.1)).zip (f.fields.map loose)).find? (·.1 = name)).map (·.2)) hslot
    fun p hp => find?_of_mem hnodup hp
  unfold close
  rw [h.binding, h.id]
  simp only [hparts, habsent, Option.bind_some, Form.ofFields?_fields]
  obtain ⟨id, _, bound⟩ := i
  cases bound with
  | none => rfl
  | some b =>
      simp only [Option.map_some, binding_ofBinding]
      rfl

theorem fieldValues_skip {k : Kind} {name : String} (h : name.toList.head? = some '_') (d : Data)
    (rest : Fields) :
    fieldValues k ((.text name, d) :: rest) = fieldValues k rest := by
  have hfield : isField k name = false := by simp [isField, h]
  simp only [fieldValues, hfield]
  rfl

theorem fieldValues_header (positions : Bool) (k : Kind) (i : Info)
    (fields : List (String × Data)) :
    fieldValues k (keyed (Archive.header positions k i ++ fields)) =
      fieldValues k (keyed fields) := by
  obtain ⟨id, span, binding⟩ := i
  cases positions <;> cases binding <;>
    simp (disch := decide) [Archive.header, keyed, fieldValues_skip]

/-- A node is read in the place of a field, too. -/
theorem value_ofNode (positions : Bool) (n : Node) :
    value (Archive.ofNode positions n) = .ok (.node (n.archived positions)) ∧
      node (Archive.ofNode positions n) = .ok (n.archived positions) := by
  induction n using Node.ofChildren with
  | h n ih =>
      obtain ⟨i, f⟩ := n
      rw [ofNode_mk, Node.archived_mk]
      have hfields : ∀ d ∈ f.fields, value (Archive.ofField (d.map (Archive.ofNode positions))) =
          .ok (loose (d.map (Node.archived positions))) :=
        fun d hd => value_ofField fun c hc => (ih c (Form.mem_children hd hc)).1
      have hslot : ∀ d ∈ f.fields, (d.map (Node.archived positions)).slot = d.slot := by
        intro d _
        cases d <;> rfl
      have hvalues := fieldValues_zip (fun _ h => h) f.map_slot_fields.symm hslot hfields
      have hplain : ∀ d ∈ (f.kind.slots.map (·.1)).zip (f.fields.map fun x =>
          Archive.ofField (x.map (Archive.ofNode positions))), d.1.toList.head? ≠ some '_' := by
        intro d hd
        obtain ⟨s, hs, he⟩ := List.mem_map.1 (List.of_mem_zip hd).1
        rw [← he]
        exact Kind.head_slot hs
      have hlabels := labelled positions f.kind i hplain
      have hclose := close_of_labelled (f := f.map (Node.archived positions))
        (if positions then i.span else .unknown) (by rw [Form.kind_map]; exact hlabels)
      simp only [Form.kind_map, Form.fields_map, List.map_map, Function.comp_def] at hclose
      constructor
      · simp only [value, hlabels.type, Option.isSome_some, if_true, opening_of_labelled hlabels,
          fieldValues_header, hvalues, hclose, bind, Except.bind, pure, Except.pure]
      · simp only [node, opening_of_labelled hlabels, fieldValues_header, hvalues, hclose,
          bind, Except.bind]
end Restore

theorem Archive.lookup_type (positions : Bool) (n : Node) :
    ∃ fields, ofNode positions n = .record fields ∧
      Data.lookup "_type" fields = some (.text n.kind.name) := by
  obtain ⟨i, f⟩ := n
  exact ⟨_, Restore.ofNode_mk positions i f, rfl⟩

theorem mapM_ofNode (positions : Bool) (ns : List Node) :
    (ns.map (Archive.ofNode positions)).mapM Restore.node =
      .ok (ns.map (Node.archived positions)) := by
  induction ns with
  | nil => rfl
  | cons n ns ih =>
      rw [List.map_cons, List.mapM_cons, (Restore.value_ofNode positions n).2, ih]
      rfl

/-- A tree that was written is read back with all that was kept of it. -/
theorem restore_ofNode (positions : Bool) (n : Node) :
    restore (Archive.ofNode positions n) = .ok (.node (n.archived positions)) := by
  obtain ⟨fields, hn, htype⟩ := Archive.lookup_type positions n
  have hnode := (Restore.value_ofNode positions n).2
  rw [hn] at hnode ⊢
  rw [restore, htype]
  split
  · rename_i h
    exact absurd (Scalar.text.inj (Data.scalar.inj (Option.some.inj h))) n.kind.name_ne_document
  · rw [hnode]
    rfl

theorem restore_ofNodes (positions : Bool) (ns : List Node) :
    restore (.list (ns.map (Archive.ofNode positions))) =
      .ok (.nodes (ns.map (Node.archived positions))) := by
  rw [restore, mapM_ofNode]
  rfl

end Scad
