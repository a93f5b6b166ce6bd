import Mathlib.Data.Finset.Card
import Mathlib.Data.List.Basic
import Scad.Proofs.Resolve.Rule
import Scad.Proofs.Tree.Shape

/-! What file references bring in. Every exported name is bound to a declaration of one of the
documents that were visited, and references that go round in a circle come to an end. -/
namespace Scad

/-- A document whose arena holds what its statements reach. -/
structure Document.Consistent (d : Document) : Prop where
  shaped : ∀ n ∈ d.statements, n.AllShaped .any ∧ n.kind.isStatement
  stored : ∀ n ∈ d.walk, d.arena.get? n.id = some n

namespace Resolve

def Holds (documents : List (String × Document)) (d : Document) : Prop :=
  documents.find? (·.1 = d.origin) = some (d.origin, d)

/-- A binding to a declaration of a name, in one of the documents. -/
def Points (documents : List (String × Document)) (b : Binding) (name : String) : Prop :=
  ∃ d m e, Holds documents d ∧ m ∈ d.walk ∧ m.declaration? = some e ∧ e.name = name ∧
    b = e.binding d.origin

section

variable {documents documents' : List (String × Document)} {d : Document} {b : Binding}
  {name : String}

theorem Holds.unique {e : Document} (h : Holds documents d) (he : Holds documents e)
    (ho : d.origin = e.origin) :
    d = e := by
  rw [Holds, ho] at h
  exact (Prod.mk.inj (Option.some.inj (h.symm.trans he))).2

theorem Holds.mono (h : Holds documents d) (hp : documents <+: documents') :
    Holds documents' d := by
  obtain ⟨more, rfl⟩ := hp
  rw [Holds, List.find?_append, h]
  rfl

theorem Holds.added (h : ∀ e ∈ documents, e.1 ≠ d.origin) :
    Holds (documents ++ [(d.origin, d)]) d := by
  have hnone : documents.find? (·.1 = d.origin) = none :=
    List.find?_eq_none.2 fun e he => by simpa using h e he
  rw [Holds, List.find?_append, hnone]
  simp

theorem Points.mono (h : Points documents b name) (hp : documents <+: documents') :
    Points documents' b name := by
  obtain ⟨d, m, e, hd, h⟩ := h
  exact ⟨d, m, e, hd.mono hp, h⟩

end

namespace Exports

/-- Documents are visited one after another, and none twice. -/
structure Grows (before after : Exports) : Prop where
  documents : before.documents <+: after.documents
  seen : before.seen ⊆ after.seen

theorem Grows.refl (x : Exports) : Grows x x := ⟨List.prefix_refl _, List.Subset.refl _⟩

theorem Grows.trans {x y z : Exports} (h : Grows x y) (h' : Grows y z) : Grows x z :=
  ⟨h.documents.trans h'.documents, fun _ ho => h'.seen (h.seen ho)⟩

theorem Grows.enter (x : Exports) (d : Document) : Grows x (x.enter d) :=
  ⟨List.prefix_append _ _, List.subset_cons_self _ _⟩

theorem Grows.define (x : Exports) (c : NameClass) (name : String) (b : Binding) :
    Grows x (x.define c name b) := ⟨List.prefix_refl _, List.Subset.refl _⟩

/-- Everything that was exported is bound to one of the visited documents. -/
structure Sound (given : Document → Prop) (x : Exports) : Prop where
  seen : ∀ e ∈ x.documents, e.1 ∈ x.seen
  documents : ∀ e ∈ x.documents, e.1 = e.2.origin ∧ given e.2
  points : ∀ c name b, (x.frame.table c).lookup name = some b → Points x.documents b name

namespace Sound

variable {given : Document → Prop} {x : Exports}

theorem enter {d : Document} (h : Sound given x) (hd : given d) : Sound given (x.enter d) := by
  have hmem : ∀ e ∈ (x.enter d).documents, e ∈ x.documents ∨ e = (d.origin, d) := by
    intro e he
    simpa using List.mem_append.1 he
  refine ⟨fun e he => ?_, fun e he => ?_, fun c name b hb => ?_⟩
  · rcases hmem e he with he | rfl
    · exact List.mem_cons_of_mem _ (h.seen e he)
    · exact List.mem_cons_self ..
  · rcases hmem e he with he | rfl
    · exact h.documents e he
    · exact ⟨rfl, hd⟩
  · exact (h.points c name b hb).mono (List.prefix_append _ _)

theorem holds_enter {d : Document} (h : Sound given x) (hd : d.origin ∉ x.seen) :
    Holds (x.enter d).documents d := .added fun e he ho => hd (ho ▸ h.seen e he)

theorem define {name : String} {b : Binding} (h : Sound given x) (c : NameClass)
    (hb : Points x.documents b name) : Sound given (x.define c name b) := by
  refine ⟨h.seen, h.documents, fun c' other b' hl => ?_⟩
  rw [show (x.define c name b).frame = x.frame.define c name b from rfl, Frame.lookup_define] at hl
  split at hl
  · rename_i heq
    cases hl
    exact heq.2 ▸ hb
  · exact h.points c' other b' hl

end Sound

end Exports

open Exports (Grows Sound)

section

variable {deps : Dependencies} {withVariables : Bool}

theorem mem_of_find? {file : String} {d : Document} (h : deps.find? file = some d) :
    d ∈ deps.map Prod.snd := by
  obtain ⟨e, he, rfl⟩ := Option.map_eq_some_iff.1 h
  exact List.mem_map_of_mem (List.mem_of_find?_eq_some he)

/-- A statement of a dependency does nothing, leads to another dependency, or defines a name that it
declares. -/
theorem exportStatement_cases (origin : String) (nested : Document → Exports → Exports)
    (x : Exports) (n : Node) :
    exportStatement deps withVariables origin nested x n = x ∨
    (∃ d ∈ deps.map Prod.snd, exportStatement deps withVariables origin nested x n = nested d x) ∨
    ∃ c name b, exportStatement deps withVariables origin nested x n = x.define c name b ∧
      (n.form.Shaped .any → ∃ m ∈ n.preorder, ∃ e, m.declaration? = some e ∧ e.name = name ∧
        b = e.binding origin) := by
  unfold exportStatement
  split
  · split
    · rename_i d hfind
      exact .inr (.inl ⟨d, mem_of_find? hfind, rfl⟩)
    · exact .inl rfl
  · rename_i name ps b hf
    have hd : n.declaration? = some ⟨.moduleDef, name, n.id⟩ := by rw [Node.declaration?, hf]
    exact .inr (.inr ⟨_, _, _, rfl, fun _ => ⟨n, n.mem_preorder_self, _, hd, rfl, rfl⟩⟩)
  · rename_i name ps b hf
    have hd : n.declaration? = some ⟨.functionDef, name, n.id⟩ := by rw [Node.declaration?, hf]
    exact .inr (.inr ⟨_, _, _, rfl, fun _ => ⟨n, n.mem_preorder_self, _, hd, rfl, rfl⟩⟩)
  · rename_i t e hf
    split
    · refine .inr (.inr ⟨_, _, _, rfl, fun hs => ?_⟩)
      rw [hf] at hs
      have ht : t ∈ n.children := by simp [Node.children, hf, Form.children, Form.fields,
        Field.children]
      refine ⟨t, Node.child_mem_preorder n.mem_preorder_self ht, ?_⟩
      obtain ⟨info, form⟩ := t
      cases form <;> try cases hs.1
      exact ⟨_, rfl, rfl, rfl⟩
    · exact .inl rfl
  · exact .inl rfl

theorem exportStatement_grows {nested : Document → Exports → Exports}
    (h : ∀ d x, Grows x (nested d x)) (origin : String) (x : Exports) (n : Node) :
    Grows x (exportStatement deps withVariables origin nested x n) := by
  rcases exportStatement_cases origin nested x n with he | ⟨d, -, he⟩ |
    ⟨c, name, b, he, -⟩ <;> rw [he]
  · exact .refl x
  · exact h d x
  · exact .define x c name b

theorem exportFrom_grows (fuel : Nat) (d : Document) (x : Exports) :
    Grows x (exportFrom deps withVariables fuel d x) := by
  induction fuel generalizing d x with
  | zero => exact .refl x
  | succ fuel ih =>
      rw [exportFrom]
      split
      · exact .refl x
      · exact List.foldlRecOn d.statements _ (Grows.enter x d) fun y hy n _ =>
          hy.trans (exportStatement_grows ih ..)

theorem exportFrom_sound {given : Document → Prop} (hgiven : ∀ d ∈ deps.map Prod.snd, given d)
    (hconsistent : ∀ d, given d → d.Consistent) (fuel : Nat) {d : Document} (hd : given d)
    {x : Exports} (hx : Sound given x) : Sound given (exportFrom deps withVariables fuel d x) := by
  induction fuel generalizing d x with
  | zero => exact hx
  | succ fuel ih =>
      rw [exportFrom]
      split
      · exact hx
      · rename_i hnew
        -- The document stays where it was entered, so that its declarations can be pointed at.
        refine (List.foldlRecOn (motive := fun y => Sound given y ∧
          Grows (x.enter d) y) d.statements _ ⟨hx.enter hd, .refl _⟩ fun y ⟨hy, hgrown⟩ n hn =>
          ?_).1
        refine ⟨?_, hgrown.trans (exportStatement_grows (exportFrom_grows fuel) ..)⟩
        rcases exportStatement_cases d.origin (exportFrom deps withVariables fuel) y n with
          he | ⟨d', hd', he⟩ | ⟨c, name, b, he, hdeclares⟩ <;> rw [he]
        · exact hy
        · exact ih (hgiven d' hd') hy
        · obtain ⟨m, hm, e, hde, hname, hb⟩ := hdeclares ((hconsistent d hd).shaped n hn).1.self
          have hwalk : m ∈ d.walk := by
            exact Node.mem_walkFrom.2 ⟨n, hn, hm⟩
          have hholds := (hx.holds_enter hnew).mono hgrown.documents
          exact hy.define c ⟨d, m, e, hholds, hwalk, hde, hname, hb⟩

/-- All that a document's file references bring in is sound, and the document itself comes first. -/
theorem importAll_sound {given : Document → Prop} (hgiven : ∀ d ∈ deps.map Prod.snd, given d)
    (hconsistent : ∀ d, given d → d.Consistent) {d : Document} (hd : given d) :
    Sound given (importAll deps d) ∧ [(d.origin, d)] <+: (importAll deps d).documents := by
  have hempty : ∀ (c : NameClass) (name : String), (Frame.empty.table c).lookup name = none :=
    fun c _ => by cases c <;> rfl
  have hstart : Sound given ⟨Frame.empty, [d.origin], [(d.origin, d)]⟩ := by
    refine ⟨fun e he => ?_, fun e he => ?_, fun c name b hb => ?_⟩
    · cases List.mem_singleton.1 he
      exact List.mem_singleton_self _
    · cases List.mem_singleton.1 he
      exact ⟨rfl, hd⟩
    · rw [hempty] at hb
      cases hb
  refine List.foldlRecOn d.statements _ (motive := fun x => Sound given x ∧ _ <+: x.documents)
    ⟨hstart, List.prefix_refl _⟩ fun x ⟨hx, hp⟩ n _ => ?_
  split
  · split
    · rename_i hfind
      exact ⟨exportFrom_sound hgiven hconsistent _ (hgiven _ (mem_of_find? hfind)) hx,
        hp.trans (exportFrom_grows ..).documents⟩
    · exact ⟨hx, hp⟩
  · exact ⟨hx, hp⟩

/-! ### The bound on the depth -/

def unseen (deps : Dependencies) (x : Exports) : Finset String :=
  (deps.map (·.2.origin)).toFinset \ x.seen.toFinset

theorem card_unseen_le (deps : Dependencies) (x : Exports) :
    (unseen deps x).card ≤ deps.length := by
  calc (unseen deps x).card ≤ (deps.map (·.2.origin)).toFinset.card :=
    Finset.card_le_card Finset.sdiff_subset
    _ ≤ (deps.map (·.2.origin)).length := List.toFinset_card_le _
    _ = deps.length := List.length_map _

theorem Exports.Grows.unseen_le {x y : Exports} (h : Grows x y) :
    (unseen deps y).card ≤ (unseen deps x).card := by
  refine Finset.card_le_card (Finset.sdiff_subset_sdiff (Finset.Subset.refl _) fun o ho => ?_)
  exact List.mem_toFinset.2 (h.seen (List.mem_toFinset.1 ho))

theorem mem_unseen {d : Document} {x : Exports} (hd : d ∈ deps.map Prod.snd)
    (hnew : d.origin ∉ x.seen) :
    d.origin ∈ unseen deps x := by
  obtain ⟨e, he, rfl⟩ := List.mem_map.1 hd
  simp only [unseen, Finset.mem_sdiff, List.mem_toFinset]
  exact ⟨List.mem_map_of_mem he, hnew⟩

theorem unseen_enter_lt {d : Document} {x : Exports} (hd : d ∈ deps.map Prod.snd)
    (hnew : d.origin ∉ x.seen) :
    (unseen deps (x.enter d)).card < (unseen deps x).card := by
  refine Finset.card_lt_card (Finset.ssubset_iff_of_subset ?_ |>.2
    ⟨d.origin, mem_unseen hd hnew, ?_⟩)
  · exact Finset.sdiff_subset_sdiff (Finset.Subset.refl _) fun o ho =>
      List.mem_toFinset.2 (List.mem_cons_of_mem _ (List.mem_toFinset.1 ho))
  · simp [unseen, Exports.enter]

theorem foldl_congr_of {α β : Type} {P : β → Prop} {f g : β → α → β} {as : List α}
    {b : β} (hb : P b) (h : ∀ b, P b → ∀ a ∈ as, f b a = g b a ∧ P (g b a)) :
    as.foldl f b = as.foldl g b := by
  induction as generalizing b with
  | nil => rfl
  | cons a as ih =>
      obtain ⟨heq, hP⟩ := h b hb a (List.mem_cons_self ..)
      rw [List.foldl_cons, List.foldl_cons, heq]
      exact ih hP fun b hb a ha => h b hb a (List.mem_cons_of_mem _ ha)

theorem exportStatement_congr {nested nested' : Document → Exports → Exports} {x : Exports}
    (h : ∀ d ∈ deps.map Prod.snd, nested d x = nested' d x) (origin : String) (n : Node) :
    exportStatement deps withVariables origin nested x n =
      exportStatement deps withVariables origin nested' x n := by
  unfold exportStatement
  split
  · split
    · rename_i hfind
      exact h _ (mem_of_find? hfind)
    · rfl
  all_goals rfl

/-- More depth than there are documents to visit makes no difference. -/
theorem exportFrom_add {fuel : Nat} {d : Document} {x : Exports} (hd : d ∈ deps.map Prod.snd)
    (hfuel : (unseen deps x).card ≤ fuel) (k : Nat) :
    exportFrom deps withVariables (fuel + k) d x = exportFrom deps withVariables fuel d x := by
  induction fuel generalizing d x with
  | zero =>
      have hseen : d.origin ∈ x.seen := by
        by_contra hnew
        exact absurd (Finset.card_pos.2 ⟨_, mem_unseen hd hnew⟩) (by omega)
      cases k with
      | zero => rfl
      | succ k => exact if_pos hseen
  | succ fuel ih =>
      rw [show fuel + 1 + k = (fuel + k) + 1 by omega, exportFrom, exportFrom]
      split
      · rfl
      · rename_i hnew
        have hstart := unseen_enter_lt hd hnew
        refine foldl_congr_of (P := fun y => (unseen deps y).card ≤ fuel)
          (by omega) fun y hy n _ => ?_
        refine ⟨exportStatement_congr (fun d' hd' => ih hd' hy) d.origin n, ?_⟩
        exact (exportStatement_grows (exportFrom_grows fuel) ..).unseen_le.trans hy

end

end Resolve

end Scad
