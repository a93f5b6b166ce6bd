import Scad.Proofs.Json.Value
import Scad.Proofs.Tree.Shifted

/-! Every tree is told from all other trees by its JSON text: what is read back is the data that was
written, so that the same tree is restored from it. -/
namespace Scad

open Json (IsPlain IsTold)

def Restored.data (positions : Bool) : Restored → Data
  | .nothing => .null
  | .node n => Archive.ofNode positions n
  | .nodes ns => .list (ns.map (Archive.ofNode positions))
  | .document d => Archive.ofDocument positions d

def Restored.roots : Restored → List Node
  | .nothing => []
  | .node n => [n]
  | .nodes ns => ns
  | .document d => d.statements

namespace Archive

theorem plain_texts (ss : List String) : IsPlain (.list (ss.map Data.text)) := by
  refine .list fun d hd => ?_
  obtain ⟨s, -, rfl⟩ := List.mem_map.1 hd
  exact .text s

theorem plain_ofPosition (p : Position) : IsPlain (ofPosition p) := by
  refine .named (by simp) fun m hm => ?_
  simp only [List.mem_cons, List.not_mem_nil, or_false] at hm
  rcases hm with rfl | rfl | rfl <;> exact .int _

theorem plain_ofSpan (s : Span) : IsPlain (ofSpan s) := by
  refine .named (by simp) fun m hm => ?_
  simp only [List.mem_cons, List.not_mem_nil, or_false] at hm
  rcases hm with rfl | rfl | rfl
  · exact .text _
  · exact plain_ofPosition _
  · exact plain_ofPosition _

theorem plain_ofBinding (b : Binding) : IsPlain (ofBinding b) := by
  obtain ⟨kind, target, origin⟩ := b
  refine .named (by simp) fun m hm => ?_
  simp only [List.mem_cons, List.not_mem_nil, or_false] at hm
  rcases hm with rfl | rfl | rfl
  · exact .text _
  · cases target <;> constructor
  · cases origin <;> constructor

/-- The keys before the fields, each of its own and with an underscore in front. -/
theorem keys_header (positions : Bool) (kind : Kind) (i : Info) :
    ((header positions kind i).map (·.1)).Nodup ∧
      ∀ k ∈ (header positions kind i).map (·.1), k.toList.head? = some '_' := by
  obtain ⟨id, span, binding⟩ := i
  cases positions <;> cases binding <;> simp [header]

theorem plain_header (positions : Bool) (kind : Kind) (i : Info) :
    ∀ m ∈ header positions kind i, IsPlain m.2 := by
  obtain ⟨id, span, binding⟩ := i
  intro m hm
  rcases List.mem_append.1 hm with hm | hm
  · rcases List.mem_append.1 hm with hm | hm
    · simp only [List.mem_cons, List.not_mem_nil, or_false] at hm
      rcases hm with rfl | rfl
      · exact .text _
      · exact .int _
    · cases positions with
      | false => cases hm
      | true =>
          cases List.mem_singleton.1 hm
          exact plain_ofSpan span
  · obtain ⟨b, -, rfl⟩ := Option.map_eq_some_iff.1 (Option.mem_toList.1 hm)
    exact plain_ofBinding b

theorem plain_ofField {f : Field Data} (hchildren : ∀ d ∈ f.children, IsPlain d)
    (hnumber : ∀ x, f = .number (.real x) → IsTold x) : IsPlain (ofField f) := by
  cases f with
  | node d => exact hchildren d (List.mem_singleton_self d)
  | optional d =>
      cases d with
      | none => exact .null
      | some d => exact hchildren d (List.mem_singleton_self d)
  | nodes ds => exact .list hchildren
  | text s => exact .text s
  | texts ss => exact plain_texts ss
  | names set => exact plain_texts set.names
  | number n =>
      cases n with
      | int n => exact .int n
      | real x => exact .real (hnumber x rfl)
  | flag b => exact .bool b

end Archive

theorem Form.number_of_mem {α : Type} {f : Form α} {v : Number} (h : .number v ∈ f.fields) :
    f = .number v := by
  cases f <;> simp [fields] at h
  exact congrArg number h.symm

/-- If the node is a real literal, its value is one that the format can tell. -/
def Node.Tells (n : Node) : Prop := ∀ x, n.form = .number (.real x) → IsTold x

theorem Archive.plain_ofNode (positions : Bool) {n : Node} (h : ∀ m ∈ n.preorder, m.Tells) :
    IsPlain (ofNode positions n) := by
  induction n using Node.ofChildren with
  | h n ih =>
      obtain ⟨i, f⟩ := n
      have hchildren : ∀ c ∈ f.children, IsPlain (ofNode positions c) := by
        refine fun c hc => ih c hc fun m hm => h m ?_
        rw [Node.preorder_eq]
        exact List.mem_cons_of_mem _ (List.mem_flatMap.2 ⟨c, hc, hm⟩)
      have hfields : ∀ d ∈ f.fields, IsPlain (ofField (d.map (ofNode positions))) := by
        refine fun d hd => plain_ofField (fun e he => ?_) fun x hx => ?_
        · rw [Field.children_map] at he
          obtain ⟨c, hc, rfl⟩ := List.mem_map.1 he
          exact hchildren c (Form.mem_children hd hc)
        · have hnumber : d = .number (.real x) := by
            cases d <;> cases hx
            rfl
          exact h _ (Node.mem_preorder_self _) x (Form.number_of_mem (hnumber ▸ hd))
      have hslots : ∀ k ∈ f.kind.slots.map (·.1), k.toList.head? ≠ some '_' := by
        intro k hk
        obtain ⟨s, hs, rfl⟩ := List.mem_map.1 hk
        exact Kind.head_slot hs
      obtain ⟨hnodup, hheader⟩ := keys_header positions f.kind i
      rw [Restore.ofNode_mk]
      refine .named ?_ fun m hm => ?_
      · rw [List.map_append, f.map_fst_zip_fields, List.nodup_append]
        exact ⟨hnodup, f.kind.nodup_slots, fun a ha b hb hab => hslots b hb (hab ▸ hheader a ha)⟩
      · rcases List.mem_append.1 hm with hm | hm
        · exact plain_header positions f.kind i m hm
        · obtain ⟨d, hd, he⟩ := List.mem_map.1 (List.of_mem_zip hm).2
          exact he ▸ hfields d hd

theorem Archive.plain_ofNodes (positions : Bool) {ns : List Node}
    (h : ∀ n ∈ Node.walkFrom ns, n.Tells) :
    ∀ d ∈ ns.map (ofNode positions), IsPlain d := by
  intro d hd
  obtain ⟨n, hn, rfl⟩ := List.mem_map.1 hd
  refine plain_ofNode positions fun m hm => h m ?_
  exact Node.mem_walkFrom.2 ⟨n, hn, hm⟩

theorem Restored.plain_data (positions : Bool) {ast : Restored}
    (h : ∀ n ∈ Node.walkFrom ast.roots, n.Tells) :
    IsPlain (ast.data positions) := by
  have hroots := Archive.plain_ofNodes positions h
  cases ast with
  | nothing => exact .null
  | node n => exact hroots _ (List.mem_singleton_self _)
  | nodes ns => exact .list hroots
  | document d =>
      refine .named (by simp) fun m hm => ?_
      simp only [List.mem_cons, List.not_mem_nil, or_false] at hm
      rcases hm with rfl | rfl | rfl
      · exact .text _
      · exact .text _
      · exact .list hroots

namespace Json

theorem encode_isOk_iff (indent : Option Nat) (d : Data) :
    (∃ t, encode indent d = .ok t) ↔ ∀ n ∈ integers d, hasText n := by
  rw [encode, ← List.all_eq_true]
  constructor
  · rintro ⟨t, ht⟩
    split at ht
    · assumption
    · cases ht
  · intro hn
    exact ⟨_, if_pos hn⟩

theorem read_of_encode {indent : Option Nat} {d : Data} {t : String} (hd : IsPlain d)
    (ht : encode indent d = .ok t) : read t = .ok d := by
  have hn := (encode_isOk_iff indent d).1 ⟨t, ht⟩
  rw [encode, if_pos (List.all_eq_true.2 hn)] at ht
  cases ht
  exact read_write indent hd hn

/-- The text of whatever is written reads as what was written, and there is a text unless an integer
is too long for one. -/
theorem read_encode_data (positions : Bool) (indent : Option Nat) {ast : Restored}
    (h : ∀ n ∈ Node.walkFrom ast.roots, n.Tells) :
    (∀ t, encode indent (ast.data positions) = .ok t →
      read t = .ok (ast.data positions) ∧
        (read t).map restore = .ok (restore (ast.data positions))) ∧
    ((∃ t, encode indent (ast.data positions) = .ok t) ↔
      ∀ n ∈ integers (ast.data positions), Binary64.decimalLength n.natAbs ≤ 4300) := by
  refine ⟨fun t ht => ?_, ?_⟩
  · have hread := read_of_encode (ast.plain_data positions h) ht
    exact ⟨hread, by rw [hread]; rfl⟩
  · rw [encode_isOk_iff]
    exact forall₂_congr fun n _ => decide_eq_true_iff

/-- A text with a quote, a backslash, a line end and a character of two units, and the real -0.1. -/
theorem read_encode_literals : ∃ t, encode (some 2) (Restored.data true (.nodes
      [⟨⟨0, .unknown, none⟩, .string "\"\\\n😀"⟩,
        ⟨⟨1, .unknown, none⟩, .number (.real (.finite true 7205759403792794 (-56)))⟩])) = .ok t ∧
    read t = .ok (Restored.data true (.nodes
      [⟨⟨0, .unknown, none⟩, .string "\"\\\n😀"⟩,
        ⟨⟨1, .unknown, none⟩, .number (.real (.finite true 7205759403792794 (-56)))⟩])) := by
  have htells : ∀ n ∈ Node.walkFrom (Restored.roots (.nodes
      [⟨⟨0, .unknown, none⟩, .string "\"\\\n😀"⟩,
        ⟨⟨1, .unknown, none⟩, .number (.real (.finite true 7205759403792794 (-56)))⟩])),
        n.Tells := by
    intro n hn x hx
    rw [Node.walkFrom_eq] at hn
    rcases List.mem_cons.1 hn with rfl | hn
    · cases hx
    · cases List.mem_singleton.1 hn
      cases hx
      exact .finite ⟨by norm_num, by norm_num, by norm_num, .inl (by norm_num)⟩
  obtain ⟨hread, hok⟩ := read_encode_data true (some 2) htells
  obtain ⟨t, ht⟩ := hok.2 (by decide +kernel)
  exact ⟨t, ht, (hread t ht).1⟩

end Json

end Scad
