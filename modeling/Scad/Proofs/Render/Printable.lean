import Scad.Proofs.Token.Scan
import Scad.Tree.Document

/-! Trees whose text says the same as they do. Parentheses around a comprehension element are not
kept in a tree, and a point behind a number or before a digit would be part of a number. -/
namespace Scad

namespace Node

/-- Whether an `if` without an `else` stands at the end. -/
def endsInIf : Node → Bool
  | ⟨_, .letIn _ body⟩ => body.endsInIf
  | ⟨_, .each body⟩ => body.endsInIf
  | ⟨_, .forElement _ _ _ body⟩ => body.endsInIf
  | ⟨_, .ifElement _ _ none⟩ => true
  | ⟨_, .ifElement _ _ (some e)⟩ => e.endsInIf
  | ⟨_, .moduleCall _ child⟩ => child.endsInIf
  | ⟨_, .moduleRemark _ _ child⟩ => child.endsInIf
  | ⟨_, .moduleIf _ _ none⟩ => true
  | ⟨_, .moduleIf _ _ (some e)⟩ => e.endsInIf
  | ⟨_, .instantiation _ payload⟩ => payload.endsInIf
  | ⟨_, .moduleDefinition _ _ body⟩ => body.endsInIf
  | _ => false

/-- A node that can be told from its text. -/
structure Printable (n : Node) : Prop where
  finite : ∀ v, n.form = .number v → v.dyadic?.isSome
  target : ∀ t s ss v m, n.form = .call t (s :: ss) → t.form = .number v → s.form ≠ .memberSuffix m
  member : ∀ m c, n.form = .memberSuffix m → m.toList.head? = some c → Text.isDecimalDigit c = false
  ifElse : ∀ c t e, n.form = .ifElement c t (some e) → t.endsInIf = false

/-- Whether a node can be told from its text. -/
def isPrintable (n : Node) : Bool :=
  match n.form with
  | .number v => v.dyadic?.isSome
  | .call t (s :: _) => !(t.kind = .number && s.kind = .memberSuffix)
  | .memberSuffix m => !m.toList.head?.any Text.isDecimalDigit
  | .ifElement _ t (some _) => !t.endsInIf
  | _ => true

theorem isPrintable_iff (n : Node) : n.isPrintable = true ↔ n.Printable := by
  constructor
  · intro h
    refine ⟨fun v hn => ?_, fun t s ss v m hn ht hs => ?_, fun m c hn hc => ?_, fun c t e hn => ?_⟩
    all_goals rw [isPrintable, hn] at h
    · exact h
    · simp [Node.kind, ht, hs, Form.kind] at h
    · simpa [hc] using h
    · simpa using h
  · intro h
    unfold isPrintable
    split
    · rename_i v hn
      exact h.finite v hn
    · rename_i t s ss hn
      simp only [Bool.not_eq_true', Bool.and_eq_false_iff, decide_eq_false_iff_not]
      by_cases ht : t.kind = .number
      · right
        intro hs
        obtain ⟨v, hv⟩ : ∃ v, t.form = .number v := by
          cases hf : t.form <;> simp_all [Node.kind, Form.kind]
        obtain ⟨m, hm⟩ : ∃ m, s.form = .memberSuffix m := by
          cases hf : s.form <;> simp_all [Node.kind, Form.kind]
        exact h.target t s ss v m hn hv hm
      · exact .inl ht
    · rename_i m hn
      cases hc : m.toList.head? with
      | none => rfl
      | some c => simpa using h.member m c hn hc
    · rename_i c t e hn
      rw [h.ifElse c t e hn]
      rfl
    · rfl

instance (n : Node) : Decidable n.Printable := decidable_of_iff _ n.isPrintable_iff

def AllPrintable (n : Node) : Prop := ∀ m ∈ n.preorder, m.Printable

theorem AllPrintable.self {n : Node} (h : n.AllPrintable) : n.Printable :=
  h n (by rw [preorder_eq]; exact List.mem_cons_self ..)

theorem AllPrintable.child {i : Info} {f : Form Node} {c : Node} (h : (mk i f).AllPrintable)
    (hc : c ∈ f.children) :
    c.AllPrintable := by
  intro m hm
  refine h m ?_
  rw [preorder_eq]
  exact List.mem_cons_of_mem _ (List.mem_flatMap.2 ⟨c, hc, hm⟩)

theorem allPrintable_of_walkFrom {stack : List Node} (h : ∀ n ∈ walkFrom stack, n.Printable) :
    ∀ n ∈ stack, n.AllPrintable := by
  intro n hn m hm
  refine h m ?_
  exact mem_walkFrom.2 ⟨n, hn, hm⟩

end Node

def TextsMatchKinds (ts : List Token) : Prop := ∀ t ∈ ts, IsTextOf t.kind t.text

theorem TextsMatchKinds.head {t : Token} {ts : List Token} (h : TextsMatchKinds (t :: ts)) :
    IsTextOf t.kind t.text := h t (List.mem_cons_self ..)

theorem TextsMatchKinds.symbol {t : Token} {ts : List Token} {s : Symbol}
    (h : TextsMatchKinds (t :: ts)) (ht : t.kind = .symbol s) : t.text = s.text := by
  have hlaw := h.head
  rw [ht] at hlaw
  exact hlaw

theorem TextsMatchKinds.tail {t : Token} {ts : List Token} (h : TextsMatchKinds (t :: ts)) :
    TextsMatchKinds ts :=
  fun u hu => h u (List.mem_cons_of_mem _ hu)

end Scad
