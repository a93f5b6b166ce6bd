import Scad.Proofs.Render.Total
import Scad.Proofs.Tree.WalkOrder
import Scad.Proofs.Render.Written.Call
import Scad.Proofs.Render.Written.Expression

/-! What was parsed without errors from a text is written in passages, all the way down, if its
numbers are finite and no call brings about a word that a file follows. -/
namespace Scad

open List (Forall₂)
open Grammar (TextsScanned)
open Parse (maxNesting)

/-- All that the text of a part of an expression depends on, all the way down. -/
def Node.Intact (n : Node) : Prop :=
  ∀ m ∈ n.preorder, m.form.Shaped .proper ∧ TextsScanned m.form ∧ m.isFinite ∧ m.isContained

theorem Node.Intact.self {n : Node} (h : n.Intact) :
    n.form.Shaped .proper ∧ TextsScanned n.form ∧ n.isFinite ∧ n.isContained :=
  h n n.mem_preorder_self

theorem Node.Intact.mono {n m : Node} (h : n.Intact) (hm : m ∈ n.preorder) : m.Intact :=
  fun d hd => h d ((sublist_preorder hm).subset hd)

theorem Node.Intact.child {n c : Node} (h : n.Intact) (hc : c ∈ n.children) : c.Intact :=
  h.mono (child_mem_preorder n.mem_preorder_self hc)

theorem Node.Intact.writes {n : Node} (h : n.Intact) (hk : n.kind.isPart) : ∃ p, n.Writes p := by
  induction n using Node.ofChildren with
  | h n ih =>
      obtain ⟨i, f⟩ := n
      obtain ⟨hshape, hletters, hfinite, hcontained⟩ := h.self
      have hparts : f.PartsWritten := fun c hc hkc => ih c hc (h.child hc) hkc
      have hscanned : ∀ c ∈ f.children, TextsScanned c.form := fun c hc => (h.child hc).self.2.1
      cases f with
      | number v =>
          obtain ⟨t, x, ht, hx, rfl⟩ := hletters
          exact writes_number ht hx hfinite
      | string t => exact ⟨_, writes_string hletters⟩
      | variableRef t => exact ⟨_, writes_name hletters (.inl rfl)⟩
      | variableDefinition t => exact ⟨_, writes_name hletters (.inr (.inl rfl))⟩
      | argumentName t => exact ⟨_, writes_name hletters (.inr (.inr (.inl rfl)))⟩
      | boolean v => exact writes_boolean v
      | undefined => exact ⟨_, writes_word (.inr (.inr ⟨rfl, rfl⟩))⟩
      | paren e => exact written_paren hshape hparts
      | vector es => exact written_vector hshape hparts
      | range a b s => exact written_range hshape hparts
      | ternary c t e => exact written_ternary hshape hparts
      | chain level xs ops => exact written_chain hshape hparts
      | unary op e => exact written_unary hletters hshape hparts
      | power b e => exact written_power hshape hparts
      | call t ss =>
          have hsuffixes : ∀ s ∈ ss, TextsScanned s.form := fun s hs =>
            hscanned s (by simp [Form.children, Form.fields, Field.children, hs])
          exact written_call hsuffixes hcontained hshape hparts
      | callSuffix as => exact written_arguments hshape hparts
      | indexSuffix e => exact written_index hshape hparts
      | functionLiteral as b => exact written_functionLiteral hshape hparts
      | letIn as b => exact written_let hshape hparts
      | remark verb as b => exact written_remark hshape hparts
      | each b => exact written_each hshape hparts
      | loopUpdate t e => exact written_update hshape hparts
      | forElement as c us b => exact written_loop hshape hparts
      | ifElement c t e => exact written_if hshape hparts
      | parameter x d => exact written_parameter hletters hshape hparts
      | argument l e => exact written_argument hshape hparts
      | assignment t e =>
          exact written_assignment (hscanned t (List.mem_cons_self ..)) hshape hparts
      | _ => cases hk

/-- The shapes of the nodes of a document without errors, and where they come from. -/
theorem Parse.clean_walk {text name : String} {origin : Option String} {p : Parsed}
    (hp : parse (tokenize text name).tokens origin = .ok p) (hc : p.document.syntaxErrors = []) :
    ∃ ts, TextsMatchKinds ts ∧ ∀ n ∈ p.document.walk, ∀ m ∈ n.preorder, m.form.Shaped .proper ∧
      Grammar.IsMadeFrom ts (Grammar.LevelsBelow maxNesting) m := by
  obtain ⟨s, hs⟩ := produced_of_text hp
  obtain ⟨ts, mark, htokens, hended⟩ := ended_tokenize text name
  have hlawful : TextsMatchKinds ts := textsMatchKinds_of_tokens htokens
  rw [htokens] at hp
  have hrooted := (hended.program hp hc).rooted hlawful
  refine ⟨ts, hlawful, fun n hn m hm => ?_⟩
  obtain ⟨r, hr, hn⟩ := Node.mem_walkFrom.1 hn
  have hm := (Node.sublist_preorder hn).subset hm
  exact ⟨hs.shapedBelow (hs.statements r hr).1 m hm, hrooted r hr m hm⟩

end Scad
