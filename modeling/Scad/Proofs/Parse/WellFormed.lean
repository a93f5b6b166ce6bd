import Scad.Proofs.Parse.Effect.Program
import Scad.Proofs.Token.Scan

/-! Every node that is made for a scanned text has the shape that its kind asks for, whether the
text is a program or not. -/
namespace Scad

open Parse (source body)

namespace Parse

theorem operator_of_isTextOf {t : Token} {level : ChainLevel} (h : IsTextOf t.kind t.text)
    (ho : isOperator level t.kind) : Spelling.proper.operator level t.text := by
  simp only [isOperator, List.any_eq_true, decide_eq_true_eq] at ho
  obtain ⟨sign, hsign, hk⟩ := ho
  rw [hk] at h
  exact List.mem_map.2 ⟨sign, hsign, h.symm⟩

/-- A name's token tells whether it is one of the modules that declare variables. -/
theorem head_of_isTextOf {t : Token} (h : IsTextOf t.kind t.text)
    (hn : Grammar.namesModule t.kind) :
    Spelling.proper.head t.text (declaresVariables t) := by
  show (decide (t.kind ≠ .identifier) || decide (t.text = "intersection_for")) =
    decide (t.text ∈ Resolve.pseudoModules)
  unfold Grammar.namesModule at hn
  split at hn
  · rename_i hk
    rw [hk] at h
    have hword : ∀ w : Keyword, t.text ≠ w.text := by
      intro w hw
      have hnone : Keyword.ofText? w.text = none := hw ▸ h.2
      revert hnone
      cases w <;> decide
    have hfor : t.text ≠ "for" := hword .forLoop
    have hlet : t.text ≠ "let" := hword .letIn
    have heach : t.text ≠ "each" := hword .each
    simp [hk, Resolve.pseudoModules, hfor, hlet, heach]
  -- A keyword's text is known.
  · rename_i hk
    rw [hk] at h
    rw [hk, h]
    decide
  · rename_i hk
    rw [hk] at h
    rw [hk, h]
    decide
  · rename_i hk
    rw [hk] at h
    rw [hk, h]
    decide
  · cases hn

def scannedTokens (tokens : List Token) (origin : Option String) : Setting where
  src := source tokens origin
  nodes := []
  spelling := .proper
  token t := t.kind ≠ .eof ∧ IsTextOf t.kind t.text
  breaks := True
  stop := stop_source tokens origin
  running h := h.1
  operator h := operator_of_isTextOf h.2
  head h := head_of_isTextOf h.2
  numeral _ _ := .inr trivial

end Parse

theorem parse_well_formed {text name : String} {origin : Option String} {p : Parse.Parsed}
    (h : parse (tokenize text name).tokens origin = .ok p) :
    ∀ n ∈ p.document.arena.nodes, n.form.Shaped .proper := by
  obtain ⟨ts, mark, htokens, hmark, -, hlaw⟩ := tokenize_isTextOf text name
  have htoken : ∀ t ∈ body (tokenize text name).tokens, t.kind ≠ .eof ∧ IsTextOf t.kind t.text := by
    intro t ht
    have hmem := List.takeWhile_subset _ ht
    rw [htokens, List.mem_append, List.mem_singleton] at hmem
    rcases hmem with hmem | rfl
    · exact ⟨Parse.running_body ht, (hlaw t hmem).1⟩
    · exact absurd hmark (Parse.running_body ht)
  have hp :=
    Parse.parse_produces (Parse.scannedTokens (tokenize text name).tokens origin) rfl htoken
  rw [h] at hp
  obtain ⟨s, hs⟩ := hp
  intro n hn
  refine hs.shaped n ?_
  rw [hs.arena] at hn
  simpa [Arena.nodes, Arena.ofMade] using hn

/-- A text with errors in it. -/
theorem parse_well_formed_broken : ∃ p,
    parse (tokenize "for(i=[1:2]) cube(i, x = 1 + 2 * ; \x7d" "").tokens none = .ok p ∧
      ∀ n ∈ p.document.arena.nodes, n.form.Shaped .proper := by
  have hok : (parse (tokenize "for(i=[1:2]) cube(i, x = 1 + 2 * ; \x7d" "").tokens none).isOk := by
    decide +kernel
  obtain ⟨p, h⟩ := Parse.exists_of_isOk hok
  exact ⟨p, h, parse_well_formed h⟩

end Scad
