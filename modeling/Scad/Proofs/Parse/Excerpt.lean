import Scad.Proofs.Grammar.Excerpt
import Scad.Proofs.Parse.Nesting
import Scad.Proofs.Token.Excerpt

/-! The range of a statement is exactly its text: cut out of a text without errors and read alone,
it is this statement and nothing more. -/
namespace Scad

open Grammar (Program NearestElse)
open Parse (maxNesting Parsed)

namespace Ended

variable {ts us : List Token} {mark mark' : Token} {ss : List Node}

/-- A program is parsed to the tree that the grammar gives it. -/
theorem accepted (h : Ended ts mark) (hss : Program NearestElse maxNesting ts ss)
    (name : Option String) :
    ∃ p, parse (ts ++ [mark]) name = .ok p ∧ p.document.syntaxErrors = [] ∧
      p.document.statements.map Node.bare = ss.map Node.bare := by
  have hstop : (Parse.source (ts ++ [mark]) name).stop.kind = .eof := by
    rw [h.stop]
    exact h.kind
  exact Parse.parse_complete hstop (h.body.symm ▸ hss)

/-- So are tokens that are spelled in the same way. -/
theorem reparse (h : Ended ts mark) (h' : Ended us mark')
    (hs : ts.map Token.spelling = us.map Token.spelling)
    (hss : Program NearestElse maxNesting ts ss) (name : Option String) :
    ∃ q, parse (us ++ [mark']) name = .ok q ∧ q.document.syntaxErrors = [] ∧
      q.document.statements.map Node.bare = ss.map Node.bare := by
  obtain ⟨p, hp, hpc, hpBare⟩ := h.accepted hss none
  obtain ⟨ss', hss', hbare⟩ := h.respelled h' hs hp hpc
  obtain ⟨q, hq, hqc, hqBare⟩ := h'.accepted hss' name
  exact ⟨q, hq, hqc, hqBare.trans (hbare.trans hpBare)⟩

end Ended

/-- The text of a statement alone gives no errors and one statement, which is the same. -/
theorem parse_excerpt {text origin : String} {name : Option String} {p : Parsed}
    (hfaults : (tokenize text origin).faults = [])
    (hp : parse (tokenize text origin).tokens name = .ok p) (hc : p.document.syntaxErrors = [])
    {s : Node} (hs : s ∈ p.document.statements) (origin' : String) (name' : Option String) :
    (tokenize (String.ofList (slice text.toList s.span.start.offset s.span.stop.offset))
      origin').faults = [] ∧ ∃ q s',
        parse (tokenize (String.ofList (slice text.toList s.span.start.offset s.span.stop.offset))
          origin').tokens name' = .ok q ∧
        q.document.syntaxErrors = [] ∧ q.document.statements = [s'] ∧ s'.same s := by
  obtain ⟨ts, mark, hts, hended⟩ := ended_tokenize text origin
  rw [hts] at hp
  obtain ⟨us, ⟨before, behind, hus⟩, hspans, rest, hstatement⟩ := (hended.madeOf hp hc).run hs
  have hsub : us <:+: ts := ⟨before, behind, hus⟩
  have hprogram := hstatement.program
  obtain ⟨u, v, hu, hv, hstart, hstop⟩ := hspans.range ((inOrder_tokenize hts).sublist hsub.sublist)
  have hfile : u.kind ≠ .file := by
    have hopening := hprogram.opening.2.2
    rwa [Grammar.nextKind, hu] at hopening
  rw [hstart, hstop]
  rw [← hus, List.append_assoc before] at hts
  obtain ⟨hclean, vs, mark', hvs, hspelled⟩ := tokenize_slice hfaults hts hu hv hfile origin'
  obtain ⟨vs', mark'', hvs', hended'⟩ := ended_tokenize _ origin'
  obtain ⟨rfl, hmark⟩ := List.append_inj' (hvs'.symm.trans hvs) rfl
  obtain ⟨q, hq, hqc, hbare⟩ :=
    (hended.sublist hsub.sublist).reparse hended' hspelled.symm hprogram name'
  rw [List.map_singleton, List.map_eq_singleton_iff] at hbare
  obtain ⟨s', hs', hbare⟩ := hbare
  exact ⟨hclean, q, s', hvs' ▸ hq, hqc, hs', Node.same_of_bare hbare⟩

/-- A text in which an `else` stands before a comment and another statement. -/
def excerptText : String :=
  "include <lib> /* one */ if (x < 1) cube(x); else sphere(y); // two\nz = \"*/\";"

theorem parse_excerpt_else : ∃ p s, (tokenize excerptText "a").faults = [] ∧
    parse (tokenize excerptText "a").tokens none = .ok p ∧ p.document.syntaxErrors = [] ∧
    s ∈ p.document.statements ∧ (s.span.start.offset, s.span.stop.offset) = (24, 59) ∧
    (tokenize "if (x < 1) cube(x); else sphere(y);" "b").faults = [] ∧
    ∃ q s', parse (tokenize "if (x < 1) cube(x); else sphere(y);" "b").tokens none = .ok q ∧
      q.document.syntaxErrors = [] ∧ q.document.statements = [s'] ∧ s'.same s := by
  have hfaults : (tokenize excerptText "a").faults = [] := by decide +kernel
  have hread : (parse (tokenize excerptText "a").tokens none).toOption.map (fun p =>
      (p.document.syntaxErrors, p.document.statements.map fun s =>
        (s.span.start.offset, s.span.stop.offset))) =
        some ([], [(0, 13), (24, 59), (67, 76)]) := by
    rw [excerptText, tokens_ofList]
    decide +kernel
  obtain ⟨p, hp, heq⟩ := Parse.exists_of_map hread
  obtain ⟨hc, hspans⟩ := Prod.mk.inj heq
  have hmem : ((24, 59) : Int × Int) ∈ p.document.statements.map fun s =>
      (s.span.start.offset, s.span.stop.offset) := by
    rw [hspans]
    decide
  obtain ⟨s, hs, hspan⟩ := List.mem_map.1 hmem
  have hcut := parse_excerpt hfaults hp hc hs "b" none
  have hstart : s.span.start.offset = 24 := congrArg Prod.fst hspan
  have hstop : s.span.stop.offset = 59 := congrArg Prod.snd hspan
  have htext : String.ofList (slice excerptText.toList 24 59) =
      "if (x < 1) cube(x); else sphere(y);" := by
    rw [excerptText, String.toList_ofList]
    decide +kernel
  rw [hstart, hstop, htext] at hcut
  exact ⟨p, s, hfaults, hp, hc, hs, hspan, hcut⟩

end Scad
