import Scad.Proofs.Parse.Acceptance
import Scad.Proofs.Render.Rereading.Statement

/-! A document's text, parsed again, gives the same statements. -/
namespace Scad

open Parse (body source maxNesting)
open Grammar (level NearestElse Program)

section

variable {ts : List Token} {mark : Token}

theorem Parse.body_append (hrun : ∀ t ∈ ts, t.kind ≠ .eof) (hmark : mark.kind = .eof) :
    body (ts ++ [mark]) = ts := by
  rw [body, List.takeWhile_append_of_pos fun t ht => decide_eq_true (hrun t ht)]
  simp [hmark]

theorem Parse.stop_append (hrun : ∀ t ∈ ts, t.kind ≠ .eof) (hmark : mark.kind = .eof)
    (origin : Option String) : (source (ts ++ [mark]) origin).stop = mark := by
  have hnone : ts.find? (·.kind = .eof) = none :=
    List.find?_eq_none.2 fun t ht => by simpa using hrun t ht
  simp [source, List.find?_append, hnone, hmark]

theorem TextsMatchKinds.running (h : TextsMatchKinds ts) : ∀ t ∈ ts, t.kind ≠ .eof := by
  intro t ht hk
  have hlaw := h t ht
  rw [hk] at hlaw
  exact hlaw

end

/-- The text of a program of printable nodes is made of tokens that are the program again. -/
theorem Grammar.Program.render {ts : List Token} {ss : List Node}
    (h : Program NearestElse maxNesting ts ss) (hl : TextsMatchKinds ts)
    (hg : ∀ s ∈ ss, s.AllPrintable) :
    ∃ ls, renderAll Node.render "\n".intercalate ss = .ok (Lex.textAll ls) ∧ Lex.Spaced ls [] ∧
      ∀ {us}, Lex.Spelled ls us [] → Program NearestElse maxNesting us ss := by
  have hconv := Grammar.level_converts maxNesting maxNesting (Nat.le_refl _)
  obtain ⟨-, hss⟩ := Grammar.Statements.rereads hconv h hl hg
  have hblank : Piece.isBlank '\n' := rfl
  obtain ⟨ls, hls⟩ := lays_statements hblank hss
  refine ⟨ls, hls.text, hls.spaced trivial, fun hs => (hls.reads hs ?_).2⟩
  intro hk
  cases hk

theorem Document.render_eq {d : Document} {text : String}
    (h : renderAll Node.render "\n".intercalate d.statements = .ok text) : d.render = .ok text := by
  obtain ⟨texts, htexts, hjoin⟩ := of_renderAll h
  rw [Document.render, renderList_eq, htexts, ← hjoin]
  rfl

theorem textsMatchKinds_of_tokens {text origin : String} {ts : List Token} {mark : Token}
    (h : (tokenize text origin).tokens = ts ++ [mark]) : TextsMatchKinds ts := by
  obtain ⟨us, mark', htokens, -, -, hlaw⟩ := tokenize_isTextOf text origin
  rw [h] at htokens
  obtain ⟨rfl, -⟩ := List.append_inj' htokens rfl
  exact fun t ht => (hlaw t ht).1

/-- Statements that a text was read as are read again from their own text. -/
theorem render_reparses {text origin : String} {name : Option String} {p : Parse.Parsed}
    (hp : parse (tokenize text origin).tokens name = .ok p) (hc : p.document.syntaxErrors = [])
    (hprintable : ∀ n ∈ p.document.walk, n.Printable) (origin' : String) (name' : Option String) :
    ∃ printed q, p.document.render = .ok printed ∧ (tokenize printed origin').faults = [] ∧
      parse (tokenize printed origin').tokens name' = .ok q ∧ q.document.syntaxErrors = [] ∧
      p.document.sameStatements q.document := by
  obtain ⟨ts, mark, htokens, hmark, hplaced, hlaw⟩ := tokenize_isTextOf text origin
  have hl : TextsMatchKinds ts := fun t ht => (hlaw t ht).1
  have hbody : body (tokenize text origin).tokens = ts := by
    rw [htokens, Parse.body_append hl.running hmark]
  have hstop : (source (tokenize text origin).tokens name).stop = mark := by
    rw [htokens, Parse.stop_append hl.running hmark]
  have hlegible : Parse.Legible (source (tokenize text origin).tokens name) True
      (body (tokenize text origin).tokens) := by
    rw [hbody]
    refine ⟨?_, ?_, fun t ht => (hlaw t ht).2, hl.running, fun _ _ _ => .inr trivial⟩
    · rw [hstop]
      exact hmark
    · rw [hstop]
      exact hplaced
  have hsound := Parse.parse_sound hlegible
  rw [hp] at hsound
  have hprogram := hbody ▸ hsound hc
  obtain ⟨ls, hrender, hspaced, hreads⟩ :=
    hprogram.render hl (Node.allPrintable_of_walkFrom hprintable)
  obtain ⟨hfaults, us, mark', htokens', hmark', hspelled⟩ := Lex.tokenize_layout hspaced origin'
  have hrun := (textsMatchKinds_of_tokens htokens').running
  have hend : (source (tokenize (Lex.textAll ls) origin').tokens name').stop.kind = .eof := by
    rw [htokens', Parse.stop_append hrun hmark']
    exact hmark'
  have hagain : Program NearestElse maxNesting (body (tokenize (Lex.textAll ls) origin').tokens)
      p.document.statements := by
    rw [htokens', Parse.body_append hrun hmark']
    exact hreads hspelled
  obtain ⟨q, hq, hqc, hbare⟩ := Parse.parse_complete hend hagain
  exact ⟨_, q, Document.render_eq hrender, hfaults, hq, hqc, Node.sameAll_of_bare hbare.symm⟩

/-- A text with numbers of three kinds, a comprehension and a named argument. -/
def sampleText : String :=
  "x = 1.5e-7; cube([for (i = [0:2]) if (i > 0x1) i else -x], center = true);"

theorem render_reparses_sample : ∃ p, parse (tokenize sampleText "").tokens none = .ok p ∧
    p.document.syntaxErrors = [] ∧ (∀ n ∈ p.document.walk, n.Printable) ∧
    ∃ printed q, p.document.render = .ok printed ∧ (tokenize printed "").faults = [] ∧
      parse (tokenize printed "").tokens none = .ok q ∧ q.document.syntaxErrors = [] ∧
      p.document.sameStatements q.document := by
  have hgood : (parse (tokenize sampleText "").tokens none).toOption.any (fun p =>
      decide (p.document.syntaxErrors = [] ∧ ∀ n ∈ p.document.walk, n.Printable)) = true := by
    rw [sampleText, tokens_ofList]
    decide +kernel
  cases hp : parse (tokenize sampleText "").tokens none with
  | error fault =>
      rw [hp] at hgood
      cases hgood
  | ok p =>
      rw [hp] at hgood
      obtain ⟨hc, hprintable⟩ := of_decide_eq_true hgood
      exact ⟨p, rfl, hc, hprintable, render_reparses hp hc hprintable "" none⟩

end Scad
