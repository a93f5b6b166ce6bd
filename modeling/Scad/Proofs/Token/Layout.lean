import Scad.Proofs.Grammar
import Scad.Proofs.Token.Scan

/-! Texts laid out from tokens and blanks. When no token touches what could go on with it, the
scanner finds the same tokens again. -/
namespace Scad

open Lexeme (Delimited Closed IsWord IsNumeral Meets)

/-- A piece of a text as it is written. A file reference is one piece, for its name is a token only
behind the word before it. -/
inductive Lex where
  | blank (c : Char)
  | token (kind : TokenKind) (text : String)
  | reference (inclusion : Inclusion) (file : String)

namespace Lex

def text : Lex → String
  | blank c => String.singleton c
  | token .string t => quoteString t
  | token _ t => t
  | reference i f => i.text ++ " <" ++ f ++ ">"

def spell : Lex → List (TokenKind × String)
  | blank _ => []
  | token k t => [(k, t)]
  | reference i f => [(.keyword i.keyword, i.text), (.file, f)]

/-- What a piece is like, and what may stand behind it. -/
def Fits : Lex → List Char → Prop
  | blank c, _ => Piece.isBlank c
  | token (.keyword w) t, cs =>
      t = w.text ∧ (TokenKind.keyword w).expectsFile = false ∧ Delimited cs
  | token .identifier t, cs => IsWord t.toList ∧ Keyword.ofText? t = none ∧ Delimited cs
  | token .number t, cs => IsNumeral t.toList ∧ Closed cs
  | token .string t, _ => Quotable t.toList
  | token (.symbol s) t, cs => t = s.text ∧ Meets s cs
  | token .file _, _ | token .eof _, _ => False
  | reference _ f, _ => ∀ c ∈ f.toList, c ≠ '>' ∧ c ≠ '\n'

def textAll : List Lex → String
  | [] => ""
  | l :: ls => l.text ++ textAll ls

@[simp] theorem textAll_append (ls ms : List Lex) :
    textAll (ls ++ ms) = textAll ls ++ textAll ms := by
  induction ls with
  | nil => simp [textAll]
  | cons l ls ih => simp only [List.cons_append, textAll, ih, String.append_assoc]

def Spaced : List Lex → List Char → Prop
  | [], _ => True
  | l :: ls, cs => l.Fits ((textAll ls).toList ++ cs) ∧ Spaced ls cs

@[simp] theorem spaced_append (ls ms : List Lex) (cs : List Char) :
    Spaced (ls ++ ms) cs ↔ Spaced ls ((textAll ms).toList ++ cs) ∧ Spaced ms cs := by
  induction ls with
  | nil => simp [Spaced]
  | cons l ls ih =>
      simp only [List.cons_append, Spaced, ih, textAll_append, String.toList_append,
        List.append_assoc, and_assoc]

/-- Tokens that say what the pieces say, and the tokens behind them. -/
def Spelled (ls : List Lex) (ts rest : List Token) : Prop :=
  ∃ us, ts = us ++ rest ∧ us.map (fun t => (t.kind, t.text)) = ls.flatMap spell

@[simp] theorem spelled_nil {ts rest : List Token} : Spelled [] ts rest ↔ ts = rest := by
  simp [Spelled]

@[simp] theorem spelled_append {ls ms : List Lex} {ts rest : List Token} :
    Spelled (ls ++ ms) ts rest ↔ ∃ mid, Spelled ls ts mid ∧ Spelled ms mid rest := by
  constructor
  · intro h
    obtain ⟨us, rfl, hus⟩ := h
    rw [List.flatMap_append] at hus
    obtain ⟨vs, ws, rfl, hvs, hws⟩ := List.map_eq_append_iff.1 hus
    exact ⟨ws ++ rest, ⟨vs, List.append_assoc .., hvs⟩, ws, rfl, hws⟩
  · intro h
    obtain ⟨mid, ⟨vs, rfl, hvs⟩, ws, rfl, hws⟩ := h
    exact ⟨vs ++ ws, (List.append_assoc ..).symm,
      by rw [List.map_append, hvs, hws, List.flatMap_append]⟩

@[simp] theorem spelled_blank {c : Char} {ls : List Lex} {ts rest : List Token} :
    Spelled (blank c :: ls) ts rest ↔ Spelled ls ts rest := Iff.rfl

@[simp] theorem spelled_token {k : TokenKind} {t : String} {ls : List Lex} {ts rest : List Token} :
    Spelled (token k t :: ls) ts rest ↔
      ∃ u us, ts = u :: us ∧ u.kind = k ∧ u.text = t ∧ Spelled ls us rest := by
  constructor
  · intro h
    obtain ⟨us, rfl, hus⟩ := h
    obtain ⟨u, us, rfl, hu, hus⟩ := List.map_eq_cons_iff.1 hus
    cases hu
    exact ⟨_, _, rfl, rfl, rfl, _, rfl, by assumption⟩
  · intro h
    obtain ⟨u, _, rfl, rfl, rfl, us, rfl, hus⟩ := h
    exact ⟨u :: us, rfl, by rw [List.map_cons, hus]; rfl⟩

@[simp] theorem spelled_reference {i : Inclusion} {f : String} {ls : List Lex}
    {ts rest : List Token} : Spelled (reference i f :: ls) ts rest ↔
      ∃ u v us, ts = u :: v :: us ∧ u.kind = .keyword i.keyword ∧ u.text = i.text ∧
        v.kind = .file ∧ v.text = f ∧ Spelled ls us rest := by
  have h : Spelled (reference i f :: ls) ts rest ↔
      Spelled (token (.keyword i.keyword) i.text :: token .file f :: ls) ts rest := Iff.rfl
  rw [h]
  simp only [spelled_token]
  constructor
  · intro h
    obtain ⟨u, us, rfl, hk, ht, v, vs, rfl, hv, hf, hs⟩ := h
    exact ⟨u, v, vs, rfl, hk, ht, hv, hf, hs⟩
  · intro h
    obtain ⟨u, v, us, rfl, hk, ht, hv, hf, hs⟩ := h
    exact ⟨u, _, rfl, hk, ht, v, us, rfl, hv, hf, hs⟩

end Lex

theorem Cuts.piece {last : Option TokenKind} {written cs : List Char} {k : TokenKind}
    {t : List Char} {found : List (TokenKind × String)}
    (hfirst : ∃ c ds, written = c :: ds ∧
      Piece.first (last.any TokenKind.expectsFile) c (ds ++ cs) = (.token k t, written.length))
    (h : Cuts (some k) cs found) :
    Cuts last (written ++ cs) ((k, String.ofList t) :: found) := by
  obtain ⟨c, ds, rfl, hfirst⟩ := hfirst
  refine .token hfirst ?_
  show Cuts (some k) ((ds ++ cs).drop ds.length) found
  rw [List.drop_left]
  exact h

theorem isWord_keyword (w : Keyword) : IsWord w.text.toList := by
  have hchars : w.text.toList ≠ [] ∧ w.text.toList.all Lexeme.isWordChar := by
    cases w <;> decide
  refine ⟨⟨w.text.toList, .inl rfl, hchars.1, List.all_eq_true.1 hchars.2⟩, ?_⟩
  cases w <;> decide

theorem ofText?_keyword (w : Keyword) : Keyword.ofText? w.text = some w := by
  cases w <;> decide

theorem Cuts.keyword {last : Option TokenKind} {w : Keyword} {cs : List Char}
    {found : List (TokenKind × String)} (hc : Delimited cs)
    (h : Cuts (some (.keyword w)) cs found) :
    Cuts last (w.text.toList ++ cs) ((.keyword w, w.text) :: found) := by
  have hfirst := Piece.first_word (isWord_keyword w) hc (last.any TokenKind.expectsFile)
  simp only [String.ofList_toList, ofText?_keyword] at hfirst
  have hpiece := Cuts.piece hfirst h
  rw [String.ofList_toList] at hpiece
  exact hpiece

theorem Inclusion.text_keyword (i : Inclusion) : i.keyword.text = i.text := by cases i <;> rfl

/-- A piece that fits is found again. -/
theorem Lex.Fits.cuts {l : Lex} {cs : List Char} (hl : l.Fits cs) {last : Option TokenKind}
    (hlast : last.any TokenKind.expectsFile = false) {found : List (TokenKind × String)}
    (h : ∀ {last : Option TokenKind}, last.any TokenKind.expectsFile = false → Cuts last cs found) :
    Cuts last (l.text.toList ++ cs) (l.spell ++ found) := by
  cases l with
  | blank c =>
      rw [Lex.text, String.toList_singleton]
      exact .behindBlank hl (h hlast)
  | token k t =>
      cases k with
      | keyword w =>
          obtain ⟨rfl, hw, hc⟩ := hl
          exact .keyword hc (h hw)
      | identifier =>
          obtain ⟨ht, hk, hc⟩ := hl
          have hfirst := Piece.first_word ht hc (last.any TokenKind.expectsFile)
          simp only [String.ofList_toList, hk] at hfirst
          have hpiece := Cuts.piece hfirst (h rfl)
          rw [String.ofList_toList] at hpiece
          exact hpiece
      | number =>
          obtain ⟨ht, hc⟩ := hl
          have hpiece :=
            Cuts.piece (Piece.first_number ht (hc.endsNumeral _) (last.any TokenKind.expectsFile))
            (h rfl)
          rw [String.ofList_toList] at hpiece
          exact hpiece
      | string =>
          obtain ⟨q, hq, hi, htext⟩ := Quotable.quoteString hl
          have hfirst := Piece.first_string hq hi (last.any TokenKind.expectsFile) cs
          have hpiece := Cuts.piece ⟨q, t.toList ++ [q], rfl, by
            rw [List.append_assoc]
            simpa using hfirst⟩ (h rfl)
          rw [String.ofList_toList] at hpiece
          rw [Lex.text, htext]
          exact hpiece
      | symbol s =>
          obtain ⟨rfl, hs⟩ := hl
          have hpiece := Cuts.piece (hlast ▸ Piece.first_symbol hs) (h rfl)
          rw [String.ofList_toList] at hpiece
          exact hpiece
      | file => exact hl.elim
      | eof => exact hl.elim
  | reference i f =>
      have hexpects : (TokenKind.keyword i.keyword).expectsFile = true := by cases i <;> rfl
      have hfile : Cuts (some (.keyword i.keyword)) ('<' :: (f.toList ++ ['>']) ++ cs)
          ((.file, String.ofList f.toList) :: found) := by
        refine .piece ⟨_, _, rfl, ?_⟩ (h rfl)
        simp [hexpects, Piece.first_file hl cs]
      have hblank : Piece.isBlank ' ' := rfl
      have hwhole : Cuts last (i.keyword.text.toList ++ ' ' :: ('<' :: (f.toList ++ ['>']) ++ cs))
          ((.keyword i.keyword, i.keyword.text) :: (.file, String.ofList f.toList) :: found) := by
        refine .keyword (fun c hc => ?_) (hfile.behindBlank hblank)
        cases hc
        decide
      rw [Inclusion.text_keyword, String.ofList_toList] at hwhole
      simpa [Lex.text, Lex.spell] using hwhole

theorem Lex.cuts_of_spaced {ls : List Lex} (h : Spaced ls []) {last : Option TokenKind}
    (hlast : last.any TokenKind.expectsFile = false) :
    Cuts last (textAll ls).toList (ls.flatMap spell) := by
  induction ls generalizing last with
  | nil => exact .done
  | cons l ls ih =>
      obtain ⟨hl, hs⟩ := h
      rw [List.append_nil] at hl
      rw [textAll, String.toList_append, List.flatMap_cons]
      exact hl.cuts hlast (ih hs)

/-- A layout's text is scanned without a fault, to the tokens of the layout. -/
theorem Lex.tokenize_layout {ls : List Lex} (h : Spaced ls []) (origin : String) :
    (tokenize (textAll ls) origin).faults = [] ∧ ∃ ts mark,
      (tokenize (textAll ls) origin).tokens = ts ++ [mark] ∧ mark.kind = .eof ∧
      Spelled ls ts [] := by
  have hcuts : Cuts none (textAll ls).toList (ls.flatMap spell) := cuts_of_spaced h rfl
  obtain ⟨ts, hts, hspell⟩ := hcuts.scanFrom origin .start
  have hfaults : (tokenize (textAll ls) origin).faults =
      (ts.map Scanned.token).filterMap Scanned.fault? :=
    congrArg (List.filterMap Scanned.fault?) hts
  have htokens : ((scanFrom origin none .start (textAll ls).toList).1).filterMap Scanned.token? =
      ts := by
    rw [hts, List.filterMap_map]
    exact List.filterMap_some
  refine ⟨?_, ts, _, congrArg (· ++ _) htokens, rfl, ts, (List.append_nil ts).symm, hspell⟩
  rw [hfaults, List.filterMap_map]
  exact List.filterMap_eq_nil_iff.2 fun _ _ => rfl

end Scad
