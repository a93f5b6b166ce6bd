import Scad.Proofs.Token.Lexeme
import Scad.Tree.Render

/-! What the scanner makes of a text that is put together from tokens and blanks, and what it can
make of any text. -/
namespace Scad

open Lexeme (isWordChar Delimited IsWord IsNumeral EndsNumeral Digits Meets Stops run run_append
  run_eq_of_all)

/-! ### Strings -/

/-- Text that a quote does not close early. -/
inductive Inside (quote : Char) : List Char → Prop
  | nil : Inside quote []
  | escaped {c cs} : Inside quote cs → Inside quote ('\\' :: c :: cs)
  | plain {c cs} : c ≠ quote → c ≠ '\\' → Inside quote cs → Inside quote (c :: cs)

namespace Inside

open Piece (stringEnd?)

theorem stringEnd? {quote : Char} {t : List Char} (h : Inside quote t) (hq : quote ≠ '\\')
    (cs : List Char) : stringEnd? quote (t ++ quote :: cs) = some t.length := by
  induction h with
  | nil =>
      unfold Piece.stringEnd?
      exact if_pos rfl
  | escaped _ ih =>
      rw [List.cons_append, List.cons_append, Piece.stringEnd?, if_neg (Ne.symm hq), if_pos rfl]
      simp only [ih, Option.map_some, List.length_cons]
  | plain hc hb _ ih =>
      unfold Piece.stringEnd?
      simp only [List.cons_append, if_neg hc, if_neg hb, ih]
      rfl

theorem of_stringEnd? {quote : Char} {cs : List Char} {n : Nat}
    (h : Piece.stringEnd? quote cs = some n) : Inside quote (cs.take n) := by
  fun_induction Piece.stringEnd? quote cs generalizing n with
  | case1 => cases h
  | case2 cs =>
      cases h
      exact .nil
  | case3 => cases h
  | case4 c rest hc ih =>
      obtain ⟨m, hm, rfl⟩ := Option.map_eq_some_iff.1 h
      exact .escaped (ih hm)
  | case5 c cs hc hb ih =>
      obtain ⟨m, hm, rfl⟩ := Option.map_eq_some_iff.1 h
      exact .plain hc hb (ih hm)

/-- Inside of double quotes, every double quote is kept by a backslash. -/
theorem hasBareQuote {t : List Char} (h : Inside '"' t) : hasBareQuote t = false := by
  induction h with
  | nil => rfl
  | escaped _ ih => rw [Scad.hasBareQuote]; exact ih
  | plain hc hb _ ih =>
      rw [Scad.hasBareQuote, ih, decide_eq_false hc]
      · rfl
      · intro h _; exact hb h
      · intro _ _ h _; exact hb h

theorem double {quote : Char} {t : List Char} (h : Inside quote t)
    (hb : Scad.hasBareQuote t = false) : Inside '"' t := by
  induction h with
  | nil => exact .nil
  | escaped _ ih =>
      rw [Scad.hasBareQuote] at hb
      exact .escaped (ih hb)
  | plain hc hbs _ ih =>
      rw [Scad.hasBareQuote, Bool.or_eq_false_iff, decide_eq_false_iff_not] at hb
      · exact .plain hb.1 hbs (ih hb.2)
      · intro h _; exact hbs h
      · intro _ _ h _; exact hbs h

end Inside

def Quotable (t : List Char) : Prop := ∃ q, (q = '"' ∨ q = '\'') ∧ Inside q t

theorem Quotable.quoteString {t : String} (h : Quotable t.toList) : ∃ q, (q = '"' ∨ q = '\'') ∧
    Inside q t.toList ∧ (quoteString t).toList = q :: (t.toList ++ [q]) := by
  obtain ⟨q, hq, hi⟩ := h
  cases hb : hasBareQuote t.toList with
  | false => exact ⟨'"', .inl rfl, hi.double hb, by simp [Scad.quoteString, hb]⟩
  | true =>
      rcases hq with rfl | rfl
      · rw [hi.hasBareQuote] at hb
        cases hb
      · exact ⟨'\'', .inr rfl, hi, by simp [Scad.quoteString, hb]⟩

/-! ### One piece -/

namespace Piece

def startsLexeme (c : Char) : Bool :=
  !isBlank c && c ≠ '/' && c ≠ '"' && c ≠ '\'' && c ≠ '<'

theorem first_eq_lexeme {c : Char} (h : startsLexeme c) (expectsFile : Bool) (cs : List Char) :
    first expectsFile c cs = lexeme (c :: cs) := by
  simp only [startsLexeme, Bool.and_eq_true, Bool.not_eq_true', decide_eq_true_eq] at h
  obtain ⟨⟨⟨⟨hb, hs⟩, hd⟩, hq⟩, hl⟩ := h
  simp [first, hb, hs, hd, hq, hl]

theorem startsLexeme_of_isWordChar {c : Char} (h : isWordChar c) : startsLexeme c := by
  cases hs : startsLexeme c with
  | true => rfl
  | false =>
      simp only [startsLexeme, isBlank, Bool.and_eq_false_iff, Bool.not_eq_false', Bool.or_eq_true,
        decide_eq_true_eq, decide_eq_false_iff_not, Decidable.not_not] at hs
      rcases hs with (((((((((rfl | rfl) | rfl) | rfl) | rfl) | rfl) | rfl) | rfl) | rfl) | rfl) <;>
        exact absurd h (by decide)

theorem first_word {t : List Char} (h : IsWord t) {cs : List Char} (hc : Delimited cs)
    (expectsFile : Bool) : ∃ c ds, t = c :: ds ∧ first expectsFile c (ds ++ cs) =
      match Keyword.ofText? (String.ofList t) with
      | some k => (token (.keyword k) t, t.length)
      | none => (token .identifier t, t.length) := by
  obtain ⟨ds, ht, hne, hds⟩ := h.shape
  have hhead : ∃ c cs, t = c :: cs ∧ startsLexeme c := by
    rcases ht with rfl | rfl
    · cases t with
      | nil => exact absurd rfl hne
      | cons c cs => exact ⟨c, cs, rfl, startsLexeme_of_isWordChar (hds c (List.mem_cons_self ..))⟩
    · exact ⟨_, _, rfl, by decide⟩
  obtain ⟨c, es, rfl, hs⟩ := hhead
  have hnum := h.numberLength hc
  have hpos : (c :: es).length ≠ 0 := by simp
  refine ⟨c, es, rfl, ?_⟩
  rw [first_eq_lexeme hs, ← List.cons_append, lexeme]
  cases hk : Keyword.ofText? (String.ofList (c :: es)) <;>
    simp only [h.identifierLength hc, List.take_left, if_pos hpos,
      if_neg (fun hn : _ ∧ _ => Nat.not_lt.2 hn.2 hnum), hk]

theorem first_number {t : List Char} (h : IsNumeral t) {cs : List Char} (hc : EndsNumeral t cs)
    (expectsFile : Bool) : ∃ c ds, t = c :: ds ∧
      first expectsFile c (ds ++ cs) = (token .number t, t.length) := by
  obtain ⟨c, ds, rfl, hd⟩ := h.head
  have hs := startsLexeme_of_isWordChar (Lexeme.isWordChar_of_isAsciiDigit hd)
  have hpos : (c :: ds).length ≠ 0 := by simp
  refine ⟨c, ds, rfl, ?_⟩
  rw [first_eq_lexeme hs, ← List.cons_append, lexeme]
  simp only [h.numberLength hc, List.take_left,
    if_pos (And.intro hpos (h.identifierLength hc.delimited))]

/-- Digits before a point are found as a longer number. -/
theorem first_digits {ds : List Char} (h : Digits ds) (hne : ds ≠ []) (expectsFile : Bool)
    (cs : List Char) :
    ∃ c es n, ds = c :: es ∧ ds.length < n ∧
      first expectsFile c (es ++ '.' :: cs) = (token .number ((ds ++ '.' :: cs).take n), n) := by
  cases ds with
  | nil => exact absurd rfl hne
  | cons c es =>
      have hs :=
        startsLexeme_of_isWordChar (Lexeme.isWordChar_of_isAsciiDigit (h c (List.mem_cons_self ..)))
      have hnumber := h.lt_numberLength hne cs
      have hpoint : Delimited ('.' :: cs) := fun d hd => by
        cases hd
        decide
      have hword := (IsNumeral.mk hne h .none .none).identifierLength hpoint
      simp only [List.append_nil] at hword
      refine ⟨c, es, _, rfl, hnumber, ?_⟩
      rw [first_eq_lexeme hs, ← List.cons_append, lexeme, if_pos ⟨by omega, by omega⟩]

/-- A point before a digit is found as a number. -/
theorem first_point {d : Char} (hd : Text.isDecimalDigit d) (expectsFile : Bool) (cs : List Char) :
    ∃ t n, first expectsFile '.' (d :: cs) = (token .number t, n) := by
  have hfirst : first expectsFile '.' (d :: cs) = lexeme ('.' :: d :: cs) :=
    first_eq_lexeme (by decide) _ _
  rw [lexeme, if_pos ⟨Lexeme.numberLength_point hd cs, Nat.zero_le _⟩] at hfirst
  exact ⟨_, _, hfirst⟩

/-- No word and no number begins with a symbol. -/
theorem lexeme_symbol {s : Symbol} {cs : List Char} (h : Meets s cs) :
    lexeme (s.text.toList ++ cs) = (token (.symbol s) s.text.toList, s.text.length) := by
  have hword : Lexeme.identifierLength (s.text.toList ++ cs) = 0 := by
    cases s <;> rfl
  have hnum : Lexeme.numberLength (s.text.toList ++ cs) = 0 := by
    cases s with
    | dot => exact Lexeme.numberLength_dot h
    | _ => rfl
  simp only [lexeme, hword, hnum, Lexeme.symbol?_text h, ne_eq, not_true, false_and, if_false]

theorem first_symbol {s : Symbol} {cs : List Char} (h : Meets s cs) : ∃ c ds,
    s.text.toList = c :: ds ∧
      first false c (ds ++ cs) = (token (.symbol s) s.text.toList, s.text.length) := by
  have hl := lexeme_symbol h
  cases s with
  | slash =>
      refine ⟨_, _, rfl, ?_⟩
      simp [first, h.1, h.2, isBlank]
      exact hl
  | _ =>
      refine ⟨_, _, rfl, ?_⟩
      rw [← hl]
      rfl

theorem first_string {q : Char} (hq : q = '"' ∨ q = '\'') {t : List Char} (h : Inside q t)
    (expectsFile : Bool) (cs : List Char) :
    first expectsFile q (t ++ q :: cs) = (token .string t, t.length + 2) := by
  rcases hq with rfl | rfl
  · have hend := h.stringEnd? (by decide) cs
    simp [first, isBlank, hend]
  · have hend := h.stringEnd? (by decide) cs
    simp [first, isBlank, hend]

theorem first_file {f : List Char} (h : ∀ c ∈ f, c ≠ '>' ∧ c ≠ '\n') (cs : List Char) :
    first true '<' (f ++ '>' :: cs) = (token .file f, f.length + 2) := by
  have hname : (f ++ '>' :: cs).takeWhile (fun d => d ≠ '>' && d ≠ '\n') = f := by
    rw [List.takeWhile_append_of_pos]
    · simp
    · intro c hc
      simp [h c hc]
  simp only [first, hname]
  simp [isBlank]

theorem first_blank {c : Char} (h : isBlank c) (expectsFile : Bool) (cs : List Char) :
    first expectsFile c cs = (blank, 1 + run isBlank cs) := if_pos h

end Piece

/-! ### Any text -/

/-- What the text of a scanned token is like. -/
def IsTextOf : TokenKind → String → Prop
  | .keyword w, t => t = w.text
  | .identifier, t => IsWord t.toList ∧ Keyword.ofText? t = none
  | .number, t => ∃ c ds, t.toList = c :: ds ∧ (c = '.' ∨ Text.isDecimalDigit c)
  | .string, t => Quotable t.toList
  | .file, t => ∀ c ∈ t.toList, c ≠ '>' ∧ c ≠ '\n'
  | .symbol s, t => t = s.text
  | .eof, _ => False

namespace Piece

def TextMatchesKind : Piece × Nat → Prop
  | (token k t, _) => IsTextOf k (String.ofList t)
  | _ => True

theorem textMatchesKind_lexeme (cs : List Char) : TextMatchesKind (lexeme cs) := by
  simp only [lexeme]
  split
  · rename_i hnum
    obtain ⟨c, ds, rfl, hc⟩ := Lexeme.head_of_numberLength hnum.1
    cases hn : Lexeme.numberLength (c :: ds) with
    | zero => exact absurd hn hnum.1
    | succ n => exact ⟨c, ds.take n, by simp, hc⟩
  · rename_i hnum
    split
    · rename_i hne
      have hword := Lexeme.isWord_of_scan hne hnum
      cases hk : Keyword.ofText? (String.ofList (cs.take (Lexeme.identifierLength cs))) with
      | some k =>
          have htext := List.find?_some hk
          exact (of_decide_eq_true htext).symm
      | none => exact ⟨by rw [String.toList_ofList]; exact hword, hk⟩
    · cases Lexeme.symbol? cs with
      | some s => exact String.ofList_toList
      | none => trivial

theorem textMatchesKind_first (expectsFile : Bool) (c : Char) (cs : List Char) :
    TextMatchesKind (first expectsFile c cs) := by
  unfold first
  split
  · trivial
  · split
    · split <;> trivial
    · split
      · trivial
      · split
        · rename_i hq
          split
          · rename_i n hn
            exact ⟨c, hq, by rw [String.toList_ofList]; exact Inside.of_stringEnd? hn⟩
          · trivial
        · split
          · simp only
            split
            · intro d hd
              rw [String.toList_ofList] at hd
              simpa using List.all_eq_true.1 List.all_takeWhile d hd
            · trivial
          · exact textMatchesKind_lexeme _

end Piece

theorem le_offset_advanceAll (p : Position) (cs : List Char) :
    p.offset ≤ (p.advanceAll cs).offset := by
  rw [Position.offset_advanceAll]
  omega

theorem scanFrom_isTextOf (origin : String) (last : Option TokenKind) (place : Position)
    (cs : List Char) : ∀ t ∈ (scanFrom origin last place cs).1.filterMap Scanned.token?,
      IsTextOf t.kind t.text ∧ place.offset ≤ t.span.start.offset := by
  fun_induction scanFrom origin last place cs with
  | case1 =>
      intro t ht
      cases ht
  | case2 last place c cs length next rest hfirst ih =>
      intro t ht
      exact ⟨(ih t ht).1, Int.le_trans (le_offset_advanceAll ..) (ih t ht).2⟩
  | case3 last place c cs length next span rest kind text found stop hscan hfirst ih =>
      have hlaw := Piece.textMatchesKind_first (last.any TokenKind.expectsFile) c cs
      rw [hfirst] at hlaw
      rw [hscan] at ih
      intro t ht
      rcases List.mem_cons.1 ht with rfl | ht
      · exact ⟨hlaw, Int.le_refl _⟩
      · exact ⟨(ih t ht).1, Int.le_trans (le_offset_advanceAll ..) (ih t ht).2⟩
  | case4 last place c cs length next span rest message found stop hscan hfirst ih =>
      rw [hscan] at ih
      intro t ht
      exact ⟨(ih t ht).1, Int.le_trans (le_offset_advanceAll ..) (ih t ht).2⟩

theorem le_offset_scanFrom (origin : String) (last : Option TokenKind) (place : Position)
    (cs : List Char) : place.offset ≤ (scanFrom origin last place cs).2.offset := by
  fun_induction scanFrom origin last place cs with
  | case1 => exact Int.le_refl _
  | case2 last place c cs length next rest hfirst ih =>
      exact Int.le_trans (le_offset_advanceAll ..) ih
  | case3 last place c cs length next span rest kind text found stop hscan hfirst ih =>
      rw [hscan] at ih
      exact Int.le_trans (le_offset_advanceAll ..) ih
  | case4 last place c cs length next span rest message found stop hscan hfirst ih =>
      rw [hscan] at ih
      exact Int.le_trans (le_offset_advanceAll ..) ih

/-- A scanned text's tokens are lawful, with an end marker behind them. -/
theorem tokenize_isTextOf (text origin : String) : ∃ ts mark,
    (tokenize text origin).tokens = ts ++ [mark] ∧ mark.kind = .eof ∧
      0 ≤ mark.span.start.offset ∧ ∀ t ∈ ts, IsTextOf t.kind t.text ∧ 0 ≤ t.span.start.offset :=
  ⟨_, _, rfl, rfl, le_offset_scanFrom origin none .start _, scanFrom_isTextOf origin none .start _⟩

/-- Scanning from one place on without a fault: the kinds and texts of the tokens. -/
inductive Cuts : Option TokenKind → List Char → List (TokenKind × String) → Prop
  | done {last} : Cuts last [] []
  | blank {last c cs n found} : Piece.first (last.any TokenKind.expectsFile) c cs = (.blank, n) →
      Cuts last (cs.drop (n - 1)) found → Cuts last (c :: cs) found
  | token {last c cs k t n found} :
      Piece.first (last.any TokenKind.expectsFile) c cs = (.token k t, n) →
      Cuts (some k) (cs.drop (n - 1)) found → Cuts last (c :: cs) ((k, String.ofList t) :: found)

theorem Cuts.scanFrom {last : Option TokenKind} {cs : List Char}
    {found : List (TokenKind × String)} (h : Cuts last cs found) (origin : String)
    (place : Position) : ∃ ts : List Token, (scanFrom origin last place cs).1 = ts.map .token ∧
      ts.map (fun t => (t.kind, t.text)) = found := by
  induction h generalizing place with
  | done => exact ⟨[], by rw [Scad.scanFrom]; rfl, rfl⟩
  | @blank last c cs n found hfirst _ ih =>
      rw [Scad.scanFrom, hfirst]
      exact ih _
  | @token last c cs k t n found hfirst _ ih =>
      obtain ⟨ts, hts, hfound⟩ := ih (place.advanceAll ((c :: cs).take n))
      refine ⟨⟨k, String.ofList t, ⟨origin, place, place.advanceAll ((c :: cs).take n)⟩⟩ :: ts,
        ?_, ?_⟩
      · rw [Scad.scanFrom, hfirst, List.map_cons, ← hts]
      · rw [List.map_cons, hfound]

/-- A blank more before a text changes nothing. -/
theorem Cuts.behindBlank {last : Option TokenKind} {c : Char} (hc : Piece.isBlank c)
    {cs : List Char} {found : List (TokenKind × String)} (h : Cuts last cs found) :
    Cuts last (c :: cs) found := by
  refine .blank (Piece.first_blank hc _ _) ?_
  rw [Nat.add_sub_cancel_left]
  cases cs with
  | nil => exact h
  | cons d ds =>
      cases hd : Piece.isBlank d with
      | false =>
          rw [run, List.takeWhile_cons, hd]
          exact h
      | true =>
          rw [run, List.takeWhile_cons, hd]
          cases h with
          | blank hf h =>
              rw [Piece.first_blank hd] at hf
              cases hf
              rw [Nat.add_sub_cancel_left] at h
              exact h
          | token hf _ =>
              rw [Piece.first_blank hd] at hf
              cases hf

end Scad
