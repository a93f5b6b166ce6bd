import Scad.Proofs.Token.Scan

/-! Quoting and scanning agree on strings. Whatever a string of some text says, it is scanned again
as it was when quotes are put around it, whichever quotes it stood in before. -/
namespace Scad

namespace Inside

variable {quote : Char} {t : List Char}

/-- Between its quotes, a string is one piece and nothing is left behind it. -/
theorem scanFrom (h : Inside quote t) (hq : quote = '"' ∨ quote = '\'') (origin : String)
    (last : Option TokenKind) (place : Position) :
    Scad.scanFrom origin last place (quote :: (t ++ [quote])) =
      ([.token ⟨.string, String.ofList t,
        ⟨origin, place, place.advanceAll (quote :: (t ++ [quote]))⟩⟩],
          place.advanceAll (quote :: (t ++ [quote]))) := by
  have hfirst := Piece.first_string hq h (last.any TokenKind.expectsFile) []
  have hlength : (quote :: (t ++ [quote])).length = t.length + 2 := by
    simp only [List.length_cons, List.length_append, List.length_nil]
  have hwritten : (quote :: (t ++ [quote])).take (t.length + 2) = quote :: (t ++ [quote]) :=
    List.take_of_length_le (Nat.le_of_eq hlength)
  have hbehind : (t ++ [quote]).drop (t.length + 2 - 1) = [] :=
    List.drop_eq_nil_of_le (by simp)
  rw [Scad.scanFrom, hfirst]
  simp only [hwritten, hbehind]
  rw [Scad.scanFrom]

end Inside

/-- One string, which goes from the start of a text to its end, and nothing amiss. -/
def TokenStream.oneString (text origin : String) : TokenStream :=
  let stop := Position.start.advanceAll (quoteString text).toList
  { tokens := [⟨.string, text, ⟨origin, .start, stop⟩⟩, ⟨.eof, "", ⟨origin, stop, stop⟩⟩]
    faults := [] }

/-- The printer chooses quotes between which the scanner finds the text again. -/
theorem tokenize_quoteString {text : String} (h : Quotable text.toList) (origin : String) :
    tokenize (quoteString text) origin = .oneString text origin := by
  obtain ⟨q, hq, hinside, htext⟩ := h.quoteString
  have hscan := hinside.scanFrom hq origin none .start
  rw [String.ofList_toList, ← htext] at hscan
  rw [tokenize, hscan]
  rfl

/-- A string that is scanned was written between some quotes. -/
theorem quotable_of_mem {source origin : String} {t : Token}
    (h : t ∈ (tokenize source origin).tokens) (hkind : t.kind = .string) :
    Quotable t.text.toList := by
  obtain ⟨ts, mark, htokens, hmark, -, hlawful⟩ := tokenize_isTextOf source origin
  rw [htokens] at h
  rcases List.mem_append.1 h with h | h
  · have hlaw := (hlawful t h).1
    rwa [hkind] at hlaw
  · rw [List.mem_singleton.1 h, hmark] at hkind
    cases hkind

/-- Quoting is undone by scanning for the texts that some quotes can stand around, and
for no other. -/
theorem tokenize_quoteString_iff {text origin : String} :
    tokenize (quoteString text) origin = .oneString text origin ↔ Quotable text.toList := by
  constructor
  · intro h
    have hmem :
      (⟨.string, text, ⟨origin, .start, Position.start.advanceAll (quoteString text).toList⟩⟩ :
      Token) ∈
        (tokenize (quoteString text) origin).tokens := by
      rw [h]
      exact List.mem_cons_self ..
    exact quotable_of_mem hmem rfl
  · intro h
    exact tokenize_quoteString h origin

/-- Any string of any text is printed so that it is scanned as the same string again, from the first
quote to the last, without a fault. -/
theorem tokenize_requoted {source origin : String} {t : Token}
    (h : t ∈ (tokenize source origin).tokens) (hkind : t.kind = .string) (name : String) :
    tokenize (quoteString t.text) name = .oneString t.text name :=
  tokenize_quoteString_iff.2 (quotable_of_mem h hkind)

/-- `'\'a\' "b"`, a line feed and `\\'`: kept quotes of one kind, bare ones of the other, and a
backslash that keeps a backslash before the last quote. -/
theorem tokenize_requoted_mixed : ∃ t ∈ (tokenize "x = '\\'a\\' \"b\"\n\\\\';" "f").tokens,
    t.kind = .string ∧ t.text = "\\'a\\' \"b\"\n\\\\" ∧
      tokenize (quoteString t.text) "g" = .oneString t.text "g" := by
  have hmem : ⟨.string, "\\'a\\' \"b\"\n\\\\", ⟨"f", ⟨4, 1, 5⟩, ⟨18, 2, 4⟩⟩⟩ ∈
      (tokenize "x = '\\'a\\' \"b\"\n\\\\';" "f").tokens := by
    decide +kernel
  exact ⟨_, hmem, rfl, rfl, tokenize_requoted hmem rfl "g"⟩

end Scad
