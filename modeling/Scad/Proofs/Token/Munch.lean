import Scad.Proofs.Number.Literal
import Scad.Proofs.Token.Excerpt
import Scad.Proofs.Token.Layout

/-! Maximal munch. Names, numbers and operators are told apart by what they are made of, and the
scanner takes the longest text that is any of them: what it counts off is a lexeme, and no
lexeme is longer. -/
namespace Scad

namespace Lexeme

open Text (isDecimalDigit isHexDigit)
open Numeral (Decimal Pointed Power)

/-! ### What lexemes are -/

/-- An optional `$`, then letters, digits and underscores, at least one of them. -/
inductive IsIdentifier : List Char → Prop
  | plain {ds} : ds ≠ [] → (∀ c ∈ ds, isWordChar c) → IsIdentifier ds
  | special {ds} : ds ≠ [] → (∀ c ∈ ds, isWordChar c) → IsIdentifier ('$' :: ds)

/-- `0x` and hexadecimal digits, or a decimal in the digits of any script. -/
inductive IsNumber : List Char → Prop
  | hex {x ds} : x = 'x' ∨ x = 'X' → ds ≠ [] → (∀ c ∈ ds, isHexDigit c) → IsNumber ('0' :: x :: ds)
  | decimal {t} : Decimal isDecimalDigit t → IsNumber t

def IsOperator (t : List Char) : Prop := ∃ s : Symbol, s.text.toList = t

inductive IsLexeme (t : List Char) : Prop
  | identifier : IsIdentifier t → IsLexeme t
  | number : IsNumber t → IsLexeme t
  | operator : IsOperator t → IsLexeme t

/-- The longest text of a class that another text begins with. -/
structure Longest (P : List Char → Prop) (cs t : List Char) : Prop where
  here : t <+: cs
  fits : P t
  longest : ∀ u, u <+: cs → P u → u.length ≤ t.length

/-- The kind of a lexeme: a number where it can be one, else a keyword, else a name or
an operator. -/
inductive Classed : TokenKind → List Char → Prop
  | number {t} : IsNumber t → Classed .number t
  | keyword {w : Keyword} : ¬ IsNumber w.text.toList → Classed (.keyword w) w.text.toList
  | identifier {t} : ¬ IsNumber t → (∀ w : Keyword, w.text.toList ≠ t) → IsIdentifier t →
      Classed .identifier t
  | symbol {s : Symbol} : ¬ IsNumber s.text.toList →
      (∀ w : Keyword, w.text.toList ≠ s.text.toList) →
      Classed (.symbol s) s.text.toList

/-! ### Identifiers -/

variable {t cs : List Char}

theorem length_le_run {p : Char → Bool} (ht : ∀ c ∈ t, p c) (h : t <+: cs) :
    t.length ≤ run p cs := by
  obtain ⟨rest, rfl⟩ := h
  rw [← run_eq_of_all ht]
  exact run_mono p t rest

theorem IsIdentifier.length_le (h : IsIdentifier t) (ht : t <+: cs) :
    t.length ≤ identifierLength cs := by
  obtain ⟨rest, rfl⟩ := ht
  cases h with
  | plain hne hword =>
      obtain ⟨c, t, rfl⟩ := List.exists_cons_of_ne_nil hne
      have hc : c ≠ '$' := by
        rintro rfl
        exact absurd (hword _ (List.mem_cons_self ..)) (by decide)
      rw [List.cons_append, identifierLength_of_ne hc]
      exact length_le_run hword (List.prefix_append ..)
  | @special ds hne hword =>
      have hrun := length_le_run hword (List.prefix_append ds rest)
      have hpos := List.length_pos_iff.2 hne
      rw [List.cons_append, identifierLength, if_neg (by omega), List.length_cons]
      omega

theorem identifier_scanned (h : identifierLength cs ≠ 0) :
    IsIdentifier (cs.take (identifierLength cs)) := by
  cases cs with
  | nil => exact absurd rfl h
  | cons c cs =>
      by_cases hc : c = '$'
      · subst hc
        rw [identifierLength] at h ⊢
        split at h
        · exact absurd rfl h
        · rename_i hrun
          rw [if_neg hrun, List.take_succ_cons]
          exact .special (Numeral.take_run_ne_nil hrun) Numeral.of_mem_take_run
      · rw [identifierLength_of_ne hc] at h ⊢
        exact .plain (Numeral.take_run_ne_nil h) Numeral.of_mem_take_run

theorem IsWord.isIdentifier (h : IsWord t) : IsIdentifier t := by
  obtain ⟨ds, rfl | rfl, hne, hword⟩ := h.shape
  · exact .plain hne hword
  · exact .special hne hword

/-! ### Numbers -/

/-- A power of ten is counted to its end. -/
theorem power_length_le {power : List Char} (h : Power isDecimalDigit power) (rest : List Char) :
    power.length ≤ exponentLength (power ++ rest) := by
  cases h with
  | none => exact Nat.zero_le _
  | @some e sign ds he hs hne hds =>
      have hrun := length_le_run hds (List.prefix_append ds rest)
      obtain ⟨d, ds, rfl⟩ := List.exists_cons_of_ne_nil hne
      have hpos : run isDecimalDigit (d :: ds ++ rest) ≠ 0 := by
        rw [List.length_cons] at hrun
        omega
      have hsigned : ∀ s, s = '+' ∨ s = '-' →
          (e :: ([s] ++ d :: ds)).length ≤ exponentLength (e :: ([s] ++ d :: ds) ++ rest) := by
        intro s hs
        show _ ≤ exponentLength (e :: s :: (d :: ds ++ rest))
        rw [exponentLength_signed he hs hpos]
        simp only [List.length_cons, List.length_append, List.length_nil] at hrun ⊢
        omega
      rcases hs with rfl | rfl | rfl
      · show (e :: d :: ds).length ≤ exponentLength (e :: d :: (ds ++ rest))
        rw [exponentLength_unsigned he (hds d (List.mem_cons_self ..)), ← List.cons_append,
          List.length_cons]
        omega
      · exact hsigned '+' (.inl rfl)
      · exact hsigned '-' (.inr rfl)

/-- Digits before a power of ten end where it begins. -/
theorem power_stops {power : List Char} (h : Power isDecimalDigit power) (hne : power ≠ [])
    (rest : List Char) :
    Stops isDecimalDigit (power ++ rest) ∧ (power ++ rest).head? ≠ some '.' := by
  cases h with
  | none => exact absurd rfl hne
  | some he =>
      refine ⟨fun c hc => ?_, fun hc => ?_⟩
      · cases hc
        rcases he with rfl | rfl <;> decide
      · obtain rfl := Option.some.inj hc
        revert he
        decide

/-- A decimal is counted to its end, wherever the text goes on. -/
theorem decimal_length_le (h : Decimal isDecimalDigit t) (ht : t <+: cs) :
    t.length ≤ decimalLength cs := by
  obtain ⟨rest, rfl⟩ := ht
  obtain ⟨hw, hf, hne, hp⟩ := h
  rename_i whole fraction ds power
  -- A significand that is counted exactly has the exponent behind it.
  have hexact : significandLength (whole ++ (fraction ++ power) ++ rest) =
    (whole ++ fraction).length →
      (whole ++ (fraction ++ power)).length ≤
      decimalLength (whole ++ (fraction ++ power) ++ rest) := by
    intro hsig
    have hpower := power_length_le hp rest
    have hdrop : (whole ++ (fraction ++ power) ++ rest).drop (whole ++ fraction).length =
        power ++ rest := by
      rw [← List.append_assoc, List.append_assoc (whole ++ fraction), List.drop_left]
    have hpos : (whole ++ fraction).length ≠ 0 := by
      intro hzero
      obtain ⟨rfl, rfl⟩ := List.append_eq_nil_iff.1 (List.eq_nil_of_length_eq_zero hzero)
      cases hf
      exact hne rfl
    simp only [decimalLength, hsig, hdrop, if_neg hpos]
    simp only [List.length_append] at hpower ⊢
    omega
  have hleast := significandLength_le_decimalLength (whole ++ (fraction ++ power) ++ rest)
  cases hf with
  | none =>
      rw [List.append_nil] at hne
      by_cases hpower : power = []
      · subst hpower
        have hrun := length_le_run hw (List.prefix_append whole rest)
        have hsig := run_le_significandLength (whole ++ rest)
        simp only [List.append_nil] at hleast ⊢
        omega
      · obtain ⟨hstop, hpoint⟩ := power_stops hp hpower rest
        refine hexact ?_
        rw [List.nil_append, List.append_assoc, significandLength_whole hw hstop hpoint,
          List.append_nil]
  | some hds =>
      have hrun := length_le_run hds (List.prefix_append ds (power ++ rest))
      have hsome : whole.length ≠ 0 ∨ run isDecimalDigit (ds ++ (power ++ rest)) ≠ 0 := by
        have hpos := List.length_pos_iff.2 hne
        rw [List.length_append] at hpos
        omega
      have hsig : significandLength (whole ++ ('.' :: ds ++ power) ++ rest) =
          whole.length + 1 + run isDecimalDigit (ds ++ (power ++ rest)) := by
        rw [List.append_assoc, List.append_assoc, List.cons_append,
          significandLength_pointed hw hsome]
      by_cases hpower : power = []
      · subst hpower
        simp only [List.append_nil, List.length_append, List.length_cons] at hleast hsig ⊢
        rw [hsig] at hleast
        simp only [List.nil_append] at hrun hleast
        omega
      · obtain ⟨hstop, -⟩ := power_stops hp hpower rest
        refine hexact ?_
        rw [hsig, run_append hstop, run_eq_of_all hds, List.length_append, List.length_cons]
        omega

/-- No decimal that begins with `0x` goes beyond the `0`. -/
theorem decimalLength_le_hexLength (h : hexLength cs ≠ 0) : decimalLength cs ≤ hexLength cs := by
  obtain ⟨x, ds, rfl, hx, hdigits⟩ := of_hexLength h
  have hstop : Stops isDecimalDigit (x :: ds) ∧ (x :: ds).head? ≠ some '.' ∧
      exponentLength (x :: ds) = 0 := by
    rcases hx with rfl | rfl
    · exact ⟨fun c hc => by cases hc; decide, by simp, rfl⟩
    · exact ⟨fun c hc => by cases hc; decide, by simp, rfl⟩
  obtain ⟨hstop, hpoint, hexponent⟩ := hstop
  have hzero : ∀ c ∈ ['0'], isDecimalDigit c := by simpa using isDecimalDigit_zero
  have hsig : significandLength ('0' :: x :: ds) = 1 := significandLength_whole hzero hstop hpoint
  rw [hexLength_cons hx hdigits, decimalLength, hsig]
  simp only [List.drop_succ_cons, List.drop_zero, hexponent]
  split <;> omega

theorem IsNumber.length_le (h : IsNumber t) (ht : t <+: cs) : t.length ≤ numberLength cs := by
  cases h with
  | @hex x ds hx hne hds =>
      obtain ⟨rest, rfl⟩ := ht
      have hrun := length_le_run hds (List.prefix_append ds rest)
      have hpos := List.length_pos_iff.2 hne
      have hhex : hexLength ('0' :: x :: (ds ++ rest)) = run isHexDigit (ds ++ rest) + 2 :=
        hexLength_cons hx (by omega)
      show _ ≤ numberLength ('0' :: x :: (ds ++ rest))
      rw [numberLength, hhex, if_neg (by omega), List.length_cons, List.length_cons]
      omega
  | decimal h =>
      have hdecimal := decimal_length_le h ht
      rw [numberLength]
      split
      · exact hdecimal
      · rename_i hhex
        exact Nat.le_trans hdecimal (decimalLength_le_hexLength hhex)

theorem number_scanned (h : numberLength cs ≠ 0) : IsNumber (cs.take (numberLength cs)) := by
  by_cases hhex : hexLength cs = 0
  · rw [numberLength, if_pos hhex] at h ⊢
    exact .decimal (Numeral.decimal_scanned h)
  · obtain ⟨x, ds, rfl, hx, hdigits⟩ := of_hexLength hhex
    rw [numberLength, if_neg hhex, hexLength_cons hx hdigits, List.take_succ_cons,
      List.take_succ_cons]
    exact .hex hx (Numeral.take_run_ne_nil hdigits) Numeral.of_mem_take_run

theorem IsNumber.ne_nil (h : IsNumber t) : t ≠ [] := by
  cases h with
  | hex => exact List.cons_ne_nil _ _
  | decimal h =>
      obtain ⟨-, hf, hne, -⟩ := h
      rename_i whole fraction ds power
      rintro hnil
      obtain ⟨hwhole, hnil⟩ := List.append_eq_nil_iff.1 hnil
      obtain ⟨hfraction, -⟩ := List.append_eq_nil_iff.1 hnil
      subst hwhole hfraction
      cases hf
      exact hne rfl

/-! ### Operators -/

theorem all_sorted :
    Symbol.all.Pairwise fun r s => s.text.toList.length ≤ r.text.toList.length := by
  decide

theorem mem_all (s : Symbol) : s ∈ Symbol.all := by
  cases s <;> decide

/-- The first operator that fits is the longest. -/
theorem symbol?_longest {s : Symbol} (h : s.text.toList <+: cs) :
    ∃ r, symbol? cs = some r ∧ s.text.toList.length ≤ r.text.toList.length := by
  cases hfound : symbol? cs with
  | none =>
      have hno := List.find?_eq_none.1 hfound s (mem_all s)
      exact absurd (List.isPrefixOf_iff_prefix.2 h) hno
  | some r =>
      refine ⟨r, rfl, ?_⟩
      obtain ⟨-, before, behind, hall, hbefore⟩ := List.find?_eq_some_iff_append.1 hfound
      have hsorted := all_sorted
      rw [hall] at hsorted
      have hmem := mem_all s
      rw [hall] at hmem
      rcases List.mem_append.1 hmem with hs | hs
      · have hno := hbefore s hs
        rw [List.isPrefixOf_iff_prefix.2 h] at hno
        cases hno
      · rcases List.mem_cons.1 hs with rfl | hs
        · exact Nat.le_refl _
        · exact (List.pairwise_cons.1 (List.pairwise_append.1 hsorted).2.1).1 s hs

/-- What an operator begins with begins no name, and a number only if it is a point. -/
theorem head_text (s : Symbol) : ∃ c ds, s.text.toList = c :: ds ∧ c ≠ '$' ∧ isWordChar c = false ∧
    isDecimalDigit c = false ∧ (c = '.' → ds = []) := by
  cases s <;> exact ⟨_, _, rfl, by decide⟩

/-! ### Lexemes -/

theorem IsLexeme.ne_nil (h : IsLexeme t) : t ≠ [] := by
  cases h with
  | identifier h =>
      cases h with
      | plain hne => exact hne
      | special => exact List.cons_ne_nil _ _
  | number h => exact h.ne_nil
  | operator h =>
      obtain ⟨s, rfl⟩ := h
      exact s.text_ne_nil

/-- Where a text begins with neither a name nor a number, it can only begin with an operator. -/
theorem IsLexeme.isOperator (h : IsLexeme t) (ht : t <+: cs) (hname : identifierLength cs = 0)
    (hnumber : numberLength cs = 0) : IsOperator t := by
  have hpos := List.length_pos_iff.2 h.ne_nil
  cases h with
  | identifier h => exact absurd (h.length_le ht) (by omega)
  | number h => exact absurd (h.length_le ht) (by omega)
  | operator h => exact h

/-- Where a text begins with a name or a number, the longer of them is the longest lexeme. -/
theorem IsLexeme.length_le (h : IsLexeme t) (ht : t <+: cs)
    (hsome : identifierLength cs ≠ 0 ∨ numberLength cs ≠ 0) :
    t.length ≤ max (identifierLength cs) (numberLength cs) := by
  cases h with
  | identifier h => exact Nat.le_trans (h.length_le ht) (Nat.le_max_left ..)
  | number h => exact Nat.le_trans (h.length_le ht) (Nat.le_max_right ..)
  | operator h =>
      obtain ⟨s, rfl⟩ := h
      obtain ⟨rest, rfl⟩ := ht
      obtain ⟨c, ds, htext, hdollar, hword, hdigit, hpoint⟩ := head_text s
      rw [htext, List.cons_append] at hsome ⊢
      have hname : identifierLength (c :: (ds ++ rest)) = 0 := by
        rw [identifierLength_of_ne hdollar, run, List.takeWhile_cons, hword]
        rfl
      have hnumber := hsome.resolve_left (not_not.2 hname)
      obtain ⟨d, es, heq, hd⟩ := head_of_numberLength hnumber
      obtain ⟨rfl, -⟩ := List.cons.inj heq
      rcases hd with hd | hd
      · obtain rfl := hpoint hd
        exact Nat.le_trans (Nat.one_le_iff_ne_zero.2 hnumber) (Nat.le_max_right ..)
      · rw [hdigit] at hd
        cases hd

end Lexeme

namespace Piece

open Lexeme (identifierLength numberLength IsIdentifier IsNumber IsLexeme Longest Classed)

variable {cs t : List Char} {k : TokenKind} {m : String} {n : Nat}

/-- The word, number or operator at the head of a text is the longest lexeme there, of the kind
that it has. -/
theorem longest_of_lexeme (h : lexeme cs = (.token k t, n)) :
    Longest IsLexeme cs t ∧ Classed k t := by
  simp only [lexeme] at h
  split at h
  · rename_i hnum
    cases h
    have hnumber := Lexeme.number_scanned hnum.1
    refine ⟨⟨List.take_prefix .., .number hnumber, fun u hu hlex => ?_⟩, .number hnumber⟩
    have hle := hlex.length_le hu (.inr hnum.1)
    rwa [Nat.max_eq_right hnum.2, ← List.length_take_of_le (Lexeme.numberLength_le cs)] at hle
  · rename_i hnum
    split at h
    · rename_i hword
      have hshort : numberLength cs < identifierLength cs := by omega
      have hlength := List.length_take_of_le (Lexeme.identifierLength_le cs)
      have hname := Lexeme.identifier_scanned hword
      have hno : ¬ IsNumber (cs.take (identifierLength cs)) := by
        intro hnumber
        have hle := hnumber.length_le (List.take_prefix (identifierLength cs) cs)
        omega
      have hlongest : Longest IsLexeme cs (cs.take (identifierLength cs)) := by
        refine ⟨List.take_prefix .., .identifier hname, fun u hu hlex => ?_⟩
        have hle := hlex.length_le hu (.inl hword)
        omega
      split at h
      · rename_i w hfound
        cases h
        have htext : w.text.toList = cs.take (identifierLength cs) := by
          have hsame := List.find?_some (p := fun w : Keyword => decide (w.text = _)) hfound
          rw [of_decide_eq_true hsame, String.toList_ofList]
        rw [← htext] at hno hlongest ⊢
        exact ⟨hlongest, .keyword hno⟩
      · rename_i hnone
        cases h
        refine ⟨hlongest, .identifier hno (fun w hw => ?_) hname⟩
        rw [← hw, String.ofList_toList, ofText?_keyword] at hnone
        cases hnone
    · rename_i hword
      have hnumber : numberLength cs = 0 := by omega
      split at h
      · rename_i s hs
        cases h
        have hhere := Lexeme.of_symbol? hs
        have hno : ¬ IsNumber s.text.toList := fun hnum => by
          have hle := hnum.length_le hhere
          exact absurd (List.length_pos_iff.2 s.text_ne_nil) (by omega)
        have hplain : ∀ w : Keyword, w.text.toList ≠ s.text.toList := fun w hw => by
          have hle := (hw ▸ (isWord_keyword w).isIdentifier).length_le hhere
          exact absurd (List.length_pos_iff.2 s.text_ne_nil) (by omega)
        refine ⟨⟨hhere, .operator ⟨s, rfl⟩, fun u hu hlex => ?_⟩, .symbol hno hplain⟩
        obtain ⟨r, rfl⟩ := hlex.isOperator hu (by omega) hnumber
        obtain ⟨s', hs', hle⟩ := Lexeme.symbol?_longest hu
        obtain rfl := Option.some.inj (hs.symm.trans hs')
        exact hle
      · cases h

/-- Where nothing can be read, there is no lexeme. -/
theorem no_lexeme_of_fault (h : lexeme cs = (.fault m, n)) : ∀ u, u <+: cs → ¬ IsLexeme u := by
  simp only [lexeme] at h
  split at h
  · cases h
  · split at h
    · split at h <;> cases h
    · split at h
      · cases h
      · rename_i hnone
        intro u hu hlex
        obtain ⟨s, rfl⟩ := hlex.isOperator hu (by omega) (by omega)
        obtain ⟨r, hr, -⟩ := Lexeme.symbol?_longest hu
        rw [hnone] at hr
        cases hr

/-- What is reported of a comment, a string or a file reference without an end. -/
def unfinished : List String := "unterminated file reference" :: openEnds

/-- Comments, strings and files apart, what stands at the head of a text is read as a lexeme. -/
theorem first_or_lexeme (expectsFile : Bool) (c : Char) (cs : List Char) :
    first expectsFile c cs = lexeme (c :: cs) ∨ match (first expectsFile c cs).1 with
      | .blank => True
      | .token k _ => k = .string ∨ k = .file
      | .fault m => m ∈ unfinished := by
  simp only [first]
  split
  · exact .inr trivial
  · split
    · split
      · exact .inr trivial
      · exact .inr (.tail _ (.head _))
    · split
      · exact .inr trivial
      · split
        · split
          · exact .inr (.inl rfl)
          · exact .inr (.tail _ (.tail _ (.head _)))
        · split
          · split
            · exact .inr (.inr rfl)
            · exact .inr (.head _)
          · exact .inl rfl

end Piece

/-! ### Texts -/

/-- What was found is the first piece of a text. -/
def Scanned.Heads (cs : List Char) : Scanned → Prop
  | .token t => ∃ expectsFile c rest written n, cs = c :: rest ∧
      Piece.first expectsFile c rest = (.token t.kind written, n) ∧ t.text.toList = written
  | .fault d => ∃ expectsFile c rest n, cs = c :: rest ∧
      Piece.first expectsFile c rest = (.fault d.message, n)

/-- What was found is the first piece of what is left of a text from its offset on. -/
def Scanned.StandsIn (place : Position) (cs : List Char) (x : Scanned) : Prop :=
  ∃ k : Nat, x.span.start.offset = place.offset + k ∧ x.Heads (cs.drop k)

theorem Scanned.StandsIn.behind {place : Position} {expectsFile : Bool} {c : Char} {cs : List Char}
    {piece : Piece} {n : Nat} {x : Scanned} (hfirst : Piece.first expectsFile c cs = (piece, n))
    (h : x.StandsIn (place.advanceAll ((c :: cs).take n)) (cs.drop (n - 1))) :
    x.StandsIn place (c :: cs) := by
  obtain ⟨k, hk, hheads⟩ := h
  refine ⟨n + k, ?_, ?_⟩
  · rw [hk, Piece.offset_first place hfirst]
    omega
  · rw [← List.drop_drop, List.drop_cons (hfirst ▸ Piece.cut_first _ c cs :).positive]
    exact hheads

/-- Whatever is found heads what is left of the text where it begins. -/
theorem standsIn_scanFrom (origin : String) (last : Option TokenKind) (place : Position)
    (cs : List Char) :
    ∀ x ∈ (scanFrom origin last place cs).1, x.StandsIn place cs := by
  fun_induction scanFrom origin last place cs with
  | case1 => exact fun x hx => absurd hx List.not_mem_nil
  | case2 last place c cs length next rest hfirst ih => exact fun x hx => (ih x hx).behind hfirst
  | case3 last place c cs length next span rest kind text found stop hscan hfirst ih =>
      rw [hscan] at ih
      intro x hx
      rcases List.mem_cons.1 hx with rfl | hx
      · exact ⟨0, (Int.add_zero _).symm, _, _, _, _, _, rfl, hfirst, String.toList_ofList⟩
      · exact (ih x hx).behind hfirst
  | case4 last place c cs length next span rest message found stop hscan hfirst ih =>
      rw [hscan] at ih
      intro x hx
      rcases List.mem_cons.1 hx with rfl | hx
      · exact ⟨0, (Int.add_zero _).symm, _, _, _, _, rfl, hfirst⟩
      · exact (ih x hx).behind hfirst

theorem Scanned.Heads.longest {t : Token} {cs : List Char} (h : Scanned.Heads cs (.token t))
    (hstring : t.kind ≠ .string) (hfile : t.kind ≠ .file) :
    Lexeme.Longest Lexeme.IsLexeme cs t.text.toList ∧ Lexeme.Classed t.kind t.text.toList := by
  obtain ⟨expectsFile, c, rest, written, n, rfl, hfirst, rfl⟩ := h
  have hread := Piece.first_or_lexeme expectsFile c rest
  rw [hfirst] at hread
  rcases hread with hread | hread | hread
  · exact Piece.longest_of_lexeme hread.symm
  · exact absurd hread hstring
  · exact absurd hread hfile

theorem Scanned.Heads.no_lexeme {d : Diagnostic} {cs : List Char} (h : Scanned.Heads cs (.fault d))
    (hmessage : "unexpected character ".toList <+: d.message.toList) :
    ∀ u, u <+: cs → ¬ Lexeme.IsLexeme u := by
  obtain ⟨expectsFile, c, rest, n, rfl, hfirst⟩ := h
  have hread := Piece.first_or_lexeme expectsFile c rest
  rw [hfirst] at hread
  rcases hread with hread | hread
  · exact Piece.no_lexeme_of_fault hread.symm
  · have hother : ∀ m ∈ Piece.unfinished, ¬ "unexpected character ".toList <+: m.toList := by decide
    exact absurd hmessage (hother _ hread)

/-- Strings and files apart, each token of a text is the longest lexeme that begins where the token
does, and it is a number if it can be one, else a keyword, else a name or an operator. A character
is reported as unexpected only where no lexeme begins. -/
theorem tokenize_longest (source origin : String) :
    (∀ t ∈ (tokenize source origin).tokens, t.kind ≠ .string → t.kind ≠ .file → t.kind ≠ .eof →
      Lexeme.Longest Lexeme.IsLexeme (source.toList.drop t.span.start.offset.toNat) t.text.toList ∧
        Lexeme.Classed t.kind t.text.toList) ∧
    ∀ d ∈ (tokenize source origin).faults, "unexpected character ".toList <+: d.message.toList →
      ∀ u, u <+: source.toList.drop d.span.start.offset.toNat → ¬ Lexeme.IsLexeme u := by
  have hstands : ∀ x ∈ (scanFrom origin none .start source.toList).1,
      x.Heads (source.toList.drop x.span.start.offset.toNat) := by
    intro x hx
    obtain ⟨k, hk, hheads⟩ := standsIn_scanFrom origin none .start source.toList x hx
    have hk' : x.span.start.offset.toNat = k := by
      rw [hk]
      simp [Position.start]
    rw [hk']
    exact hheads
  refine ⟨fun t ht hstring hfile heof => ?_, fun d hd hmessage => ?_⟩
  · rcases List.mem_append.1 ht with ht | ht
    · obtain ⟨x, hx, hxt⟩ := List.mem_filterMap.1 ht
      cases x with
      | token u =>
          obtain rfl := Option.some.inj hxt
          exact (hstands _ hx).longest hstring hfile
      | fault d => cases hxt
    · rw [List.mem_singleton.1 ht] at heof
      exact absurd rfl heof
  · obtain ⟨x, hx, hxd⟩ := List.mem_filterMap.1 hd
    cases x with
    | token t => cases hxd
    | fault e =>
        obtain rfl := Option.some.inj hxd
        exact (hstands _ hx).no_lexeme hmessage

/-- A name that begins as a number does, and a character that begins nothing. -/
theorem tokenize_longest_name :
    ∃ t ∈ (tokenize "1e+@" "f").tokens, (t.kind, t.text) = (.identifier, "1e") ∧
    Lexeme.Longest Lexeme.IsLexeme "1e+@".toList "1e".toList ∧
    Lexeme.Classed .identifier "1e".toList ∧ ∃ d ∈ (tokenize "1e+@" "f").faults,
      "unexpected character ".toList <+: d.message.toList ∧ ∀ u, u <+: "@".toList →
      ¬ Lexeme.IsLexeme u := by
  have hname : ⟨.identifier, "1e", ⟨"f", ⟨0, 1, 1⟩, ⟨2, 1, 3⟩⟩⟩ ∈ (tokenize "1e+@" "f").tokens := by
    decide +kernel
  have hfault : ⟨.lexical "@", ⟨"f", ⟨3, 1, 4⟩, ⟨4, 1, 5⟩⟩, "unexpected character '@'"⟩ ∈
      (tokenize "1e+@" "f").faults := by decide +kernel
  have hmessage : "unexpected character ".toList <+: "unexpected character '@'".toList := by decide
  obtain ⟨hlongest, hclassed⟩ := (tokenize_longest "1e+@" "f").1 _ hname nofun nofun nofun
  exact ⟨_, hname, rfl, hlongest, hclassed, _, hfault, hmessage,
    (tokenize_longest "1e+@" "f").2 _ hfault hmessage⟩

end Scad
