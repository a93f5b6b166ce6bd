import Scad.Proofs.Render.Passage

/-! Words and points side by side. However they run together, the text is scanned without a fault,
and to the same tokens whatever closes it, if no word in it ends in one that a file follows. -/
namespace Scad

open Lexeme (isWordChar Closed Stops run)
open Numeral (isAsciiDigit)

/-- Words, each with an optional `$` before it, and points. -/
inductive Fused : List Char → Prop
  | nil : Fused []
  | point {cs} : Fused cs → Fused ('.' :: cs)
  | sigil {c cs} : isWordChar c → Fused (c :: cs) → Fused ('$' :: c :: cs)
  | letter {c cs} : isWordChar c →
      (∀ i : Inclusion, (c :: cs).takeWhile isWordChar ≠ i.text.toList) → Fused cs → Fused (c :: cs)

namespace Fused

variable {cs ds : List Char}

theorem drop (h : Fused cs) (n : Nat) : Fused (cs.drop n) := by
  induction n generalizing cs with
  | zero => exact h
  | succ n ih =>
      cases h with
      | nil => exact .nil
      | point h | sigil _ h | letter _ _ h => exact ih h

/-- What a word goes on with is not a part of it. -/
theorem append (h : Fused cs) (h' : Fused ds) (hds : Stops isWordChar ds) : Fused (cs ++ ds) := by
  induction h with
  | nil => exact h'
  | point _ ih => exact .point ih
  | sigil hc _ ih => exact .sigil hc ih
  | @letter c cs hc hword _ ih =>
      refine .letter hc (fun i => ?_) ih
      have hrun : ((c :: cs) ++ ds).takeWhile isWordChar = (c :: cs).takeWhile isWordChar := by
        rw [← Lexeme.take_run, Lexeme.run_append hds,
          List.take_append_of_le_length (Lexeme.run_le ..), Lexeme.take_run]
      exact hrun ▸ hword i

/-- A word that does not end in one that a file follows. -/
theorem word (h : ∀ c ∈ cs, isWordChar c) (hends : ∀ i : Inclusion, ¬ i.text.toList <:+ cs) :
    Fused cs := by
  induction cs with
  | nil => exact .nil
  | cons c cs ih =>
      obtain ⟨hc, hcs⟩ := List.forall_mem_cons.1 h
      refine .letter hc (fun i heq => ?_) (ih hcs fun i hi => ?_)
      · have hall : (c :: cs).takeWhile isWordChar = c :: cs := by
          rw [← Lexeme.take_run, Lexeme.run_eq_of_all h, List.take_length]
        rw [hall] at heq
        exact hends i (heq ▸ List.suffix_refl _)
      · exact hends i (hi.trans (List.suffix_cons ..))

/-- The name of a member with the point before it. -/
theorem member {m : List Char} (h : Lexeme.IsWord m)
    (hends : ∀ i : Inclusion, ¬ i.text.toList <:+ m) :
    Fused ('.' :: m) := by
  obtain ⟨ds, hm, hne, hds⟩ := h.shape
  have hword : Fused ds := word hds fun i hi => by
    apply hends i
    rcases hm with rfl | rfl
    · exact hi
    · exact hi.trans (List.suffix_cons ..)
  apply point
  rcases hm with rfl | rfl
  · exact hword
  · cases ds with
    | nil => exact absurd rfl hne
    | cons d ds => exact .sigil (hds d (List.mem_cons_self ..)) hword

/-- Where no word begins there is a point. -/
theorem point_of_identifierLength {c : Char} (h : Fused (c :: cs))
    (hzero : Lexeme.identifierLength (c :: cs) = 0) : c = '.' := by
  cases h with
  | point => rfl
  | sigil hc => simp [Lexeme.identifierLength, run, hc] at hzero
  | letter hc =>
      have hne : c ≠ '$' := by
        rintro rfl
        cases hc
      simp [Lexeme.identifierLength_of_ne hne, run, hc] at hzero

/-- No file follows the word at the front. -/
theorem expectsFile_of_word {c : Char} (h : Fused (c :: cs)) {w : Keyword}
    (hw : (c :: cs).take (Lexeme.identifierLength (c :: cs)) = w.text.toList) :
    (TokenKind.keyword w).expectsFile = false := by
  have htext : ∀ i : Inclusion, (c :: cs).take (Lexeme.identifierLength (c :: cs)) ≠
      i.text.toList := by
    intro i heq
    cases h with
    | point =>
        have hzero : Lexeme.identifierLength ('.' :: cs) = 0 := rfl
        rw [hzero] at heq
        cases i <;> cases heq
    | @sigil c cs hc =>
        have hlength : Lexeme.identifierLength ('$' :: c :: cs) = run isWordChar (c :: cs) + 1 := by
          simp [Lexeme.identifierLength, run, hc]
        rw [hlength, List.take_succ_cons] at heq
        cases i <;> cases heq
    | letter hc hword =>
        have hne : c ≠ '$' := by
          rintro rfl
          cases hc
        rw [Lexeme.identifierLength_of_ne hne, Lexeme.take_run] at heq
        exact hword i heq
  cases w with
  | includeFile => exact absurd hw (htext .everything)
  | useFile => exact absurd hw (htext .definitions)
  | _ => rfl

/-- The scanner takes a token at the front, no parenthesis, and no word at a digit. -/
theorem lexeme {c : Char} (h : Fused (c :: cs)) : ∃ k n, 0 < n ∧ n ≤ (c :: cs).length ∧
    k.expectsFile = false ∧ k ≠ .symbol .leftParen ∧
    (isAsciiDigit c → Parse.startsGenerator k = false) ∧
    Piece.lexeme (c :: cs) = (.token k ((c :: cs).take n), n) := by
  have hlawful := Piece.textMatchesKind_lexeme (c :: cs)
  unfold Piece.lexeme at hlawful ⊢
  by_cases hnumber : Lexeme.numberLength (c :: cs) ≠ 0 ∧
      Lexeme.identifierLength (c :: cs) ≤ Lexeme.numberLength (c :: cs)
  · exact ⟨.number, _, Nat.pos_of_ne_zero hnumber.1, Lexeme.numberLength_le _, rfl,
      by simp, fun _ => rfl, if_pos hnumber⟩
  rw [if_neg hnumber] at hlawful ⊢
  by_cases hword : Lexeme.identifierLength (c :: cs) = 0
  · rw [if_neg (not_not.2 hword)]
    obtain rfl := h.point_of_identifierLength hword
    exact ⟨.symbol .dot, 1, Nat.one_pos, by simp, rfl, by simp, fun _ => rfl, rfl⟩
  · rw [if_pos hword] at hlawful ⊢
    have hpos := Nat.pos_of_ne_zero hword
    cases hk : Keyword.ofText? (String.ofList ((c :: cs).take (Lexeme.identifierLength (c :: cs))))
      with
    | none =>
        exact ⟨.identifier, _, hpos, Lexeme.identifierLength_le _, rfl, by simp, fun _ => rfl,
          by simp only [hk]⟩
    | some w =>
        simp only [hk] at hlawful
        have hofList : String.ofList ((c :: cs).take (Lexeme.identifierLength (c :: cs))) =
            w.text := hlawful
        have htext : (c :: cs).take (Lexeme.identifierLength (c :: cs)) = w.text.toList := by
          rw [← hofList, String.toList_ofList]
        refine ⟨.keyword w, _, hpos, Lexeme.identifierLength_le _, h.expectsFile_of_word htext,
          by simp, fun hc => ?_, by simp only [hk]⟩
        obtain ⟨n, hn⟩ := Nat.exists_eq_succ_of_ne_zero hword
        rw [hn, List.take_succ_cons] at htext
        cases w <;> obtain ⟨rfl, -⟩ := List.cons.inj htext <;> cases hc

/-- It does not depend on what closes the text. -/
theorem first {c : Char} (h : Fused (c :: cs)) (hds : Closed ds) :
    Piece.first false c (cs ++ ds) = Piece.lexeme (c :: cs) := by
  have hstarts : Piece.startsLexeme c := by
    cases h with
    | point | sigil => decide
    | letter hc => exact Piece.startsLexeme_of_isWordChar hc
  rw [Piece.first_eq_lexeme hstarts, ← List.cons_append]
  apply Piece.lexeme_closed hds (List.cons_ne_nil c cs)
  intro hzero
  obtain rfl := h.point_of_identifierLength hzero
  rfl

/-- Words and points are scanned on their own. -/
theorem scans (h : Fused cs) : ∃ found, Scans Closed cs found ∧
    (∀ {more}, Ungrouped false more → Ungrouped false (found ++ more)) ∧
    ((∃ c ds, cs = c :: ds ∧ isAsciiDigit c) →
      ∀ {more}, Ungrouped false more → Ungrouped true (found ++ more)) := by
  induction hlength : cs.length using Nat.strong_induction_on generalizing cs with
  | h length ih =>
      cases cs with
      | nil => exact ⟨[], Scans.nil.mono fun _ => trivial, fun hmore => hmore,
          fun ⟨c, ds, heq, _⟩ => by cases heq⟩
      | cons c cs =>
          obtain ⟨k, n, hpos, hle, hfile, hparen, hdigit, hlexeme⟩ := h.lexeme
          have hshorter : ((c :: cs).drop n).length < length := by
            rw [List.length_drop, ← hlength]
            omega
          obtain ⟨found, hfound, hungrouped, -⟩ := ih _ hshorter (h.drop n) rfl
          have hpiece : Scans (fun ds => ∃ es, Closed es ∧ ds = (c :: cs).drop n ++ es)
            ((c :: cs).take n)
              [(k, String.ofList ((c :: cs).take n))] := by
            apply Scans.piece hfile
            rintro _ ⟨es, hes, rfl⟩
            obtain ⟨n, rfl⟩ := Nat.exists_eq_succ_of_ne_zero (Nat.ne_of_gt hpos)
            refine ⟨c, cs.take n, rfl, ?_⟩
            rw [← List.append_assoc, List.drop_succ_cons, List.take_append_drop,
              h.first hes, hlexeme, List.length_take, Nat.min_eq_left hle]
          have hscans := hpiece.append hfound fun {es} hes => ⟨es, hes, rfl⟩
          rw [List.take_append_drop] at hscans
          have hrest : ∀ {more}, Ungrouped false more →
              Ungrouped (decide (k = .symbol .leftParen)) (found ++ more) := by
            intro more hmore
            rw [decide_eq_false hparen]
            exact hungrouped hmore
          refine ⟨_, hscans, fun hmore => ⟨nofun, hrest hmore⟩, ?_⟩
          rintro ⟨d, ds, heq, hd⟩ more hmore
          obtain ⟨rfl, rfl⟩ := List.cons.inj heq
          exact ⟨fun _ => hdigit hd, hrest hmore⟩

/-- A passage that is such a text. Where a digit begins it, no generator does. -/
structure Written (cs : List Char) (p : Passage) : Prop where
  text : p.text.toList = cs
  closed : ∀ {ds}, Closed ds → p.follow ds
  ungroups : p.Ungroups false
  digit : (∃ c ds, cs = c :: ds ∧ isAsciiDigit c) → p.Ungroups true

theorem written (h : Fused cs) : ∃ p, Written cs p := by
  obtain ⟨found, hscans, hungrouped, hdigit⟩ := h.scans
  refine ⟨⟨String.ofList cs, found, Closed, ?_⟩, String.toList_ofList, id, hungrouped, hdigit⟩
  rw [String.toList_ofList]
  exact hscans

end Fused

end Scad
