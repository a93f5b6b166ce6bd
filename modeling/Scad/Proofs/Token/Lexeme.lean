import Scad.Number.Numeral
import Scad.Token.Stream

/-! Words, numbers and symbols are found again when something else stands behind them, as long as it
does not go on with them. -/
namespace Scad.Lexeme

open Text (isDecimalDigit isHexDigit)

/-- What stands behind a run does not go on with it. -/
def Stops (p : Char → Bool) (cs : List Char) : Prop := ∀ c, cs.head? = some c → p c = false

theorem Stops.takeWhile {p : Char → Bool} {cs : List Char} (h : Stops p cs) :
    cs.takeWhile p = [] := by
  cases cs with
  | nil => rfl
  | cons c cs => rw [List.takeWhile_cons, h c rfl, if_neg (by simp)]

theorem run_append {p : Char → Bool} {cs : List Char} (h : Stops p cs) (ds : List Char) :
    run p (ds ++ cs) = run p ds := by
  rw [run, run, List.takeWhile_append, h.takeWhile]
  split
  · rename_i hl
    rw [List.append_nil, hl]
  · rfl

theorem run_le (p : Char → Bool) (ds : List Char) : run p ds ≤ ds.length :=
  (List.takeWhile_sublist p).length_le

theorem run_eq_of_all {p : Char → Bool} {ds : List Char} (h : ∀ d ∈ ds, p d) :
    run p ds = ds.length := by
  have ha : (ds ++ []).takeWhile p = ds ++ [].takeWhile p := List.takeWhile_append_of_pos h
  rw [List.append_nil, List.takeWhile_nil, List.append_nil] at ha
  rw [run, ha]

theorem run_mono (p : Char → Bool) (ds cs : List Char) : run p ds ≤ run p (ds ++ cs) := by
  rw [run, run, List.takeWhile_append]
  split
  · rename_i hl
    rw [hl, List.length_append]
    omega
  · exact Nat.le_refl _

theorem run_append_of_lt {p : Char → Bool} {ds : List Char} (h : run p ds < ds.length)
    (cs : List Char) : run p (ds ++ cs) = run p ds := by
  rw [run] at h
  rw [run, run, List.takeWhile_append, if_neg (Nat.ne_of_lt h)]

/-- The characters that end a word or a number, a point apart. -/
def delimits (c : Char) : Bool :=
  !isWordChar c && !isDecimalDigit c && c ≠ '+' && c ≠ '-'

def Delimited (cs : List Char) : Prop := ∀ c, cs.head? = some c → delimits c

theorem isWordChar_of_isHexDigit {c : Char} (h : isHexDigit c) : isWordChar c := by
  simp only [isHexDigit, Text.hexDigit?] at h
  simp only [isWordChar, Bool.or_eq_true, Bool.and_eq_true, decide_eq_true_eq]
  split at h
  · rename_i hd
    exact .inl (.inr hd)
  · split at h
    · rename_i hd
      exact .inl (.inl (.inl ⟨hd.1, Char.le_trans hd.2 (by decide)⟩))
    · split at h
      · rename_i hd
        exact .inl (.inl (.inr ⟨hd.1, Char.le_trans hd.2 (by decide)⟩))
      · cases h

theorem Delimited.word {cs : List Char} (h : Delimited cs) : Stops isWordChar cs := by
  intro c hc
  have := h c hc
  simp only [delimits, Bool.and_eq_true, Bool.not_eq_true'] at this
  exact this.1.1.1

theorem Delimited.digit {cs : List Char} (h : Delimited cs) : Stops isDecimalDigit cs := by
  intro c hc
  have := h c hc
  simp only [delimits, Bool.and_eq_true, Bool.not_eq_true'] at this
  exact this.1.1.2

theorem Delimited.hexDigit {cs : List Char} (h : Delimited cs) : Stops isHexDigit cs := by
  intro c hc
  have hw := h.word c hc
  cases hx : isHexDigit c with
  | false => rfl
  | true =>
      rw [isWordChar_of_isHexDigit hx] at hw
      cases hw

theorem Delimited.sign {cs : List Char} (h : Delimited cs) {c : Char} (hc : cs.head? = some c) :
    ¬ (c = '+' ∨ c = '-') := by
  have hd := h c hc
  simp only [delimits, Bool.and_eq_true, decide_eq_true_eq] at hd
  exact fun hs => hs.elim hd.1.2 hd.2

theorem isWordChar_dollar : isWordChar '$' = false := by decide

theorem isDecimalDigit_dollar : isDecimalDigit '$' = false := by decide

theorem identifierLength_of_shape {t : List Char} {ds cs : List Char} (ht : t = ds ∨ t = '$' :: ds)
    (hne : ds ≠ []) (hds : ∀ d ∈ ds, isWordChar d) (h : Stops isWordChar cs) :
    identifierLength (t ++ cs) = t.length := by
  have hrun : run isWordChar (ds ++ cs) = ds.length := by rw [run_append h, run_eq_of_all hds]
  rcases ht with rfl | rfl
  · cases t with
    | nil => exact absurd rfl hne
    | cons d ds =>
        have hd := hds d (List.mem_cons_self ..)
        rw [List.cons_append, identifierLength]
        · exact hrun
        · rintro cs' heq
          cases heq
          rw [isWordChar_dollar] at hd
          cases hd
  · rw [List.cons_append, identifierLength, hrun, if_neg]
    · rfl
    · exact fun h => hne (List.eq_nil_of_length_eq_zero h)

theorem isWordChar_sign {c : Char} (h : isWordChar c) : ¬ (c = '+' ∨ c = '-') := by
  rintro (rfl | rfl)
  · exact absurd h (by decide)
  · exact absurd h (by decide)

theorem isWordChar_point {c : Char} (h : isWordChar c) : c ≠ '.' := by
  rintro rfl
  exact absurd h (by decide)

theorem identifierLength_of_ne {c : Char} (hc : c ≠ '$') (cs : List Char) :
    identifierLength (c :: cs) = run isWordChar (c :: cs) :=
  identifierLength.eq_2 _ fun _ heq => hc (List.cons.inj heq).1

/-! ### Significands and exponents in front of a text -/

section

variable {whole cs : List Char}

theorem significandLength_whole (hw : ∀ c ∈ whole, isDecimalDigit c) (hs : Stops isDecimalDigit cs)
    (hpoint : cs.head? ≠ some '.') : significandLength (whole ++ cs) = whole.length := by
  have hrun : run isDecimalDigit (whole ++ cs) = whole.length := by
    rw [run_append hs, run_eq_of_all hw]
  simp only [significandLength, hrun, List.drop_left]
  split
  · rename_i rest
    exact absurd rfl hpoint
  · rfl

theorem significandLength_pointed (hw : ∀ c ∈ whole, isDecimalDigit c)
    (h : whole.length ≠ 0 ∨ run isDecimalDigit cs ≠ 0) :
    significandLength (whole ++ '.' :: cs) = whole.length + 1 + run isDecimalDigit cs := by
  have hstop : Stops isDecimalDigit ('.' :: cs) := by
    intro c hc
    cases hc
    decide
  have hrun : run isDecimalDigit (whole ++ '.' :: cs) = whole.length := by
    rw [run_append hstop, run_eq_of_all hw]
  simp only [significandLength, hrun, List.drop_left]
  rw [if_neg (by omega)]

theorem exponentLength_signed {e s : Char} (he : e = 'e' ∨ e = 'E') (hs : s = '+' ∨ s = '-')
    (h : run isDecimalDigit cs ≠ 0) :
    exponentLength (e :: s :: cs) = 2 + run isDecimalDigit cs := by
  simp only [exponentLength, if_pos he, if_pos hs, List.drop_succ_cons, List.drop_zero, if_neg h]

theorem exponentLength_unsigned {e d : Char} (he : e = 'e' ∨ e = 'E') (hd : isDecimalDigit d) :
    exponentLength (e :: d :: cs) = 1 + run isDecimalDigit (d :: cs) := by
  have hsign : ¬ (d = '+' ∨ d = '-') := by
    rintro (rfl | rfl) <;> exact absurd hd (by decide)
  have hrun : run isDecimalDigit (d :: cs) ≠ 0 := by simp [run, hd]
  simp only [exponentLength, if_pos he, if_neg hsign, List.drop_zero, if_neg hrun, Nat.add_zero]

end

/-! ### The length of a number does not reach behind a word -/

theorem exponentLength_eq_zero {cs : List Char} (hc : Delimited cs) : exponentLength cs = 0 := by
  cases cs with
  | nil => rfl
  | cons c cs =>
      have hw := hc.word c rfl
      have he : ¬ (c = 'e' ∨ c = 'E') := by
        rintro (rfl | rfl)
        · exact absurd hw (by decide)
        · exact absurd hw (by decide)
      simp only [exponentLength, if_neg he]

theorem exponentLength_append {cs : List Char} (hc : Delimited cs) (ds : List Char) :
    exponentLength (ds ++ cs) = exponentLength ds := by
  have hrun := run_append hc.digit
  match ds with
  | [] => exact exponentLength_eq_zero hc
  | [e] =>
      cases cs with
      | nil => rfl
      | cons c cs =>
          have hnone : run isDecimalDigit (c :: cs) = 0 := hrun []
          simp only [List.cons_append, List.nil_append, exponentLength, if_neg (hc.sign rfl),
            List.drop_zero, hnone]
          rfl
  | e :: s :: ds =>
      have hdigits : ∀ n ≤ 1, run isDecimalDigit ((s :: (ds ++ cs)).drop n) =
          run isDecimalDigit ((s :: ds).drop n) := by
        intro n hn
        rw [← List.cons_append, List.drop_append_of_le_length (Nat.le_trans hn (by simp)), hrun]
      have hsign : (if s = '+' ∨ s = '-' then 1 else 0) ≤ 1 := by split <;> omega
      simp only [exponentLength, List.cons_append, hdigits _ hsign]

theorem exponentLength_mono {ds : List Char} (hds : ∀ d ∈ ds, isWordChar d) (e : Char)
    (cs : List Char) : exponentLength (e :: ds) ≤ exponentLength (e :: (ds ++ cs)) := by
  cases ds with
  | nil => simp [exponentLength, run]
  | cons d ds =>
      have hd := isWordChar_sign (hds d (List.mem_cons_self ..))
      have hrun := run_mono isDecimalDigit (d :: ds) cs
      rw [List.cons_append] at hrun ⊢
      simp only [exponentLength, if_neg hd, List.drop_zero]
      split
      · split
        · exact Nat.zero_le _
        · rw [if_neg (by omega)]
          omega
      · exact Nat.le_refl _

/-- A word that digits do not fill ends its significand inside. -/
theorem significandLength_word {t : List Char} (ht : ∀ d ∈ t, isWordChar d)
    (hlt : run isDecimalDigit t < t.length) (cs : List Char) :
    significandLength (t ++ cs) = run isDecimalDigit t := by
  have hdrop : (t ++ cs).drop (run isDecimalDigit t) = t.drop (run isDecimalDigit t) ++ cs :=
    List.drop_append_of_le_length (Nat.le_of_lt hlt)
  cases hd : t.drop (run isDecimalDigit t) with
  | nil =>
      have := List.drop_eq_nil_iff.1 hd
      omega
  | cons d ds =>
      have hpoint := isWordChar_point (ht d (List.mem_of_mem_drop (hd ▸ List.mem_cons_self ..)))
      simp only [significandLength, run_append_of_lt hlt, hdrop, hd, List.cons_append]
      split
      · rename_i heq
        cases heq
        exact absurd rfl hpoint
      · rfl

/-- Such a word is a number with what may be an exponent behind it. -/
theorem decimalLength_eq_of_word {t : List Char} (ht : ∀ d ∈ t, isWordChar d)
    (hlt : run isDecimalDigit t < t.length) : ∃ e ds, (∀ d ∈ ds, isWordChar d) ∧
      ∀ cs, decimalLength (t ++ cs) = if run isDecimalDigit t = 0 then 0
        else run isDecimalDigit t + exponentLength (e :: (ds ++ cs)) := by
  cases hd : t.drop (run isDecimalDigit t) with
  | nil =>
      have := List.drop_eq_nil_iff.1 hd
      omega
  | cons e ds =>
      refine ⟨e, ds, fun d hmem => ?_, fun cs => ?_⟩
      · exact ht d (List.mem_of_mem_drop (hd ▸ List.mem_cons_of_mem _ hmem))
      · simp only [decimalLength, significandLength_word ht hlt,
          List.drop_append_of_le_length (Nat.le_of_lt hlt), hd, List.cons_append]

theorem decimalLength_word {t cs : List Char} (ht : ∀ d ∈ t, isWordChar d) (hc : Delimited cs)
    (hlt : run isDecimalDigit t < t.length) : decimalLength (t ++ cs) = decimalLength t := by
  obtain ⟨e, ds, -, heq⟩ := decimalLength_eq_of_word ht hlt
  have hnil := heq []
  rw [List.append_nil, List.append_nil] at hnil
  rw [heq, hnil, ← List.cons_append, exponentLength_append hc]

theorem hexLength_of_ne {c : Char} (h : c ≠ '0') (cs : List Char) : hexLength (c :: cs) = 0 := by
  unfold hexLength
  split
  · rename_i heq
    cases heq
    exact absurd rfl h
  · rfl

theorem isDecimalDigit_zero : isDecimalDigit '0' = true := by decide

theorem hexLength_append {cs : List Char} (hc : Delimited cs) (ds : List Char) :
    hexLength (ds ++ cs) = hexLength ds := by
  match ds with
  | [] =>
      cases cs with
      | nil => rfl
      | cons c cs =>
          refine hexLength_of_ne ?_ cs
          rintro rfl
          exact absurd (hc.word '0' rfl) (by decide)
  | [d] =>
      by_cases hd : d = '0'
      · subst hd
        cases cs with
        | nil => rfl
        | cons c cs =>
            have hx : ¬ (c = 'x' ∨ c = 'X') := by
              rintro (rfl | rfl)
              · exact absurd (hc.word 'x' rfl) (by decide)
              · exact absurd (hc.word 'X' rfl) (by decide)
            simp [hexLength, hx]
      · exact (hexLength_of_ne hd _).trans (hexLength_of_ne hd _).symm
  | d :: x :: ds =>
      by_cases hd : d = '0'
      · subst hd
        rw [List.cons_append, List.cons_append, hexLength, hexLength, run_append hc.hexDigit]
      · exact (hexLength_of_ne hd _).trans (hexLength_of_ne hd _).symm

theorem run_le_significandLength (cs : List Char) :
    run isDecimalDigit cs ≤ significandLength cs := by
  simp only [significandLength]
  split
  · split <;> omega
  · exact Nat.le_refl _

theorem significandLength_le_decimalLength (cs : List Char) :
    significandLength cs ≤ decimalLength cs := by
  simp only [decimalLength]
  split <;> omega

theorem decimalLength_mono {t : List Char} (ht : ∀ d ∈ t, isWordChar d)
    (h : t.length ≤ decimalLength t) (cs : List Char) : t.length ≤ decimalLength (t ++ cs) := by
  by_cases hlt : run isDecimalDigit t < t.length
  · obtain ⟨e, ds, hds, heq⟩ := decimalLength_eq_of_word ht hlt
    have hnil := heq []
    rw [List.append_nil, List.append_nil] at hnil
    have hmono := exponentLength_mono hds e cs
    rw [heq]
    rw [hnil] at h
    split at h
    · omega
    · rw [if_neg (by assumption)]
      omega
  · have hrun := run_mono isDecimalDigit t cs
    have hsig := run_le_significandLength (t ++ cs)
    have hdec := significandLength_le_decimalLength (t ++ cs)
    omega

theorem hexLength_cons {x : Char} {ds : List Char} (hx : x = 'x' ∨ x = 'X')
    (hd : run isHexDigit ds ≠ 0) : hexLength ('0' :: x :: ds) = run isHexDigit ds + 2 := by
  rw [hexLength, if_pos ⟨hx, hd⟩]

theorem of_hexLength {cs : List Char} (h : hexLength cs ≠ 0) : ∃ x ds, cs = '0' :: x :: ds ∧
    (x = 'x' ∨ x = 'X') ∧ run isHexDigit ds ≠ 0 := by
  unfold hexLength at h
  split at h
  · split at h
    · rename_i hx
      exact ⟨_, _, rfl, hx⟩
    · exact absurd rfl h
  · exact absurd rfl h

/-- A word that is a number all along is still one when something stands behind it. -/
theorem numberLength_mono {t : List Char} (ht : ∀ d ∈ t, isWordChar d)
    (h : t.length ≤ numberLength t) (cs : List Char) : t.length ≤ numberLength (t ++ cs) := by
  by_cases hx : hexLength t = 0
  · rw [numberLength, if_pos hx] at h
    by_cases hx' : hexLength (t ++ cs) = 0
    · rw [numberLength, if_pos hx']
      exact decimalLength_mono ht h cs
    · obtain ⟨x, ds, heq, hxx, hd⟩ := of_hexLength hx'
      have hlen : hexLength (t ++ cs) = run isHexDigit ds + 2 := by rw [heq, hexLength_cons hxx hd]
      rw [numberLength, if_neg hx', hlen]
      match t, heq with
      | [], _ | [_], _ | [_, _], _ => simp only [List.length_cons, List.length_nil]; omega
      | _ :: _ :: d :: es, heq =>
          simp only [List.cons_append, List.cons.injEq] at heq
          obtain ⟨rfl, rfl, rfl⟩ := heq
          have hnone : run isHexDigit (d :: es) = 0 :=
            Decidable.byContradiction fun hd' => by rw [hexLength_cons hxx hd'] at hx; omega
          rw [← List.cons_append, run_append_of_lt (by rw [hnone]; exact Nat.zero_lt_succ _)] at hd
          exact absurd hnone hd
  · obtain ⟨x, ds, rfl, hxx, hd⟩ := of_hexLength hx
    have hmono := run_mono isHexDigit ds cs
    rw [numberLength, if_neg hx, hexLength_cons hxx hd] at h
    rw [List.cons_append, List.cons_append, numberLength,
      hexLength_cons hxx (by omega), if_neg (by omega)]
    omega

/-- No number starts with a dollar sign. -/
theorem numberLength_dollar (cs : List Char) : numberLength ('$' :: cs) = 0 := by
  have hrun : run isDecimalDigit ('$' :: cs) = 0 := by
    rw [run, List.takeWhile_cons, isDecimalDigit_dollar]
    rfl
  have hsig : significandLength ('$' :: cs) = 0 := by
    simp only [significandLength, hrun, List.drop_zero]
    split
    · rename_i heq
      cases heq
    · rfl
  rw [numberLength, hexLength_of_ne (by decide), if_pos rfl, decimalLength, hsig]
  rfl

/-- Every number starts with a digit or a point. -/
theorem head_of_numberLength {cs : List Char} (h : numberLength cs ≠ 0) :
    ∃ c ds, cs = c :: ds ∧ (c = '.' ∨ isDecimalDigit c) := by
  cases cs with
  | nil => exact absurd rfl h
  | cons c cs =>
      refine ⟨c, cs, rfl, Decidable.byContradiction fun hno => h ?_⟩
      simp only [not_or, Bool.not_eq_true] at hno
      have hrun : run isDecimalDigit (c :: cs) = 0 := by
        rw [run, List.takeWhile_cons, hno.2]
        rfl
      have hsig : significandLength (c :: cs) = 0 := by
        simp only [significandLength, hrun, List.drop_zero]
        split
        · rename_i heq
          cases heq
          exact absurd rfl hno.1
        · rfl
      have hzero : c ≠ '0' := by
        rintro rfl
        rw [isDecimalDigit_zero] at hno
        cases hno.2
      rw [numberLength, hexLength_of_ne hzero, if_pos rfl, decimalLength, hsig]
      rfl

/-! ### Names -/

/-- What a scanner takes for a name: an optional `$`, then word characters, and no number. -/
structure IsWord (t : List Char) : Prop where
  shape : ∃ ds, (t = ds ∨ t = '$' :: ds) ∧ ds ≠ [] ∧ ∀ d ∈ ds, isWordChar d
  number : numberLength t < t.length

theorem IsWord.identifierLength {t cs : List Char} (h : IsWord t) (hc : Delimited cs) :
    identifierLength (t ++ cs) = t.length := by
  obtain ⟨ds, ht, hne, hds⟩ := h.shape
  exact identifierLength_of_shape ht hne hds hc.word

theorem IsWord.numberLength {t cs : List Char} (h : IsWord t) (hc : Delimited cs) :
    numberLength (t ++ cs) < t.length := by
  obtain ⟨ds, ht, hne, hds⟩ := h.shape
  have hnum := h.number
  rcases ht with rfl | rfl
  · have hlt : run isDecimalDigit t < t.length := by
      refine Decidable.byContradiction fun hge => ?_
      have hle := Nat.le_trans (run_le_significandLength t) (significandLength_le_decimalLength t)
      by_cases hx : hexLength t = 0
      · rw [Lexeme.numberLength, if_pos hx] at hnum
        omega
      · obtain ⟨x, ds, rfl, hxx, -⟩ := of_hexLength hx
        have hxd : isDecimalDigit x = false := by rcases hxx with rfl | rfl <;> decide
        rw [run, List.takeWhile_cons, isDecimalDigit_zero, if_pos rfl, List.takeWhile_cons, hxd]
          at hge
        simp at hge
    rw [Lexeme.numberLength, hexLength_append hc, decimalLength_word hds hc hlt]
    exact hnum
  · rw [List.cons_append, numberLength_dollar]
    exact Nat.zero_lt_succ _

theorem take_run (p : Char → Bool) (cs : List Char) : cs.take (run p cs) = cs.takeWhile p :=
  (List.prefix_iff_eq_take.1 (List.takeWhile_prefix p)).symm

theorem isWordChar_of_mem_takeWhile {cs : List Char} :
    ∀ d ∈ cs.takeWhile isWordChar, isWordChar d :=
  List.all_eq_true.1 List.all_takeWhile

/-- A name that was cut out of a text is one wherever it stands. -/
theorem isWord_of_scan {cs : List Char} (hne : Lexeme.identifierLength cs ≠ 0)
    (hnum : ¬ (Lexeme.numberLength cs ≠ 0 ∧ Lexeme.identifierLength cs ≤ Lexeme.numberLength cs)) :
    IsWord (cs.take (Lexeme.identifierLength cs)) := by
  unfold Lexeme.identifierLength at hne hnum ⊢
  split at hne
  · rename_i cs
    split at hne
    · exact absurd rfl hne
    · rename_i hrun
      simp only [if_neg hrun, List.take_succ_cons, take_run]
      refine ⟨⟨_, .inr rfl, fun hnil => ?_, isWordChar_of_mem_takeWhile⟩, ?_⟩
      · rw [run, hnil] at hrun
        exact hrun rfl
      · rw [numberLength_dollar]
        exact Nat.zero_lt_succ _
  · rename_i hcs
    simp only [take_run] at hne hnum ⊢
    refine ⟨⟨_, .inl rfl, fun hnil => ?_, isWordChar_of_mem_takeWhile⟩, ?_⟩
    · rw [run, hnil] at hne
      exact hne rfl
    · refine Decidable.byContradiction fun hge => hnum ?_
      have hmono := numberLength_mono isWordChar_of_mem_takeWhile (Nat.le_of_not_lt hge)
        (cs.dropWhile isWordChar)
      rw [List.takeWhile_append_dropWhile] at hmono
      rw [run] at hne ⊢
      exact ⟨by omega, hmono⟩

/-! ### Written numbers -/

open Numeral (isAsciiDigit)

def Digits (ds : List Char) : Prop := ∀ d ∈ ds, isAsciiDigit d

inductive IsFraction : List Char → Prop
  | none : IsFraction []
  | some {ds} : Digits ds → IsFraction ('.' :: ds)

inductive IsExponent : List Char → Prop
  | none : IsExponent []
  | some {s ds} : (s = '+' ∨ s = '-') → ds ≠ [] → Digits ds → IsExponent ('e' :: s :: ds)

/-- How numbers are written: digits, possibly a fraction and possibly an exponent. -/
inductive IsNumeral : List Char → Prop
  | mk {whole fraction exponent} : whole ≠ [] → Digits whole → IsFraction fraction →
      IsExponent exponent → IsNumeral (whole ++ (fraction ++ exponent))

theorem IsNumeral.head {t : List Char} (h : IsNumeral t) :
    ∃ c ds, t = c :: ds ∧ isAsciiDigit c := by
  obtain ⟨hne, hw, -, -⟩ := h
  rename_i whole _ _
  cases whole with
  | nil => exact absurd rfl hne
  | cons c ds => exact ⟨c, _, rfl, hw c (List.mem_cons_self ..)⟩

theorem toNat_of_isAsciiDigit {c : Char} (h : isAsciiDigit c) : 48 ≤ c.toNat ∧ c.toNat ≤ 57 := by
  simp only [isAsciiDigit, Bool.and_eq_true, decide_eq_true_eq] at h
  exact h

theorem decimalDigit?_of_isAsciiDigit {c : Char} (h : isAsciiDigit c) :
    Text.decimalDigit? c = some (c.toNat - 48) := by
  obtain ⟨hlo, hhi⟩ := toNat_of_isAsciiDigit h
  have hfirst : (decide (0x30 ≤ c.toNat) && decide (c.toNat < 0x30 + 10)) = true := by
    simp only [Bool.and_eq_true, decide_eq_true_eq]
    omega
  have hzeros : Text.zeros = 0x30 :: Text.zeros.tail := rfl
  rw [Text.decimalDigit?, hzeros, List.find?_cons, hfirst]
  rfl

theorem isWordChar_of_isAsciiDigit {c : Char} (h : isAsciiDigit c) : isWordChar c := by
  simp only [isAsciiDigit] at h
  simp only [isWordChar, h, Bool.or_true, Bool.true_or]

theorem Digits.decimal {ds : List Char} (h : Digits ds) : ∀ d ∈ ds, isDecimalDigit d := by
  intro d hd
  rw [isDecimalDigit, decimalDigit?_of_isAsciiDigit (h d hd)]
  rfl

/-- Nothing stands behind that goes on with a word or a number. -/
structure Closed (cs : List Char) : Prop where
  delimited : Delimited cs
  point : cs.head? ≠ some '.'

theorem IsExponent.length {es cs : List Char} (h : IsExponent es) (hc : Delimited cs) :
    exponentLength (es ++ cs) = es.length := by
  cases h with
  | none => exact exponentLength_eq_zero hc
  | @some s ds hs hne hd =>
      have hrun : run isDecimalDigit (ds ++ cs) = ds.length := by
        rw [run_append hc.digit, run_eq_of_all hd.decimal]
      have hpos := List.length_pos_iff.2 hne
      rw [List.cons_append, List.cons_append, exponentLength_signed (.inl rfl) hs (by omega), hrun,
        List.length_cons, List.length_cons]
      omega

/-- What may stand behind a written number: no point if the number is digits only. -/
structure EndsNumeral (t cs : List Char) : Prop where
  delimited : Delimited cs
  point : Digits t → cs.head? ≠ some '.'

theorem Closed.endsNumeral {cs : List Char} (h : Closed cs) (t : List Char) : EndsNumeral t cs :=
  ⟨h.delimited, fun _ => h.point⟩

theorem IsExponent.stops {es cs : List Char} (h : IsExponent es) (hc : Delimited cs) :
    Stops isDecimalDigit (es ++ cs) := by
  cases h with
  | none => exact hc.digit
  | some =>
      intro c h
      cases h
      decide

theorem IsNumeral.significand {whole fraction exponent cs : List Char} (hne : whole ≠ [])
    (hw : Digits whole) (hf : IsFraction fraction) (he : IsExponent exponent)
    (hc : EndsNumeral (whole ++ (fraction ++ exponent)) cs) :
    significandLength (whole ++ (fraction ++ (exponent ++ cs))) = whole.length +
      fraction.length := by
  have hstop := he.stops hc.delimited
  have hpos := List.length_pos_iff.2 hne
  cases hf with
  | none =>
      have hpoint : (exponent ++ cs).head? ≠ Option.some '.' := by
        cases he with
        | none => exact hc.point (by simpa using hw)
        | some => simp
      rw [List.nil_append, significandLength_whole hw.decimal hstop hpoint]
      rfl
  | @some ds hd =>
      rw [List.cons_append, significandLength_pointed hw.decimal (.inl (by omega)),
        run_append hstop, run_eq_of_all hd.decimal, List.length_cons]
      omega

theorem hexLength_numeral {whole cs : List Char} (hw : Digits whole)
    (hne : whole ≠ []) (hx : ∀ c, cs.head? = some c → ¬ (c = 'x' ∨ c = 'X')) :
    hexLength (whole ++ cs) = 0 := by
  refine Decidable.byContradiction fun h => ?_
  obtain ⟨x, ds, heq, hxx, -⟩ := of_hexLength h
  match whole, hne, heq with
  | [c], _, heq =>
      cases heq
      exact hx x rfl hxx
  | c :: y :: ys, _, heq =>
      cases heq
      have hd := hw x (by simp)
      rcases hxx with rfl | rfl
      · exact absurd hd (by decide)
      · exact absurd hd (by decide)

/-- A written number is found again. -/
theorem IsNumeral.numberLength {t cs : List Char} (h : IsNumeral t) (hc : EndsNumeral t cs) :
    numberLength (t ++ cs) = t.length := by
  obtain ⟨hne, hw, hf, he⟩ := h
  rename_i whole fraction exponent
  have hx : ∀ c, (fraction ++ (exponent ++ cs)).head? = some c → ¬ (c = 'x' ∨ c = 'X') := by
    intro c h hcx
    have hword : isWordChar c := by rcases hcx with rfl | rfl <;> decide
    cases hf with
    | some => cases h; exact absurd hword (by decide)
    | none =>
        cases he with
        | some => cases h; revert hcx; decide
        | none =>
            rw [hc.delimited.word c h] at hword
            cases hword
  have hsig := IsNumeral.significand hne hw hf he hc
  have hpos : whole.length ≠ 0 := fun h0 => hne (List.eq_nil_of_length_eq_zero h0)
  have hdrop : (whole ++ (fraction ++ (exponent ++ cs))).drop (whole.length + fraction.length) =
      exponent ++ cs := by
    rw [← List.append_assoc, ← List.length_append, List.drop_left]
  rw [List.append_assoc, List.append_assoc, Lexeme.numberLength,
    if_pos (hexLength_numeral hw hne hx)]
  simp only [decimalLength, hsig, hdrop, he.length hc.delimited, List.length_append]
  rw [if_neg (by omega)]
  omega

theorem IsNumeral.identifierLength {t cs : List Char} (h : IsNumeral t) (hc : Delimited cs) :
    identifierLength (t ++ cs) ≤ t.length := by
  obtain ⟨hne, hw, hf, he⟩ := h
  rename_i whole fraction exponent
  cases whole with
  | nil => exact absurd rfl hne
  | cons c ds =>
      have hrun : run isWordChar (c :: ds ++ (fraction ++ exponent) ++ cs) ≤
          (c :: ds ++ (fraction ++ exponent)).length := by
        rw [run_append hc.word]
        exact run_le _ _
      unfold Lexeme.identifierLength
      split
      · rename_i heq
        cases heq
        exact absurd (hw '$' (List.mem_cons_self ..)) (by decide)
      · exact hrun

/-- A point behind digits belongs to the number. -/
theorem Digits.lt_numberLength {ds : List Char} (h : Digits ds) (hne : ds ≠ []) (cs : List Char) :
    ds.length < numberLength (ds ++ '.' :: cs) := by
  have hhex : hexLength (ds ++ '.' :: cs) = 0 := hexLength_numeral h hne fun c hc => by
    cases hc
    decide
  have hpos := List.length_pos_iff.2 hne
  have hsig : ds.length < significandLength (ds ++ '.' :: cs) := by
    rw [significandLength_pointed h.decimal (.inl (by omega))]
    omega
  rw [numberLength, if_pos hhex]
  exact Nat.lt_of_lt_of_le hsig (significandLength_le_decimalLength _)

/-- A point before a digit begins a number. -/
theorem numberLength_point {d : Char} (hd : isDecimalDigit d) (cs : List Char) :
    numberLength ('.' :: d :: cs) ≠ 0 := by
  have hdigit : run isDecimalDigit (d :: cs) = run isDecimalDigit cs + 1 := by
    rw [run, List.takeWhile_cons, if_pos hd]
    rfl
  have hsig : 0 < significandLength ([] ++ '.' :: d :: cs) := by
    rw [significandLength_pointed (fun c hc => absurd hc List.not_mem_nil) (.inr (by omega))]
    omega
  rw [numberLength, if_pos (hexLength_of_ne (by decide) _)]
  exact Nat.ne_of_gt (Nat.lt_of_lt_of_le hsig (significandLength_le_decimalLength _))

/-! ### Symbols -/

/-- What may stand behind a symbol so that no longer lexeme begins with it. -/
def Meets : Symbol → List Char → Prop
  | .assign, cs | .bang, cs | .less, cs | .greater, cs => cs.head? ≠ some '='
  | .slash, cs => cs.head? ≠ some '/' ∧ cs.head? ≠ some '*'
  | .dot, cs => Stops isDecimalDigit cs
  | _, _ => True

/-- A point without a digit behind it is no number. -/
theorem numberLength_dot {cs : List Char} (h : Stops isDecimalDigit cs) :
    numberLength ('.' :: cs) = 0 := by
  have hrun : run isDecimalDigit ('.' :: cs) = 0 := rfl
  have hrest : run isDecimalDigit cs = 0 := by rw [run, h.takeWhile]; rfl
  have hsig : significandLength ('.' :: cs) = 0 := by
    simp only [significandLength, hrun, List.drop_zero, hrest, and_self, if_true]
  rw [numberLength, hexLength_of_ne (by decide), if_pos rfl, decimalLength, hsig]
  rfl

theorem symbol?_text {s : Symbol} {cs : List Char} (h : Meets s cs) :
    symbol? (s.text.toList ++ cs) = some s := by
  cases s with
  | assign | bang | less | greater =>
      cases cs with
      | nil => rfl
      | cons c cs =>
          have hc : ('=' == c) = false := by
            simp only [beq_eq_false_iff_ne]
            rintro rfl
            exact h rfl
          simp [symbol?, Symbol.all, Symbol.text, List.isPrefixOf, hc]
  | _ => rfl

end Scad.Lexeme
