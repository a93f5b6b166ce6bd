import Scad.Proofs.Number.Decimal
import Scad.Proofs.Token.Scan

/-! A number that was read from a text is written as a numeral that reads as the same number. -/
namespace Scad

open Binary64 (Canonical)

namespace Numeral

open Lexeme (Digits IsFraction IsExponent IsNumeral)

/-! ### The value of digits -/

theorem digits_toDigits (n : Nat) : Digits (Nat.toDigits 10 n) := by
  intro c hc
  have hd := Nat.isDigit_of_mem_toDigits (by decide) (by decide) hc
  simpa [Char.isDigit, isAsciiDigit, Char.le_def] using hd

theorem digits_zeros (n : Nat) : Digits (Binary64.zeros n) := by
  intro c hc
  rw [List.eq_of_mem_replicate hc]
  decide

theorem digits_append {a b : List Char} (ha : Digits a) (hb : Digits b) : Digits (a ++ b) := by
  intro c hc
  rcases List.mem_append.1 hc with hc | hc
  · exact ha c hc
  · exact hb c hc

theorem decimalValue_eq {ds : List Char} (h : Digits ds) :
    decimalValue ds = Nat.ofDigitChars 10 ds 0 := by
  have hfold : ∀ (init : Nat), ds.foldl (fun n c => n * 10 + (Text.decimalDigit? c).getD 0) init =
      Nat.ofDigitChars 10 ds init := by
    induction ds with
    | nil => exact fun _ => rfl
    | cons d ds ih =>
        intro init
        rw [List.foldl_cons, Lexeme.decimalDigit?_of_isAsciiDigit (h d (List.mem_cons_self ..)),
          Nat.ofDigitChars_cons, ih (fun c hc => h c (List.mem_cons_of_mem _ hc)), Option.getD_some,
          Nat.mul_comm]
        rfl
  exact hfold 0

theorem decimalValue_toDigits (n : Nat) : decimalValue (Nat.toDigits 10 n) = n := by
  rw [decimalValue_eq (digits_toDigits n), Nat.ofDigitChars_ten_toDigits]

theorem decimalValue_append {a b : List Char} (ha : Digits a) (hb : Digits b) :
    decimalValue (a ++ b) = 10 ^ b.length * decimalValue a + decimalValue b := by
  rw [decimalValue_eq (digits_append ha hb), decimalValue_eq ha, decimalValue_eq hb,
    Nat.ofDigitChars_append, Nat.ofDigitChars_eq_ofDigitChars_zero]

theorem decimalValue_zeros (n : Nat) : decimalValue (Binary64.zeros n) = 0 := by
  rw [decimalValue_eq (digits_zeros n), Binary64.zeros, Nat.ofDigitChars_replicate_zero,
    Nat.mul_zero]

/-! ### Reading a numeral -/

/-- A character of a numeral is taken as it is. -/
structure Literal (c : Char) : Prop where
  ascii : c.toNat < 128
  solid : isSpace c = false
  joined : c ≠ '_'
  decimal : c ≠ 'x' ∧ c ≠ 'X'

theorem literal_digit {c : Char} (h : isAsciiDigit c) : Literal c := by
  obtain ⟨hlo, hhi⟩ := Lexeme.toNat_of_isAsciiDigit h
  have hne : ∀ d : Char, ¬ (48 ≤ d.toNat ∧ d.toNat ≤ 57) → c ≠ d := by
    rintro d hd rfl
    exact hd ⟨hlo, hhi⟩
  refine ⟨by omega, ?_, hne _ (by decide), hne _ (by decide), hne _ (by decide)⟩
  simp only [isSpace, Bool.or_eq_false_iff, decide_eq_false_iff_not]
  exact ⟨⟨⟨⟨⟨hne _ (by decide), hne _ (by decide)⟩, hne _ (by decide)⟩, hne _ (by decide)⟩,
    hne _ (by decide)⟩, hne _ (by decide)⟩

theorem literal_numeral {t : List Char} (h : IsNumeral t) : ∀ c ∈ t, Literal c := by
  obtain ⟨-, hw, hf, he⟩ := h
  intro c hc
  rcases List.mem_append.1 hc with hc | hc
  · exact literal_digit (hw c hc)
  rcases List.mem_append.1 hc with hc | hc
  · cases hf with
    | none => cases hc
    | some hd =>
        rcases List.mem_cons.1 hc with rfl | hc
        · exact ⟨by decide, by decide, by decide, by decide, by decide⟩
        · exact literal_digit (hd c hc)
  · cases he with
    | none => cases hc
    | some hs _ hd =>
        rcases List.mem_cons.1 hc with rfl | hc
        · exact ⟨by decide, by decide, by decide, by decide, by decide⟩
        rcases List.mem_cons.1 hc with rfl | hc
        · rcases hs with rfl | rfl <;> exact ⟨by decide, by decide, by decide, by decide, by decide⟩
        · exact literal_digit (hd c hc)

theorem dropWhile_solid {cs : List Char} (h : ∀ c ∈ cs, isSpace c = false) :
    cs.dropWhile isSpace = cs := by
  cases cs with
  | nil => rfl
  | cons c cs => rw [List.dropWhile_cons, h c (List.mem_cons_self ..)]; rfl

theorem trim_solid {cs : List Char} (h : ∀ c ∈ cs, isSpace c = false) : trim cs = cs := by
  rw [trim, dropWhile_solid h, dropWhile_solid (fun c hc => h c (List.mem_reverse.1 hc)),
    List.reverse_reverse]

theorem map_plainChar {cs : List Char} (h : ∀ c ∈ cs, c.toNat < 128) : cs.map plainChar = cs := by
  refine (List.map_congr_left fun c hc => ?_).trans cs.map_id
  rw [plainChar, if_pos (h c hc), id]

theorem joinDigits_cons (isDigit : Char → Bool) (afterDigit : Bool) {c : Char} (hc : c ≠ '_')
    (cs : List Char) : joinDigits isDigit afterDigit (c :: cs) =
      (joinDigits isDigit (isDigit c) cs).map (c :: ·) := by
  rw [joinDigits.eq_def]
  split
  · rename_i heq
    cases heq
  · rename_i heq
    cases heq
    exact absurd rfl hc
  · rename_i heq
    cases heq
    rw [if_neg hc]

theorem joinDigits_joined (isDigit : Char → Bool) (afterDigit : Bool) {cs : List Char}
    (h : ∀ c ∈ cs, c ≠ '_') : joinDigits isDigit afterDigit cs = some cs := by
  induction cs generalizing afterDigit with
  | nil => rw [joinDigits]
  | cons c cs ih =>
      rw [joinDigits_cons _ _ (h c (List.mem_cons_self ..)), ih _ fun d hd =>
        h d (List.mem_cons_of_mem _ hd)]
      rfl

theorem splitSign_of_ne {c : Char} (hminus : c ≠ '-') (hplus : c ≠ '+') (cs : List Char) :
    splitSign (c :: cs) = (false, c :: cs) := by
  unfold splitSign
  split
  · rename_i heq
    cases heq
    exact absurd rfl hminus
  · rename_i heq
    cases heq
    exact absurd rfl hplus
  · rfl

/-- What begins with a digit or a point is no word for an infinity or a nan. -/
theorem lower_ne_word {c : Char} (hc : isAsciiDigit c ∨ c = '.') (cs : List Char) {w : String}
    (hw : w.toList.head? = some 'i' ∨ w.toList.head? = some 'n') :
    String.ofList ((c :: cs).map lower) ≠ w := by
  have hlower : lower c = c := by
    rw [lower, if_neg]
    rintro ⟨hA, hZ⟩
    rcases hc with hc | rfl
    · have := (Lexeme.toNat_of_isAsciiDigit hc).2
      have : 65 ≤ c.toNat := hA
      omega
    · exact absurd hA (by decide)
  have hne : ∀ d : Char, ¬ (48 ≤ d.toNat ∧ d.toNat ≤ 57) → d ≠ '.' → c ≠ d := by
    rintro d hd hp rfl
    rcases hc with hc | hc
    · exact hd (Lexeme.toNat_of_isAsciiDigit hc)
    · exact hp hc
  rintro rfl
  rw [String.toList_ofList, List.map_cons, hlower, List.head?_cons] at hw
  rcases hw with hw | hw
  · exact hne 'i' (by decide) (by decide) (Option.some.inj hw)
  · exact hne 'n' (by decide) (by decide) (Option.some.inj hw)

/-- Behind its sign a number is read for its digits. -/
theorem signed?_of_splitSign {cs ds : List Char} {negative : Bool} {c : Char}
    (hsign : splitSign cs = (negative, c :: ds)) (hc : isAsciiDigit c ∨ c = '.') :
    signed? cs = unsigned? negative (c :: ds) := by
  rw [signed?, hsign]
  dsimp only
  rw [if_neg, if_neg]
  · exact lower_ne_word hc ds (.inr (by decide))
  · rintro (h | h)
    · exact lower_ne_word hc ds (.inl (by decide)) h
    · exact lower_ne_word hc ds (.inl (by decide)) h

/-- What begins with a digit or a point has no sign and is no word. -/
theorem signed?_eq {c : Char} (hc : isAsciiDigit c ∨ c = '.') (cs : List Char) :
    signed? (c :: cs) = unsigned? false (c :: cs) := by
  have hne : ∀ d : Char, isAsciiDigit d = false → d ≠ '.' → c ≠ d := by
    rintro d hd hp rfl
    rcases hc with hc | hc
    · exact Bool.false_ne_true (hd.symm.trans hc)
    · exact hp hc
  exact signed?_of_splitSign (splitSign_of_ne (hne _ (by decide) (by decide))
    (hne _ (by decide) (by decide)) cs) hc

theorem read_numeral {t : List Char} (h : IsNumeral t) {x : Binary64}
    (hx : unsigned? false t = some x) :
    read (String.ofList t) = .ok x := by
  have hlit := literal_numeral h
  obtain ⟨c, cs, rfl, hc⟩ := h.head
  have hdecimal : readDecimal (String.ofList (c :: cs)) = .ok x := by
    rw [readDecimal, String.toList_ofList, map_plainChar fun d hd => (hlit d hd).ascii,
      trim_solid fun d hd => (hlit d hd).solid, joinDigits_joined _ _ fun d hd =>
      (hlit d hd).joined, Option.bind_some, signed?_eq (.inl hc), hx]
  rw [read, String.toList_ofList]
  split
  · rename_i heq
    cases heq
    exact absurd rfl (hlit 'x' (by simp)).decimal.1
  · rename_i heq
    cases heq
    exact absurd rfl (hlit 'X' (by simp)).decimal.2
  · exact hdecimal

inductive Fraction : List Char → List Char → Prop
  | none : Fraction [] []
  | some {ds} : Digits ds → Fraction ('.' :: ds) ds

theorem Fraction.isFraction {cs ds : List Char} (h : Fraction cs ds) : IsFraction cs := by
  cases h with
  | none => exact .none
  | some hd => exact .some hd

theorem Fraction.digits {cs ds : List Char} (h : Fraction cs ds) : Digits ds := by
  cases h with
  | none => exact fun c hc => absurd hc List.not_mem_nil
  | some hd => exact hd

theorem takeWhile_digits {ds rest : List Char} (hd : Digits ds)
    (hrest : ∀ c ∈ rest.head?, isAsciiDigit c = false) :
    (ds ++ rest).takeWhile isAsciiDigit = ds ∧ (ds ++ rest).dropWhile isAsciiDigit = rest := by
  rw [List.takeWhile_append_of_pos hd, List.dropWhile_append_of_pos hd]
  cases rest with
  | nil => exact ⟨List.append_nil _, rfl⟩
  | cons c rest =>
      rw [List.takeWhile_cons, List.dropWhile_cons, hrest c rfl]
      exact ⟨List.append_nil _, rfl⟩

theorem IsExponent.head {exponent : List Char} (h : IsExponent exponent) :
    ∀ c ∈ exponent.head?, isAsciiDigit c = false ∧ c ≠ '.' := by
  intro c hc
  cases h with
  | none => cases hc
  | some => cases hc; decide

theorem splitFraction_append {fraction ds exponent : List Char} (hf : Fraction fraction ds)
    (he : ∀ c ∈ exponent.head?, isAsciiDigit c = false ∧ c ≠ '.') :
    splitFraction (fraction ++ exponent) = (ds, exponent) := by
  cases hf with
  | none =>
      rw [List.nil_append]
      unfold splitFraction
      split
      · exact absurd rfl (he '.' rfl).2
      · rfl
  | some hd =>
      have hdigits := takeWhile_digits hd fun c hc => (he c hc).1
      rw [List.cons_append, splitFraction, hdigits.1, hdigits.2]

theorem unsigned?_numeral {whole fraction ds exponent : List Char} (hne : whole ++ ds ≠ [])
    (hw : Digits whole) (hf : Fraction fraction ds)
    (he : ∀ c ∈ exponent.head?, isAsciiDigit c = false ∧ c ≠ '.') (negative : Bool) :
    unsigned? negative (whole ++ (fraction ++ exponent)) = (exponent? exponent).map fun e =>
      Binary64.ofDecimal negative (decimalValue (whole ++ ds)) (e - ds.length) := by
  have hwhole : ∀ c ∈ (fraction ++ exponent).head?, isAsciiDigit c = false := by
    intro c hc
    cases hf with
    | none => exact (he c hc).1
    | some => cases hc; decide
  simp only [unsigned?, (takeWhile_digits hw hwhole).1, List.drop_left, splitFraction_append hf he,
    if_neg hne]

/-! ### Written numbers -/

theorem exponent?_exponentText (e : Int) :
    exponent? ('e' :: Binary64.exponentText e) = some e ∧
      IsExponent ('e' :: Binary64.exponentText e) := by
  have hdigits : (toString e.natAbs).toList = Nat.toDigits 10 e.natAbs := by
    rw [Nat.toString_eq_ofList_toDigits, String.toList_ofList]
  obtain ⟨ds, hds, hd, hne, hvalue⟩ : ∃ ds, (if (Nat.toDigits 10 e.natAbs).length < 2
      then '0' :: Nat.toDigits 10 e.natAbs else Nat.toDigits 10 e.natAbs) = ds ∧
      Digits ds ∧ ds ≠ [] ∧
      decimalValue ds = e.natAbs := by
    refine ⟨_, rfl, ?_⟩
    split
    · have hzero : Digits ['0'] := digits_zeros 1
      refine ⟨digits_append hzero (digits_toDigits _), List.cons_ne_nil _ _, ?_⟩
      rw [show '0' :: Nat.toDigits 10 e.natAbs = ['0'] ++ Nat.toDigits 10 e.natAbs from rfl,
        decimalValue_append hzero (digits_toDigits _), decimalValue_toDigits]
      show _ * decimalValue (Binary64.zeros 1) + _ = _
      rw [decimalValue_zeros, Nat.mul_zero, Nat.zero_add]
    · exact ⟨digits_toDigits _, Nat.toDigits_ne_nil, decimalValue_toDigits _⟩
  have hall : ds ≠ [] ∧ ds.all isAsciiDigit = true := ⟨hne, List.all_eq_true.2 hd⟩
  rw [Binary64.exponentText]
  simp only [hdigits, hds]
  by_cases hneg : e < 0
  · rw [if_pos hneg]
    refine ⟨?_, .some (.inr rfl) hne hd⟩
    simp only [exponent?, true_or, if_true, splitSign, if_pos hall, hvalue]
    rw [show -(e.natAbs : Int) = e by omega]
  · rw [if_neg hneg]
    refine ⟨?_, .some (.inl rfl) hne hd⟩
    simp only [exponent?, true_or, if_true, splitSign, if_pos hall, hvalue,
      Bool.false_eq_true, if_false]
    rw [show (e.natAbs : Int) = e by omega]

/-- A text that is a numeral and reads as a decimal does. -/
def Writes (t : List Char) (digits : Nat) (exponent : Int) : Prop :=
  IsNumeral t ∧ unsigned? false t = some (Binary64.ofDecimal false digits exponent)

theorem writes_numeral {whole fraction ds exponent : List Char} {e : Int} (hne : whole ≠ [])
    (hw : Digits whole) (hf : Fraction fraction ds) (he : IsExponent exponent)
    (hvalue : exponent? exponent = some e) :
    Writes (whole ++ (fraction ++ exponent)) (decimalValue (whole ++ ds)) (e - ds.length) := by
  refine ⟨.mk hne hw hf.isFraction he, ?_⟩
  have hdigits : whole ++ ds ≠ [] := fun h => hne (List.append_eq_nil_iff.1 h).1
  rw [unsigned?_numeral hdigits hw hf (IsExponent.head he), hvalue]
  rfl

/-- One digit before the point, and an exponent. -/
theorem writes_exponent {ds fraction : List Char} (hne : ds ≠ []) (hd : Digits ds) (point : Int)
    (hf : Fraction fraction (ds.drop 1)) :
    Writes (ds.take 1 ++ fraction ++ 'e' :: Binary64.exponentText (point - 1)) (decimalValue ds)
      (point - ds.length) := by
  have hpos : 0 < ds.length := List.length_pos_iff.2 hne
  have hwhole : ds.take 1 ≠ [] := by
    intro h
    have := congrArg List.length h
    rw [List.length_take, List.length_nil] at this
    omega
  obtain ⟨hread, hisExponent⟩ := exponent?_exponentText (point - 1)
  have hwrites := writes_numeral hwhole (fun c hc => hd c (List.mem_of_mem_take hc)) hf
    hisExponent hread
  have hexponent : point - 1 - ((ds.drop 1).length : Nat) = point - ds.length := by
    rw [List.length_drop]
    omega
  rw [List.take_append_drop, hexponent, ← List.append_assoc] at hwrites
  exact hwrites

/-- Every layout of a decimal reads as the decimal. -/
theorem writes_layout (digits : Nat) (exponent : Int) :
    Writes (Binary64.layout Binary64.plainStyle (Nat.toDigits 10 digits)
      ((Nat.toDigits 10 digits).length + exponent)) digits exponent := by
  have hd := digits_toDigits digits
  have hne : Nat.toDigits 10 digits ≠ [] := Nat.toDigits_ne_nil
  have hvalue := decimalValue_toDigits digits
  generalize Nat.toDigits 10 digits = ds at hd hne hvalue
  have hpos : 0 < ds.length := List.length_pos_iff.2 hne
  have hzero : Digits ['0'] := digits_zeros 1
  obtain ⟨point, hpoint⟩ : ∃ point, ds.length + exponent = point := ⟨_, rfl⟩
  rw [hpoint, Binary64.layout]
  split
  · split
    -- All digits stand behind the point.
    · rename_i hle
      have hfraction : Fraction ('.' :: (Binary64.zeros (-point).toNat ++ ds))
          (Binary64.zeros (-point).toNat ++ ds) := .some (digits_append (digits_zeros _) hd)
      have hwrites := writes_numeral (List.cons_ne_nil '0' []) hzero hfraction .none rfl
      have hall : decimalValue (['0'] ++ (Binary64.zeros (-point).toNat ++ ds)) = digits := by
        rw [decimalValue_append hzero hfraction.digits, decimalValue_append (digits_zeros _) hd,
          decimalValue_zeros, hvalue]
        show _ * decimalValue (Binary64.zeros 1) + _ = _
        rw [decimalValue_zeros, Nat.mul_zero, Nat.mul_zero, Nat.zero_add, Nat.zero_add]
      have hexponent : 0 - ((Binary64.zeros (-point).toNat ++ ds).length : Int) = exponent := by
        rw [List.length_append, Binary64.zeros, List.length_replicate]
        omega
      rw [hall, hexponent, List.append_nil] at hwrites
      exact hwrites
    · dsimp only
      split
      -- All digits stand before the point, with zeros behind them.
      · rename_i hlow hle
        have hzeros := digits_zeros (point.toNat - ds.length)
        have hwhole : ds ++ Binary64.zeros (point.toNat - ds.length) ≠ [] :=
          fun h => hne (List.append_eq_nil_iff.1 h).1
        have hwrites := writes_numeral hwhole (digits_append hd hzeros) (.some hzero) .none rfl
        have hall : decimalValue (ds ++ Binary64.zeros (point.toNat - ds.length) ++ ['0']) =
            digits * 10 ^ (point.toNat - ds.length + 1) := by
          have hlast : decimalValue ['0'] = 0 := decimalValue_zeros 1
          rw [decimalValue_append (digits_append hd hzeros) hzero, decimalValue_append hd hzeros,
            decimalValue_zeros, hvalue, hlast, Binary64.zeros, List.length_replicate,
            List.length_singleton, Nat.pow_succ]
          ring
        have hexponent : (0 : Int) - (['0'].length : Nat) =
            exponent - ((point.toNat - ds.length + 1 : Nat) : Int) := by
          rw [List.length_singleton]
          omega
        rw [hall, hexponent, List.append_nil] at hwrites
        refine ⟨hwrites.1, hwrites.2.trans ?_⟩
        rw [Binary64.ofDecimal_mul_pow]
      -- The point stands between two digits.
      · rename_i hlow hgt
        have hwhole : ds.take point.toNat ≠ [] := by
          intro h
          have := congrArg List.length h
          rw [List.length_take, List.length_nil] at this
          omega
        have hdrop : Digits (ds.drop point.toNat) := fun c hc => hd c (List.mem_of_mem_drop hc)
        have hwrites := writes_numeral hwhole (fun c hc => hd c (List.mem_of_mem_take hc))
          (.some hdrop) .none rfl
        have hexponent : (0 : Int) - ((ds.drop point.toNat).length : Nat) = exponent := by
          rw [List.length_drop]
          omega
        rw [List.take_append_drop, hvalue, hexponent, List.append_nil] at hwrites
        exact hwrites
  -- One digit stands before the point, and the exponent is written.
  · have hexponent : point - ds.length = exponent := by omega
    have hdrop : Digits (ds.drop 1) := fun c hc => hd c (List.mem_of_mem_drop hc)
    rw [← hvalue, ← hexponent]
    cases hrest : ds.drop 1 with
    | nil =>
        have hfraction : Fraction [] (ds.drop 1) := by rw [hrest]; exact .none
        exact writes_exponent hne hd point hfraction
    | cons c rest =>
        have hfraction : Fraction ('.' :: c :: rest) (ds.drop 1) := by
          rw [hrest] at hdrop ⊢
          exact .some hdrop
        exact writes_exponent hne hd point hfraction

/-! ### What is read -/

theorem ofDecimal_canonical {negative b : Bool} {digits m : Nat} {exponent e : Int}
    (h : Binary64.ofDecimal negative digits exponent = .finite b m e) :
    negative = b ∧ Canonical m e := by
  have hzero : Binary64.zero negative = .finite b m e → negative = b ∧ Canonical m e := by
    rintro ⟨⟩
    exact ⟨rfl, Canonical.zero⟩
  simp only [Binary64.ofDecimal] at h
  split at h
  · exact hzero h
  split at h
  · cases h
  split at h
  · exact hzero h
  split at h
  · exact Binary64.ofRatio_canonical Nat.one_pos h
  · exact Binary64.ofRatio_canonical (Nat.pow_pos (by decide)) h

theorem trim_cons {c : Char} (hc : isSpace c = false) (cs : List Char) :
    ∃ rest, trim (c :: cs) = c :: rest := by
  have hlast : ∀ l : List Char, (l ++ [c]).dropWhile isSpace = l.dropWhile isSpace ++ [c] := by
    intro l
    induction l with
    | nil => rw [List.nil_append, List.dropWhile_cons, hc]; rfl
    | cons d l ih =>
        rw [List.cons_append, List.dropWhile_cons, List.dropWhile_cons]
        split
        · exact ih
        · rfl
  refine ⟨(cs.reverse.dropWhile isSpace).reverse, ?_⟩
  rw [trim, List.dropWhile_cons_of_neg (by rw [hc]; decide), List.reverse_cons, hlast,
    List.reverse_append]
  rfl

/-- A digit of any script counts as one in ASCII. -/
theorem plainChar_digit {c : Char} (h : Text.isDecimalDigit c) : isAsciiDigit (plainChar c) := by
  obtain ⟨d, hd⟩ := Option.isSome_iff_exists.1 h
  obtain ⟨z, hz, rfl⟩ := Option.map_eq_some_iff.1 hd
  have hmem := List.mem_of_find?_eq_some hz
  have hrange := List.find?_some hz
  simp only [Bool.and_eq_true, decide_eq_true_eq] at hrange
  -- The tenfold run of digits that the character belongs to.
  obtain ⟨i, hi, hn⟩ : ∃ i < 10, c.toNat = z + i := ⟨c.toNat - z, by omega, by omega⟩
  rw [plainChar]
  split
  · have hascii : ∀ z ∈ Text.zeros, z < 128 → z = 48 := by decide
    have hzero := hascii z hmem (by omega)
    simp only [isAsciiDigit, Bool.and_eq_true, decide_eq_true_eq, Char.le_def,
      UInt32.le_iff_toNat_le]
    show 48 ≤ c.toNat ∧ c.toNat ≤ 57
    omega
  · have hwide : isWideSpace c = false := by
      have hnone : ∀ z ∈ Text.zeros, ∀ i < 10, (z + i = 0x85 || z + i = 0xA0 || z + i = 0x1680 ||
          (0x2000 ≤ z + i && z + i ≤ 0x200A) || z + i = 0x2028 || z + i = 0x2029 ||
          z + i = 0x202F || z + i = 0x205F || z + i = 0x3000) = false := by decide
      simp only [isWideSpace, hn]
      exact hnone z hmem i hi
    rw [hwide, hd]
    have hdigit : ∀ d < 10, isAsciiDigit (Char.ofNat ('0'.toNat + d)) = true := by decide
    exact hdigit _ (by omega)

/-- The first character of a number token, as a numeral reads it. -/
theorem plainChar_first {c : Char} (h : c = '.' ∨ Text.isDecimalDigit c) :
    isAsciiDigit (plainChar c) ∨ plainChar c = '.' := by
  rcases h with rfl | h
  · exact .inr (by decide)
  · exact .inl (plainChar_digit h)

theorem readHexadecimal_canonical {t : String} {negative : Bool} {m : Nat} {e : Int}
    (h : readHexadecimal t = .ok (.finite negative m e)) : negative = false ∧ Canonical m e := by
  simp only [readHexadecimal] at h
  split at h
  · split at h
    · split at h
      · cases h
      · have hint := Except.ok.inj h
        obtain ⟨hn, hc⟩ := Binary64.ofRatio_canonical Nat.one_pos hint
        exact ⟨hn ▸ decide_eq_false (by omega), hc⟩
    · cases h
  · cases h

theorem readDecimal_canonical {t : String} (ht : IsTextOf .number t) {negative : Bool}
    {m : Nat} {e : Int} (h : readDecimal t = .ok (.finite negative m e)) :
    negative = false ∧ Canonical m e := by
  obtain ⟨c, cs, hcs, hc⟩ := ht
  have hfirst := plainChar_first hc
  have hlit : isSpace (plainChar c) = false ∧ plainChar c ≠ '_' := by
    rcases hfirst with hd | hp
    · exact ⟨(literal_digit hd).solid, (literal_digit hd).joined⟩
    · rw [hp]
      decide
  obtain ⟨rest, hrest⟩ := trim_cons hlit.1 (cs.map plainChar)
  rw [readDecimal, hcs, List.map_cons, hrest, joinDigits_cons _ _ hlit.2] at h
  cases hj : joinDigits isAsciiDigit (isAsciiDigit (plainChar c)) rest with
  | none =>
      rw [hj] at h
      cases h
  | some ds =>
      rw [hj, Option.map_some, Option.bind_some, signed?_eq hfirst] at h
      cases hu : unsigned? false (plainChar c :: ds) with
      | none =>
          rw [hu] at h
          cases h
      | some x =>
          rw [hu] at h
          cases Except.ok.inj h
          simp only [unsigned?] at hu
          split at hu
          · cases hu
          · obtain ⟨e', -, he'⟩ := Option.map_eq_some_iff.1 hu
            obtain ⟨hn, hcanon⟩ := ofDecimal_canonical he'
            exact ⟨hn.symm, hcanon⟩

theorem read_canonical {t : String} (ht : IsTextOf .number t) {negative : Bool} {m : Nat} {e : Int}
    (hx : read t = .ok (.finite negative m e)) : negative = false ∧ Canonical m e := by
  rw [read] at hx
  split at hx
  · exact readHexadecimal_canonical hx
  · exact readHexadecimal_canonical hx
  · exact readDecimal_canonical ht hx

end Numeral

namespace Number

open Numeral (Writes writes_layout writes_numeral read_numeral)

theorem Writes.read {t : List Char} {digits : Nat} {exponent : Int} {x : Binary64}
    (h : Writes t digits exponent) (hx : Binary64.ofDecimal false digits exponent = x) :
    Lexeme.IsNumeral (String.ofList t).toList ∧ Numeral.read (String.ofList t) = .ok x := by
  rw [String.toList_ofList]
  exact ⟨h.1, read_numeral h.1 (hx ▸ h.2)⟩

theorem write_read {m : Nat} {e : Int} (h : Canonical m e) (hm : 0 < m) :
    Lexeme.IsNumeral ((Binary64.finite false m e).write Binary64.plainStyle).toList ∧
      Numeral.read ((Binary64.finite false m e).write Binary64.plainStyle) =
        .ok (.finite false m e) := by
  have hwrite : (Binary64.finite false m e).write Binary64.plainStyle =
      String.ofList
      (Binary64.layout Binary64.plainStyle (Nat.toDigits 10 (Binary64.shortest m e).digits)
        ((Nat.toDigits 10 (Binary64.shortest m e).digits).length +
        (Binary64.shortest m e).exponent)) := by
    simp only [Binary64.write, if_neg hm.ne', Bool.false_eq_true, if_false,
      Nat.toString_eq_ofList_toDigits, String.toList_ofList]
  rw [hwrite]
  exact Writes.read (writes_layout _ _) (Binary64.ofDecimal_shortest h hm)

theorem natural_read (n : Nat) : Lexeme.IsNumeral (toString n).toList ∧
    Numeral.read (toString n) = .ok (Binary64.ofDecimal false n 0) := by
  have hwrites := writes_numeral Nat.toDigits_ne_nil (Numeral.digits_toDigits n) .none .none rfl
  rw [List.append_nil, List.append_nil, Numeral.decimalValue_toDigits] at hwrites
  rw [Nat.toString_eq_ofList_toDigits]
  exact Writes.read hwrites rfl

theorem magnitude_value (m : Nat) (e : Int) : 0 < (Binary64.magnitude m e).2 ∧
    ((Binary64.magnitude m e).1 : ℚ) / (Binary64.magnitude m e).2 = m * 2 ^ e := by
  rw [Binary64.magnitude]
  split
  · rename_i he
    obtain ⟨k, rfl⟩ := Int.eq_ofNat_of_zero_le he
    refine ⟨Nat.one_pos, ?_⟩
    simp only [Nat.pow_eq, Int.toNat_natCast, Nat.cast_mul, Nat.cast_pow, Nat.cast_ofNat,
      zpow_natCast, Nat.cast_one, div_one]
  · rename_i he
    obtain ⟨k, hk⟩ := Int.eq_ofNat_of_zero_le (a := -e) (by omega)
    obtain rfl : e = -(k : Int) := by omega
    refine ⟨Nat.pow_pos (by decide), ?_⟩
    simp only [Nat.pow_eq, neg_neg, Int.toNat_natCast, Nat.cast_pow, Nat.cast_ofNat, zpow_neg,
      zpow_natCast, div_eq_mul_inv]

/-- A whole number reads back from its digits. -/
theorem whole_read {m n : Nat} {e : Int} (h : Canonical m e) (hn : (n : ℚ) = m * 2 ^ e) :
    Binary64.ofDecimal false n 0 = .finite false m e := by
  rcases Nat.eq_zero_or_pos m with rfl | hm
  · have hzero : n = 0 := by
      rw [Nat.cast_zero, zero_mul] at hn
      exact_mod_cast hn
    have hleast : e = -1074 := h.full.resolve_left (by norm_num)
    rw [hzero, hleast, Binary64.ofDecimal_zero]
    rfl
  · refine h.ofDecimal hm ?_
    rw [zpow_zero, mul_one, hn]

theorem render_read {t : String} (ht : IsTextOf .number t) {x : Binary64}
    (hx : Numeral.read t = .ok x) (hfinite : (Number.real x).dyadic?.isSome) :
    ∃ s, (Number.real x).render = .ok s ∧ Lexeme.IsNumeral s.toList ∧ Numeral.read s = .ok x := by
  cases x with
  | infinite negative => cases hfinite
  | nan negative => cases hfinite
  | finite negative m e =>
      obtain ⟨rfl, hcanon⟩ := Numeral.read_canonical ht hx
      obtain ⟨hden, hvalue⟩ := magnitude_value m e
      by_cases hwhole : (Binary64.magnitude m e).1 % (Binary64.magnitude m e).2 = 0
      · obtain ⟨n, hn⟩ := Nat.dvd_of_mod_eq_zero hwhole
        have hint : (Binary64.finite false m e).toInt? = some (n : Int) := by
          simp only [Binary64.toInt?, hn, Nat.mul_mod_right,
            Nat.mul_div_cancel_left n hden, if_true, Bool.false_eq_true, if_false]
        have hnvalue : (n : ℚ) = m * 2 ^ e := by
          rw [← hvalue, hn, Nat.cast_mul, mul_div_cancel_left₀ _ (by exact_mod_cast hden.ne')]
        by_cases hsmall : n < Nat.pow 10 16
        · obtain ⟨hnumeral, hread⟩ := natural_read n
          refine ⟨toString n, ?_, hnumeral, hread.trans (congrArg _ (whole_read hcanon hnvalue))⟩
          simp only [render, hint, Int.natAbs_natCast, if_pos hsmall]
          rfl
        · have hm : 0 < m := by
            refine Nat.pos_of_ne_zero fun hzero => hsmall ?_
            rw [hzero, Nat.cast_zero, zero_mul] at hnvalue
            rw [show n = 0 by exact_mod_cast hnvalue]
            decide
          refine ⟨_, ?_, write_read hcanon hm⟩
          simp only [render, hint, Int.natAbs_natCast, if_neg hsmall]
      · have hint : (Binary64.finite false m e).toInt? = none := by
          simp only [Binary64.toInt?, if_neg hwhole]
        have hm : 0 < m := by
          refine Nat.pos_of_ne_zero fun hzero => hwhole ?_
          rw [hzero, Binary64.magnitude]
          split <;> simp
        refine ⟨_, ?_, write_read hcanon hm⟩
        simp only [render, hint]

end Number

end Scad
