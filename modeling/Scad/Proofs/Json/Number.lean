import Mathlib.Tactic.IntervalCases
import Scad.Data.JsonReader
import Scad.Proofs.Number.Reading

/-! Numbers are read back as they were: an integer from its digits, a real from the parts of its
layout, an infinity and a nan from their words. -/
namespace Scad.Json

open Lexeme (Digits IsExponent)
open Numeral (Fraction isAsciiDigit)

def Ends (rest : List Char) : Prop :=
  ∀ c ∈ rest.head?, isAsciiDigit c = false ∧ c ≠ '.' ∧ c ≠ 'e' ∧ c ≠ 'E'

/-- A whole part: a zero, or digits that do not start with one. -/
structure IsWhole (ds : List Char) : Prop where
  nonempty : ds ≠ []
  digits : Digits ds
  leading : ds.head? = some '0' → ds = ['0']

/-! ### The lengths of the parts -/

theorem wholeLength_append {whole rest : List Char} (hw : IsWhole whole)
    (hrest : ∀ c ∈ rest.head?, isAsciiDigit c = false) :
    wholeLength (whole ++ rest) = whole.length := by
  rw [wholeLength.eq_def]
  split
  · rename_i cs heq
    have hzero : whole.head? = some '0' := by
      have hhead := congrArg List.head? heq
      rwa [List.head?_append_of_ne_nil _ hw.nonempty] at hhead
    rw [hw.leading hzero]
    rfl
  · rw [digits, (Numeral.takeWhile_digits hw.digits hrest).1]

theorem fractionLength_append {fraction ds rest : List Char} (hf : Fraction fraction ds)
    (hds : ds = [] → fraction = []) (hrest : ∀ c ∈ rest.head?, isAsciiDigit c = false ∧ c ≠ '.') :
    fractionLength (fraction ++ rest) = fraction.length := by
  cases hf with
  | none =>
      rw [List.nil_append, fractionLength.eq_def]
      split
      · exact absurd rfl (hrest '.' rfl).2
      · rfl
  | some hd =>
      have hne : ds ≠ [] := fun h => List.cons_ne_nil _ _ (hds h)
      rw [List.cons_append, fractionLength, digits,
        (Numeral.takeWhile_digits hd fun c hc => (hrest c hc).1).1, if_neg hne, List.length_cons,
        Nat.add_comm]

theorem exponentLength_append {exponent rest : List Char} (he : IsExponent exponent)
    (hrest : Ends rest) :
    exponentLength (exponent ++ rest) = exponent.length := by
  cases he with
  | none =>
      cases rest with
      | nil => rfl
      | cons c cs =>
          have hc := (hrest c rfl).2.2
          simp only [List.nil_append, exponentLength, hc.1, hc.2, or_self, false_and, if_false,
            List.length_nil]
  | @some s ds hs hne hd =>
      have hcount : ds.length ≠ 0 := fun h => hne (List.eq_nil_of_length_eq_zero h)
      have hlength : (digits (ds ++ rest)).length = ds.length := by
        rw [digits, (Numeral.takeWhile_digits hd fun c hc => (hrest c hc).1).1]
      simp only [List.cons_append, exponentLength, if_pos hs, List.drop_succ_cons,
        List.drop_zero, true_or, true_and, hlength, if_pos hcount, List.length_cons]
      omega

/-! ### Splitting a number -/

def sign (negative : Bool) : List Char := if negative then ['-'] else []

structure Parts (whole fraction ds exponent : List Char) : Prop where
  isWhole : IsWhole whole
  isFraction : Fraction fraction ds
  behindPoint : ds = [] → fraction = []
  isExponent : IsExponent exponent

theorem IsWhole.head {whole : List Char} (h : IsWhole whole) :
    ∃ c cs, whole = c :: cs ∧ isAsciiDigit c := by
  cases whole with
  | nil => exact absurd rfl h.nonempty
  | cons c cs => exact ⟨c, cs, rfl, h.digits c (List.mem_cons_self ..)⟩

theorem ne_of_digit {c d : Char} (hc : isAsciiDigit c) (hd : isAsciiDigit d = false) : c ≠ d := by
  rintro rfl
  rw [hc] at hd
  cases hd

/-- The lengths of all parts are found in front of what ends the number. -/
theorem Parts.lengths {whole fraction ds exponent rest : List Char}
    (h : Parts whole fraction ds exponent) (hrest : Ends rest) :
    wholeLength (whole ++ (fraction ++ (exponent ++ rest))) = whole.length ∧
      fractionLength (fraction ++ (exponent ++ rest)) = fraction.length ∧
      exponentLength (exponent ++ rest) = exponent.length := by
  have hexponent : ∀ c ∈ (exponent ++ rest).head?, isAsciiDigit c = false ∧ c ≠ '.' := by
    intro c hc
    cases h.isExponent with
    | none => exact ⟨(hrest c hc).1, (hrest c hc).2.1⟩
    | some => cases hc; decide
  have hfraction : ∀ c ∈ (fraction ++ (exponent ++ rest)).head?, isAsciiDigit c = false := by
    intro c hc
    cases h.isFraction with
    | none => exact (hexponent c hc).1
    | some => cases hc; decide
  exact ⟨wholeLength_append h.isWhole hfraction,
    fractionLength_append h.isFraction h.behindPoint hexponent,
    exponentLength_append h.isExponent hrest⟩

theorem number?_parts (negative : Bool) {whole fraction ds exponent rest : List Char}
    (h : Parts whole fraction ds exponent) (hrest : Ends rest) :
    number? (sign negative ++ (whole ++ (fraction ++ (exponent ++ rest)))) =
      if fraction.length + exponent.length = 0 then
        some (((Numeral.integer whole).mapError Complaint.tooLong).map fun n =>
          .int (if negative then -(n : Int) else n),
          (sign negative).length + whole.length + fraction.length + exponent.length)
      else (Numeral.signed? (sign negative ++ (whole ++ (fraction ++ exponent)))).map fun x =>
        (.ok (.real x), (sign negative).length + whole.length + fraction.length +
          exponent.length) := by
  obtain ⟨c, cs, hcs, hc⟩ := h.isWhole.head
  have hsign : (if (sign negative ++ (whole ++ (fraction ++ (exponent ++ rest)))).head? = some '-'
    then 1 else 0) =
      (sign negative).length := by
    cases negative with
    | true => rfl
    | false =>
        have hne : c ≠ '-' := ne_of_digit hc (by decide)
        simp [sign, hcs, hne]
  have hnegative : ((sign negative).length = 1) = (negative = true) := by
    cases negative <;> simp [sign]
  obtain ⟨hwhole, hfraction, hexponent⟩ := h.lengths hrest
  have hlength : (sign negative ++ (whole ++ (fraction ++ exponent))).length =
      (sign negative).length + whole.length + fraction.length + exponent.length := by
    simp only [List.length_append, Nat.add_assoc]
  have htake : (sign negative ++ (whole ++ (fraction ++ (exponent ++ rest)))).take
      ((sign negative).length + whole.length + fraction.length + exponent.length) =
        sign negative ++ (whole ++ (fraction ++ exponent)) := by
    rw [← hlength]
    simp only [← List.append_assoc, List.take_left]
  have hne : whole.length ≠ 0 := fun hnil => h.isWhole.nonempty (List.eq_nil_of_length_eq_zero hnil)
  simp only [number?, hsign, List.drop_left, hwhole, ← List.drop_drop, hfraction,
    hexponent, if_neg hne, List.take_left, htake, hnegative]
  cases Numeral.integer whole <;> rfl

/-! ### Integers -/

theorem toDigits_head {n : Nat} (h : 0 < n) : (Nat.toDigits 10 n).head? ≠ some '0' := by
  induction n using Nat.strong_induction_on with
  | h n ih =>
      rcases Nat.lt_or_ge n 10 with hn | hn
      · rw [Nat.toDigits_of_lt_base hn]
        interval_cases n <;> decide
      · rw [Nat.toDigits_of_base_le (by decide) hn,
          List.head?_append_of_ne_nil _ Nat.toDigits_ne_nil]
        exact ih (n / 10) (by omega) (by omega)

theorem isWhole_toDigits (n : Nat) : IsWhole (Nat.toDigits 10 n) := by
  refine ⟨Nat.toDigits_ne_nil, Numeral.digits_toDigits n, fun h => ?_⟩
  rcases Nat.eq_zero_or_pos n with rfl | hn
  · rfl
  · exact absurd h (toDigits_head hn)

theorem toList_toString_int (n : Int) :
    (toString n).toList = sign (n < 0) ++ Nat.toDigits 10 n.natAbs := by
  cases n with
  | ofNat n =>
      have hnonneg : ¬ (Int.ofNat n < 0) := by simp
      rw [decide_eq_false hnonneg]
      show (toString n).toList = _
      rw [Nat.toString_eq_ofList_toDigits, String.toList_ofList]
      rfl
  | negSucc n =>
      rw [decide_eq_true (Int.negSucc_lt_zero n)]
      show ("-" ++ toString (n + 1)).toList = _
      rw [String.toList_append, Nat.toString_eq_ofList_toDigits, String.toList_ofList,
        String.toList_ofList]
      rfl

/-- An integer that has a text is read back from it. -/
theorem number?_toString {n : Int} (hn : hasText n) {rest : List Char} (hrest : Ends rest) :
    number? ((toString n).toList ++ rest) = some (.ok (.int n), (toString n).toList.length) := by
  have hlength : (Nat.toDigits 10 n.natAbs).length ≤ 4300 := of_decide_eq_true hn
  have hvalue : Numeral.integer (Nat.toDigits 10 n.natAbs) = .ok n.natAbs := by
    rw [Numeral.integer, if_neg (by omega), Numeral.decimalValue_toDigits]
  have hread := number?_parts (n < 0) ⟨isWhole_toDigits n.natAbs, .none, fun _ => rfl, .none⟩ hrest
  have hint : (if decide (n < 0) then -(n.natAbs : Int) else n.natAbs) = n := by
    simp only [decide_eq_true_eq]
    split <;> omega
  simp only [List.nil_append, List.length_nil, Nat.add_zero, if_true, hvalue,
    Except.mapError, Except.map, hint] at hread
  rw [toList_toString_int, List.append_assoc, List.length_append]
  exact hread

/-! ### Reals -/

theorem ofRatio_negate (num den : Nat) :
    Binary64.ofRatio true num den = (Binary64.ofRatio false num den).negate := by
  simp only [Binary64.ofRatio, Binary64.pack, Binary64.bounded, Binary64.zero]
  repeat' split
  all_goals rfl

theorem ofDecimal_negate (digits : Nat) (exponent : Int) :
    Binary64.ofDecimal true digits exponent =
      (Binary64.ofDecimal false digits exponent).negate := by
  simp only [Binary64.ofDecimal, ofRatio_negate]
  repeat' split
  all_goals rfl

theorem unsigned?_negate (cs : List Char) :
    Numeral.unsigned? true cs = (Numeral.unsigned? false cs).map Binary64.negate := by
  simp only [Numeral.unsigned?, ofDecimal_negate]
  split
  · rfl
  · rw [Option.map_map]
    rfl

/-- A sign in front of a numeral. -/
theorem signed?_sign (negative : Bool) {t : List Char} (h : Lexeme.IsNumeral t) :
    Numeral.signed? (sign negative ++ t) = (Numeral.unsigned? false t).map fun x =>
      if negative then x.negate else x := by
  obtain ⟨c, cs, rfl, hc⟩ := h.head
  cases negative with
  | false =>
      show Numeral.signed? (c :: cs) = _
      rw [Numeral.signed?_eq (.inl hc)]
      exact Option.map_id'.symm
  | true => exact (Numeral.signed?_of_splitSign rfl (.inl hc)).trans (unsigned?_negate _)

/-- Parts of a real: there is a fraction or an exponent, by which it is told from an integer. -/
inductive IsReal : List Char → Prop
  | mk {whole fraction ds exponent} : Parts whole fraction ds exponent →
      fraction.length + exponent.length ≠ 0 →
      IsReal (whole ++ (fraction ++ exponent))

theorem IsReal.isNumeral {t : List Char} (h : IsReal t) : Lexeme.IsNumeral t := by
  obtain ⟨h, -⟩ := h
  exact .mk h.isWhole.nonempty h.isWhole.digits h.isFraction.isFraction h.isExponent

theorem isWhole_zero : IsWhole ['0'] := ⟨List.cons_ne_nil _ _, Numeral.digits_zeros 1, fun _ => rfl⟩

theorem isWhole_append {ds rest : List Char} (hne : ds ≠ []) (hd : Digits ds)
    (hlead : ds.head? ≠ some '0') (hrest : Digits rest) : IsWhole (ds ++ rest) := by
  refine ⟨fun h => hne (List.append_eq_nil_iff.1 h).1, Numeral.digits_append hd hrest, fun h => ?_⟩
  rw [List.head?_append_of_ne_nil _ hne] at h
  exact absurd h hlead

theorem isWhole_take {ds : List Char} (hne : ds ≠ []) (hd : Digits ds)
    (hlead : ds.head? ≠ some '0') {n : Nat} (hn : 0 < n) : IsWhole (ds.take n) := by
  cases ds with
  | nil => exact absurd rfl hne
  | cons c cs =>
      obtain ⟨k, rfl⟩ := Nat.exists_eq_succ_of_ne_zero hn.ne'
      exact ⟨List.cons_ne_nil _ _, fun d hm => hd d (List.mem_of_mem_take hm),
        fun h => absurd h hlead⟩

/-- Every layout of digits that do not start with a zero. -/
theorem isReal_layout {ds : List Char} (hne : ds ≠ []) (hd : Digits ds)
    (hlead : ds.head? ≠ some '0') (point : Int) : IsReal (Binary64.layout realStyle ds point) := by
  have hzero : Digits ['0'] := Numeral.digits_zeros 1
  have hdrop : ∀ n, Digits (ds.drop n) := fun n c hc => hd c (List.mem_of_mem_drop hc)
  have hpoint : ∀ {whole behind : List Char}, IsWhole whole → Digits behind → behind ≠ [] →
      IsReal (whole ++ '.' :: behind) := by
    intro whole behind hw hb hbehind
    have hreal : IsReal (whole ++ (('.' :: behind) ++ [])) :=
      .mk ⟨hw, .some hb, fun h => absurd h hbehind, .none⟩ (by simp)
    rwa [List.append_nil] at hreal
  rw [Binary64.layout]
  split
  · split
    -- All digits stand behind the point.
    · exact hpoint isWhole_zero (Numeral.digits_append (Numeral.digits_zeros _) hd)
        fun h => hne (List.append_eq_nil_iff.1 h).2
    · dsimp only
      split
      -- All digits stand before the point, with zeros behind them.
      · exact hpoint (isWhole_append hne hd hlead (Numeral.digits_zeros _)) hzero
          (List.cons_ne_nil _ _)
      -- The point stands between two digits.
      · rename_i hlow hgt
        refine hpoint (isWhole_take hne hd hlead (by omega)) (hdrop _) fun h => hgt ?_
        exact List.drop_eq_nil_iff.1 h
  -- One digit stands before the point, and the exponent is written.
  · have hwhole := isWhole_take hne hd hlead Nat.one_pos
    have hexponent := (Numeral.exponent?_exponentText (point - 1)).2
    rw [List.append_assoc]
    cases hrest : ds.drop 1 with
    | nil => exact .mk ⟨hwhole, .none, fun _ => rfl, hexponent⟩ (by simp)
    | cons c rest =>
        have hbehind : Digits (c :: rest) := hrest ▸ hdrop 1
        exact .mk ⟨hwhole, .some hbehind, fun h => absurd h (List.cons_ne_nil _ _),
          hexponent⟩ (by simp)

theorem shortest_digits_ne_zero {m : Nat} {e : Int} (h : Binary64.Canonical m e) (hm : 0 < m) :
    (Binary64.shortest m e).digits ≠ 0 := by
  intro hzero
  have hread := Binary64.ofDecimal_shortest h hm
  rw [hzero, Binary64.ofDecimal_zero] at hread
  cases hread
  exact absurd hm (Nat.lt_irrefl 0)

/-- What is written for a finite number behind its sign. -/
theorem write_finite (negative : Bool) {m : Nat} {e : Int} (h : Binary64.Canonical m e) :
    ∃ t, ((Binary64.finite negative m e).write realStyle).toList = sign negative ++ t ∧ IsReal t ∧
      Numeral.unsigned? false t = some (.finite false m e) := by
  have hwrite : ∀ body : List Char,
      (String.ofList (if negative then '-' :: body else body)).toList = sign negative ++ body := by
    intro body
    rw [String.toList_ofList]
    cases negative <;> rfl
  rw [Binary64.write]
  rcases Nat.eq_zero_or_pos m with rfl | hm
  · have hzero : Numeral.unsigned? false ['0', '.', '0'] = some (.finite false 0 e) := by
      rw [h.full.resolve_left (by norm_num)]
      rfl
    refine ⟨['0', '.', '0'], hwrite _, ?_, hzero⟩
    have hparts : Parts ['0'] ['.', '0'] ['0'] [] :=
      ⟨isWhole_zero, .some (Numeral.digits_zeros 1),
        fun h => absurd h (List.cons_ne_nil _ _), .none⟩
    exact .mk hparts (by decide)
  · have hlead := toDigits_head (Nat.pos_of_ne_zero (shortest_digits_ne_zero h hm))
    have hwrites :=
      (Numeral.writes_layout (Binary64.shortest m e).digits (Binary64.shortest m e).exponent).2
    rw [Binary64.ofDecimal_shortest h hm] at hwrites
    simp only [if_neg hm.ne', Nat.toString_eq_ofList_toDigits,
      String.toList_ofList (l := Nat.toDigits 10 _)]
    exact ⟨_, hwrite _, isReal_layout Nat.toDigits_ne_nil (Numeral.digits_toDigits _) hlead _,
      hwrites⟩

theorem number?_write (negative : Bool) {m : Nat} {e : Int} (h : Binary64.Canonical m e)
    {rest : List Char} (hrest : Ends rest) :
    number? (((Binary64.finite negative m e).write realStyle).toList ++ rest) =
      some (.ok (.real (.finite negative m e)),
        ((Binary64.finite negative m e).write realStyle).toList.length) := by
  obtain ⟨t, ht, hreal, hvalue⟩ := write_finite negative h
  have hnumeral := hreal.isNumeral
  obtain ⟨hparts, hmark⟩ := hreal
  have hread := number?_parts negative hparts hrest
  rw [if_neg hmark, signed?_sign negative hnumeral, hvalue] at hread
  have hsigned : (if negative then (Binary64.finite false m e).negate else .finite false m e) =
      .finite negative m e := by cases negative <;> rfl
  rw [ht]
  simp only [Option.map_some, hsigned] at hread
  simp only [List.append_assoc, List.length_append, hread, Nat.add_assoc]

end Scad.Json
