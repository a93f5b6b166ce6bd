import Scad.Number.Shortest
import Scad.Proofs.Number.Rounding

/-! The decimals that a number is written with read back as the number. -/
namespace Scad.Binary64

/-! ### The length of a decimal -/

theorem decimalLength_pos (n : Nat) : 0 < decimalLength n := Nat.length_toDigits_pos

theorem lt_pow_decimalLength (n : Nat) : n < 10 ^ decimalLength n :=
  (Nat.length_toDigits_le_iff (by decide) (decimalLength_pos n)).1 (Nat.le_refl _)

theorem pow_le_of_decimalLength {n k : Nat} (hk : k < decimalLength n) (hn : 0 < n) :
    10 ^ k ≤ n := by
  rcases Nat.eq_zero_or_pos k with rfl | hpos
  · exact hn
  · exact Nat.le_of_not_lt fun hlt =>
      Nat.not_le_of_lt hk ((Nat.length_toDigits_le_iff (by decide) hpos).2 hlt)

theorem decimalLength_mul_pow {n : Nat} (hn : 0 < n) (k : Nat) :
    decimalLength (n * 10 ^ k) = decimalLength n + k := by
  induction k with
  | zero => rw [Nat.pow_zero, Nat.mul_one, Nat.add_zero]
  | succ k ih =>
      have hpos : 0 < n * 10 ^ k := Nat.mul_pos hn (Nat.pow_pos (by decide))
      have happend := Nat.toDigits_append_toDigits (b := 10) (d := 0) (by decide) hpos (by decide)
      have hlength := congrArg List.length happend
      rw [List.length_append, Nat.add_zero, Nat.toDigits_zero, List.length_singleton] at hlength
      rw [Nat.pow_succ, ← Nat.mul_assoc, Nat.mul_comm _ 10, decimalLength, ← hlength]
      exact congrArg (· + 1) ih

/-! ### Reading a decimal -/

/-- A decimal that is neither too great nor too small is rounded by its value. -/
theorem ofDecimal_eq_ofRatio (negative : Bool) {digits num den : Nat} {exponent : Int}
    (hd : digits ≠ 0) (hhigh : exponent + decimalLength digits ≤ 310)
    (hlow : -330 ≤ exponent + decimalLength digits) (hden : 0 < den)
    (hvalue : (digits : ℚ) * 10 ^ exponent = num / den) :
    ofDecimal negative digits exponent = ofRatio negative num den := by
  simp only [ofDecimal, if_neg hd, if_neg (Int.not_lt.2 hhigh), if_neg (Int.not_lt.2 hlow)]
  split
  · rename_i he
    refine ofRatio_congr negative Nat.one_pos hden ?_
    obtain ⟨k, rfl⟩ := Int.eq_ofNat_of_zero_le he
    rw [← hvalue, zpow_natCast, Int.toNat_natCast, Nat.pow_eq, Nat.cast_mul, Nat.cast_pow,
      Nat.cast_one, div_one, Nat.cast_ofNat]
  · rename_i he
    refine ofRatio_congr negative (Nat.pow_pos (by decide)) hden ?_
    obtain ⟨k, hk⟩ := Int.eq_ofNat_of_zero_le (a := -exponent) (by omega)
    obtain rfl : exponent = -(k : Int) := by omega
    rw [← hvalue, neg_neg, zpow_neg, zpow_natCast, Int.toNat_natCast, Nat.pow_eq, Nat.cast_pow,
      Nat.cast_ofNat, div_eq_mul_inv]

theorem exists_fraction (digits : Nat) (exponent : Int) :
    ∃ num den : Nat, 0 < den ∧ (digits : ℚ) * 10 ^ exponent = num / den := by
  have hq : (0 : ℚ) ≤ digits * 10 ^ exponent := by positivity
  refine ⟨((digits : ℚ) * 10 ^ exponent).num.toNat, ((digits : ℚ) * 10 ^ exponent).den,
    Rat.den_pos _, ?_⟩
  have hnum : ((((digits : ℚ) * 10 ^ exponent).num.toNat : Nat) : ℚ) =
      (((digits : ℚ) * 10 ^ exponent).num : Int) := by
    exact_mod_cast Int.toNat_of_nonneg (Rat.num_nonneg.2 hq)
  rw [hnum, Rat.num_div_den]

theorem ofDecimal_zero (negative : Bool) (exponent : Int) :
    ofDecimal negative 0 exponent = zero negative := by
  simp only [ofDecimal, if_true]

/-- Trailing zeros may be written out or not. -/
theorem ofDecimal_mul_pow (negative : Bool) (digits : Nat) (exponent : Int) (k : Nat) :
    ofDecimal negative (digits * 10 ^ k) (exponent - k) = ofDecimal negative digits exponent := by
  rcases Nat.eq_zero_or_pos digits with rfl | hd
  · rw [Nat.zero_mul, ofDecimal_zero, ofDecimal_zero]
  have hpos : 0 < digits * 10 ^ k := Nat.mul_pos hd (Nat.pow_pos (by decide))
  have hlength : exponent - k + (decimalLength (digits * 10 ^ k) : Int) =
      exponent + decimalLength digits := by
    rw [decimalLength_mul_pow hd]
    push_cast
    omega
  by_cases hhigh : 310 < exponent + decimalLength digits
  · simp only [ofDecimal, hlength, if_neg hpos.ne', if_neg hd.ne', if_pos hhigh]
  by_cases hlow : exponent + decimalLength digits < -330
  · simp only [ofDecimal, hlength, if_neg hpos.ne', if_neg hd.ne', if_neg hhigh, if_pos hlow]
  -- Both are rounded by their common value.
  obtain ⟨num, den, hden, hvalue⟩ := exists_fraction digits exponent
  have hvalue' : ((digits * 10 ^ k : Nat) : ℚ) * 10 ^ (exponent - k) = num / den := by
    rw [← hvalue, zpow_sub₀ (by norm_num), zpow_natCast, Nat.cast_mul, Nat.cast_pow, Nat.cast_ofNat,
      mul_assoc, mul_div_cancel₀ _ (by positivity)]
  rw [ofDecimal_eq_ofRatio negative hd.ne' (Int.not_lt.1 hhigh) (Int.not_lt.1 hlow) hden hvalue,
    ofDecimal_eq_ofRatio negative hpos.ne' (hlength ▸ Int.not_lt.1 hhigh)
    (hlength ▸ Int.not_lt.1 hlow)
      hden hvalue']

theorem Decimal.reads_trim (fuel : Nat) (d : Decimal) (m : Nat) (e : Int) :
    (d.trim fuel).reads m e = d.reads m e := by
  induction fuel generalizing d with
  | zero => rfl
  | succ fuel ih =>
      rw [Decimal.trim]
      split
      · rename_i hd
        have hdigits : d.digits / 10 * 10 ^ 1 = d.digits :=
          Nat.div_mul_cancel (Nat.dvd_of_mod_eq_zero hd.2)
        have hread := ofDecimal_mul_pow false (d.digits / 10) (d.exponent + 1) 1
        rw [hdigits, Nat.cast_one, Int.add_sub_cancel] at hread
        rw [ih, Decimal.reads, Decimal.reads, hread]
      · rfl

theorem reads_onGrid {m : Nat} {e : Int} {count : Nat} {d : Decimal}
    (h : onGrid m e count = some d) :
    d.reads m e := by
  simp only [onGrid] at h
  split at h
  · cases h
    split <;> assumption
  · cases h
    assumption
  · cases h
    assumption
  · cases h

theorem exactDecimal_value (m : Nat) (e : Int) :
    ((exactDecimal m e).digits : ℚ) * 10 ^ (exactDecimal m e).exponent = m * 2 ^ e := by
  rw [exactDecimal]
  split
  · rename_i he
    obtain ⟨k, rfl⟩ := Int.eq_ofNat_of_zero_le he
    simp only [Nat.pow_eq, Int.toNat_natCast, Nat.cast_mul, Nat.cast_pow, Nat.cast_ofNat,
      zpow_natCast, zpow_zero, mul_one]
  · rename_i he
    obtain ⟨k, hk⟩ := Int.eq_ofNat_of_zero_le (a := -e) (by omega)
    obtain rfl : e = -(k : Int) := by omega
    have hten : (10 : ℚ) ^ k = 5 ^ k * 2 ^ k := by rw [← mul_pow]; norm_num
    simp only [Nat.pow_eq, neg_neg, Int.toNat_natCast, Nat.cast_mul, Nat.cast_pow, Nat.cast_ofNat,
      zpow_neg, zpow_natCast, hten]
    field_simp

/-- The finite numbers lie between the bounds that reading settles by length alone. -/
theorem Canonical.length_bounds {m : Nat} {e : Int} (h : Canonical m e) (hm : 0 < m) {digits : Nat}
    {exponent : Int} (hd : 0 < digits) (hvalue : (digits : ℚ) * 10 ^ exponent = m * 2 ^ e) :
    exponent + decimalLength digits ≤ 310 ∧ -330 ≤ exponent + decimalLength digits := by
  have hlength := decimalLength_pos digits
  have hten : (1 : ℚ) ≤ 10 := by norm_num
  constructor
  · refine Int.not_lt.1 fun hgt => ?_
    have hlow : (10 : ℚ) ^ (310 : Int) ≤ digits * 10 ^ exponent := by
      have hdigits : ((10 ^ (decimalLength digits - 1) : Nat) : ℚ) ≤ digits := by
        exact_mod_cast pow_le_of_decimalLength (by omega) hd
      calc (10 : ℚ) ^ (310 : Int)
          ≤ 10 ^ (((decimalLength digits - 1 : Nat) : Int) + exponent) :=
            zpow_le_zpow_right₀ hten (by omega)
        _ = (10 ^ (decimalLength digits - 1) : Nat) * 10 ^ exponent := by
            rw [zpow_add₀ (by norm_num), zpow_natCast, Nat.cast_pow, Nat.cast_ofNat]
        _ ≤ digits * 10 ^ exponent := mul_le_mul_of_nonneg_right hdigits (by positivity)
    have hhigh : (m : ℚ) * 2 ^ e < 2 ^ (1024 : Int) := by
      calc (m : ℚ) * 2 ^ e < 2 ^ 53 * 2 ^ e :=
            mul_lt_mul_of_pos_right (by exact_mod_cast h.fits) (by positivity)
        _ ≤ 2 ^ 53 * 2 ^ (971 : Int) :=
            mul_le_mul_of_nonneg_left (zpow_le_zpow_right₀ (by norm_num) h.greatest) (by positivity)
        _ = 2 ^ (1024 : Int) := by rw [← zpow_natCast, ← zpow_add₀ (by norm_num)]; norm_num
    have hcompare : (2 : ℚ) ^ (1024 : Int) ≤ 10 ^ (310 : Int) := by
      rw [zpow_ofNat, zpow_ofNat]
      exact_mod_cast (by decide +kernel : 2 ^ 1024 ≤ 10 ^ 310)
    rw [hvalue] at hlow
    exact absurd (hlow.trans_lt (hhigh.trans_le hcompare)) (lt_irrefl _)
  · refine Int.not_lt.1 fun hlt => ?_
    have hhigh : (digits : ℚ) * 10 ^ exponent ≤ 10 ^ (-330 : Int) := by
      have hdigits : (digits : ℚ) ≤ ((10 ^ decimalLength digits : Nat) : ℚ) := by
        exact_mod_cast (lt_pow_decimalLength digits).le
      calc (digits : ℚ) * 10 ^ exponent
          ≤ (10 ^ decimalLength digits : Nat) * 10 ^ exponent :=
            mul_le_mul_of_nonneg_right hdigits (by positivity)
        _ = 10 ^ ((decimalLength digits : Int) + exponent) := by
            rw [zpow_add₀ (by norm_num), zpow_natCast, Nat.cast_pow, Nat.cast_ofNat]
        _ ≤ 10 ^ (-330 : Int) := zpow_le_zpow_right₀ hten (by omega)
    have hlow : (2 : ℚ) ^ (-1074 : Int) ≤ m * 2 ^ e := by
      calc (2 : ℚ) ^ (-1074 : Int) ≤ 2 ^ e := zpow_le_zpow_right₀ (by norm_num) h.least
        _ ≤ m * 2 ^ e := le_mul_of_one_le_left (by positivity) (by exact_mod_cast hm)
    have hcompare : (10 : ℚ) ^ (-330 : Int) < 2 ^ (-1074 : Int) := by
      rw [zpow_neg, zpow_neg, zpow_ofNat, zpow_ofNat, inv_lt_inv₀ (by positivity) (by positivity)]
      exact_mod_cast (by decide +kernel : 2 ^ 1074 < 10 ^ 330)
    rw [hvalue] at hhigh
    exact absurd (hlow.trans_lt (hhigh.trans_lt hcompare)) (lt_irrefl _)

/-- A decimal that is a finite number reads as it. -/
theorem Canonical.ofDecimal {m : Nat} {e : Int} (h : Canonical m e) (hm : 0 < m) {digits : Nat}
    {exponent : Int} (hvalue : (digits : ℚ) * 10 ^ exponent = m * 2 ^ e) :
    ofDecimal false digits exponent = .finite false m e := by
  have hd : 0 < digits := by
    refine Nat.pos_of_ne_zero fun hzero => ?_
    rw [hzero, Nat.cast_zero, zero_mul] at hvalue
    have : (0 : ℚ) < m * 2 ^ e := mul_pos (by exact_mod_cast hm) (by positivity)
    linarith
  obtain ⟨hhigh, hlow⟩ := h.length_bounds hm hd hvalue
  obtain ⟨num, den, hden, hfraction⟩ := exists_fraction digits exponent
  rw [ofDecimal_eq_ofRatio false hd.ne' hhigh hlow hden hfraction]
  exact h.ofRatio hm hden (hfraction.symm.trans hvalue)

theorem reads_exactDecimal {m : Nat} {e : Int} (h : Canonical m e) (hm : 0 < m) :
    (exactDecimal m e).reads m e := decide_eq_true (h.ofDecimal hm (exactDecimal_value m e))

/-- The shortest decimal of a number reads back. -/
theorem ofDecimal_shortest {m : Nat} {e : Int} (h : Canonical m e) (hm : 0 < m) :
    ofDecimal false (shortest m e).digits (shortest m e).exponent = .finite false m e := by
  have hreads : (shortest m e).reads m e := by
    rw [shortest, Decimal.reads_trim]
    cases hfound : (List.range 17).findSome? fun i => onGrid m e (i + 1) with
    | none => exact reads_exactDecimal h hm
    | some d =>
        obtain ⟨i, -, hi⟩ := List.exists_of_findSome?_eq_some hfound
        exact reads_onGrid hi
  exact of_decide_eq_true hreads

end Scad.Binary64
