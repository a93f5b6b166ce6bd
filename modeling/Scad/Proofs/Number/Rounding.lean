import Mathlib.Algebra.Order.Field.Power
import Mathlib.Data.Int.Log
import Mathlib.Data.Rat.Floor
import Mathlib.Tactic.Linarith
import Mathlib.Tactic.Positivity
import Mathlib.Tactic.Ring
import Scad.Number.Binary64

/-! Rounding depends on the value of a fraction alone, and keeps the finite numbers as they are. -/
namespace Scad.Binary64

/-! ### The value of a fraction -/

theorem scaled_pos (num : Nat) {den : Nat} (hden : 0 < den) (e : Int) :
    0 < (scaled num den e).2 := by
  rw [scaled]
  split
  · exact Nat.mul_pos hden (Nat.pow_pos (by decide))
  · exact hden

theorem scaled_value (num den : Nat) (e : Int) :
    ((scaled num den e).1 : ℚ) / (scaled num den e).2 = num / den / 2 ^ e := by
  rw [scaled]
  split
  · rename_i he
    obtain ⟨k, rfl⟩ := Int.eq_ofNat_of_zero_le he
    simp only [Nat.pow_eq, Int.toNat_natCast, Nat.cast_mul, Nat.cast_pow, Nat.cast_ofNat,
      zpow_natCast, div_div]
  · rename_i he
    obtain ⟨k, hk⟩ := Int.eq_ofNat_of_zero_le (a := -e) (by omega)
    obtain rfl : e = -(k : Int) := by omega
    simp only [Nat.pow_eq, neg_neg, Int.toNat_natCast, Nat.cast_mul, Nat.cast_pow, Nat.cast_ofNat,
      zpow_neg, zpow_natCast, div_inv_eq_mul]
    ring

theorem zpow_log2_le {n : Nat} (hn : 0 < n) : (2 : ℚ) ^ (n.log2 : Int) ≤ n := by
  rw [zpow_natCast]
  exact_mod_cast Nat.log2_self_le (Nat.ne_of_gt hn)

theorem lt_zpow_log2 (n : Nat) : (n : ℚ) < (2 : ℚ) ^ ((n.log2 : Int) + 1) := by
  have h : n < 2 ^ (n.log2 + 1) := Nat.lt_log2_self
  have he : (2 : ℚ) ^ ((n.log2 : Int) + 1) = ((2 ^ (n.log2 + 1) : Nat) : ℚ) := by
    rw [← Nat.cast_succ, zpow_natCast]
    push_cast
    rfl
  rw [he]
  exact_mod_cast h

section

variable {num den : Nat} (hnum : 0 < num) (hden : 0 < den)

include hnum hden

theorem value_pos : (0 : ℚ) < num / den := div_pos (by exact_mod_cast hnum) (by exact_mod_cast hden)

/-- The binary logarithm of a quotient, up to one. -/
theorem log_value : (num.log2 : Int) - den.log2 - 1 ≤ Int.log 2 ((num : ℚ) / den) ∧
    Int.log 2 ((num : ℚ) / den) < (num.log2 : Int) - den.log2 + 1 := by
  have hr := value_pos hnum hden
  have hd : (0 : ℚ) < den := by exact_mod_cast hden
  constructor
  · rw [← Int.zpow_le_iff_le_log Nat.one_lt_two hr, le_div_iff₀ hd]
    calc ((2 : Nat) : ℚ) ^ ((num.log2 : Int) - den.log2 - 1) * den
        ≤ (2 : ℚ) ^ ((num.log2 : Int) - den.log2 - 1) * 2 ^ ((den.log2 : Int) + 1) :=
          mul_le_mul_of_nonneg_left (lt_zpow_log2 den).le (by positivity)
      _ = 2 ^ (num.log2 : Int) := by
          rw [← zpow_add₀ (by norm_num)]
          congr 1
          omega
      _ ≤ num := zpow_log2_le hnum
  · rw [← Int.lt_zpow_iff_log_lt Nat.one_lt_two hr, div_lt_iff₀ hd]
    calc (num : ℚ) < 2 ^ ((num.log2 : Int) + 1) := lt_zpow_log2 num
      _ = 2 ^ ((num.log2 : Int) - den.log2 + 1) * 2 ^ (den.log2 : Int) := by
          rw [← zpow_add₀ (by norm_num)]
          congr 1
          omega
      _ ≤ ((2 : Nat) : ℚ) ^ ((num.log2 : Int) - den.log2 + 1) * den :=
          mul_le_mul_of_nonneg_left (zpow_log2_le hden) (by positivity)

theorem exponentFor_eq : exponentFor num den = Int.log 2 ((num : ℚ) / den) - 52 := by
  obtain ⟨hlo, hhi⟩ := log_value hnum hden
  have hv := scaled_value num den ((num.log2 : Int) - den.log2 - 53)
  have hd : (0 : ℚ) < (scaled num den ((num.log2 : Int) - den.log2 - 53)).2 := by
    exact_mod_cast scaled_pos num hden _
  have htest : (scaled num den ((num.log2 : Int) - den.log2 - 53)).2 * Nat.pow 2 53 ≤
      (scaled num den ((num.log2 : Int) - den.log2 - 53)).1 ↔
      (num.log2 : Int) - den.log2 ≤ Int.log 2 ((num : ℚ) / den) := by
    have hpow : (2 : ℚ) ^ ((num.log2 : Int) - den.log2) =
        2 ^ 53 * 2 ^ ((num.log2 : Int) - den.log2 - 53) := by
      rw [← zpow_natCast, ← zpow_add₀ (by norm_num)]
      congr 1
      omega
    rw [← Int.zpow_le_iff_le_log Nat.one_lt_two (value_pos hnum hden), Nat.cast_ofNat, hpow,
      ← le_div_iff₀ (by positivity), ← hv, le_div_iff₀ hd, mul_comm, Nat.pow_eq]
    exact_mod_cast Iff.rfl
  rw [exponentFor]
  simp only [htest]
  split <;> omega

end

/-! ### Rounding a quotient -/

theorem roundDiv_mul {d k : Nat} (hk : 0 < k) (n : Nat) :
    roundDiv (n * k) (d * k) = roundDiv n d := by
  have hlt : d * k < 2 * (n % d * k) ↔ d < 2 * (n % d) := by
    rw [← Nat.mul_assoc, Nat.mul_lt_mul_right hk]
  have heq : 2 * (n % d * k) = d * k ↔ 2 * (n % d) = d := by
    rw [← Nat.mul_assoc, Nat.mul_right_cancel_iff hk]
  simp only [roundDiv, Nat.mul_div_mul_right n d hk, Nat.mul_mod_mul_right, hlt, heq]

theorem roundDiv_congr {n d n' d' : Nat} (hd : 0 < d) (hd' : 0 < d')
    (h : (n : ℚ) / d = n' / d') : roundDiv n d = roundDiv n' d' := by
  have hcross : n * d' = n' * d := by
    rw [div_eq_div_iff (by exact_mod_cast hd.ne') (by exact_mod_cast hd'.ne')] at h
    exact_mod_cast h
  rw [← roundDiv_mul hd' n, hcross, Nat.mul_comm d, roundDiv_mul hd]

theorem roundDiv_bounds (n d : Nat) : n / d ≤ roundDiv n d ∧ roundDiv n d ≤ n / d + 1 := by
  simp only [roundDiv]
  split <;> omega

theorem roundDiv_whole {d : Nat} (hd : 0 < d) (m : Nat) : roundDiv (m * d) d = m := by
  simp only [roundDiv, Nat.mul_div_cancel m hd, Nat.mul_mod_left]
  split
  · omega
  · rfl

theorem ofRatio_zero (negative : Bool) (den : Nat) : ofRatio negative 0 den = zero negative := by
  rw [ofRatio, if_pos rfl]

theorem ofRatio_of_ne_zero (negative : Bool) {num : Nat} (hnum : num ≠ 0) (den : Nat) :
    ofRatio negative num den = pack negative (mantissaFor num den) (unitFor num den) := by
  rw [ofRatio, if_neg hnum]

/-- Rounding sees the value of a fraction only. -/
theorem ofRatio_congr (negative : Bool) {num den num' den' : Nat} (hden : 0 < den)
    (hden' : 0 < den') (h : (num : ℚ) / den = num' / den') :
    ofRatio negative num den = ofRatio negative num' den' := by
  have hd : (den : ℚ) ≠ 0 := by exact_mod_cast hden.ne'
  have hd' : (den' : ℚ) ≠ 0 := by exact_mod_cast hden'.ne'
  by_cases hnum : num = 0
  · obtain rfl : num' = 0 := by
      rw [hnum, Nat.cast_zero, zero_div, eq_comm, div_eq_zero_iff, or_iff_left hd'] at h
      exact_mod_cast h
    rw [hnum, ofRatio_zero, ofRatio_zero]
  · have hnum' : num' ≠ 0 := by
      rintro rfl
      rw [Nat.cast_zero, zero_div, div_eq_zero_iff, or_iff_left hd] at h
      exact hnum (by exact_mod_cast h)
    have he : unitFor num den = unitFor num' den' := by
      rw [unitFor, unitFor, exponentFor_eq (Nat.pos_of_ne_zero hnum) hden,
        exponentFor_eq (Nat.pos_of_ne_zero hnum') hden', h]
    have hm : mantissaFor num den = mantissaFor num' den' := by
      rw [mantissaFor, mantissaFor, he]
      refine roundDiv_congr (scaled_pos num hden _) (scaled_pos num' hden' _) ?_
      rw [scaled_value, scaled_value, h]
    rw [ofRatio_of_ne_zero negative hnum, ofRatio_of_ne_zero negative hnum', he, hm]

/-! ### The finite numbers -/

/-- The one way to give a finite number: with as many bits as there is room for. -/
structure Canonical (mantissa : Nat) (exponent : Int) : Prop where
  fits : mantissa < 2 ^ 53
  least : -1074 ≤ exponent
  greatest : exponent ≤ 971
  full : 2 ^ 52 ≤ mantissa ∨ exponent = -1074

theorem Canonical.zero : Canonical 0 (-1074) := ⟨by norm_num, by decide, by decide, .inr rfl⟩

theorem bounded_eq_finite {negative b : Bool} {m m' : Nat} {e e' : Int}
    (h : bounded negative m e = .finite b m' e') :
    negative = b ∧ m = m' ∧ e = e' ∧ e ≤ 971 := by
  rw [bounded] at h
  split at h
  · cases h
  · rename_i hle
    cases h
    exact ⟨rfl, rfl, rfl, Int.not_lt.mp hle⟩

theorem pack_canonical {negative b : Bool} {m m' : Nat} {e e' : Int} (hm : m ≤ 2 ^ 53)
    (hleast : -1074 ≤ e) (hfull : 2 ^ 52 ≤ m ∨ e = -1074)
    (h : pack negative m e = .finite b m' e') : negative = b ∧ Canonical m' e' := by
  rw [pack, Nat.pow_eq, Nat.pow_eq] at h
  split at h
  · obtain ⟨hb, rfl, rfl, hle⟩ := bounded_eq_finite h
    exact ⟨hb, by norm_num, by omega, hle, .inl (Nat.le_refl _)⟩
  · rename_i hne
    obtain ⟨hb, rfl, rfl, hle⟩ := bounded_eq_finite h
    exact ⟨hb, Nat.lt_of_le_of_ne hm hne, hleast, hle, hfull⟩

section

variable {num den : Nat} (hnum : 0 < num) (hden : 0 < den)

include hden

/-- The quotient in units of the exponent that it is rounded to. -/
theorem scaled_lt (e : Int) (n : Nat) :
    (scaled num den e).1 / (scaled num den e).2 < n ↔ (num : ℚ) / den < n * 2 ^ e := by
  have hd : (0 : ℚ) < (scaled num den e).2 := by exact_mod_cast scaled_pos num hden e
  rw [Nat.div_lt_iff_lt_mul (scaled_pos num hden e), ← div_lt_iff₀ (zpow_pos two_pos e),
    ← scaled_value, div_lt_iff₀ hd]
  exact_mod_cast Iff.rfl

theorem le_scaled (e : Int) (n : Nat) :
    n ≤ (scaled num den e).1 / (scaled num den e).2 ↔ (n : ℚ) * 2 ^ e ≤ num / den := by
  rw [← Nat.not_lt, scaled_lt hden, not_lt]

include hnum

theorem mantissaFor_le : mantissaFor num den ≤ 2 ^ 53 := by
  have hunit : exponentFor num den ≤ unitFor num den := le_max_left ..
  have hlt : (scaled num den (unitFor num den)).1 / (scaled num den (unitFor num den)).2 <
      2 ^ 53 := by
    rw [scaled_lt hden, Nat.cast_pow, Nat.cast_ofNat, ← zpow_natCast, ← zpow_add₀ two_ne_zero]
    refine (Int.lt_zpow_iff_log_lt Nat.one_lt_two (value_pos hnum hden)).mpr ?_
    rw [exponentFor_eq hnum hden] at hunit
    rw [Nat.cast_ofNat]
    omega
  rw [mantissaFor]
  exact Nat.le_trans (roundDiv_bounds ..).2 hlt

theorem mantissaFor_full : 2 ^ 52 ≤ mantissaFor num den ∨ unitFor num den = -1074 := by
  rcases Int.le_total leastExponent (exponentFor num den) with hle | hle
  · left
    have hunit : unitFor num den = exponentFor num den := max_eq_left hle
    rw [mantissaFor]
    refine Nat.le_trans ?_ (roundDiv_bounds ..).1
    rw [le_scaled hden, Nat.cast_pow, Nat.cast_ofNat, ← zpow_natCast, ← zpow_add₀ two_ne_zero]
    refine (Int.zpow_le_iff_le_log Nat.one_lt_two (value_pos hnum hden)).mpr ?_
    rw [hunit, exponentFor_eq hnum hden, Nat.cast_ofNat]
    omega
  · right
    exact max_eq_right hle

end

/-- A rounded number is canonical, or infinite. -/
theorem ofRatio_canonical {negative b : Bool} {num den m : Nat} {e : Int} (hden : 0 < den)
    (h : ofRatio negative num den = .finite b m e) : negative = b ∧ Canonical m e := by
  by_cases hnum : num = 0
  · rw [hnum, ofRatio_zero] at h
    cases h
    exact ⟨rfl, Canonical.zero⟩
  · rw [ofRatio_of_ne_zero negative hnum] at h
    have hpos := Nat.pos_of_ne_zero hnum
    exact pack_canonical (mantissaFor_le hpos hden) (le_max_right ..) (mantissaFor_full hpos hden) h

/-- A fraction whose value is a finite number is rounded to it. -/
theorem Canonical.ofRatio {m : Nat} {e : Int} (h : Canonical m e) (hm : 0 < m) {num den : Nat}
    (hden : 0 < den) (hvalue : (num : ℚ) / den = m * 2 ^ e) :
    ofRatio false num den = .finite false m e := by
  have hv : (0 : ℚ) < num / den := by
    rw [hvalue]
    exact mul_pos (by exact_mod_cast hm) (zpow_pos two_pos e)
  have hnum : 0 < num := by
    refine Nat.pos_of_ne_zero fun h0 => ?_
    rw [h0, Nat.cast_zero, zero_div] at hv
    exact lt_irrefl _ hv
  have hunit : unitFor num den = e := by
    have hhi : Int.log 2 ((num : ℚ) / den) < 53 + e := by
      rw [← Int.lt_zpow_iff_log_lt Nat.one_lt_two hv, hvalue, Nat.cast_ofNat, zpow_add₀ two_ne_zero]
      exact mul_lt_mul_of_pos_right (by exact_mod_cast h.fits) (zpow_pos two_pos e)
    rw [unitFor, exponentFor_eq hnum hden]
    rcases h.full with hfull | rfl
    · have hlo : 52 + e ≤ Int.log 2 ((num : ℚ) / den) := by
        rw [← Int.zpow_le_iff_le_log Nat.one_lt_two hv, hvalue, Nat.cast_ofNat,
          zpow_add₀ two_ne_zero]
        exact mul_le_mul_of_nonneg_right (by exact_mod_cast hfull) (zpow_pos two_pos e).le
      have hleast : leastExponent ≤ e := h.least
      rw [show Int.log 2 ((num : ℚ) / den) - 52 = e by omega]
      exact max_eq_left hleast
    · exact max_eq_right (by rw [leastExponent]; omega)
  have hround : mantissaFor num den = m := by
    have hpos := scaled_pos num hden e
    rw [mantissaFor, hunit, ← roundDiv_whole Nat.one_pos m]
    refine roundDiv_congr hpos Nat.one_pos ?_
    rw [scaled_value, hvalue, mul_div_cancel_right₀ _ (zpow_pos two_pos e).ne', Nat.mul_one,
      Nat.cast_one, div_one]
  have hgreatest : ¬ greatestExponent < e := Int.not_lt.mpr h.greatest
  rw [ofRatio_of_ne_zero false hnum.ne', hround, hunit, pack, if_neg, bounded, if_neg hgreatest]
  rw [Nat.pow_eq]
  exact h.fits.ne

end Scad.Binary64
