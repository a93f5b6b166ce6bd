import Scad.Proofs.Number.Reading

/-! What a number token of a text reads as. A decimal always has a value, though it may be infinite;
a hexadecimal has one unless it is beyond every finite number. -/
namespace Scad

namespace Binary64

/-! ### Integers beyond every finite number -/

/-- A quotient rounds up to an even number from the middle below it on. -/
theorem le_roundDiv_iff {n d k : Nat} (hd : 0 < d) (hk : 0 < k) :
    2 * k ≤ roundDiv n d ↔ (4 * k - 1) * d ≤ 2 * n := by
  have hn := Nat.div_add_mod n d
  have hr := Nat.mod_lt n hd
  obtain ⟨q, hq⟩ : ∃ q, n / d = q := ⟨_, rfl⟩
  obtain ⟨r, hmod⟩ : ∃ r, n % d = r := ⟨_, rfl⟩
  rw [hq, hmod] at hn
  rw [hmod] at hr
  have hsplit : (4 * k - 1) * d + d = 2 * (d * (2 * k - 1)) + 2 * d := by
    obtain ⟨j, rfl⟩ := Nat.exists_eq_add_of_lt hk
    have h1 : 4 * (0 + j + 1) - 1 = 4 * j + 3 := by omega
    have h2 : 2 * (0 + j + 1) - 1 = 2 * j + 1 := by omega
    rw [h1, h2]
    ring
  simp only [roundDiv, hq, hmod]
  rcases Nat.lt_trichotomy q (2 * k - 1) with hlt | rfl | hgt
  · have hle : d * (q + 1) ≤ d * (2 * k - 1) := Nat.mul_le_mul_left d hlt
    rw [Nat.mul_succ] at hle
    split <;> constructor <;> intro h <;> omega
  · split <;> constructor <;> intro h <;> omega
  · have hle : d * (2 * k - 1 + 1) ≤ d * q := Nat.mul_le_mul_left d hgt
    rw [Nat.mul_succ] at hle
    split <;> constructor <;> intro h <;> omega

/-- The least integer that rounds to infinity: the middle between the greatest finite number
and the next. -/
def overflow : Nat := 2 ^ 1024 - 2 ^ 970

theorem pack_infinite_iff {b : Bool} {m : Nat} {e : Int} (hm : m ≤ 2 ^ 53) :
    (∃ negative, pack b m e = .infinite negative) ↔ 971 < e ∨ e = 971 ∧ 2 * 2 ^ 52 ≤ m := by
  rw [pack, Nat.pow_eq, Nat.pow_eq, bounded, bounded, greatestExponent]
  split
  · rename_i hfull
    by_cases he : 971 < e + 1
    · simp only [if_pos he]
      refine iff_of_true ⟨b, rfl⟩ ?_
      omega
    · simp only [if_neg he]
      refine iff_of_false (by rintro ⟨_, h⟩; cases h) ?_
      omega
  · rename_i hne
    by_cases he : 971 < e
    · simp only [if_pos he]
      exact iff_of_true ⟨b, rfl⟩ (.inl he)
    · simp only [if_neg he]
      refine iff_of_false (by rintro ⟨_, h⟩; cases h) ?_
      omega

theorem lt_unitFor_iff {n : Nat} (hn : 0 < n) {k : Nat} :
    (k : Int) < unitFor n 1 ↔ 2 ^ (53 + k) ≤ n := by
  have hv : (0 : ℚ) < (n : ℚ) / (1 : Nat) := value_pos hn Nat.one_pos
  rw [unitFor, exponentFor_eq hn Nat.one_pos, leastExponent, lt_max_iff]
  have hlog : (k : Int) < Int.log 2 ((n : ℚ) / (1 : Nat)) - 52 ↔
      ((53 + k : Nat) : Int) ≤ Int.log 2 ((n : ℚ) / (1 : Nat)) := by
    omega
  rw [or_iff_left (by omega), hlog, ← Int.zpow_le_iff_le_log Nat.one_lt_two hv, Nat.cast_one,
    div_one, zpow_natCast]
  exact_mod_cast Iff.rfl

theorem mantissaFor_whole {n k : Nat} (h : unitFor n 1 = k) :
    mantissaFor n 1 = roundDiv n (2 ^ k) := by
  rw [mantissaFor, h, scaled, if_pos (Int.natCast_nonneg k), one_mul, Int.toNat_natCast, Nat.pow_eq]

/-- Beyond every finite number, an integer is rounded to infinity. -/
theorem ofInt_infinite_iff (n : Nat) :
    (∃ negative, ofInt n = .infinite negative) ↔ overflow ≤ n := by
  obtain ⟨a, hapos, ha⟩ : ∃ a, 0 < a ∧ (2 : Nat) ^ 970 = a := by
    simp only [exists_eq_right', Nat.two_pow_pos]
  have hunit : (2 : Nat) ^ 971 = 2 * a := by rw [← ha, ← pow_succ']
  have hgreat : (2 : Nat) ^ 1024 = 2 ^ 54 * a := by rw [← ha, ← pow_add]
  have hover : overflow = 2 ^ 54 * a - a := by rw [overflow, hgreat, ha]
  rcases Nat.eq_zero_or_pos n with rfl | hn
  · refine iff_of_false ?_ (by rw [hover]; omega)
    rintro ⟨negative, h⟩
    rw [ofInt, Int.natAbs_natCast, ofRatio_zero] at h
    cases h
  · rw [ofInt, Int.natAbs_natCast, ofRatio_of_ne_zero _ hn.ne',
      pack_infinite_iff (mantissaFor_le hn Nat.one_pos)]
    have hlt : (971 : Int) < unitFor n 1 ↔ 2 ^ 54 * a ≤ n := by
      have hpow : (2 : Nat) ^ (53 + 971) = 2 ^ 54 * a := by rw [← ha, ← pow_add]
      rw [← hpow]
      exact lt_unitFor_iff hn (k := 971)
    have hle : (970 : Int) < unitFor n 1 ↔ 2 ^ 53 * a ≤ n := by
      have hpow : (2 : Nat) ^ (53 + 970) = 2 ^ 53 * a := by rw [← ha, ← pow_add]
      rw [← hpow]
      exact lt_unitFor_iff hn (k := 970)
    by_cases hbig : 2 ^ 54 * a ≤ n
    · exact iff_of_true (.inl (hlt.2 hbig)) (by rw [hover]; omega)
    by_cases hexp : unitFor n 1 = 971
    · rw [mantissaFor_whole hexp, hunit, le_roundDiv_iff (by omega) (by norm_num), hover]
      omega
    · have hsmall : ¬ 2 ^ 53 * a ≤ n := fun h => by
        have := hle.2 h
        have := mt hlt.1 hbig
        omega
      refine iff_of_false ?_ (by rw [hover]; omega)
      rintro (h | h)
      · exact hbig (hlt.1 h)
      · exact hexp h.1

end Binary64

namespace Numeral

/-! ### Decimals as the scanner finds them -/

open Lexeme (run take_run Digits)
open Text (isDecimalDigit isHexDigit)

/-- A point with digits behind it, and these digits; or neither. -/
inductive Pointed (p : Char → Bool) : List Char → List Char → Prop
  | none : Pointed p [] []
  | some {ds} : (∀ c ∈ ds, p c) → Pointed p ('.' :: ds) ds

/-- A power of ten, or nothing. -/
inductive Power (p : Char → Bool) : List Char → Prop
  | none : Power p []
  | some {e sign ds} : e = 'e' ∨ e = 'E' → sign = [] ∨ sign = ['+'] ∨ sign = ['-'] → ds ≠ [] →
      (∀ c ∈ ds, p c) → Power p (e :: (sign ++ ds))

inductive Decimal (p : Char → Bool) : List Char → Prop
  | mk {whole fraction ds power} : (∀ c ∈ whole, p c) → Pointed p fraction ds → whole ++ ds ≠ [] →
      Power p power →
      Decimal p (whole ++ (fraction ++ power))

theorem of_mem_take_run {p : Char → Bool} {cs : List Char} : ∀ c ∈ cs.take (run p cs), p c := by
  rw [take_run]
  exact List.all_eq_true.1 List.all_takeWhile

theorem take_run_ne_nil {p : Char → Bool} {cs : List Char} (h : run p cs ≠ 0) :
    cs.take (run p cs) ≠ [] := by
  rw [take_run]
  exact fun hnil => h (by rw [run, hnil]; rfl)

theorem significand_scanned {cs : List Char} (h : Lexeme.significandLength cs ≠ 0) :
    ∃ whole fraction ds, cs.take (Lexeme.significandLength cs) = whole ++ fraction ∧
      (∀ c ∈ whole, isDecimalDigit c) ∧ Pointed isDecimalDigit fraction ds ∧ whole ++ ds ≠ [] := by
  unfold Lexeme.significandLength at h ⊢
  simp only at h ⊢
  split at h
  · rename_i rest hdrop
    split at h
    · exact absurd rfl h
    · rename_i hsome
      simp only [if_neg hsome]
      refine ⟨cs.take (run isDecimalDigit cs), '.' :: rest.take (run isDecimalDigit rest), _, ?_,
        of_mem_take_run, .some of_mem_take_run, fun hnil => hsome ?_⟩
      · rw [Nat.add_assoc, List.take_add, hdrop, Nat.add_comm 1, List.take_succ_cons]
      · obtain ⟨hw, hf⟩ := List.append_eq_nil_iff.1 hnil
        exact ⟨Decidable.not_not.1 fun hne => take_run_ne_nil hne hw,
          Decidable.not_not.1 fun hne => take_run_ne_nil hne hf⟩
  · refine ⟨_, [], [], (List.append_nil _).symm, of_mem_take_run, .none, ?_⟩
    rw [List.append_nil]
    exact take_run_ne_nil h

theorem power_scanned (cs : List Char) :
    Power isDecimalDigit (cs.take (Lexeme.exponentLength cs)) := by
  rcases cs with - | ⟨e, - | ⟨s, cs⟩⟩
  · exact .none
  · have hzero : Lexeme.exponentLength [e] = 0 := by simp [Lexeme.exponentLength, run]
    rw [hzero]
    exact .none
  · simp only [Lexeme.exponentLength]
    split
    · rename_i he
      by_cases hs : s = '+' ∨ s = '-'
      · simp only [if_pos hs, List.drop_succ_cons, List.drop_zero]
        split
        · exact .none
        · rename_i hdigits
          rw [Nat.add_comm, ← Nat.add_assoc, List.take_succ_cons, List.take_succ_cons]
          have hsign : [s] = ['+'] ∨ [s] = ['-'] :=
            hs.imp (congrArg fun c => [c]) (congrArg fun c => [c])
          exact .some he (.inr hsign) (take_run_ne_nil hdigits) of_mem_take_run
      · simp only [if_neg hs, List.drop_zero, Nat.add_zero]
        split
        · exact .none
        · rename_i hdigits
          rw [Nat.add_comm, List.take_succ_cons]
          exact .some he (.inl rfl) (take_run_ne_nil hdigits) of_mem_take_run
    · exact .none

theorem decimal_scanned {cs : List Char} (h : Lexeme.decimalLength cs ≠ 0) :
    Decimal isDecimalDigit (cs.take (Lexeme.decimalLength cs)) := by
  simp only [Lexeme.decimalLength] at h ⊢
  split at h
  · exact absurd rfl h
  · rename_i hsig
    obtain ⟨whole, fraction, ds, htake, hw, hf, hne⟩ := significand_scanned hsig
    rw [if_neg hsig, List.take_add, htake, List.append_assoc]
    exact .mk hw hf hne (power_scanned _)

/-! ### Digits of every script as ASCII digits -/

theorem Decimal.plain {t : List Char} (h : Decimal isDecimalDigit t) :
    Decimal isAsciiDigit (t.map plainChar) := by
  have hall : ∀ {ds : List Char}, (∀ c ∈ ds, isDecimalDigit c) → ∀ c ∈ ds.map plainChar,
      isAsciiDigit c := by
    intro ds hds c hc
    obtain ⟨d, hd, rfl⟩ := List.mem_map.1 hc
    exact plainChar_digit (hds d hd)
  obtain ⟨hw, hf, hne, hp⟩ := h
  rename_i whole fraction ds power
  have hpower : Power isAsciiDigit (power.map plainChar) := by
    cases hp with
    | none => exact .none
    | @some e sign ds he hs hne hds =>
        have hsign : sign.map plainChar = sign := by rcases hs with rfl | rfl | rfl <;> rfl
        have hletter : plainChar e = e := by rcases he with rfl | rfl <;> rfl
        rw [List.map_cons, List.map_append, hsign, hletter]
        exact .some he hs (by simpa using hne) (hall hds)
  have hfraction : Pointed isAsciiDigit (fraction.map plainChar) (ds.map plainChar) := by
    cases hf with
    | none => exact .none
    | some hds => exact .some (hall hds)
  rw [List.map_append, List.map_append]
  refine .mk (hall hw) hfraction ?_ hpower
  rw [← List.map_append]
  simpa using hne

theorem Power.exponent? {power : List Char} (h : Power isAsciiDigit power) :
    (exponent? power).isSome := by
  cases h with
  | none => rfl
  | @some e sign ds he hs hne hds =>
      have hall : ds ≠ [] ∧ ds.all isAsciiDigit = true := ⟨hne, List.all_eq_true.2 hds⟩
      have hsplit : (splitSign (sign ++ ds)).2 = ds := by
        rcases hs with rfl | rfl | rfl
        · cases ds with
          | nil => exact absurd rfl hne
          | cons d ds =>
              have hd :=
                Lexeme.isWordChar_sign
                (Lexeme.isWordChar_of_isAsciiDigit (hds d (List.mem_cons_self ..)))
              rw [List.nil_append, splitSign_of_ne (fun h => hd (.inr h)) fun h => hd (.inl h)]
        · rfl
        · rfl
      simp only [Numeral.exponent?, if_pos he, hsplit, if_pos hall, Option.isSome_some]

theorem Power.head {power : List Char} (h : Power isAsciiDigit power) :
    ∀ c ∈ power.head?, isAsciiDigit c = false ∧ c ≠ '.' := by
  intro c hc
  cases h with
  | none => cases hc
  | some he =>
      cases hc
      rcases he with rfl | rfl <;> decide

theorem Pointed.fraction {fraction ds : List Char} (h : Pointed isAsciiDigit fraction ds) :
    Fraction fraction ds := by
  cases h with
  | none => exact .none
  | some hds => exact .some hds

theorem Decimal.unsigned? {t : List Char} (h : Decimal isAsciiDigit t) :
    (unsigned? false t).isSome := by
  obtain ⟨hw, hf, hne, hp⟩ := h
  rw [unsigned?_numeral hne hw hf.fraction hp.head, Option.isSome_map]
  exact hp.exponent?

theorem Decimal.literal {t : List Char} (h : Decimal isAsciiDigit t) : ∀ c ∈ t, Literal c := by
  have hmark : ∀ {c : Char}, c = '.' ∨ c = 'e' ∨ c = 'E' ∨ c = '+' ∨ c = '-' → Literal c := by
    rintro c (rfl | rfl | rfl | rfl | rfl) <;> exact ⟨by decide, by decide, by decide, by decide⟩
  obtain ⟨hw, hf, -, hp⟩ := h
  intro c hc
  rcases List.mem_append.1 hc with hc | hc
  · exact literal_digit (hw c hc)
  rcases List.mem_append.1 hc with hc | hc
  · cases hf with
    | none => cases hc
    | some hd =>
        rcases List.mem_cons.1 hc with rfl | hc
        · exact hmark (.inl rfl)
        · exact literal_digit (hd c hc)
  · cases hp with
    | none => cases hc
    | some he hs _ hd =>
        rcases List.mem_cons.1 hc with rfl | hc
        · exact hmark (.inr (he.imp id .inl))
        rcases List.mem_append.1 hc with hc | hc
        · rcases hs with rfl | rfl | rfl
          · cases hc
          · exact hmark (.inr (.inr (.inr (.inl (List.mem_singleton.1 hc)))))
          · exact hmark (.inr (.inr (.inr (.inr (List.mem_singleton.1 hc)))))
        · exact literal_digit (hd c hc)

theorem Decimal.head {t : List Char} (h : Decimal isAsciiDigit t) :
    ∃ c cs, t = c :: cs ∧ (isAsciiDigit c ∨ c = '.') := by
  obtain ⟨hw, hf, hne, -⟩ := h
  rename_i whole fraction ds power
  cases whole with
  | cons c whole => exact ⟨c, _, rfl, .inl (hw c (List.mem_cons_self ..))⟩
  | nil =>
      cases hf with
      | none => exact absurd rfl hne
      | some => exact ⟨_, _, rfl, .inr rfl⟩

/-- A decimal number token has a value. -/
theorem Decimal.read {t : List Char} (h : Decimal isDecimalDigit t) :
    ∃ x, read (String.ofList t) = .ok x := by
  have hplain := h.plain
  obtain ⟨c, cs, hcs, hc⟩ := hplain.head
  obtain ⟨x, hx⟩ := Option.isSome_iff_exists.1 hplain.unsigned?
  have hdecimal : readDecimal (String.ofList t) = .ok x := by
    rw [readDecimal, String.toList_ofList, trim_solid fun d hd => (hplain.literal d hd).solid,
      joinDigits_joined _ _ fun d hd => (hplain.literal d hd).joined, Option.bind_some, hcs,
      signed?_eq hc, ← hcs, hx]
  have hfree : ∀ d ∈ t, Literal (plainChar d) :=
    fun d hd => hplain.literal _ (List.mem_map_of_mem hd)
  rw [Numeral.read, String.toList_ofList]
  split
  · exact absurd rfl (hfree 'x' (by simp)).decimal.1
  · exact absurd rfl (hfree 'X' (by simp)).decimal.2
  · exact ⟨x, hdecimal⟩

/-! ### Hexadecimals -/

def hexValue (ds : List Char) : Nat := digitsValue 16 Text.hexDigit? ds

/-- The text of a hexadecimal number beyond every finite one. -/
def Oversized (text : String) : Prop :=
  ∃ x ds, text.toList = '0' :: x :: ds ∧ (x = 'x' ∨ x = 'X') ∧ Binary64.overflow ≤ hexValue ds

theorem literal_hexDigit {c : Char} (h : isHexDigit c) :
    c.toNat < 128 ∧ isSpace c = false ∧ c ≠ '_' := by
  have hword := Lexeme.isWordChar_of_isHexDigit h
  have hne : ∀ d : Char, isHexDigit d = false → c ≠ d := by
    rintro d hd rfl
    rw [h] at hd
    cases hd
  refine ⟨?_, ?_, hne _ (by decide)⟩
  · simp only [Lexeme.isWordChar, Bool.or_eq_true, Bool.and_eq_true, decide_eq_true_eq, Char.le_def,
      UInt32.le_iff_toNat_le] at hword
    change c.val.toNat < 128
    rcases hword with ((⟨-, hc⟩ | ⟨-, hc⟩) | ⟨-, hc⟩) | rfl
    · exact Nat.lt_of_le_of_lt hc (by decide)
    · exact Nat.lt_of_le_of_lt hc (by decide)
    · exact Nat.lt_of_le_of_lt hc (by decide)
    · decide
  · simp only [isSpace, Bool.or_eq_false_iff, decide_eq_false_iff_not]
    exact ⟨⟨⟨⟨⟨hne _ (by decide), hne _ (by decide)⟩, hne _ (by decide)⟩, hne _ (by decide)⟩,
      hne _ (by decide)⟩, hne _ (by decide)⟩

theorem read_hexadecimal {x : Char} {ds : List Char} (hx : x = 'x' ∨ x = 'X') (hne : ds ≠ [])
    (hds : ∀ c ∈ ds, isHexDigit c) : read (String.ofList ('0' :: x :: ds)) =
      if Binary64.overflow ≤ hexValue ds then .error .tooLarge
        else .ok (Binary64.ofInt (hexValue ds)) := by
  have hmark : x.toNat < 128 ∧ isSpace x = false := by rcases hx with rfl | rfl <;> decide
  have hascii : ∀ c ∈ '0' :: x :: ds, c.toNat < 128 :=
    List.forall_mem_cons.2 ⟨by decide,
      List.forall_mem_cons.2 ⟨hmark.1, fun c hc => (literal_hexDigit (hds c hc)).1⟩⟩
  have hsolid : ∀ c ∈ '0' :: x :: ds, isSpace c = false :=
    List.forall_mem_cons.2 ⟨by decide,
      List.forall_mem_cons.2 ⟨hmark.2, fun c hc => (literal_hexDigit (hds c hc)).2.1⟩⟩
  have hall : ds ≠ [] ∧ ds.all isHexDigit = true := ⟨hne, List.all_eq_true.2 hds⟩
  have hread : read (String.ofList ('0' :: x :: ds)) =
      readHexadecimal (String.ofList ('0' :: x :: ds)) := by
    rw [Numeral.read, String.toList_ofList]
    rcases hx with rfl | rfl <;> rfl
  rw [hread, readHexadecimal, String.toList_ofList, map_plainChar hascii, trim_solid hsolid,
    List.drop_succ_cons, List.drop_succ_cons, List.drop_zero, joinDigits_joined _ _ fun c hc =>
    (literal_hexDigit (hds c hc)).2.2]
  simp only [if_pos hall]
  have hinfinite := Binary64.ofInt_infinite_iff (hexValue ds)
  rw [← hexValue]
  split
  · rename_i negative he
    rw [if_pos (hinfinite.1 ⟨negative, he⟩)]
  · rename_i hfinite
    rw [if_neg fun h => ?_]
    obtain ⟨negative, he⟩ := hinfinite.2 h
    exact hfinite negative he

/-- What the scanner takes for a number reads as one, unless it is a hexadecimal beyond every
finite number. -/
theorem read_scanned {cs : List Char} (h : Lexeme.numberLength cs ≠ 0) :
    (∃ x, read (String.ofList (cs.take (Lexeme.numberLength cs))) = .ok x) ∨
      read (String.ofList (cs.take (Lexeme.numberLength cs))) = .error .tooLarge ∧
        Oversized (String.ofList (cs.take (Lexeme.numberLength cs))) := by
  by_cases hhex : Lexeme.hexLength cs = 0
  · rw [Lexeme.numberLength, if_pos hhex] at h ⊢
    exact .inl (decimal_scanned h).read
  · obtain ⟨x, ds, rfl, hx, hdigits⟩ := Lexeme.of_hexLength hhex
    rw [Lexeme.numberLength, if_neg hhex, Lexeme.hexLength_cons hx hdigits, List.take_succ_cons,
      List.take_succ_cons, read_hexadecimal hx (take_run_ne_nil hdigits) of_mem_take_run]
    split
    · rename_i hover
      exact .inr ⟨rfl, x, _, String.toList_ofList, hx, hover⟩
    · exact .inl ⟨_, rfl⟩

end Numeral

end Scad
