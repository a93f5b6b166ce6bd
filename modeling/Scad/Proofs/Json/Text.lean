import Mathlib.Tactic.IntervalCases
import Scad.Data.JsonReader

/-! A text between quotes is read back as it was: every escape stands for the character that it was
written for. -/
namespace Scad.Json

/-- The reader answers `a` and has `rest` ahead, at some offset. -/
def Stops {α : Type} (r : Except Fault (α × Input)) (a : α) (rest : List Char) : Prop :=
  ∃ o, r = .ok (a, ⟨rest, o⟩)

theorem Stops.bind {α β : Type} {r : Except Fault (α × Input)}
    {f : α × Input → Except Fault (β × Input)} {a : α} {b : β} {rest rest' : List Char}
    (hr : Stops r a rest) (hf : ∀ o, Stops (f (a, ⟨rest, o⟩)) b rest') :
    Stops (r >>= f) b rest' := by
  obtain ⟨o, rfl⟩ := hr
  exact hf o

theorem drop_one (c : Char) (cs : List Char) (o : Nat) :
    Input.drop ⟨c :: cs, o⟩ 1 = ⟨cs, o + 1⟩ := rfl

theorem drop_append (cs rest : List Char) (o : Nat) :
    Input.drop ⟨cs ++ rest, o⟩ cs.length = ⟨rest, o + cs.length⟩ := by
  rw [Input.drop, List.drop_left]

/-! ### Escapes -/

theorem hexDigit?_hexDigitChar {n : Nat} (h : n < 16) :
    Text.hexDigit? (Text.hexDigitChar n) = some n := by
  interval_cases n <;> decide

theorem hexDigits_four (n : Nat) : Text.hexDigits 4 n = [Text.hexDigitChar (n / 16 / 16 / 16 % 16),
    Text.hexDigitChar (n / 16 / 16 % 16), Text.hexDigitChar (n / 16 % 16),
      Text.hexDigitChar (n % 16)] := rfl

theorem fourDigits?_hexDigits {n : Nat} (h : n < 0x10000) :
    fourDigits? (Text.hexDigits 4 n) = some n := by
  have hdigit : ∀ k : Nat, Text.hexDigit? (Text.hexDigitChar (k % 16)) = some (k % 16) :=
    fun k => hexDigit?_hexDigitChar (Nat.mod_lt _ (by decide))
  simp only [hexDigits_four, fourDigits?, hdigit, bind, Option.bind, pure, Option.some.injEq]
  omega

theorem take_hexDigits (n : Nat) (rest : List Char) :
    (Text.hexDigits 4 n ++ rest).take 4 = Text.hexDigits 4 n ∧
    (Text.hexDigits 4 n ++ rest).drop 4 = rest :=
  ⟨rfl, rfl⟩

/-- A unit that is no half of a pair is read by itself. -/
theorem unicodeEscape_unit {n : Nat} (hn : n < 0x10000) (hpair : ¬ (0xD800 ≤ n ∧ n < 0xE000))
    {rest : List Char} (hrest : rest ≠ []) (o : Nat) :
    unicodeEscape ⟨Text.hexDigits 4 n ++ rest, o⟩ = .ok (Char.ofNat n, 4) := by
  have hhigh : ¬ (0xD800 ≤ n ∧ n < 0xDC00) := by omega
  simp only [unicodeEscape, (take_hexDigits n rest).1, (take_hexDigits n rest).2,
    List.isEmpty_eq_false_iff.2 hrest, fourDigits?_hexDigits hn, Bool.false_eq_true,
    if_false, if_neg hhigh, ofUnit, if_neg hpair]

theorem lowUnit?_escapeUnit {n : Nat} (hn : 0xDC00 ≤ n ∧ n < 0xE000) {rest : List Char}
    (hrest : rest ≠ []) (o : Nat) : lowUnit? ⟨escapeUnit n ++ rest, o⟩ = .ok (some n) := by
  show lowUnit? ⟨'\\' :: 'u' :: (Text.hexDigits 4 n ++ rest), o⟩ = _
  simp only [lowUnit?, (take_hexDigits n rest).1, (take_hexDigits n rest).2,
    List.isEmpty_eq_false_iff.2 hrest, fourDigits?_hexDigits (show n < 0x10000 by omega),
    Bool.false_eq_true, if_false, if_pos hn]

/-- The two halves of a pair are read as one character. -/
theorem unicodeEscape_pair {above : Nat} (h : above < 0x100000) {rest : List Char}
    (hrest : rest ≠ []) (o : Nat) :
    unicodeEscape ⟨Text.hexDigits 4 (0xD800 + above / 0x400) ++
      (escapeUnit (0xDC00 + above % 0x400) ++ rest), o⟩ =
        .ok (Char.ofNat (0x10000 + above), 10) := by
  have hhigh : 0xD800 ≤ 0xD800 + above / 0x400 ∧ 0xD800 + above / 0x400 < 0xDC00 := by omega
  have hne : escapeUnit (0xDC00 + above % 0x400) ++ rest ≠ [] := List.cons_ne_nil _ _
  have hvalue : 0x10000 + (0xD800 + above / 0x400 - 0xD800) * 0x400 +
    (0xDC00 + above % 0x400 - 0xDC00) =
      0x10000 + above := by omega
  have hlow := lowUnit?_escapeUnit (n := 0xDC00 + above % 0x400) (by omega) hrest (o + 4)
  simp only [unicodeEscape, (take_hexDigits _ _).1, (take_hexDigits _ _).2,
    List.isEmpty_eq_false_iff.2 hne, fourDigits?_hexDigits (show 0xD800 + above / 0x400 <
    0x10000 by omega), Bool.false_eq_true, if_false, if_pos hhigh, Input.drop, hlow, bind,
    Except.bind, hvalue, pure, Except.pure]

theorem readEscape_u (start : Nat) {cs : List Char} {o n : Nat} {c : Char}
    (h : unicodeEscape ⟨cs, o + 1⟩ = .ok (c, n)) :
    readEscape start ⟨'u' :: cs, o⟩ = .ok (c, n + 1) := by
  simp only [readEscape, drop_one, h, Except.map]

theorem readEscape_simple (start : Nat) {e c : Char} (h : simpleEscape? e = some c)
    (cs : List Char) (o : Nat) :
    readEscape start ⟨e :: cs, o⟩ = .ok (c, 1) := by
  have hne : e ≠ 'u' := by
    rintro rfl
    cases h
  simp only [readEscape, h]

/-! ### Strings -/

theorem stringBody_quote (start : Nat) (rest : List Char) (o : Nat) :
    stringBody start ⟨'"' :: rest, o⟩ = .ok ([], ⟨rest, o + 1⟩) := by
  rw [stringBody]
  rfl

theorem stringBody_escape (start : Nat) (escape : List Char) {rest : List Char} {c : Char}
    {cs behind : List Char}
    (hc : ∀ o, readEscape start ⟨escape ++ rest, o⟩ = .ok (c, escape.length))
    (hcs : ∀ o, Stops (stringBody start ⟨rest, o⟩) cs behind) (o : Nat) :
    Stops (stringBody start ⟨'\\' :: (escape ++ rest), o⟩) (c :: cs) behind := by
  have hdrop : Input.drop ⟨'\\' :: (escape ++ rest), o⟩ (escape.length + 1) =
      ⟨rest, o + (escape.length + 1)⟩ := by
    rw [Input.drop, List.drop_succ_cons, List.drop_left]
  rw [stringBody]
  simp only [drop_one, hc, bind, Except.bind, hdrop]
  obtain ⟨o', h⟩ := hcs (o + (escape.length + 1))
  rw [h]
  exact ⟨o', rfl⟩

theorem stringBody_plain (start : Nat) {c : Char} (hquote : c ≠ '"') (hescape : c ≠ '\\')
    (hcontrol : 0x1F < c.toNat) {rest cs behind : List Char}
    (hcs : ∀ o, Stops (stringBody start ⟨rest, o⟩) cs behind) (o : Nat) :
    Stops (stringBody start ⟨c :: rest, o⟩) (c :: cs) behind := by
  obtain ⟨o', h⟩ := hcs (o + 1)
  rw [stringBody]
  split
  · rename_i heq
    cases heq
  · rename_i heq
    cases heq
    exact absurd rfl hquote
  · rename_i heq
    cases heq
    exact absurd rfl hescape
  · rename_i heq
    cases heq
    rw [if_neg (by omega), drop_one, h]
    exact ⟨o', rfl⟩

/-- What a character is written as. -/
inductive Escaped (c : Char) : List Char → Prop
  | simple {e} : simpleEscape? e = some c → Escaped c ['\\', e]
  | plain : c ≠ '"' → c ≠ '\\' → 0x1F < c.toNat → Escaped c [c]
  | unit : c.toNat < 0x10000 → Escaped c (escapeUnit c.toNat)
  | pair {above} : c.toNat = 0x10000 + above →
      Escaped c (escapeUnit (0xD800 + above / 0x400) ++ escapeUnit (0xDC00 + above % 0x400))

theorem escaped_escapeChar (c : Char) : Escaped c (escapeChar c) := by
  rw [escapeChar]
  split
  · rename_i h
    subst h
    exact .simple rfl
  rename_i hquote
  split
  · rename_i h
    subst h
    exact .simple rfl
  rename_i hescape
  split
  · rename_i h
    subst h
    exact .simple rfl
  split
  · rename_i h
    subst h
    exact .simple rfl
  split
  · rename_i h
    subst h
    exact .simple rfl
  split
  · rename_i h
    subst h
    exact .simple rfl
  split
  · rename_i h
    subst h
    exact .simple rfl
  split
  · rename_i hplain
    have hcontrol : 0x20 ≤ c.toNat := hplain.1
    exact .plain hquote hescape hcontrol
  dsimp only
  split
  · rename_i hunit
    exact .unit hunit
  · exact .pair (by omega)

/-- The code points of characters: the halves of pairs are left out. -/
theorem toNat_cases (c : Char) : c.toNat < 0xD800 ∨ 0xDFFF < c.toNat ∧ c.toNat < 0x110000 := c.valid

/-- A character is read back from what is written for it. -/
theorem stringBody_escaped (start : Nat) {c : Char} {t : List Char} (h : Escaped c t)
    {rest cs behind : List Char} (hrest : rest ≠ [])
    (hcs : ∀ o, Stops (stringBody start ⟨rest, o⟩) cs behind) (o : Nat) :
    Stops (stringBody start ⟨t ++ rest, o⟩) (c :: cs) behind := by
  have hvalid := toNat_cases c
  cases h with
  | @simple e he =>
      exact stringBody_escape start [e] (fun o => readEscape_simple start he rest o) hcs o
  | plain hquote hescape hcontrol => exact stringBody_plain start hquote hescape hcontrol hcs o
  | unit hunit =>
      refine stringBody_escape start ('u' :: Text.hexDigits 4 c.toNat) (fun o => ?_) hcs o
      have hread := unicodeEscape_unit hunit (by omega) hrest (o + 1)
      rw [Char.ofNat_toNat] at hread
      exact readEscape_u start hread
  | @pair above habove =>
      refine stringBody_escape start ('u' :: (Text.hexDigits 4 (0xD800 + above / 0x400) ++
        escapeUnit (0xDC00 + above % 0x400))) (fun o => ?_) hcs o
      have hread := unicodeEscape_pair (show above < 0x100000 by omega) hrest (o + 1)
      rw [← habove, Char.ofNat_toNat, ← List.append_assoc] at hread
      exact readEscape_u start hread

theorem stringBody_flatMap (start : Nat) (cs rest : List Char) (o : Nat) :
    Stops (stringBody start ⟨cs.flatMap escapeChar ++ '"' :: rest, o⟩) cs rest := by
  induction cs generalizing o with
  | nil => exact ⟨o + 1, stringBody_quote start rest o⟩
  | cons c cs ih =>
      have hne : cs.flatMap escapeChar ++ '"' :: rest ≠ [] := by simp
      rw [List.flatMap_cons, List.append_assoc]
      exact stringBody_escaped start (escaped_escapeChar c) hne ih o

theorem toList_writeText (s : String) :
    (writeText s).toList = '"' :: (s.toList.flatMap escapeChar ++ ['"']) := by
  rw [writeText, String.toList_ofList]
  rfl

/-- A text is read back from behind its opening quote. -/
theorem readString_writeText (s : String) (rest : List Char) (o : Nat) :
    Stops (readString ⟨s.toList.flatMap escapeChar ++ '"' :: rest, o⟩) s rest := by
  rw [readString]
  refine (stringBody_flatMap _ s.toList rest o).bind fun o' => ⟨o', ?_⟩
  dsimp only
  rw [String.ofList_toList]
  rfl

end Scad.Json
