import Scad.Proofs.Json.Number
import Scad.Proofs.Json.Text
import Scad.Proofs.Tree.Archive

/-! Data is read back from its text, in every layout: what is nested is read back between its
brackets, whatever stands behind the closing one. -/
namespace Scad.Json

open Numeral (isAsciiDigit)
open Restore (keyed)

/-- How a value may begin: with nothing that a reader skips or takes for an end. -/
structure IsOpening (c : Char) : Prop where
  solid : Input.isBlank c = false
  item : c ≠ ']'
  member : c ≠ '\x7d'
  text : c ≠ '\uFEFF'

instance (c : Char) : Decidable (IsOpening c) :=
  decidable_of_iff (Input.isBlank c = false ∧ c ≠ ']' ∧ c ≠ '\x7d' ∧ c ≠ '\uFEFF')
    ⟨fun ⟨h, hi, hm, ht⟩ => ⟨h, hi, hm, ht⟩, fun ⟨h, hi, hm, ht⟩ => ⟨h, hi, hm, ht⟩⟩

/-- A text that a reader takes for `a` in front of everything that does not go on with a number. As
much fuel as there are characters is enough. -/
structure ReadsBy {α : Type} (reader : Nat → Input → Except Fault (α × Input))
    (t : List Char) (a : α) :
    Prop where
  opens : ∃ c cs, t = c :: cs ∧ IsOpening c
  stops : ∀ {rest}, Ends rest → ∀ {fuel}, t.length ≤ fuel → ∀ o,
    Stops (reader fuel ⟨t ++ rest, o⟩) a rest

section

variable {α : Type} {reader : Nat → Input → Except Fault (α × Input)} {t : List Char} {a : α}

/-- A text that is not empty leaves fuel for what stands behind its first character. -/
theorem ReadsBy.of_succ {c : Char} {cs : List Char} (ht : t = c :: cs) (hopen : IsOpening c)
    (h : ∀ {rest}, Ends rest → ∀ {fuel}, cs.length ≤ fuel → ∀ o,
      Stops (reader (fuel + 1) ⟨t ++ rest, o⟩) a rest) :
    ReadsBy reader t a := by
  refine ⟨⟨c, cs, ht, hopen⟩, fun {rest} hrest fuel hfuel o => ?_⟩
  rw [ht, List.length_cons] at hfuel
  obtain ⟨fuel, rfl⟩ : ∃ k, fuel = k + 1 := ⟨fuel - 1, by omega⟩
  exact h hrest (Nat.le_of_succ_le_succ hfuel) o

theorem ReadsBy.solid (h : ReadsBy reader t a) (rest : List Char) :
    ∀ c ∈ (t ++ rest).head?, Input.isBlank c = false := by
  obtain ⟨c, cs, rfl, hc⟩ := h.opens
  rintro _ ⟨⟩
  exact hc.solid

theorem ReadsBy.length_pos (h : ReadsBy reader t a) : 0 < t.length := by
  obtain ⟨c, cs, rfl, -⟩ := h.opens
  exact Nat.succ_pos _

end

def Reads (t : List Char) (d : Data) : Prop := ReadsBy readValue t d

/-! ### Words and numbers -/

/-- What a list, a record and a text do not begin with. -/
def IsBare (cs : List Char) : Prop := ∀ c ∈ cs.head?, c ≠ '"' ∧ c ≠ '\x7b' ∧ c ≠ '['

theorem readValue_bare {cs : List Char} (h : IsBare cs) (fuel o : Nat) :
    readValue (fuel + 1) ⟨cs, o⟩ = match word? cs, number? cs with
    | some (d, n), _ => .ok (d, Input.drop ⟨cs, o⟩ n)
    | none, some (.ok d, n) => .ok (d, Input.drop ⟨cs, o⟩ n)
    | none, some (.error c, _) => Input.fault ⟨cs, o⟩ c
    | none, none => Input.fault ⟨cs, o⟩ .expectedValue := by
  rw [readValue]
  split
  · rename_i heq
    subst heq
    exact absurd rfl (h '"' rfl).1
  · rename_i heq
    subst heq
    exact absurd rfl (h '\x7b' rfl).2.1
  · rename_i heq
    subst heq
    exact absurd rfl (h '[' rfl).2.2
  · rfl

/-- A word is read whatever stands behind it. -/
theorem reads_word {c : Char} {cs : List Char} {d : Data} (hopen : IsOpening c)
    (hbare : c ≠ '"' ∧ c ≠ '\x7b' ∧ c ≠ '[')
    (hword : ∀ rest, word? (c :: cs ++ rest) = some (d, (c :: cs).length)) : Reads (c :: cs) d := by
  refine .of_succ rfl hopen fun {rest} _ fuel _ o => ?_
  have hplain : IsBare (c :: cs ++ rest) := by
    rintro _ ⟨⟩
    exact hbare
  rw [readValue_bare hplain, hword rest]
  exact ⟨_, congrArg (fun i => Except.ok (d, i)) (drop_append _ _ _)⟩

theorem word?_digit {c : Char} (hc : isAsciiDigit c) (cs : List Char) (negative : Bool) :
    word? (sign negative ++ c :: cs) = none := by
  have hne : ∀ d : Char, isAsciiDigit d = false → ¬ d = c := fun d hd => (ne_of_digit hc hd).symm
  cases negative with
  | false => simp (disch := decide) [sign, word?, List.findSome?, List.isPrefixOf, hne]
  | true => simp (disch := decide) [sign, word?, List.findSome?, List.isPrefixOf, hne]

theorem isOpening_digit {c : Char} (hc : isAsciiDigit c) : IsOpening c := by
  have hne : ∀ d : Char, isAsciiDigit d = false → c ≠ d := fun d hd => ne_of_digit hc hd
  refine ⟨?_, hne _ (by decide), hne _ (by decide), hne _ (by decide)⟩
  simp (disch := decide) [Input.isBlank, hne]

theorem reads_number {t : List Char} {d : Data} {negative : Bool} {c : Char} {cs : List Char}
    (ht : t = sign negative ++ c :: cs) (hc : isAsciiDigit c)
    (hnumber : ∀ {rest}, Ends rest → number? (t ++ rest) = some (.ok d, t.length)) : Reads t d := by
  have hne : ∀ d : Char, isAsciiDigit d = false → c ≠ d := fun d hd => ne_of_digit hc hd
  have hopens : ∃ b bs, t = b :: bs ∧ IsOpening b ∧ b ≠ '"' ∧ b ≠ '\x7b' ∧ b ≠ '[' := by
    cases negative with
    | false =>
        exact ⟨c, cs, ht, isOpening_digit hc, hne _ (by decide), hne _ (by decide),
        hne _ (by decide)⟩
    | true => exact ⟨'-', c :: cs, ht, by decide, by decide, by decide, by decide⟩
  obtain ⟨b, bs, hb, hopen, hbare⟩ := hopens
  refine .of_succ hb hopen fun {rest} hrest fuel _ o => ?_
  have hword : word? (t ++ rest) = none := by
    rw [ht, List.append_assoc]
    exact word?_digit hc (cs ++ rest) negative
  have hplain : IsBare (t ++ rest) := by
    rw [hb]
    rintro _ ⟨⟩
    exact hbare
  rw [readValue_bare hplain, hword, hnumber hrest]
  exact ⟨_, congrArg (fun i => Except.ok (d, i)) (drop_append _ _ _)⟩

theorem reads_null : Reads "null".toList .null :=
  reads_word (by decide) (by decide) fun _ => rfl

theorem reads_bool (b : Bool) : Reads (writeScalar (.bool b)).toList (.bool b) := by
  cases b with
  | false => exact reads_word (c := 'f') (by decide) (by decide) fun _ => rfl
  | true => exact reads_word (c := 't') (by decide) (by decide) fun _ => rfl

theorem reads_int {n : Int} (hn : hasText n) : Reads (toString n).toList (.int n) := by
  obtain ⟨c, cs, hcs, hc⟩ := (isWhole_toDigits n.natAbs).head
  exact reads_number ((toList_toString_int n).trans (congrArg _ hcs)) hc (number?_toString hn)

/-- A number that the format can tell: a finite one, an infinity, or the nan that its word stands
for. No other nan is like that one. -/
inductive IsTold : Binary64 → Prop
  | finite {negative m e} : Binary64.Canonical m e → IsTold (.finite negative m e)
  | infinite {negative} : IsTold (.infinite negative)
  | nan : IsTold (.nan false)

theorem reads_real {x : Binary64} (hx : IsTold x) : Reads (x.write realStyle).toList (.real x) := by
  cases hx with
  | @finite negative m e h =>
      obtain ⟨t, ht, hreal, -⟩ := write_finite negative h
      obtain ⟨c, cs, hcs, hc⟩ := hreal.isNumeral.head
      exact reads_number (ht.trans (congrArg _ hcs)) hc (number?_write negative h)
  | @infinite negative =>
      cases negative with
      | false => exact reads_word (c := 'I') (by decide) (by decide) fun _ => rfl
      | true => exact reads_word (c := '-') (by decide) (by decide) fun _ => rfl
  | nan => exact reads_word (c := 'N') (by decide) (by decide) fun _ => rfl

theorem reads_text (s : String) : Reads (writeText s).toList (.text s) := by
  rw [toList_writeText]
  refine .of_succ rfl (by decide) fun {rest} _ fuel _ o => ?_
  rw [List.cons_append, List.append_assoc, readValue]
  exact (readString_writeText s rest (o + 1)).bind fun o' => ⟨o', rfl⟩

/-! ### Between brackets -/

def IsBlank (cs : List Char) : Prop := ∀ c ∈ cs, Input.isBlank c

theorem skipBlanks_append {blanks rest : List Char} (hb : IsBlank blanks)
    (hrest : ∀ c ∈ rest.head?, Input.isBlank c = false) (o : Nat) :
    Input.skipBlanks ⟨blanks ++ rest, o⟩ = ⟨rest, o + blanks.length⟩ := by
  rw [Input.skipBlanks, List.takeWhile_append_of_pos hb, Lexeme.Stops.takeWhile hrest,
    List.append_nil, drop_append]

theorem skipBlanks_solid {cs : List Char} (h : ∀ c ∈ cs.head?, Input.isBlank c = false) (o : Nat) :
    Input.skipBlanks ⟨cs, o⟩ = ⟨cs, o⟩ :=
  skipBlanks_append (fun _ hc => absurd hc List.not_mem_nil) h o

structure IsClosing (c : Char) : Prop where
  solid : Input.isBlank c = false
  comma : c ≠ ','
  ends : isAsciiDigit c = false ∧ c ≠ '.' ∧ c ≠ 'e' ∧ c ≠ 'E'
  opens : ∀ {d}, IsOpening d → d ≠ c

theorem isClosing_bracket : IsClosing ']' := ⟨by decide, by decide, by decide, IsOpening.item⟩

theorem isClosing_brace : IsClosing '\x7d' := ⟨by decide, by decide, by decide, IsOpening.member⟩

theorem separator_close {close : Char} (hclose : IsClosing close) {trail : List Char}
    (htrail : IsBlank trail) (rest : List Char) (o : Nat) :
    Stops (separator close ⟨trail ++ close :: rest, o⟩) false rest := by
  have hsolid : ∀ c ∈ (close :: rest).head?, Input.isBlank c = false := by
    rintro _ ⟨⟩
    exact hclose.solid
  rw [separator, skipBlanks_append htrail hsolid]
  simp only [if_true]
  exact ⟨_, rfl⟩

theorem separator_comma {close : Char} (hclose : IsClosing close) {gap : List Char}
    (hgap : IsBlank gap) {rest : List Char} (hrest : ∀ c ∈ rest.head?, Input.isBlank c = false)
    (o : Nat) :
    Stops (separator close ⟨',' :: (gap ++ rest), o⟩) true rest := by
  have hsolid : ∀ c ∈ (',' :: (gap ++ rest)).head?, Input.isBlank c = false := by
    rintro _ ⟨⟩
    decide
  rw [separator, skipBlanks_solid hsolid]
  simp only [if_neg hclose.comma.symm, if_true, drop_one, skipBlanks_append hgap hrest]
  exact ⟨_, rfl⟩

theorem ends_cons {c : Char} (hc : isAsciiDigit c = false ∧ c ≠ '.' ∧ c ≠ 'e' ∧ c ≠ 'E')
    (rest : List Char) :
    Ends (c :: rest) := by
  rintro _ ⟨⟩
  exact hc

/-- Behind an item there is a comma or the end: either way no number goes on. -/
theorem ends_behind {blanks : List Char} (hb : IsBlank blanks) {c : Char}
    (hc : isAsciiDigit c = false ∧ c ≠ '.' ∧ c ≠ 'e' ∧ c ≠ 'E') (rest : List Char) :
    Ends (blanks ++ c :: rest) := by
  cases blanks with
  | nil => exact ends_cons hc rest
  | cons b bs =>
      refine ends_cons ?_ (bs ++ c :: rest)
      have hblank := hb b (List.mem_cons_self ..)
      simp only [Input.isBlank, Bool.or_eq_true, decide_eq_true_eq] at hblank
      rcases hblank with ((rfl | rfl) | rfl) | rfl <;> decide

def joined (gap : List Char) (items : List (List Char)) : List Char :=
  (',' :: gap).intercalate items

theorem joined_cons (gap a b : List Char) (rest : List (List Char)) :
    joined gap (a :: b :: rest) = a ++ ',' :: (gap ++ joined gap (b :: rest)) := by
  rw [joined, List.intercalate_cons_cons, List.append_assoc]
  rfl

theorem joined_singleton (gap a : List Char) : joined gap [a] = a := by
  rw [joined, List.intercalate_singleton]

theorem joined_head (gap a : List Char) (items : List (List Char)) :
    ∃ behind, joined gap (a :: items) = a ++ behind := by
  cases items with
  | nil => exact ⟨[], by rw [joined_singleton, List.append_nil]⟩
  | cons b items => exact ⟨_, joined_cons gap a b items⟩

/-- How all items are read when each is read by `one`: up to what closes them, with
commas between. -/
def ReadsAll {α : Type} (one : Nat → Input → Except Fault (α × Input))
    (all : Nat → Input → Except Fault (List α × Input)) (close : Char) : Prop :=
  ∀ fuel i, all (fuel + 1) i = one fuel i >>= fun (a, i) => separator close i >>= fun (more, i) =>
    if more then all fuel i >>= fun (rest, i) => pure (a :: rest, i) else pure ([a], i)

theorem readsAll_items : ReadsAll readValue readItems ']' := by
  intro fuel i
  rw [readItems]

def readMember (fuel : Nat) (i : Input) : Except Fault ((Scalar × Data) × Input) := do
  if i.ahead.head? ≠ some '"' then i.fault .expectedKey
  let (key, i) ← readString (i.drop 1)
  let i := i.skipBlanks
  if i.ahead.head? ≠ some ':' then i.fault .expectedColon
  let (d, i) ← readValue fuel (i.drop 1).skipBlanks
  return ((.text key, d), i)

theorem readsAll_members : ReadsAll readMember readMembers '\x7d' := by
  intro fuel i
  rw [readMembers, readMember]
  split
  · rfl
  · simp only [bind_assoc]
    refine bind_congr fun (key, i) => ?_
    dsimp only
    split
    · rfl
    · simp only [bind_assoc, pure_bind]

/-- Items that are read each are read all in their text. -/
theorem reads_joined {α : Type} {one : Nat → Input → Except Fault (α × Input)}
    {all : Nat → Input → Except Fault (List α × Input)} {close : Char}
    (hall : ReadsAll one all close) (hclose : IsClosing close) {gap trail : List Char}
    (hgap : IsBlank gap) (htrail : IsBlank trail) {text : α → List Char} {items : List α}
    (hne : items ≠ []) (h : ∀ a ∈ items, ReadsBy one (text a) a) (rest : List Char) {fuel : Nat}
    (hfuel : (joined gap (items.map text)).length < fuel) (o : Nat) :
    Stops (all fuel ⟨joined gap (items.map text) ++ (trail ++ close :: rest), o⟩) items rest := by
  -- Every item costs one unit of fuel; its text has at least one character, and so has the comma
  -- behind it.
  induction items generalizing fuel o with
  | nil => exact absurd rfl hne
  | cons a items ih =>
      obtain ⟨fuel, rfl⟩ : ∃ k, fuel = k + 1 := ⟨fuel - 1, by omega⟩
      have ha := h a (List.mem_cons_self ..)
      have hpos := ha.length_pos
      cases items with
      | nil =>
          rw [List.map_cons, List.map_nil, joined_singleton] at hfuel ⊢
          rw [hall fuel]
          refine (ha.stops (ends_behind htrail hclose.ends rest) (by omega) o).bind fun o => ?_
          exact (separator_close hclose htrail rest o).bind fun o => ⟨o, rfl⟩
      | cons b items =>
          have hb := h b (List.mem_cons_of_mem _ (List.mem_cons_self ..))
          rw [List.map_cons, List.map_cons, joined_cons, ← List.map_cons] at hfuel ⊢
          rw [List.length_append, List.length_cons, List.length_append] at hfuel
          have hread :=
            fun o => ih (List.cons_ne_nil b items) (fun c hc => h c (List.mem_cons_of_mem _ hc))
            (show _ < fuel by omega) o
          have hsolid :
            ∀ c ∈ (joined gap ((b :: items).map text) ++ (trail ++ close :: rest)).head?,
              Input.isBlank c = false := by
            obtain ⟨behind, hbehind⟩ := joined_head gap (text b) (items.map text)
            rw [List.map_cons, hbehind, List.append_assoc]
            exact hb.solid _
          have hcomma :
              Ends (',' ::
              (gap ++ (joined gap ((b :: items).map text) ++ (trail ++ close :: rest)))) :=
            ends_cons (by decide) _
          rw [List.append_assoc, List.cons_append, List.append_assoc, hall fuel]
          refine (ha.stops hcomma (by omega) o).bind fun o => ?_
          refine (separator_comma hclose hgap hsolid o).bind fun o => ?_
          exact (hread o).bind fun o => ⟨o, rfl⟩

def memberText (text : Data → List Char) (m : Scalar × Data) : List Char :=
  (writeKey m.1).toList ++ ':' :: ' ' :: text m.2

theorem reads_member (text : Data → List Char) {key : String} {d : Data} (h : Reads (text d) d) :
    ReadsBy readMember (memberText text (.text key, d)) (.text key, d) := by
  have hkey : (writeKey (.text key)).toList = '"' :: (key.toList.flatMap escapeChar ++ ['"']) :=
    toList_writeText key
  rw [memberText, hkey]
  refine ⟨⟨'"', _, rfl, by decide⟩, fun {rest} hrest fuel hfuel o => ?_⟩
  have hlength : (text d).length ≤ fuel := by
    simp only [List.length_append, List.length_cons] at hfuel
    omega
  have htext : '"' :: (key.toList.flatMap escapeChar ++ ['"']) ++ ':' :: ' ' :: text d ++ rest =
      '"' :: (key.toList.flatMap escapeChar ++ '"' :: ':' :: ' ' :: (text d ++ rest)) := by
    simp only [List.append_assoc, List.cons_append, List.nil_append]
  have hcolon : ∀ c ∈ (':' :: ' ' :: (text d ++ rest)).head?, Input.isBlank c = false := by
    rintro _ ⟨⟩
    decide
  have hblank : IsBlank [' '] := by simp [IsBlank, Input.isBlank]
  rw [htext, readMember]
  refine (readString_writeText key (':' :: ' ' :: (text d ++ rest)) (o + 1)).bind fun o' => ?_
  have hvalue := skipBlanks_append hblank (h.solid rest) (o' + 1)
  rw [List.singleton_append] at hvalue
  dsimp only
  rw [skipBlanks_solid hcolon, if_neg (fun hne => hne rfl), drop_one, hvalue]
  exact (h.stops hrest hlength _).bind fun o => ⟨o, rfl⟩

/-! ### Layouts -/

theorem isBlank_lineStart (indent : Option Nat) (depth : Nat) :
    IsBlank (lineStart indent depth).toList := by
  cases indent with
  | none => exact fun c hc => absurd hc List.not_mem_nil
  | some width =>
      rw [lineStart, String.toList_ofList]
      intro c hc
      rcases List.mem_cons.1 hc with rfl | hc
      · decide
      · rw [List.eq_of_mem_replicate hc]
        decide

def space (indent : Option Nat) : List Char := if indent.isNone then [' '] else []

theorem isBlank_append {a b : List Char} (ha : IsBlank a) (hb : IsBlank b) : IsBlank (a ++ b) := by
  intro c hc
  rcases List.mem_append.1 hc with hc | hc
  · exact ha c hc
  · exact hb c hc

theorem isBlank_space (indent : Option Nat) : IsBlank (space indent) := by
  cases indent <;> simp [space, IsBlank, Input.isBlank]

/-- Items between brackets: blanks before the first, behind each comma and behind the last. -/
theorem toList_enclose (indent : Option Nat) (depth : Nat) (left right : String)
    {items : List String} (hne : items ≠ []) : (enclose indent depth left right items).toList =
      left.toList ++ ((lineStart indent (depth + 1)).toList ++
        (joined (space indent ++ (lineStart indent (depth + 1)).toList) (items.map String.toList) ++
          ((lineStart indent depth).toList ++ right.toList))) := by
  have hcomma : (if indent.isNone then ", " else ",").toList = ',' :: space indent := by
    cases indent <;> simp [space]
  cases items with
  | nil => exact absurd rfl hne
  | cons a items =>
      simp only [enclose, String.toList_append, String.toList_intercalate, joined, hcomma,
        List.append_assoc, List.cons_append]

theorem writeItems_eq (indent : Option Nat) (items : List Data) (depth : Nat) :
    writeItems indent items depth = items.map fun d => writeAt indent d depth := by
  induction items with
  | nil => rw [writeItems, List.map_nil]
  | cons d items ih => rw [writeItems, ih, List.map_cons]

theorem writeFields_eq (indent : Option Nat) (fields : List (Scalar × Data)) (depth : Nat) :
    writeFields indent fields depth = fields.map fun m => writeKey m.1 ++ ": " ++
      writeAt indent m.2 depth := by
  induction fields with
  | nil => rw [writeFields, List.map_nil]
  | cons m fields ih => rw [writeFields, ih, List.map_cons]

/-- Items between brackets are read back if each item is. -/
theorem reads_enclose {α : Type} {one : Nat → Input → Except Fault (α × Input)}
    {all : Nat → Input → Except Fault (List α × Input)} {build : List α → Data} (left right : Char)
    (hvalue : ∀ fuel cs o, readValue (fuel + 1) ⟨left :: cs, o⟩ =
      if (Input.skipBlanks ⟨cs, o + 1⟩).ahead.head? = some right then
        .ok (build [], (Input.skipBlanks ⟨cs, o + 1⟩).drop 1)
      else all fuel (Input.skipBlanks ⟨cs, o + 1⟩) >>= fun (items, i) => pure (build items, i))
    (hall : ReadsAll one all right)
    (hopen : IsOpening left) (hclose : IsClosing right) (indent : Option Nat) (depth : Nat)
    {text : α → String} {items : List α} (h : ∀ a ∈ items, ReadsBy one (text a).toList a) :
    Reads (enclose indent depth (String.ofList [left]) (String.ofList [right])
      (items.map text)).toList (build items) := by
  cases items with
  | nil =>
      have hempty : (enclose indent depth (String.ofList [left]) (String.ofList [right])
        ([].map text)).toList =
          [left, right] := by
        rw [List.map_nil, enclose, String.toList_append, String.toList_ofList, String.toList_ofList]
        rfl
      have hsolid : ∀ rest : List Char, ∀ c ∈ (right :: rest).head?, Input.isBlank c = false := by
        rintro rest _ ⟨⟩
        exact hclose.solid
      rw [hempty]
      refine .of_succ rfl hopen fun {rest} _ fuel _ o => ?_
      rw [List.cons_append, List.cons_append, hvalue, skipBlanks_solid (hsolid _)]
      simp only [List.head?_cons, if_true]
      exact ⟨_, rfl⟩
  | cons a items =>
      have hlead := isBlank_lineStart indent (depth + 1)
      have htrail := isBlank_lineStart indent depth
      have hgap := isBlank_append (isBlank_space indent) hlead
      have hne : (a :: items).map text ≠ [] := List.cons_ne_nil _ _
      rw [toList_enclose indent depth _ _ hne, List.map_map, String.toList_ofList,
        String.toList_ofList, List.singleton_append]
      generalize space indent ++ (lineStart indent (depth + 1)).toList = gap at hgap ⊢
      generalize (lineStart indent (depth + 1)).toList = lead at hlead ⊢
      generalize (lineStart indent depth).toList = trail at htrail ⊢
      refine .of_succ rfl hopen fun {rest} _ fuel hfuel o => ?_
      have hhead : ∀ c ∈ (joined gap ((a :: items).map (String.toList ∘ text)) ++
        (trail ++ right :: rest)).head?,
          Input.isBlank c = false ∧ c ≠ right := by
        obtain ⟨behind, hbehind⟩ :=
          joined_head gap (text a).toList (items.map (String.toList ∘ text))
        obtain ⟨c, cs, hc, hopens⟩ := (h a (List.mem_cons_self ..)).opens
        rw [List.map_cons, Function.comp_apply, hbehind, hc]
        rintro _ ⟨⟩
        exact ⟨hopens.solid, hclose.opens hopens⟩
      have hopened : (joined gap ((a :: items).map (String.toList ∘ text)) ++
        (trail ++ right :: rest)).head? ≠
          some right := fun hc => (hhead right hc).2 rfl
      simp only [List.append_assoc, List.cons_append, List.nil_append]
      rw [hvalue, skipBlanks_append hlead fun c hc => (hhead c hc).1, if_neg hopened]
      have hjoined : (joined gap ((a :: items).map (String.toList ∘ text))).length < fuel := by
        simp only [List.length_append, List.length_cons] at hfuel
        omega
      exact (reads_joined hall hclose hgap htrail (List.cons_ne_nil a items) h rest hjoined _).bind
        fun o => ⟨o, rfl⟩

theorem reads_list (indent : Option Nat) (depth : Nat) {items : List Data}
    (h : ∀ d ∈ items, Reads (writeAt indent d (depth + 1)).toList d) :
    Reads (writeAt indent (.list items) depth).toList (.list items) := by
  rw [writeAt, writeItems_eq]
  refine reads_enclose '[' ']' (fun fuel cs o => ?_) readsAll_items (by decide)
    isClosing_bracket indent depth h
  rw [readValue]
  rfl

theorem reads_record (indent : Option Nat) (depth : Nat) {fields : List (String × Data)}
    (h : ∀ m ∈ fields, Reads (writeAt indent m.2 (depth + 1)).toList m.2) :
    Reads (writeAt indent (.named fields) depth).toList (.ofFields (keyed fields)) := by
  have hmember : ∀ m ∈ keyed fields,
      ReadsBy readMember (writeKey m.1 ++ ": " ++ writeAt indent m.2 (depth + 1)).toList m := by
    intro m hm
    obtain ⟨⟨key, d⟩, hd, rfl⟩ := List.mem_map.1 hm
    have htext : (writeKey (.text key) ++ ": " ++ writeAt indent d (depth + 1)).toList =
        memberText (fun d => (writeAt indent d (depth + 1)).toList) (.text key, d) := by
      simp only [String.toList_append, List.append_assoc]
      rfl
    exact htext ▸ reads_member (fun d => (writeAt indent d (depth + 1)).toList) (h _ hd)
  show Reads (writeAt indent (.record (keyed fields)) depth).toList _
  rw [writeAt, writeFields_eq]
  refine reads_enclose '\x7b' '\x7d' (fun fuel cs o => ?_) readsAll_members
    (by decide) isClosing_brace indent depth hmember
  rw [readValue]
  rfl

/-! ### Fields -/

theorem same_text (a b : String) : (Scalar.text a).same (.text b) = decide (a = b) := by
  simp [Scalar.same, Scalar.number?]

theorem setField_new {key : String} {d : Data} {fields : List (String × Data)}
    (h : key ∉ fields.map (·.1)) :
    Data.setField (.text key) d (keyed fields) = keyed (fields ++ [(key, d)]) := by
  induction fields with
  | nil => rfl
  | cons m fields ih =>
      rw [List.map_cons, List.mem_cons, not_or] at h
      have hne : (Scalar.text m.1).same (.text key) = false := by
        rw [same_text]
        exact decide_eq_false (Ne.symm h.1)
      show (if (Scalar.text m.1).same (.text key) then _ else
        (Scalar.text m.1, m.2) :: Data.setField _ _ (keyed fields)) = _
      rw [hne, if_neg Bool.false_ne_true, ih h.2]
      rfl

theorem foldl_setField (found : List (String × Data)) {fields : List (String × Data)}
    (h : ((found ++ fields).map (·.1)).Nodup) :
    (keyed fields).foldl (fun found (k, d) => Data.setField k d found) (keyed found) =
      keyed (found ++ fields) := by
  induction fields generalizing found with
  | nil => rw [List.append_nil]; rfl
  | cons m fields ih =>
      have hnew : m.1 ∉ found.map (·.1) := by
        intro hm
        rw [List.map_append, List.nodup_append] at h
        exact h.2.2 _ hm _ (List.mem_map_of_mem (List.mem_cons_self ..)) rfl
      rw [← List.singleton_append, ← List.append_assoc] at h ⊢
      rw [← ih _ h, ← setField_new hnew]
      rfl

/-- Of fields with keys of their own none takes the place of another. -/
theorem ofFields_nodup {fields : List (String × Data)} (h : (fields.map (·.1)).Nodup) :
    Data.ofFields (keyed fields) = .named fields := congrArg Data.record (foldl_setField [] h)

theorem integers_list (items : List Data) : integers (.list items) = items.flatMap integers := by
  rw [integers]
  induction items with
  | nil => rfl
  | cons d items ih => rw [itemIntegers, ih, List.flatMap_cons]

theorem integers_named (fields : List (String × Data)) :
    integers (.named fields) = fields.flatMap fun m => integers m.2 := by
  rw [Data.named, integers]
  induction fields with
  | nil => rfl
  | cons m fields ih => rw [List.map_cons, fieldIntegers, ih, List.flatMap_cons]; rfl

/-! ### Whole data -/

/-- Data that its text tells from all other: no days and moments, and of keys only texts. -/
inductive IsPlain : Data → Prop
  | null : IsPlain .null
  | bool b : IsPlain (.bool b)
  | int n : IsPlain (.int n)
  | real {x} : IsTold x → IsPlain (.real x)
  | text s : IsPlain (.text s)
  | list {items} : (∀ d ∈ items, IsPlain d) → IsPlain (.list items)
  | named {fields : List (String × Data)} : (fields.map (·.1)).Nodup → (∀ m ∈ fields, IsPlain m.2) →
      IsPlain (.named fields)

theorem reads_writeAt (indent : Option Nat) {d : Data} (h : IsPlain d)
    (hn : ∀ n ∈ integers d, hasText n) (depth : Nat) : Reads (writeAt indent d depth).toList d := by
  induction h generalizing depth with
  | null => exact reads_null
  | bool b => exact reads_bool b
  | int n => exact reads_int (hn n (List.mem_singleton_self n))
  | real hx => exact reads_real hx
  | text s => exact reads_text s
  | list h ih =>
      rw [integers_list] at hn
      exact reads_list indent depth fun d hd =>
        ih d hd (fun n hm => hn n (List.mem_flatMap.2 ⟨d, hd, hm⟩)) (depth + 1)
  | named hnodup h ih =>
      rw [integers_named] at hn
      have hread := reads_record indent depth fun m hm =>
        ih m hm (fun n hi => hn n (List.mem_flatMap.2 ⟨m, hm, hi⟩)) (depth + 1)
      rwa [ofFields_nodup hnodup] at hread

/-- Reading the text of data gives the data. -/
theorem read_write (indent : Option Nat) {d : Data} (h : IsPlain d)
    (hn : ∀ n ∈ integers d, hasText n) :
    read (write indent d) = .ok d := by
  have hreads := reads_writeAt indent h hn 0
  have hend : Ends [] := fun c hc => absurd hc (Option.not_mem_none c)
  have hfuel : (writeAt indent d 0).toList.length ≤ 2 * (writeAt indent d 0).toList.length +
      2 := by omega
  obtain ⟨o, hread⟩ := hreads.stops hend hfuel 0
  have hsolid := hreads.solid []
  have hmark : (writeAt indent d 0).toList.head? ≠ some '\uFEFF' := by
    obtain ⟨c, cs, hc, hopens⟩ := hreads.opens
    rw [hc]
    exact fun he => hopens.text (Option.some.inj he)
  rw [List.append_nil] at hread hsolid
  rw [read, write]
  simp only [if_neg hmark, skipBlanks_solid hsolid, hread, bind, Except.bind]
  rfl

end Scad.Json
