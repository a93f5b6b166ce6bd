import Mathlib.Data.List.Infix
import Scad.Proofs.Token.Scan

/-! The scanner cuts a text into pieces. What it passes over in silence are blanks and comments, and
what it gives stands in the text where its range is. -/
namespace Scad

/-- Blanks and comments, when `behind` stands behind them. A comment that a line ends goes to the
end of its line. -/
inductive Trivia (behind : List Char) : List Char → Prop
  | nil : Trivia behind []
  | blank {c cs} : Piece.isBlank c → Trivia behind cs → Trivia behind (c :: cs)
  | line {text cs} : '\n' ∉ text → (∀ c, (cs ++ behind).head? = some c → c = '\n') →
      Trivia behind cs → Trivia behind ('/' :: '/' :: (text ++ cs))
  | block {text cs} : ¬ ['*', '/'] <:+: text → Trivia behind cs →
      Trivia behind ('/' :: '*' :: (text ++ '*' :: '/' :: cs))

/-- Characters that are skipped before `rest`, whatever more of it is skipped. -/
def Skips (written rest : List Char) : Prop :=
  ∀ gap behind, rest = gap ++ behind → Trivia behind gap → Trivia behind (written ++ gap)

theorem skips_blanks {written : List Char} (h : ∀ c ∈ written, Piece.isBlank c) (rest : List Char) :
    Skips written rest := by
  intro gap behind _ hgap
  induction written with
  | nil => exact hgap
  | cons c written ih =>
      exact .blank (h c (List.mem_cons_self ..)) (ih fun d hd => h d (List.mem_cons_of_mem _ hd))

namespace Lexeme

open Text (isDecimalDigit isHexDigit)

theorem identifierLength_le (cs : List Char) : identifierLength cs ≤ cs.length := by
  unfold identifierLength
  split
  · split
    · exact Nat.zero_le _
    · exact Nat.succ_le_succ (run_le _ _)
  · exact run_le _ _

theorem hexLength_le (cs : List Char) : hexLength cs ≤ cs.length := by
  unfold hexLength
  split
  · rename_i x cs
    have hrun := run_le isHexDigit cs
    split
    · simp only [List.length_cons]
      omega
    · exact Nat.zero_le _
  · exact Nat.zero_le _

theorem significandLength_le (cs : List Char) : significandLength cs ≤ cs.length := by
  have hwhole := run_le isDecimalDigit cs
  simp only [significandLength]
  split
  · rename_i rest hrest
    have hlength := congrArg List.length hrest
    have hfraction := run_le isDecimalDigit rest
    rw [List.length_drop, List.length_cons] at hlength
    split <;> omega
  · exact hwhole

theorem exponentLength_le (cs : List Char) : exponentLength cs ≤ cs.length := by
  cases cs with
  | nil => exact Nat.zero_le _
  | cons e cs =>
      cases cs with
      | nil => simp [exponentLength, run]
      | cons s cs =>
          have hdigits := run_le isDecimalDigit (s :: cs)
          have hsigned := run_le isDecimalDigit cs
          rw [List.length_cons] at hdigits
          simp only [exponentLength]
          split
          · split <;> simp only [List.drop_succ_cons, List.drop_zero, List.length_cons] <;>
              split <;> omega
          · exact Nat.zero_le _

theorem numberLength_le (cs : List Char) : numberLength cs ≤ cs.length := by
  have hexponent := exponentLength_le (cs.drop (significandLength cs))
  have hsignificand := significandLength_le cs
  rw [List.length_drop] at hexponent
  unfold numberLength decimalLength
  split
  · simp only
    split <;> omega
  · exact hexLength_le cs

theorem of_symbol? {cs : List Char} {s : Symbol} (h : symbol? cs = some s) : s.text.toList <+: cs :=
  List.isPrefixOf_iff_prefix.1
    (List.find?_some (p := fun s : Symbol => s.text.toList.isPrefixOf cs) h)

end Lexeme

theorem Symbol.text_ne_nil (s : Symbol) : s.text.toList ≠ [] := by cases s <;> decide

namespace Piece

theorem of_commentEnd? {cs : List Char} {n : Nat} (h : commentEnd? cs = some n) :
    ∃ text rest, cs = text ++ '*' :: '/' :: rest ∧ n = text.length + 2 ∧
    ¬ ['*', '/'] <:+: text := by
  fun_induction commentEnd? cs generalizing n with
  | case1 => cases h
  | case2 rest =>
      cases h
      exact ⟨[], rest, rfl, rfl, by simp⟩
  | case3 c cs hend ih =>
      obtain ⟨m, hm, rfl⟩ := Option.map_eq_some_iff.1 h
      obtain ⟨text, rest, rfl, rfl, hnone⟩ := ih hm
      refine ⟨c :: text, rest, rfl, rfl, fun hin => ?_⟩
      rcases List.infix_cons_iff.1 hin with ⟨more, hmore⟩ | hin
      · obtain ⟨rfl, rfl⟩ := List.cons.inj hmore
        exact hend _ rfl rfl
      · exact hnone hin

theorem of_stringEnd? {quote : Char} {cs : List Char} {n : Nat} (h : stringEnd? quote cs = some n) :
    ∃ text rest, cs = text ++ quote :: rest ∧ n = text.length := by
  fun_induction stringEnd? quote cs generalizing n with
  | case1 => cases h
  | case2 cs =>
      cases h
      exact ⟨[], cs, rfl, rfl⟩
  | case3 => cases h
  | case4 c rest _ ih =>
      obtain ⟨m, hm, rfl⟩ := Option.map_eq_some_iff.1 h
      obtain ⟨text, behind, rfl, rfl⟩ := ih hm
      exact ⟨'\\' :: c :: text, behind, rfl, rfl⟩
  | case5 c cs _ _ ih =>
      obtain ⟨m, hm, rfl⟩ := Option.map_eq_some_iff.1 h
      obtain ⟨text, behind, rfl, rfl⟩ := ih hm
      exact ⟨c :: text, behind, rfl, rfl⟩

/-- A string or a file stands between two marks, any other token as it is. -/
def Writes : TokenKind → (text written : List Char) → Prop
  | .string, text, written | .file, text, written => ∃ l r, written = l :: (text ++ [r])
  | _, text, written => written = text

/-- What a piece made of `written` before `rest` tells of it. -/
def Covers : Piece → (written rest : List Char) → Prop
  | blank, written, rest => Skips written rest
  | token kind text, written, _ => Writes kind text written
  | fault _, _, _ => True

/-- A piece with the number of characters that it takes off a text, at least one. -/
structure Cut (cs : List Char) (piece : Piece × Nat) : Prop where
  positive : 0 < piece.2
  inside : piece.2 ≤ cs.length
  covers : piece.1.Covers (cs.take piece.2) (cs.drop piece.2)

theorem Cut.of_append {cs : List Char} (written rest : List Char) {piece : Piece × Nat}
    (h : cs = written ++ rest) (hn : piece.2 = written.length) (hne : written ≠ [])
    (hc : piece.1.Covers written rest) :
    Cut cs piece := by
  obtain ⟨piece, n⟩ := piece
  obtain rfl : n = written.length := hn
  subst h
  refine ⟨List.length_pos_iff.2 hne, ?_, ?_⟩
  · rw [List.length_append]
    exact Nat.le_add_right ..
  · rw [List.take_left, List.drop_left]
    exact hc

theorem cut_lexeme (cs : List Char) (hne : cs ≠ []) : Cut cs (lexeme cs) := by
  simp only [lexeme]
  split
  · rename_i hnum
    exact ⟨Nat.pos_of_ne_zero hnum.1, Lexeme.numberLength_le cs, rfl⟩
  · split
    · rename_i hword
      have hpos := Nat.pos_of_ne_zero hword
      have hle := Lexeme.identifierLength_le cs
      split <;> exact ⟨hpos, hle, rfl⟩
    · split
      · rename_i s hs
        obtain ⟨rest, rfl⟩ := Lexeme.of_symbol? hs
        exact .of_append _ rest rfl String.length_toList.symm (Symbol.text_ne_nil s) rfl
      · exact ⟨Nat.one_pos, List.length_pos_iff.2 hne, trivial⟩

/-- A cut parts the text in two. -/
theorem Cut.split {c : Char} {cs : List Char} {piece : Piece} {n : Nat}
    (h : Cut (c :: cs) (piece, n)) : c :: cs = (c :: cs).take n ++ cs.drop (n - 1) ∧
      (c :: cs).take n ≠ [] ∧ piece.Covers ((c :: cs).take n) (cs.drop (n - 1)) := by
  have hdrop : (c :: cs).drop n = cs.drop (n - 1) := List.drop_cons h.positive
  have hlength : ((c :: cs).take n).length = n := List.length_take_of_le h.inside
  refine ⟨?_, fun hnil => ?_, hdrop ▸ h.covers⟩
  · rw [← hdrop, List.take_append_drop]
  · rw [hnil] at hlength
    exact absurd hlength (Nat.ne_of_lt h.positive)

/-- The character at which a run ends, with the text around it. -/
theorem eq_append_of_getElem?_takeWhile {p : Char → Bool} {cs : List Char} {c : Char}
    (h : cs[(cs.takeWhile p).length]? = some c) : ∃ rest, cs = cs.takeWhile p ++ c :: rest := by
  have hat : (cs.takeWhile p ++ cs.dropWhile p)[(cs.takeWhile p).length]? = some c := by
    rw [List.takeWhile_append_dropWhile]
    exact h
  rw [List.getElem?_append_right (Nat.le_refl _), Nat.sub_self] at hat
  cases hrest : cs.dropWhile p with
  | nil =>
      rw [hrest] at hat
      cases hat
  | cons d rest =>
      rw [hrest] at hat
      cases hat
      exact ⟨rest, by rw [← hrest, List.takeWhile_append_dropWhile]⟩

theorem isBlank_of_mem_run {c : Char} (hc : isBlank c) (cs : List Char) :
    ∀ d ∈ c :: cs.takeWhile isBlank, isBlank d := by
  intro d hd
  rcases List.mem_cons.1 hd with rfl | hd
  · exact hc
  · exact List.all_eq_true.1 List.all_takeWhile d hd

theorem cut_blanks {c : Char} (hc : isBlank c) (cs : List Char) :
    Cut (c :: cs) (blank, 1 + Lexeme.run isBlank cs) := by
  refine .of_append (c :: cs.takeWhile isBlank) (cs.dropWhile isBlank) ?_ ?_ (List.cons_ne_nil _ _)
    (skips_blanks (isBlank_of_mem_run hc cs) _)
  · rw [List.cons_append, List.takeWhile_append_dropWhile]
  · exact Nat.add_comm _ _

theorem cut_blockComment {cs : List Char} {n : Nat} (h : commentEnd? cs = some n) :
    Cut ('/' :: '*' :: cs) (blank, 2 + n) := by
  obtain ⟨text, rest, rfl, rfl, hnone⟩ := of_commentEnd? h
  refine .of_append ('/' :: '*' :: (text ++ ['*', '/'])) rest (by simp) ?_ (List.cons_ne_nil _ _) ?_
  · simp only [List.length_cons, List.length_append, List.length_nil]
    omega
  · intro gap behind _ hgap
    have hblock := Trivia.block hnone hgap
    simpa using hblock

theorem cut_lineComment (cs : List Char) :
    Cut ('/' :: '/' :: cs) (blank, 1 + Lexeme.run (· ≠ '\n') ('/' :: cs)) := by
  have hrun : Lexeme.run (· ≠ '\n') ('/' :: cs) = (cs.takeWhile (· ≠ '\n')).length + 1 := by
    simp [Lexeme.run]
  refine .of_append ('/' :: '/' :: cs.takeWhile (· ≠ '\n')) (cs.dropWhile (· ≠ '\n')) ?_ ?_
    (List.cons_ne_nil _ _) ?_
  · rw [List.cons_append, List.cons_append, List.takeWhile_append_dropWhile]
  · rw [hrun, List.length_cons, List.length_cons]
    omega
  · intro gap behind hrest hgap
    refine .line (fun hmem => ?_) (fun d hd => ?_) hgap
    · have hkept := List.all_eq_true.1 List.all_takeWhile _ hmem
      simp at hkept
    · have hstop := List.head?_dropWhile_not (· ≠ '\n') cs
      rw [hrest, hd] at hstop
      simpa using hstop

theorem cut_string (quote : Char) {cs : List Char} {n : Nat} (h : stringEnd? quote cs = some n) :
    Cut (quote :: cs) (token .string (cs.take n), n + 2) := by
  obtain ⟨text, rest, rfl, rfl⟩ := of_stringEnd? h
  refine .of_append (quote :: (text ++ [quote])) rest (by simp) (by simp) (List.cons_ne_nil _ _) ?_
  rw [List.take_left]
  exact ⟨quote, quote, rfl⟩

theorem cut_file {p : Char → Bool} {cs : List Char} (h : cs[(cs.takeWhile p).length]? = some '>') :
    Cut ('<' :: cs) (token .file (cs.takeWhile p), (cs.takeWhile p).length + 2) := by
  obtain ⟨rest, hrest⟩ := eq_append_of_getElem?_takeWhile h
  refine .of_append ('<' :: (cs.takeWhile p ++ ['>'])) rest ?_ (by simp) (List.cons_ne_nil _ _)
    ⟨'<', '>', rfl⟩
  simpa using hrest

/-- A fault takes one character, or the rest of the text. -/
theorem cut_fault (message : String) (c : Char) (cs : List Char) {n : Nat} (hpos : 0 < n)
    (hle : n ≤ 1 + cs.length) :
    Cut (c :: cs) (fault message, n) := by
  refine ⟨hpos, ?_, trivial⟩
  rw [List.length_cons, Nat.add_comm]
  exact hle

/-- Whatever the scanner finds at one place is cut off the text. -/
theorem cut_first (expectsFile : Bool) (c : Char) (cs : List Char) :
    Cut (c :: cs) (first expectsFile c cs) := by
  simp only [first]
  split
  · rename_i hblank
    exact cut_blanks hblank cs
  · split
    · rename_i hopen
      obtain ⟨rfl, hhead⟩ := hopen
      obtain ⟨cs, rfl⟩ := List.head?_eq_some_iff.1 hhead
      split
      · rename_i n hend
        exact cut_blockComment hend
      · exact cut_fault _ _ _ (by omega) (Nat.le_refl _)
    · split
      · rename_i hopen
        obtain ⟨rfl, hhead⟩ := hopen
        obtain ⟨cs, rfl⟩ := List.head?_eq_some_iff.1 hhead
        exact cut_lineComment cs
      · split
        · split
          · rename_i n hend
            exact cut_string c hend
          · exact cut_fault _ _ _ (by omega) (Nat.le_refl _)
        · split
          · rename_i hfile
            obtain ⟨rfl, -⟩ := hfile
            split
            · rename_i hclose
              exact cut_file hclose
            · exact cut_fault _ _ _ Nat.one_pos (Nat.le_add_right ..)
          · exact cut_lexeme _ (List.cons_ne_nil _ _)

end Piece

namespace Scanned

def span : Scanned → Span
  | token t => t.span
  | fault d => d.span

theorem span_of_token? {x : Scanned} {t : Token} (h : x.token? = some t) : x.span = t.span := by
  cases x with
  | token u => exact congrArg Token.span (Option.some.inj h)
  | fault d => cases h

theorem span_of_fault? {x : Scanned} {d : Diagnostic} (h : x.fault? = some d) :
    x.span = d.span := by
  cases x with
  | token t => cases h
  | fault e => exact congrArg Diagnostic.span (Option.some.inj h)

/-- What was found is what was written, faults apart. -/
def Quotes : Scanned → (written : List Char) → Prop
  | token t, written => Piece.Writes t.kind t.text.toList written
  | fault _, _ => True

end Scanned

/-- What was found in a text that begins at `place` and ends at `stop`. Trivia alone stand before a
piece, and trivia alone behind the last one. -/
inductive Tiled (origin : String) : Position → List Char → List Scanned → Position → Prop
  | done {place gap} : Trivia [] gap → Tiled origin place gap [] (place.advanceAll gap)
  | found {place gap written rest x found stop} : Trivia (written ++ rest) gap → written ≠ [] →
      x.span = ⟨origin, place.advanceAll gap, place.advanceAll (gap ++ written)⟩ →
      x.Quotes written →
      Tiled origin (place.advanceAll (gap ++ written)) rest found stop →
      Tiled origin place (gap ++ (written ++ rest)) (x :: found) stop

namespace Tiled

variable {origin : String} {place stop : Position} {cs : List Char} {found : List Scanned}

/-- What is skipped before a text belongs to its first stretch of trivia. -/
theorem skip {written rest : List Char} (hskip : Skips written rest)
    (h : Tiled origin (place.advanceAll written) rest found stop) :
    Tiled origin place (written ++ rest) found stop := by
  cases h with
  | done hgap =>
      rw [← Position.advanceAll_append]
      exact .done (hskip rest [] (List.append_nil rest).symm hgap)
  | @found _ gap piece behind x _ _ hgap hne hspan hquotes hrest =>
      rw [← Position.advanceAll_append, ← Position.advanceAll_append] at hspan
      rw [← Position.advanceAll_append] at hrest
      rw [← List.append_assoc] at hspan hrest ⊢
      exact .found (hskip gap _ rfl hgap) hne hspan hquotes hrest

theorem piece {written rest : List Char} {x : Scanned} (hne : written ≠ [])
    (hspan : x.span = ⟨origin, place, place.advanceAll written⟩) (hquotes : x.Quotes written)
    (h : Tiled origin (place.advanceAll written) rest found stop) :
    Tiled origin place (written ++ rest) (x :: found) stop := by
  show Tiled origin place ([] ++ (written ++ rest)) (x :: found) stop
  exact .found .nil hne hspan hquotes h

end Tiled

/-- One piece after the other, the scanner covers the text with what it finds and with trivia. -/
theorem tiled_scanFrom (origin : String) (last : Option TokenKind) (place : Position)
    (cs : List Char) :
    Tiled origin place cs (scanFrom origin last place cs).1 (scanFrom origin last place cs).2 := by
  fun_induction scanFrom origin last place cs with
  | case1 place => exact .done .nil
  | case2 last place c cs length next rest hfirst ih =>
      obtain ⟨htext, -, hcovers⟩ := (hfirst ▸ Piece.cut_first _ c cs :).split
      rw [htext]
      exact .skip hcovers ih
  | case3 last place c cs length next span rest kind text found stop hscan hfirst ih =>
      obtain ⟨htext, hne, hcovers⟩ := (hfirst ▸ Piece.cut_first _ c cs :).split
      rw [hscan] at ih
      rw [htext]
      refine .piece hne rfl ?_ ih
      rw [Scanned.Quotes, String.toList_ofList]
      exact hcovers
  | case4 last place c cs length next span rest message found stop hscan hfirst ih =>
      obtain ⟨htext, hne, -⟩ := (hfirst ▸ Piece.cut_first _ c cs :).split
      rw [hscan] at ih
      rw [htext]
      exact .piece hne rfl trivial ih

/-! ### Offsets -/

def slice (cs : List Char) (start stop : Int) : List Char :=
  (cs.drop start.toNat).take (stop - start).toNat

theorem slice_append {before text behind : List Char} {start stop : Int}
    (hstart : start = before.length) (hstop : stop = start + text.length) :
    slice (before ++ (text ++ behind)) start stop = text := by
  have hdrop : start.toNat = before.length := by omega
  have htake : (stop - start).toNat = text.length := by omega
  rw [slice, hdrop, htake, List.drop_left, List.take_left]

/-- What is left between spans from one offset on: before the first, between each two, and behind
the last up to the end. -/
def stretches (start : Int) (spans : List Span) (stop : Int) : List (Int × Int) :=
  (start :: spans.map (·.stop.offset)).zip (spans.map (·.start.offset) ++ [stop])

/-- The findings stand one behind the other in a text, each with the text of its range, and nothing
but trivia is around them. -/
structure Partitions (cs : List Char) (found : List Scanned) : Prop where
  wide : ∀ x ∈ found, x.span.start.offset < x.span.stop.offset
  disjoint : found.Pairwise fun x y => x.span.stop.offset ≤ y.span.start.offset
  between : ∀ gap ∈ stretches 0 (found.map Scanned.span) cs.length,
    gap.1 ≤ gap.2 ∧ Trivia (cs.drop gap.2.toNat) (slice cs gap.1 gap.2)
  quotes : ∀ x ∈ found, x.Quotes (slice cs x.span.start.offset x.span.stop.offset)

namespace Tiled

variable {origin : String} {place stop : Position} {cs : List Char} {found : List Scanned}

theorem stop_eq (h : Tiled origin place cs found stop) : stop = place.advanceAll cs := by
  induction h with
  | done => rfl
  | found _ _ _ _ _ ih => rw [ih, ← Position.advanceAll_append, List.append_assoc]

/-- The findings begin behind `place`, and each ends behind its start. -/
theorem bounds (h : Tiled origin place cs found stop) : ∀ x ∈ found,
    place.offset ≤ x.span.start.offset ∧ x.span.start.offset < x.span.stop.offset := by
  induction h with
  | done => exact fun x hx => absurd hx List.not_mem_nil
  | @found place gap written rest y found stop _ hne hspan _ _ ih =>
      have hpos := List.length_pos_iff.2 hne
      intro x hx
      rcases List.mem_cons.1 hx with rfl | hx
      · simp only [hspan, Position.offset_advanceAll, List.length_append]
        omega
      · have hbehind := ih x hx
        simp only [Position.offset_advanceAll] at hbehind
        omega

theorem disjoint (h : Tiled origin place cs found stop) :
    found.Pairwise fun x y => x.span.stop.offset ≤ y.span.start.offset := by
  induction h with
  | done => exact .nil
  | found _ _ hspan _ hrest ih =>
      refine .cons (fun y hy => ?_) ih
      rw [hspan]
      exact (hrest.bounds y hy).1

theorem quotes (h : Tiled origin place cs found stop) (before : List Char)
    (hplace : place.offset = before.length) :
    ∀ x ∈ found, x.Quotes (slice (before ++ cs) x.span.start.offset x.span.stop.offset) := by
  induction h generalizing before with
  | done => exact fun x hx => absurd hx List.not_mem_nil
  | @found place gap written rest y found stop _ hne hspan hquotes _ ih =>
      intro x hx
      rcases List.mem_cons.1 hx with rfl | hx
      · rw [hspan, ← List.append_assoc, slice_append]
        · exact hquotes
        · simp [Position.offset_advanceAll, hplace]
        · simp [Position.offset_advanceAll, Int.add_assoc]
      · have hbehind := ih (before ++ (gap ++ written))
          (by simp [Position.offset_advanceAll, hplace]) x hx
        simpa using hbehind

theorem between (h : Tiled origin place cs found stop) (before : List Char)
    (hplace : place.offset = before.length) :
    ∀ gap ∈ stretches place.offset (found.map Scanned.span) stop.offset,
      gap.1 ≤ gap.2 ∧ Trivia ((before ++ cs).drop gap.2.toNat)
        (slice (before ++ cs) gap.1 gap.2) := by
  induction h generalizing before with
  | @done place gap hgap =>
      intro stretch hmem
      obtain rfl := List.mem_singleton.1 hmem
      have hlength : place.offset + gap.length = (before ++ gap).length := by
        simp [hplace]
      have hslice : slice (before ++ gap) place.offset (place.offset + gap.length) = gap := by
        rw [← List.append_nil (before ++ gap), List.append_assoc, slice_append hplace rfl]
      simp only [Position.offset_advanceAll]
      rw [hslice, hlength, Int.toNat_natCast, List.drop_length]
      exact ⟨by omega, hgap⟩
  | @found place gap written rest y found stop hgap hne hspan _ _ ih =>
      have hbehind : (place.advanceAll (gap ++ written)).offset =
          (before ++ (gap ++ written)).length := by
        simp [Position.offset_advanceAll, hplace]
      intro stretch hmem
      rcases List.mem_cons.1 hmem with rfl | hmem
      · have hlength : place.offset + gap.length = (before ++ gap).length := by
          simp [hplace]
        simp only [hspan, Position.offset_advanceAll]
        rw [slice_append hplace rfl, hlength, Int.toNat_natCast, ← List.append_assoc,
          List.drop_left]
        exact ⟨by omega, hgap⟩
      · have hstop : y.span.stop.offset = (place.advanceAll (gap ++ written)).offset := by
          rw [hspan]
        have hrest := ih _ hbehind stretch (hstop ▸ hmem)
        simpa using hrest

end Tiled

/-- Scanning cuts a text up: nothing is lost, nothing is found twice, and what is found has the text
of its range. -/
theorem tokenize_partitions (source origin : String) :
    ∃ (found : List Scanned) (mark : Token),
      (tokenize source origin).tokens = found.filterMap Scanned.token? ++ [mark] ∧
      (tokenize source origin).faults = found.filterMap Scanned.fault? ∧
      (∀ t, .token t ∈ found → t.kind ≠ .eof) ∧ Partitions source.toList found ∧
      mark.kind = .eof ∧ mark.span.start.offset = source.toList.length ∧
      mark.span.stop.offset = source.toList.length := by
  have htiled := tiled_scanFrom origin none .start source.toList
  have hlawful := scanFrom_isTextOf origin none .start source.toList
  have hoffset : (scanFrom origin none .start source.toList).2.offset = source.toList.length := by
    rw [htiled.stop_eq, Position.offset_advanceAll]
    exact Int.zero_add _
  refine ⟨(scanFrom origin none .start source.toList).1, _, rfl, rfl, fun t ht heof => ?_, ?_,
    rfl, hoffset, hoffset⟩
  · have hlaw := (hlawful t (List.mem_filterMap.2 ⟨_, ht, rfl⟩)).1
    rw [heof] at hlaw
    exact hlaw
  · have hbetween := htiled.between [] rfl
    rw [hoffset] at hbetween
    exact ⟨fun x hx => (htiled.bounds x hx).2, htiled.disjoint, hbetween, htiled.quotes [] rfl⟩

end Scad
