import Scad.Proofs.Token.Join
import Scad.Proofs.Token.Position

/-! Lines are scanned one by one. What is carried over a line feed is whether a file is expected,
and a comment or a string that is still open; apart from these, what stands behind a line feed is
found as in a text of its own, further down. -/
namespace Scad

/-! ### Further down -/

/-- The same place behind `offset` characters and `lines` lines more. -/
def Position.below (offset lines : Int) (p : Position) : Position :=
  ⟨p.offset + offset, p.line + lines, p.column⟩

def Span.below (offset lines : Int) (s : Span) : Span :=
  ⟨s.origin, s.start.below offset lines, s.stop.below offset lines⟩

def Token.below (offset lines : Int) (t : Token) : Token :=
  { t with span := t.span.below offset lines }

def Diagnostic.below (offset lines : Int) (d : Diagnostic) : Diagnostic :=
  { d with span := d.span.below offset lines }

def Scanned.below (offset lines : Int) : Scanned → Scanned
  | .token t => .token (t.below offset lines)
  | .fault d => .fault (d.below offset lines)

section Below

variable (offset lines : Int)

theorem Position.advance_below (p : Position) (c : Char) :
    (p.below offset lines).advance c = (p.advance c).below offset lines := by
  by_cases hc : c = '\n'
  · simp only [advance, below, if_pos hc, Position.mk.injEq, and_true]
    omega
  · simp only [advance, below, if_neg hc, Position.mk.injEq, and_true]
    omega

theorem Position.advanceAll_below (p : Position) (cs : List Char) :
    (p.below offset lines).advanceAll cs = (p.advanceAll cs).below offset lines := by
  induction cs generalizing p with
  | nil => rfl
  | cons c cs ih =>
      show ((p.below offset lines).advance c).advanceAll cs =
        ((p.advance c).advanceAll cs).below offset lines
      rw [advance_below, ih]

theorem Scanned.filterMap_token?_below (found : List Scanned) :
    (found.map (below offset lines)).filterMap token? = (found.filterMap token?).map
      (Token.below offset lines) := by
  rw [List.filterMap_map, List.map_filterMap]
  refine List.filterMap_congr fun x _ => ?_
  cases x <;> rfl

theorem Scanned.filterMap_fault?_below (found : List Scanned) :
    (found.map (below offset lines)).filterMap fault? =
      (found.filterMap fault?).map (Diagnostic.below offset lines) := by
  rw [List.filterMap_map, List.map_filterMap]
  refine List.filterMap_congr fun x _ => ?_
  cases x <;> rfl

end Below

/-! ### One piece -/

section Piece

variable {origin : String} {last : Option TokenKind} {place stop : Position} {c : Char}
  {cs : List Char} {n : Nat} {found : List Scanned}

theorem scanFrom_of_blank (h : Piece.first (last.any TokenKind.expectsFile) c cs = (.blank, n)) :
    scanFrom origin last place (c :: cs) =
      scanFrom origin last (place.advanceAll ((c :: cs).take n)) (cs.drop (n - 1)) := by
  rw [scanFrom, h]

theorem scanFrom_of_token {kind : TokenKind} {text : List Char}
    (h : Piece.first (last.any TokenKind.expectsFile) c cs = (.token kind text, n))
    (hbehind : scanFrom origin (some kind) (place.advanceAll ((c :: cs).take n)) (cs.drop (n - 1)) =
      (found, stop)) :
    scanFrom origin last place (c :: cs) =
      (.token ⟨kind, String.ofList text, ⟨origin, place, place.advanceAll ((c :: cs).take n)⟩⟩ ::
        found, stop) := by
  rw [scanFrom, h]
  simp only [hbehind]

theorem scanFrom_of_fault {message : String}
    (h : Piece.first (last.any TokenKind.expectsFile) c cs = (.fault message, n))
    (hbehind : scanFrom origin last (place.advanceAll ((c :: cs).take n)) (cs.drop (n - 1)) =
      (found, stop)) :
    scanFrom origin last place (c :: cs) =
      (.fault ⟨.lexical (String.singleton c), ⟨origin, place, place.advanceAll ((c :: cs).take n)⟩,
        message⟩ :: found, stop) := by
  rw [scanFrom, h]
  simp only [hbehind]

end Piece

/-- Where a text stands does not matter for what is found in it. -/
theorem scanFrom_below (offset lines : Int) (origin : String) (last : Option TokenKind)
    (place : Position) (cs : List Char) : scanFrom origin last (place.below offset lines) cs =
      ((scanFrom origin last place cs).1.map (Scanned.below offset lines),
        (scanFrom origin last place cs).2.below offset lines) := by
  fun_induction scanFrom origin last place cs with
  | case1 => rw [scanFrom]; rfl
  | case2 last place c cs length next rest hfirst ih =>
      rw [scanFrom_of_blank hfirst, Position.advanceAll_below, ih]
  | case3 last place c cs length next span rest kind text found stop hscan hfirst ih =>
      rw [hscan, ← Position.advanceAll_below] at ih
      rw [scanFrom_of_token hfirst ih, Position.advanceAll_below]
      rfl
  | case4 last place c cs length next span rest message found stop hscan hfirst ih =>
      rw [hscan, ← Position.advanceAll_below] at ih
      rw [scanFrom_of_fault hfirst ih, Position.advanceAll_below]
      rfl

/-! ### What is carried over -/

/-- Of the token before a text, all that matters is whether a file is expected behind it. -/
theorem scanFrom_expects {last last' : Option TokenKind}
    (h : last.any TokenKind.expectsFile = last'.any TokenKind.expectsFile) (origin : String)
    (place : Position) (cs : List Char) :
    scanFrom origin last place cs = scanFrom origin last' place cs := by
  fun_induction scanFrom origin last place cs with
  | case1 => rw [scanFrom]
  | case2 last place c cs length next rest hfirst ih =>
      rw [ih h]
      exact (scanFrom_of_blank (h ▸ hfirst)).symm
  | case3 last place c cs length next span rest kind text found stop hscan hfirst ih =>
      exact (scanFrom_of_token (h ▸ hfirst) hscan).symm
  | case4 last place c cs length next span rest message found stop hscan hfirst ih =>
      exact (scanFrom_of_fault (h ▸ hfirst) (ih h ▸ hscan)).symm

/-- The kind of the last token up to the end of what was found, where `last` is that of the
one before. -/
def lastKind (last : Option TokenKind) (found : List Scanned) : Option TokenKind :=
  ((found.filterMap Scanned.token?).getLast?.map Token.kind).or last

theorem lastKind_token (last : Option TokenKind) (t : Token) (found : List Scanned) :
    lastKind last (.token t :: found) = lastKind (some t.kind) found := by
  simp only [lastKind, List.filterMap_cons, Scanned.token?, List.getLast?_cons]
  cases (found.filterMap Scanned.token?).getLast? <;> rfl

theorem lastKind_fault (last : Option TokenKind) (d : Diagnostic) (found : List Scanned) :
    lastKind last (.fault d :: found) = lastKind last found := rfl

/-! ### A line feed -/

theorem Lexeme.drop_run (p : Char → Bool) (cs : List Char) :
    cs.drop (run p cs) = cs.dropWhile p := by
  have hbehind : (cs.takeWhile p ++ cs.dropWhile p).drop (run p cs) = cs.dropWhile p :=
    List.drop_left
  rwa [List.takeWhile_append_dropWhile] at hbehind

theorem scanFrom_dropBlanks (origin : String) (last : Option TokenKind) (place : Position)
    (cs : List Char) :
    scanFrom origin last place cs =
      scanFrom origin last (place.advanceAll (cs.takeWhile Piece.isBlank))
        (cs.dropWhile Piece.isBlank) := by
  cases cs with
  | nil => rfl
  | cons c cs =>
      cases hc : Piece.isBlank c with
      | false =>
          rw [List.takeWhile_cons, List.dropWhile_cons, hc]
          rfl
      | true =>
          rw [scanFrom_of_blank (Piece.first_blank hc _ cs), List.takeWhile_cons_of_pos hc,
            List.dropWhile_cons_of_pos hc, Nat.add_sub_cancel_left, Nat.add_comm,
            List.take_succ_cons, Lexeme.take_run, Lexeme.drop_run]

/-- Blanks before a text are passed over. -/
theorem scanFrom_blanks {written : List Char} (hw : ∀ c ∈ written, Piece.isBlank c)
    (origin : String) (last : Option TokenKind) (place : Position) (cs : List Char) :
    scanFrom origin last place (written ++ cs) =
      scanFrom origin last (place.advanceAll written) cs := by
  rw [scanFrom_dropBlanks origin last place, scanFrom_dropBlanks origin last
    (place.advanceAll written), List.takeWhile_append_of_pos hw, List.dropWhile_append_of_pos hw,
    Position.advanceAll_append]

/-- What stands behind a line feed is scanned from there on, whatever stands before it: nothing that
was found before reaches beyond it. -/
theorem scanFrom_lineFeed (bs : List Char) (origin : String) (last : Option TokenKind)
    (place : Position) (cs : List Char)
    (hclosed : ∀ d ∈ (scanFrom origin last place cs).1.filterMap Scanned.fault?,
      d.message ∉ Piece.openEnds) :
    scanFrom origin last place (cs ++ '\n' :: bs) =
      let before := scanFrom origin last place cs
      let behind := scanFrom origin (lastKind last before.1) (before.2.advance '\n') bs
      (before.1 ++ behind.1, behind.2) := by
  fun_induction scanFrom origin last place cs with
  | case1 last place =>
      have hblank : ∀ c ∈ ['\n'], Piece.isBlank c := by simp [Piece.isBlank]
      exact scanFrom_blanks hblank origin last place bs
  | case2 last place c cs length next rest hfirst ih =>
      cases hc : Piece.isBlank c with
      | true =>
          -- The blanks at the end of a text are one piece with those behind it.
          rw [Piece.first_blank hc] at hfirst
          obtain rfl := (Prod.mk.inj hfirst).2
          have htext : c :: cs = (c :: cs.takeWhile Piece.isBlank) ++ rest := by
            rw [← Lexeme.take_run, List.cons_append]
            simp only [rest, Nat.add_sub_cancel_left, List.take_append_drop]
          have hnext : next = place.advanceAll (c :: cs.takeWhile Piece.isBlank) := by
            simp only [next, Nat.add_comm 1, List.take_succ_cons, Lexeme.take_run]
          rw [htext, List.append_assoc, scanFrom_blanks (Piece.isBlank_of_mem_run hc cs),
            ← hnext, ih hclosed]
      | false =>
          rw [List.cons_append,
            scanFrom_of_blank (Piece.first_lineFeed bs hc hfirst fun _ h => by cases h),
            Piece.drop_first hfirst, Piece.take_first hfirst, ih hclosed]
  | case3 last place c cs length next span rest kind text found stop hscan hfirst ih =>
      have hc := Piece.isBlank_of_first hfirst fun h => by cases h
      rw [hscan] at ih
      have hbehind : scanFrom origin (some kind) (place.advanceAll ((c :: cs).take length))
          (cs.drop (length - 1) ++ '\n' :: bs) = _ := ih hclosed
      rw [← Piece.drop_first hfirst, ← Piece.take_first hfirst ('\n' :: bs)] at hbehind
      rw [List.cons_append, scanFrom_of_token (Piece.first_lineFeed bs hc hfirst fun _ h =>
        by cases h) hbehind, Piece.take_first hfirst]
      simp only [lastKind_token]
      rfl
  | case4 last place c cs length next span rest message found stop hscan hfirst ih =>
      have hc := Piece.isBlank_of_first hfirst fun h => by cases h
      have hpiece : ∀ m, Piece.fault message = .fault m → m ∉ Piece.openEnds := by
        rintro m ⟨⟩
        exact hclosed _ (List.mem_cons_self ..)
      rw [hscan] at ih
      have hbehind : scanFrom origin last (place.advanceAll ((c :: cs).take length))
          (cs.drop (length - 1) ++ '\n' :: bs) = _ :=
            ih fun d hd => hclosed d (List.mem_cons_of_mem _ hd)
      rw [← Piece.drop_first hfirst, ← Piece.take_first hfirst ('\n' :: bs)] at hbehind
      rw [List.cons_append, scanFrom_of_fault (Piece.first_lineFeed bs hc hfirst hpiece) hbehind,
        Piece.take_first hfirst]
      simp only [lastKind_fault]
      rfl

/-! ### Two texts, one below the other -/

def TokenStream.body (s : TokenStream) : List Token := s.tokens.filter (·.kind ≠ .eof)

theorem body_tokenize (text origin : String) : (tokenize text origin).body =
    (scanFrom origin none .start text.toList).1.filterMap Scanned.token? := by
  have hkinds : ∀ t ∈ (scanFrom origin none .start text.toList).1.filterMap Scanned.token?,
      decide (t.kind ≠ .eof) = true := by
    intro t ht
    have hlaw := (scanFrom_isTextOf origin none .start text.toList t ht).1
    refine decide_eq_true fun heof => ?_
    rw [heof] at hlaw
    exact hlaw
  rw [TokenStream.body, tokenize, List.filter_append, List.filter_eq_self.2 hkinds]
  exact List.append_nil _

/-- The first place behind a text and a line feed. -/
theorem advance_stop (origin : String) (cs : List Char) :
    (scanFrom origin none .start cs).2.advance '\n' = Position.start.below (cs.length + 1)
      (1 + cs.count '\n') := by
  rw [(tiled_scanFrom origin none .start cs).stop_eq, Position.advanceAll_start]
  simp only [Position.advance, if_pos, Position.below, Position.start, Position.mk.injEq, and_true]
  omega

/-- A text and another one below it, where the first neither leaves a comment or a string open
nor ends where a file is expected: what is found is what is found in each of the two, the second
moved down. -/
theorem tokenize_below (a b origin : String)
    (hclosed : ∀ d ∈ (tokenize a origin).faults,
      d.message ≠ "unterminated block comment" ∧ d.message ≠ "unterminated string literal")
    (hlast : ∀ t, (tokenize a origin).body.getLast? = some t →
      t.kind ≠ .keyword .includeFile ∧ t.kind ≠ .keyword .useFile) :
    (tokenize (a ++ "\n" ++ b) origin).tokens = (tokenize a origin).body ++
        (tokenize b origin).tokens.map (Token.below (a.length + 1) (1 + a.toList.count '\n')) ∧
      (tokenize (a ++ "\n" ++ b) origin).faults = (tokenize a origin).faults ++
        (tokenize b origin).faults.map
          (Diagnostic.below (a.length + 1) (1 + a.toList.count '\n')) := by
  have htext : (a ++ "\n" ++ b).toList = a.toList ++ '\n' :: b.toList := by
    rw [String.toList_append, String.toList_append, List.append_assoc]
    rfl
  have hends : ∀ d ∈ (scanFrom origin none .start a.toList).1.filterMap Scanned.fault?,
      d.message ∉ Piece.openEnds := by
    intro d hd hopen
    rcases List.mem_cons.1 hopen with hcomment | hopen
    · exact (hclosed d hd).1 hcomment
    · exact (hclosed d hd).2 (List.mem_singleton.1 hopen)
  have hexpects : (lastKind none (scanFrom origin none .start a.toList).1).any
    TokenKind.expectsFile =
      (none : Option TokenKind).any TokenKind.expectsFile := by
    rw [body_tokenize] at hlast
    rw [lastKind, Option.or_none]
    cases hend : ((scanFrom origin none .start a.toList).1.filterMap Scanned.token?).getLast? with
    | none => rfl
    | some t =>
        obtain ⟨hinclude, huse⟩ := hlast t hend
        simp [TokenKind.expectsFile, hinclude, huse]
  have hscan := scanFrom_lineFeed b.toList origin none .start a.toList hends
  simp only [scanFrom_expects hexpects, advance_stop, scanFrom_below] at hscan
  rw [body_tokenize]
  simp only [tokenize, htext, hscan, String.length_toList]
  constructor
  · rw [List.filterMap_append, Scanned.filterMap_token?_below, List.map_append, List.append_assoc]
    rfl
  · rw [List.filterMap_append, Scanned.filterMap_fault?_below]

/-- A line with a fault and a comment above a `<` and an open string. -/
theorem tokenize_below_fault : (∀ d ∈ (tokenize "x = @1e+; // '" "f").faults,
      d.message ≠ "unterminated block comment" ∧ d.message ≠ "unterminated string literal") ∧
    (∀ t, (tokenize "x = @1e+; // '" "f").body.getLast? = some t →
      t.kind ≠ .keyword .includeFile ∧ t.kind ≠ .keyword .useFile) ∧
    (tokenize "x = @1e+; // '" "f").faults ≠ [] ∧
    (tokenize "x = @1e+; // '\n<a> 'b" "f").faults = (tokenize "x = @1e+; // '" "f").faults ++
      (tokenize "<a> 'b" "f").faults.map (Diagnostic.below 15 1) := by
  have hclosed : ∀ d ∈ (tokenize "x = @1e+; // '" "f").faults,
      d.message ≠ "unterminated block comment" ∧ d.message ≠ "unterminated string literal" := by
    decide +kernel
  have hlast : ∀ t, (tokenize "x = @1e+; // '" "f").body.getLast? = some t →
      t.kind ≠ .keyword .includeFile ∧ t.kind ≠ .keyword .useFile := by
    have hkind : (tokenize "x = @1e+; // '" "f").body.getLast?.map Token.kind =
        some (.symbol .semicolon) := by
      decide +kernel
    intro t ht
    rw [ht] at hkind
    obtain hkind := Option.some.inj hkind
    simp [hkind]
  exact ⟨hclosed, hlast, by decide +kernel,
    (tokenize_below "x = @1e+; // '" "<a> 'b" "f" hclosed hlast).2⟩

end Scad
