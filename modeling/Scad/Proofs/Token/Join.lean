import Scad.Proofs.Token.Partition

/-! A line feed parts two texts: none of the pieces before it reaches beyond it, so the tokens of
both texts together are those of the first and then those of the second. -/
namespace Scad

open Text (isDecimalDigit isHexDigit)

/-- What stands behind a character that a list does not have is not its prefix. -/
theorem prefix_append_cons_iff {α : Type} {l cs ds : List α} {c : α} (h : c ∉ l) :
    l <+: cs ++ c :: ds ↔ l <+: cs := by
  refine ⟨fun hl => ?_, fun hl => hl.trans (List.prefix_append ..)⟩
  rcases List.prefix_or_prefix_of_prefix hl (List.prefix_append cs (c :: ds)) with hl' | ⟨more, rfl⟩
  · exact hl'
  · rw [List.prefix_append_right_inj] at hl
    cases more with
    | nil => rw [List.append_nil]
    | cons d more =>
        obtain ⟨rfl, -⟩ := List.cons_prefix_cons.1 hl
        exact absurd (List.mem_append_right _ (List.mem_cons_self ..)) h

theorem Symbol.lineFeed_notMem_text (s : Symbol) : '\n' ∉ s.text.toList := by cases s <;> decide

namespace Lexeme

/-! ### What does not go on with a word or a number -/

section

variable {cs ds : List Char} (h : Closed ds)

include h

theorem identifierLength_closed (hne : cs ≠ []) :
    identifierLength (cs ++ ds) = identifierLength cs := by
  cases cs with
  | nil => exact absurd rfl hne
  | cons c cs =>
      have hrun := run_append h.delimited.word
      by_cases hc : c = '$'
      · subst hc
        rw [List.cons_append, identifierLength, identifierLength, hrun]
      · rw [List.cons_append, identifierLength_of_ne hc, identifierLength_of_ne hc,
          ← List.cons_append, hrun]

theorem significandLength_closed (cs : List Char) :
    significandLength (cs ++ ds) = significandLength cs := by
  have hrun := run_append h.delimited.digit
  simp only [significandLength, hrun, List.drop_append_of_le_length (run_le isDecimalDigit cs)]
  cases cs.drop (run isDecimalDigit cs) with
  | nil =>
      have hpoint := h.point
      cases ds with
      | nil => rfl
      | cons d ds =>
          have hd : d ≠ '.' := fun hd => hpoint (congrArg some hd)
          simp [hd]
  | cons c rest =>
      by_cases hc : c = '.'
      · subst hc
        simp only [List.cons_append, hrun]
      · simp [hc]

theorem numberLength_closed (cs : List Char) : numberLength (cs ++ ds) = numberLength cs := by
  simp only [numberLength, decimalLength, hexLength_append h.delimited, significandLength_closed h,
    List.drop_append_of_le_length (significandLength_le cs), exponentLength_append h.delimited]

end

variable (bs : List Char)

theorem closed_lineFeed : Closed ('\n' :: bs) where
  delimited c hc := by
    cases hc
    decide
  point := by simp

theorem run_lineFeed {p : Char → Bool} (hp : p '\n' = false) (cs : List Char) :
    run p (cs ++ '\n' :: bs) = run p cs := by
  refine run_append (fun c hc => ?_) cs
  cases hc
  exact hp

theorem symbol?_lineFeed (cs : List Char) : symbol? (cs ++ '\n' :: bs) = symbol? cs := by
  have hfits : (fun s : Symbol => s.text.toList.isPrefixOf (cs ++ '\n' :: bs)) =
      fun s => s.text.toList.isPrefixOf cs := by
    funext s
    rw [Bool.eq_iff_iff, List.isPrefixOf_iff_prefix, List.isPrefixOf_iff_prefix]
    exact prefix_append_cons_iff s.lineFeed_notMem_text
  rw [symbol?, symbol?, hfits]

end Lexeme

namespace Piece

variable (bs : List Char)

/-- What does not go on with a word or a number does not change the lexeme before it, the longer
symbols apart. -/
theorem lexeme_closed {cs ds : List Char} (h : Lexeme.Closed ds) (hne : cs ≠ [])
    (hsymbol : Lexeme.identifierLength cs = 0 → Lexeme.symbol? (cs ++ ds) = Lexeme.symbol? cs) :
    lexeme (cs ++ ds) = lexeme cs := by
  have hfirst : 1 ≤ cs.length := List.length_pos_iff.2 hne
  simp only [lexeme, Lexeme.identifierLength_closed h hne, Lexeme.numberLength_closed h,
    List.take_append_of_le_length (Lexeme.numberLength_le cs),
    List.take_append_of_le_length (Lexeme.identifierLength_le cs),
    List.take_append_of_le_length hfirst]
  by_cases hword : Lexeme.identifierLength cs = 0
  · rw [hsymbol hword]
  · simp only [ne_eq, hword, not_false_eq_true, if_true]

theorem commentEnd?_append {cs : List Char} {n : Nat} (h : commentEnd? cs = some n) :
    commentEnd? (cs ++ bs) = some n := by
  fun_induction commentEnd? cs generalizing n with
  | case1 => cases h
  | case2 rest => exact h
  | case3 c cs hend ih =>
      obtain ⟨m, hm, rfl⟩ := Option.map_eq_some_iff.1 h
      rw [List.cons_append, commentEnd?, ih hm]
      · rfl
      · intro rest hc hrest
        cases cs with
        | nil => cases hm
        | cons d cs => exact hend cs hc (congrArg (· :: cs) (List.cons.inj hrest).1)

/-- A string that is closed is closed at the same place whatever stands behind it. -/
theorem stringEnd?_append {quote : Char} (hq : quote ≠ '\\') {cs : List Char} {n : Nat}
    (h : stringEnd? quote cs = some n) : stringEnd? quote (cs ++ bs) = some n := by
  have hinside := Inside.of_stringEnd? h
  obtain ⟨text, rest, rfl, rfl⟩ := of_stringEnd? h
  rw [List.take_left] at hinside
  rw [List.append_assoc]
  exact hinside.stringEnd? hq (rest ++ bs)

theorem head?_lineFeed {c : Char} (hc : c ≠ '\n') (cs : List Char) :
    (cs ++ '\n' :: bs).head? = some c ↔ cs.head? = some c := by
  cases cs with
  | nil => simp [hc.symm]
  | cons d cs => rfl

theorem getElem?_lineFeed {c : Char} (hc : c ≠ '\n') {cs : List Char} {n : Nat}
    (hn : n ≤ cs.length) :
    (cs ++ '\n' :: bs)[n]? = some c ↔ cs[n]? = some c := by
  rcases Nat.lt_or_eq_of_le hn with hn | rfl
  · rw [List.getElem?_append_left hn]
  · simp [hc.symm]

theorem takeWhile_lineFeed {p : Char → Bool} (hp : p '\n' = false) (cs : List Char) :
    (cs ++ '\n' :: bs).takeWhile p = cs.takeWhile p := by
  rw [← Lexeme.take_run, Lexeme.run_lineFeed bs hp,
    List.take_append_of_le_length (Lexeme.run_le p cs), Lexeme.take_run]

/-- What is reported of a comment or a string that a text begins and does not end. -/
def openEnds : List String := ["unterminated block comment", "unterminated string literal"]

/-- Blanks and what reaches to the end of a text apart, the piece at the head of the text is found
there as well if a line feed and more stand behind the text. -/
theorem first_lineFeed {expectsFile : Bool} {c : Char} {cs : List Char} {piece : Piece} {n : Nat}
    (hc : isBlank c = false) (h : first expectsFile c cs = (piece, n))
    (hclosed : ∀ m, piece = .fault m → m ∉ openEnds) :
    first expectsFile c (cs ++ '\n' :: bs) = (piece, n) := by
  have hslash := head?_lineFeed bs (c := '/') (by decide) cs
  have hstar := head?_lineFeed bs (c := '*') (by decide) cs
  simp only [first, hc, Bool.false_eq_true, if_false, hslash, hstar] at h ⊢
  by_cases hcomment : c = '/' ∧ cs.head? = some '*'
  · rw [if_pos hcomment] at h ⊢
    obtain ⟨-, hhead⟩ := hcomment
    cases cs with
    | nil => cases hhead
    | cons d cs =>
        cases hend : commentEnd? cs with
        | none =>
            rw [List.tail_cons, hend] at h
            cases h
            exact absurd (List.mem_cons_self ..) (hclosed _ rfl)
        | some m =>
            rw [List.tail_cons, hend] at h
            rw [List.cons_append, List.tail_cons, commentEnd?_append _ hend]
            exact h
  rw [if_neg hcomment] at h ⊢
  by_cases hline : c = '/' ∧ cs.head? = some '/'
  · rw [if_pos hline] at h ⊢
    rw [Lexeme.run_lineFeed bs (by decide)]
    exact h
  rw [if_neg hline] at h ⊢
  by_cases hquote : c = '"' ∨ c = '\''
  · rw [if_pos hquote] at h ⊢
    have hplain : c ≠ '\\' := by rcases hquote with rfl | rfl <;> decide
    cases hend : stringEnd? c cs with
    | none =>
        rw [hend] at h
        cases h
        exact absurd (List.mem_cons_of_mem _ (List.mem_cons_self ..)) (hclosed _ rfl)
    | some m =>
        rw [hend] at h
        obtain ⟨text, rest, rfl, rfl⟩ := of_stringEnd? hend
        rw [stringEnd?_append _ hplain hend]
        simp only [List.append_assoc, List.take_left] at h ⊢
        exact h
  rw [if_neg hquote] at h ⊢
  by_cases hfile : c = '<' ∧ expectsFile
  · rw [if_pos hfile] at h ⊢
    simp only [takeWhile_lineFeed bs (p := fun d => d ≠ '>' && d ≠ '\n') (by decide)] at h ⊢
    have hname := (List.takeWhile_sublist (fun d => d ≠ '>' && d ≠ '\n') (l := cs)).length_le
    simp only [getElem?_lineFeed bs (c := '>') (by decide) hname]
    exact h
  rw [if_neg hfile] at h ⊢
  rw [← List.cons_append, lexeme_closed (Lexeme.closed_lineFeed bs) (List.cons_ne_nil c cs)
    fun _ => Lexeme.symbol?_lineFeed bs (c :: cs)]
  exact h

/-- What is no blank begins with none. -/
theorem isBlank_of_first {expectsFile : Bool} {c : Char} {cs : List Char} {piece : Piece} {n : Nat}
    (h : first expectsFile c cs = (piece, n)) (hpiece : piece ≠ .blank) : isBlank c = false := by
  cases hc : isBlank c with
  | false => rfl
  | true =>
      rw [first_blank hc] at h
      exact absurd (Prod.mk.inj h).1.symm hpiece

/-- The characters of a piece are those of the text, not of what stands behind it. -/
theorem take_first {expectsFile : Bool} {c : Char} {cs : List Char} {piece : Piece} {n : Nat}
    (h : first expectsFile c cs = (piece, n)) (ds : List Char) :
    (c :: (cs ++ ds)).take n = (c :: cs).take n := by
  have hcut := cut_first expectsFile c cs
  rw [h] at hcut
  show ((c :: cs) ++ ds).take n = _
  exact List.take_append_of_le_length hcut.inside

/-- A piece is cut off the text, not off what stands behind it. -/
theorem drop_first {expectsFile : Bool} {c : Char} {cs ds : List Char} {piece : Piece} {n : Nat}
    (h : first expectsFile c cs = (piece, n)) :
    (cs ++ ds).drop (n - 1) = cs.drop (n - 1) ++ ds := by
  have hcut := cut_first expectsFile c cs
  rw [h] at hcut
  have hinside := hcut.inside
  simp only [List.length_cons] at hinside
  exact List.drop_append_of_le_length (by omega)

end Piece

namespace Cuts

variable {last : Option TokenKind} {cs bs : List Char} {found more : List (TokenKind × String)}

/-- Blanks more before a text change nothing. -/
theorem behindBlanks {written : List Char} (hw : ∀ c ∈ written, Piece.isBlank c)
    (h : Cuts last cs found) :
    Cuts last (written ++ cs) found := by
  induction written with
  | nil => exact h
  | cons c written ih =>
      exact .behindBlank (hw c (List.mem_cons_self ..))
        (ih fun d hd => hw d (List.mem_cons_of_mem _ hd))

/-- A text, a line feed and a second text that is cut in one way whatever the first text
ends with. -/
theorem join (h : Cuts last cs found) (hb : ∀ k, Cuts k bs more) :
    Cuts last (cs ++ '\n' :: bs) (found ++ more) := by
  induction h with
  | @done last => exact .behindBlank rfl (hb last)
  | @blank last c cs n found hfirst hrest ih =>
      cases hc : Piece.isBlank c with
      | true =>
          -- The blanks at the end of a text are one piece with those behind it.
          rw [Piece.first_blank hc] at hfirst
          obtain rfl := (Prod.mk.inj hfirst).2
          rw [Nat.add_sub_cancel_left] at ih
          have hjoined := behindBlanks (Piece.isBlank_of_mem_run hc cs) ih
          rwa [← List.append_assoc, ← Lexeme.take_run, List.cons_append, List.take_append_drop]
            at hjoined
      | false =>
          rw [List.cons_append]
          refine .blank (Piece.first_lineFeed bs hc hfirst nofun) ?_
          rw [Piece.drop_first hfirst]
          exact ih
  | @token last c cs k t n found hfirst hrest ih =>
      have hc := Piece.isBlank_of_first hfirst nofun
      rw [List.cons_append, List.cons_append]
      refine .token (Piece.first_lineFeed bs hc hfirst nofun) ?_
      rw [Piece.drop_first hfirst]
      exact ih

end Cuts

/-- The kinds that a `<` is read as where no file is expected. -/
def opensAngle (k : TokenKind) : Bool := k = .symbol .less || k = .symbol .lessEqual

namespace Piece

theorem first_of_ne {c : Char} (hc : c ≠ '<') (e e' : Bool) (cs : List Char) :
    first e c cs = first e' c cs := by
  simp only [first, hc, false_and, if_false]

/-- Where no file is expected, a `<` is a sign. -/
theorem first_angle (cs : List Char) :
    ∃ k t n, first false '<' cs = (.token k t, n) ∧ opensAngle k := by
  have hfirst : first false '<' cs = lexeme ('<' :: cs) := by simp [first, isBlank]
  rw [hfirst]
  by_cases hmeets : cs.head? = some '='
  · cases cs with
    | nil => cases hmeets
    | cons d cs =>
        obtain rfl := Option.some.inj hmeets
        exact ⟨_, _, _, lexeme_symbol (s := .lessEqual) trivial, rfl⟩
  · exact ⟨_, _, _, lexeme_symbol (s := .less) hmeets, rfl⟩

end Piece

/-- A text that does not begin with a `<` is cut in one way whatever stands before it. -/
theorem Cuts.behind {cs : List Char} {found : List (TokenKind × String)} (h : Cuts none cs found)
    (hfound : ∀ e, found.head? = some e → opensAngle e.1 = false) (last : Option TokenKind) :
    Cuts last cs found := by
  have hcuts : ∀ before, Cuts before cs found → before = none → Cuts last cs found := by
    clear h
    intro before h
    induction h with
    | done => exact fun _ => .done
    | @blank before c cs n found hfirst _ ih =>
        rintro rfl
        have hc : c ≠ '<' := by
          rintro rfl
          obtain ⟨k, t, m, hangle, -⟩ := Piece.first_angle cs
          cases hangle.symm.trans hfirst
        exact .blank ((Piece.first_of_ne hc _ _ cs).trans hfirst) (ih hfound rfl)
    | @token before c cs k t n found hfirst hrest _ =>
        rintro rfl
        have hc : c ≠ '<' := by
          rintro rfl
          obtain ⟨k', t', m, hangle, hopens⟩ := Piece.first_angle cs
          cases hangle.symm.trans hfirst
          exact absurd (hfound _ rfl) (by simp [hopens])
        exact .token ((Piece.first_of_ne hc _ _ cs).trans hfirst) hrest
  exact hcuts none h rfl

/-- A text that is scanned without a fault is cut. -/
theorem cuts_of_scanFrom (origin : String) (last : Option TokenKind) (place : Position)
    (cs : List Char) (h : (scanFrom origin last place cs).1.filterMap Scanned.fault? = []) :
    Cuts last cs (((scanFrom origin last place cs).1.filterMap Scanned.token?).map fun t =>
      (t.kind, t.text)) := by
  fun_induction scanFrom origin last place cs with
  | case1 place => exact .done
  | case2 last place c cs length next rest hfirst ih => exact .blank hfirst (ih h)
  | case3 last place c cs length next span rest kind text found stop hscan hfirst ih =>
      rw [hscan] at ih
      exact .token hfirst (ih h)
  | case4 last place c cs length next span rest message found stop hscan hfirst ih => cases h

/-- A text that is cut is found to have the tokens that it is cut into, and no fault. -/
theorem tokenize_of_cuts {text : String} {found : List (TokenKind × String)}
    (h : Cuts none text.toList found) (origin : String) :
    (tokenize text origin).faults = [] ∧ ∃ ts mark,
      (tokenize text origin).tokens = ts ++ [mark] ∧
        ts.map (fun t => (t.kind, t.text)) = found := by
  obtain ⟨ts, hts, hfound⟩ := h.scanFrom origin .start
  obtain ⟨whole, mark, hwhole, -⟩ := tokenize_isTextOf text origin
  have hsame : (scanFrom origin none .start text.toList).1.filterMap Scanned.token? = whole :=
    (List.append_inj' hwhole rfl).1
  rw [hts, List.filterMap_map, show Scanned.token? ∘ Scanned.token = some from rfl,
    List.filterMap_some] at hsame
  refine ⟨?_, ts, mark, hsame ▸ hwhole, hfound⟩
  show (scanFrom origin none .start text.toList).1.filterMap Scanned.fault? = []
  rw [hts, List.filterMap_map]
  exact List.filterMap_eq_nil_iff.2 fun t _ => rfl

/-- Two texts without faults, the second not begun with a `<`, and a line feed between them. -/
theorem tokenize_join {a b origin origin' : String} {ts us : List Token} {mark mark' : Token}
    (ha : (tokenize a origin).faults = []) (hb : (tokenize b origin').faults = [])
    (hts : (tokenize a origin).tokens = ts ++ [mark])
    (hus : (tokenize b origin').tokens = us ++ [mark'])
    (hhead : ∀ t, us.head? = some t → opensAngle t.kind = false) (origin'' : String) :
    (tokenize (a ++ "\n" ++ b) origin'').faults = [] ∧
      ∃ ts' us' mark'', (tokenize (a ++ "\n" ++ b) origin'').tokens = ts' ++ us' ++ [mark''] ∧
        ts'.map (fun t => (t.kind, t.text)) = ts.map (fun t => (t.kind, t.text)) ∧
        us'.map (fun t => (t.kind, t.text)) = us.map (fun t => (t.kind, t.text)) := by
  have hfirst := cuts_of_scanFrom origin none .start a.toList ha
  have hsecond := cuts_of_scanFrom origin' none .start b.toList hb
  rw [(List.append_inj' hts rfl).1] at hfirst
  rw [(List.append_inj' hus rfl).1] at hsecond
  have hnext : ∀ e, (us.map fun t => (t.kind, t.text)).head? = some e → opensAngle e.1 = false := by
    intro e he
    rw [List.head?_map] at he
    obtain ⟨t, ht, rfl⟩ := Option.map_eq_some_iff.1 he
    exact hhead t ht
  have hjoined := hfirst.join (hsecond.behind hnext)
  have htext : (a ++ "\n" ++ b).toList = a.toList ++ '\n' :: b.toList := by
    rw [String.toList_append, String.toList_append, List.append_assoc]
    rfl
  rw [← htext] at hjoined
  obtain ⟨hfaults, whole, mark'', hwhole, hspelled⟩ := tokenize_of_cuts hjoined origin''
  obtain ⟨ts', us', rfl, hts', hus'⟩ := List.map_eq_append_iff.1 hspelled
  exact ⟨hfaults, ts', us', mark'', hwhole, hts', hus'⟩

end Scad
