import Scad.Proofs.Token.Join

/-! What is cut off a text does not depend on what stands behind it, nor on what stands before it.
So some of the tokens of a text, one behind the other, are the tokens of the text from the first to
the last of them. -/
namespace Scad

open Text (isDecimalDigit isHexDigit)

/-- A text up to some place behind a character of it. -/
theorem take_append_cons {α : Type} (l cs : List α) (c : α) {n : Nat} (h : l.length < n) :
    (l ++ c :: cs).take n = l ++ c :: cs.take (n - (l.length + 1)) := by
  obtain ⟨k, rfl⟩ := Nat.exists_eq_add_of_lt h
  have hbehind : l.length + k + 1 - (l.length + 1) = k := by omega
  rw [hbehind, Nat.add_assoc, List.take_length_add_append, List.take_succ_cons]

namespace Lexeme

variable {cs : List Char} {n : Nat}

theorem run_take {p : Char → Bool} (h : run p cs ≤ n) : run p (cs.take n) = run p cs := by
  induction cs generalizing n with
  | nil => rw [List.take_nil]
  | cons c cs ih =>
      cases hc : p c with
      | false =>
          cases n with
          | zero => simp [run, hc]
          | succ n => simp [run, hc]
      | true =>
          have hrun : ∀ ds, run p (c :: ds) = run p ds + 1 := fun ds => by simp [run, hc]
          rw [hrun] at h ⊢
          obtain ⟨k, rfl⟩ := Nat.exists_eq_add_of_le' (Nat.le_trans (Nat.le_add_left ..) h)
          rw [List.take_succ_cons, hrun, ih (Nat.le_of_succ_le_succ h)]

theorem identifierLength_take (h : identifierLength cs ≤ n) :
    identifierLength (cs.take n) = identifierLength cs := by
  cases cs with
  | nil => rw [List.take_nil]
  | cons c cs =>
      cases n with
      | zero => exact (Nat.le_zero.1 h).symm
      | succ n =>
          by_cases hc : c = '$'
          · subst hc
            have hrun : run isWordChar cs ≤ n := by
              rw [identifierLength] at h
              split at h <;> omega
            rw [List.take_succ_cons, identifierLength, identifierLength, run_take hrun]
          · rw [identifierLength_of_ne hc] at h ⊢
            rw [List.take_succ_cons, identifierLength_of_ne hc, ← List.take_succ_cons, run_take h]

theorem hexLength_take (h : hexLength cs ≤ n) : hexLength (cs.take n) = hexLength cs := by
  match cs, n with
  | [], _ => rw [List.take_nil]
  | _ :: _, 0 => exact (Nat.le_zero.1 h).symm
  | [c], n + 1 => rw [List.take_succ_cons, List.take_nil]
  | c :: x :: cs, n + 1 =>
      by_cases hc : c = '0'
      · subst hc
        rw [hexLength] at h ⊢
        cases n with
        | zero =>
            split at h
            · omega
            · rename_i hnone
              rw [if_neg hnone]
              rfl
        | succ n =>
            have hrun : (x = 'x' ∨ x = 'X') → run isHexDigit cs ≤ n := by
              intro hx
              split at h
              · omega
              · rename_i hnone
                have hzero : run isHexDigit cs = 0 := by simpa [hx] using hnone
                omega
            rw [List.take_succ_cons, List.take_succ_cons, hexLength]
            by_cases hx : x = 'x' ∨ x = 'X'
            · rw [run_take (hrun hx)]
            · simp [hx]
      · rw [List.take_succ_cons, hexLength_of_ne hc, hexLength_of_ne hc]

theorem significandLength_take (h : significandLength cs ≤ n) :
    significandLength (cs.take n) = significandLength cs := by
  have hwhole : run isDecimalDigit cs ≤ n := by
    simp only [significandLength] at h
    split at h
    · split at h <;> omega
    · exact h
  simp only [significandLength] at h ⊢
  rw [run_take hwhole, List.drop_take]
  cases hrest : cs.drop (run isDecimalDigit cs) with
  | nil => rw [List.take_nil]
  | cons c rest =>
      rw [hrest] at h
      cases hk : n - run isDecimalDigit cs with
      | zero =>
          by_cases hc : c = '.'
          · subst hc
            simp only [List.take_zero] at h ⊢
            split at h
            · rename_i hnone
              rw [if_pos hnone, hnone.1]
            · omega
          · simp [hc]
      | succ k =>
          rw [List.take_succ_cons]
          by_cases hc : c = '.'
          · subst hc
            have hfraction : run isDecimalDigit rest ≤ k := by
              simp only at h
              split at h <;> omega
            simp only [run_take hfraction]
          · simp [hc]

theorem exponentLength_take (h : exponentLength cs ≤ n) :
    exponentLength (cs.take n) = exponentLength cs := by
  match cs, n with
  | [], _ => rw [List.take_nil]
  | _ :: _, 0 => exact (Nat.le_zero.1 h).symm
  | [e], n + 1 => rw [List.take_succ_cons, List.take_nil]
  | e :: s :: cs, n + 1 =>
      by_cases he : e = 'e' ∨ e = 'E'
      · have hdigits : run isDecimalDigit ((s :: cs).drop (if s = '+' ∨ s = '-' then 1 else 0)) ≤
            n - (if s = '+' ∨ s = '-' then 1 else 0) := by
          simp only [exponentLength, if_pos he] at h
          generalize (if s = '+' ∨ s = '-' then 1 else 0) = sign at h ⊢
          split at h <;> omega
        cases n with
        | zero =>
            rw [Nat.zero_sub, Nat.le_zero] at hdigits
            simp only [List.take_succ_cons, List.take_zero, exponentLength, if_pos he, hdigits]
            rfl
        | succ n =>
            simp only [List.take_succ_cons, exponentLength, if_pos he]
            rw [← List.take_succ_cons, List.drop_take, run_take hdigits]
      · simp only [List.take_succ_cons, exponentLength, if_neg he]

theorem numberLength_take (h : numberLength cs ≤ n) :
    numberLength (cs.take n) = numberLength cs := by
  have hhex : hexLength cs ≤ n := by
    rw [numberLength] at h
    split at h <;> omega
  rw [numberLength, numberLength, hexLength_take hhex]
  split
  · rename_i hnone
    rw [numberLength, if_pos hnone] at h
    simp only [decimalLength] at h ⊢
    have hsignificand : significandLength cs ≤ n := by split at h <;> omega
    rw [significandLength_take hsignificand, List.drop_take]
    split
    · rfl
    · rename_i hsome
      rw [if_neg hsome] at h
      rw [exponentLength_take (Nat.le_sub_of_add_le' h)]
  · rfl

theorem symbol?_take {s : Symbol} (h : symbol? cs = some s) (hn : s.text.toList.length ≤ n) :
    symbol? (cs.take n) = some s := by
  obtain ⟨hfits, before, behind, hall, hnone⟩ := List.find?_eq_some_iff_append.1 h
  refine List.find?_eq_some_iff_append.2 ⟨?_, before, behind, hall, fun r hr => ?_⟩
  · rw [List.isPrefixOf_iff_prefix] at hfits ⊢
    exact List.prefix_take_iff.2 ⟨hfits, hn⟩
  · have hr := hnone r hr
    rw [Bool.not_eq_true', Bool.eq_false_iff, Ne, List.isPrefixOf_iff_prefix] at hr ⊢
    exact fun hbegins => hr (hbegins.trans (List.take_prefix ..))

end Lexeme

namespace Piece

variable {cs : List Char} {piece : Piece} {m n : Nat}

theorem lexeme_take (h : lexeme cs = (piece, m)) (hsound : ∀ x, piece ≠ .fault x) (hm : m ≤ n) :
    lexeme (cs.take n) = (piece, m) := by
  have hlengths : Lexeme.identifierLength cs ≤ n ∧ Lexeme.numberLength cs ≤ n := by
    simp only [lexeme] at h
    split at h
    · obtain rfl := (Prod.mk.inj h).2
      omega
    · split at h
      · have hlength : Lexeme.identifierLength cs = m := by
          split at h <;> exact (Prod.mk.inj h).2
        omega
      · omega
  have hcut : ∀ k ≤ m, (cs.take n).take k = cs.take k := fun k hk => by
    rw [List.take_take, Nat.min_eq_left (Nat.le_trans hk hm)]
  simp only [lexeme, Lexeme.identifierLength_take hlengths.1, Lexeme.numberLength_take hlengths.2]
    at h ⊢
  split at h
  · rename_i hnumber
    obtain ⟨-, rfl⟩ := Prod.mk.inj h
    rw [if_pos hnumber, hcut _ (Nat.le_refl _)]
    exact h
  rename_i hnumber
  rw [if_neg hnumber]
  split at h
  · rename_i hword
    have hlength : Lexeme.identifierLength cs = m := by
      split at h <;> exact (Prod.mk.inj h).2
    rw [if_pos hword, hcut _ (Nat.le_of_eq hlength)]
    exact h
  rename_i hword
  rw [if_neg hword]
  cases hsymbol : Lexeme.symbol? cs with
  | some s =>
      rw [hsymbol] at h
      obtain ⟨-, rfl⟩ := Prod.mk.inj h
      rw [Lexeme.symbol?_take hsymbol (String.length_toList ▸ hm)]
      exact h
  | none =>
      rw [hsymbol] at h
      exact absurd (Prod.mk.inj h).1.symm (hsound _)

theorem commentEnd?_take (h : commentEnd? cs = some m) (hm : m ≤ n) :
    commentEnd? (cs.take n) = some m := by
  fun_induction commentEnd? cs generalizing m n with
  | case1 => cases h
  | case2 rest =>
      obtain rfl := Option.some.inj h
      obtain ⟨k, rfl⟩ := Nat.exists_eq_add_of_le' hm
      rfl
  | case3 c cs hend ih =>
      obtain ⟨k, hk, rfl⟩ := Option.map_eq_some_iff.1 h
      obtain ⟨n, rfl⟩ := Nat.exists_eq_add_of_le' (Nat.le_trans (Nat.le_add_left ..) hm)
      rw [List.take_succ_cons, commentEnd?, ih hk (Nat.le_of_succ_le_succ hm)]
      · rfl
      · rintro rest rfl hrest
        cases cs with
        | nil => cases hk
        | cons d cs =>
            cases n with
            | zero => cases hrest
            | succ n => exact hend cs rfl (congrArg (· :: cs) (List.cons.inj hrest).1)

/-- What begins a text begins what is left of it. -/
theorem head?_of_take {c : Char} (h : (cs.take n).head? = some c) : cs.head? = some c := by
  cases cs with
  | nil => rwa [List.take_nil] at h
  | cons d cs =>
      cases n with
      | zero => cases h
      | succ n => exact h

theorem first_comment (expectsFile : Bool) (cs : List Char) : first expectsFile '/' ('*' :: cs) =
    match commentEnd? cs with
    | some n => (blank, 2 + n)
    | none => (fault "unterminated block comment", 1 + ('*' :: cs).length) := rfl

theorem first_line (expectsFile : Bool) (cs : List Char) :
    first expectsFile '/' ('/' :: cs) = (blank, 1 + Lexeme.run (· ≠ '\n') ('/' :: cs)) := rfl

theorem comment_take {expectsFile : Bool} (h : first expectsFile '/' ('*' :: cs) = (piece, m))
    (hsound : ∀ x, piece ≠ .fault x) (hm : m ≤ n + 1) :
    first expectsFile '/' (('*' :: cs).take n) = (piece, m) := by
  rw [first_comment] at h
  cases hend : commentEnd? cs with
  | none =>
      rw [hend] at h
      exact absurd (Prod.mk.inj h).1.symm (hsound _)
  | some k =>
      rw [hend] at h
      obtain ⟨-, rfl⟩ := Prod.mk.inj h
      obtain ⟨j, rfl⟩ := Nat.exists_eq_add_of_le' (by omega : 1 ≤ n)
      have htake : commentEnd? (cs.take j) = some k := commentEnd?_take hend (by omega)
      rw [List.take_succ_cons, first_comment, htake]
      exact h

theorem line_take {expectsFile : Bool} (h : first expectsFile '/' ('/' :: cs) = (piece, m))
    (hm : m ≤ n + 1) :
    first expectsFile '/' (('/' :: cs).take n) = (piece, m) := by
  rw [first_line] at h
  obtain ⟨-, rfl⟩ := Prod.mk.inj h
  have hrun : Lexeme.run (· ≠ '\n') (('/' :: cs).take n) = Lexeme.run (· ≠ '\n') ('/' :: cs) :=
    Lexeme.run_take (by omega)
  have hpos : 1 ≤ n := by
    simp [Lexeme.run] at hm
    omega
  obtain ⟨j, rfl⟩ := Nat.exists_eq_add_of_le' hpos
  rw [List.take_succ_cons] at hrun ⊢
  rw [first_line, hrun]
  exact h

/-- Faults apart, a piece is found wherever the text ends behind it. -/
theorem first_take {expectsFile : Bool} {c : Char} (h : first expectsFile c cs = (piece, m))
    (hsound : ∀ x, piece ≠ .fault x) (hm : m ≤ n + 1) :
    first expectsFile c (cs.take n) = (piece, m) := by
  by_cases hcomment : c = '/' ∧ cs.head? = some '*'
  · obtain ⟨rfl, hhead⟩ := hcomment
    obtain ⟨cs, rfl⟩ := List.head?_eq_some_iff.1 hhead
    exact comment_take h hsound hm
  by_cases hline : c = '/' ∧ cs.head? = some '/'
  · obtain ⟨rfl, hhead⟩ := hline
    obtain ⟨cs, rfl⟩ := List.head?_eq_some_iff.1 hhead
    exact line_take h hm
  simp only [first, hcomment, hline, if_false] at h
  split at h
  · rename_i hblank
    obtain ⟨-, rfl⟩ := Prod.mk.inj h
    rw [first_blank hblank, Lexeme.run_take (by omega)]
    exact h
  rename_i hblank
  split at h
  · rename_i hquote
    cases hend : stringEnd? c cs with
    | none =>
        rw [hend] at h
        exact absurd (Prod.mk.inj h).1.symm (hsound _)
    | some k =>
        rw [hend] at h
        have hinside := Inside.of_stringEnd? hend
        obtain ⟨text, rest, rfl, rfl⟩ := of_stringEnd? hend
        simp only [List.take_left] at h hinside
        obtain ⟨-, rfl⟩ := Prod.mk.inj h
        rw [take_append_cons _ _ _ (by omega), first_string hquote hinside]
        exact h
  rename_i hquote
  split at h
  · rename_i hfile
    obtain ⟨rfl, rfl⟩ := hfile
    split at h
    · rename_i hclose
      obtain ⟨-, rfl⟩ := Prod.mk.inj h
      obtain ⟨rest, hrest⟩ := eq_append_of_getElem?_takeWhile hclose
      have hname : ∀ d ∈ cs.takeWhile (fun d => d ≠ '>' && d ≠ '\n'), d ≠ '>' ∧ d ≠ '\n' :=
        fun d hd => by
        simpa using List.all_eq_true.1 List.all_takeWhile d hd
      generalize cs.takeWhile (fun d => d ≠ '>' && d ≠ '\n') = name at *
      subst hrest
      rw [take_append_cons _ _ _ (by omega), first_file hname]
      exact h
    · exact absurd (Prod.mk.inj h).1.symm (hsound _)
  rename_i hfile
  have hlexeme := lexeme_take h hsound hm
  rw [List.take_succ_cons] at hlexeme
  rw [first, if_neg hblank, if_neg (fun hc => hcomment ⟨hc.1, head?_of_take hc.2⟩),
    if_neg (fun hc => hline ⟨hc.1, head?_of_take hc.2⟩), if_neg hquote, if_neg hfile]
  exact hlexeme

end Piece

namespace Piece

/-- Where a file is expected, a `<` is nothing else. -/
theorem first_true_angle {cs : List Char} {piece : Piece} {n : Nat}
    (h : first true '<' cs = (piece, n)) :
    (∃ t, piece = .token .file t) ∨ ∃ m, piece = .fault m := by
  have hfile : first true '<' cs = if cs[(cs.takeWhile fun d => d ≠ '>' && d ≠ '\n').length]? =
      some '>' then _ else _ :=
    rfl
  rw [hfile] at h
  split at h <;> obtain ⟨rfl, -⟩ := Prod.mk.inj h
  · exact .inl ⟨_, rfl⟩
  · exact .inr ⟨_, rfl⟩

end Piece

namespace Cuts

variable {last : Option TokenKind} {c : Char} {cs : List Char} {found : List (TokenKind × String)}
  {m n : Nat}

/-- What is no file reference is read in one way behind any token and behind none. -/
theorem alone (h : Cuts last cs found) (hfound : ∀ e, found.head? = some e → e.1 ≠ .file) :
    Cuts none cs found := by
  have hfirst : ∀ {last : Option TokenKind} {c cs piece n},
    Piece.first (last.any TokenKind.expectsFile) c cs = (piece, n) →
      (∀ t, piece ≠ .token .file t) → (∀ x, piece ≠ .fault x) →
      Piece.first false c cs = (piece, n) := by
    intro last c cs piece n h hfile hsound
    by_cases hc : c = '<'
    · subst hc
      cases hlast : last.any TokenKind.expectsFile with
      | false => rwa [hlast] at h
      | true =>
          rw [hlast] at h
          rcases Piece.first_true_angle h with ⟨t, ht⟩ | ⟨x, hx⟩
          · exact absurd ht (hfile t)
          · exact absurd hx (hsound x)
    · exact (Piece.first_of_ne hc _ _ cs).trans h
  induction h with
  | done => exact .done
  | blank hblank _ ih => exact .blank (hfirst hblank nofun nofun) (ih hfound)
  | @token last c cs k t n found htoken hrest _ =>
      refine .token (hfirst htoken (fun t' ht' => ?_) nofun) hrest
      exact hfound _ rfl (Piece.token.inj ht').1

/-- A piece and some of the text behind it. -/
theorem take_add (cs : List Char) (n : Nat) (hm : 0 < m) :
    (c :: cs).take (m + n) = c :: cs.take (m - 1 + n) ∧
      (cs.take (m - 1 + n)).drop (m - 1) = (cs.drop (m - 1)).take n := by
  obtain ⟨k, rfl⟩ := Nat.exists_eq_add_of_le' hm
  refine ⟨?_, ?_⟩
  · rw [Nat.add_right_comm, List.take_succ_cons, Nat.add_sub_cancel]
  · rw [List.drop_take, Nat.add_sub_cancel_left]

theorem blank_take (hfirst : Piece.first (last.any TokenKind.expectsFile) c cs = (.blank, m))
    (h : Cuts last ((cs.drop (m - 1)).take n) found) :
    Cuts last ((c :: cs).take (m + n)) found := by
  have hpos : 0 < m := (hfirst ▸ Piece.cut_first _ c cs :).positive
  obtain ⟨htake, hdrop⟩ := take_add (c := c) cs n hpos
  rw [htake]
  exact .blank (Piece.first_take hfirst nofun (by omega)) (hdrop ▸ h)

theorem token_take {k : TokenKind} {t : List Char}
    (hfirst : Piece.first (last.any TokenKind.expectsFile) c cs = (.token k t, m))
    (h : Cuts (some k) ((cs.drop (m - 1)).take n) found) :
    Cuts last ((c :: cs).take (m + n)) ((k, String.ofList t) :: found) := by
  have hpos : 0 < m := (hfirst ▸ Piece.cut_first _ c cs :).positive
  obtain ⟨htake, hdrop⟩ := take_add (c := c) cs n hpos
  rw [htake]
  exact .token (Piece.first_take hfirst nofun (by omega)) (hdrop ▸ h)

end Cuts

/-- Behind a piece, a text goes on as many characters further as the piece has. -/
theorem Piece.offset_first (place : Position) {expectsFile : Bool} {c : Char} {cs : List Char}
    {piece : Piece} {n : Nat} (h : first expectsFile c cs = (piece, n)) :
    (place.advanceAll ((c :: cs).take n)).offset = place.offset + n := by
  have hinside := (h ▸ cut_first _ c cs :).inside
  rw [Position.offset_advanceAll, List.length_take_of_le hinside]

/-- The first tokens of a text are the tokens of the text up to the end of the last of them. -/
theorem cuts_take_of_scanFrom (origin : String) (last : Option TokenKind) (place : Position)
    (cs : List Char) (hfaults : (scanFrom origin last place cs).1.filterMap Scanned.fault? = [])
    {us behind : List Token} {v : Token}
    (htokens : (scanFrom origin last place cs).1.filterMap Scanned.token? = us ++ behind)
    (hlast : us.getLast? = some v) : ∃ n : Nat, v.span.stop.offset = place.offset + n ∧
      Cuts last (cs.take n) (us.map fun t => (t.kind, t.text)) := by
  fun_induction scanFrom origin last place cs generalizing us with
  | case1 place =>
      obtain rfl := (List.append_eq_nil_iff.1 htokens.symm).1
      cases hlast
  | case2 last place c cs length next rest hfirst =>
      rename_i ih
      obtain ⟨n, hn, hcuts⟩ := ih hfaults htokens hlast
      refine ⟨length + n, ?_, .blank_take hfirst hcuts⟩
      rw [hn, Piece.offset_first place hfirst]
      omega
  | case3 last place c cs length next span rest kind text found stop hscan hfirst =>
      rename_i ih
      rw [hscan] at ih
      cases us with
      | nil => cases hlast
      | cons t us =>
          obtain ⟨rfl, hfound⟩ := List.cons.inj htokens
          cases us with
          | nil =>
              obtain rfl := Option.some.inj hlast
              refine ⟨length + 0, Piece.offset_first place hfirst, .token_take hfirst ?_⟩
              rw [List.take_zero]
              exact .done
          | cons u us =>
              obtain ⟨n, hn, hcuts⟩ := ih hfaults hfound (List.getLast?_cons_cons ▸ hlast)
              refine ⟨length + n, ?_, .token_take hfirst hcuts⟩
              rw [hn, Piece.offset_first place hfirst]
              omega
  | case4 => cases hfaults

/-- Tokens one behind the other in a text are the tokens of the text from the first to the
last of them. -/
theorem cuts_slice_of_scanFrom (origin : String) (last : Option TokenKind) (place : Position)
    (cs : List Char) (hfaults : (scanFrom origin last place cs).1.filterMap Scanned.fault? = [])
    {before us behind : List Token} {u v : Token}
    (htokens : (scanFrom origin last place cs).1.filterMap Scanned.token? =
      before ++ (us ++ behind))
    (hhead : us.head? = some u) (hlast : us.getLast? = some v) :
    ∃ (k : Option TokenKind) (m n : Nat), u.span.start.offset = place.offset + m ∧
      v.span.stop.offset = u.span.start.offset + n ∧
      Cuts k ((cs.drop m).take n) (us.map fun t => (t.kind, t.text)) := by
  have hshift : ∀ {e c cs piece length k} {m n : Nat}, Piece.first e c cs = (piece, length) →
      Cuts k (((cs.drop (length - 1)).drop m).take n) (us.map fun t => (t.kind, t.text)) →
      Cuts k (((c :: cs).drop (length + m)).take n) (us.map fun t => (t.kind, t.text)) := by
    intro e c cs piece length k m n hfirst hcuts
    rw [← List.drop_drop, List.drop_cons (hfirst ▸ Piece.cut_first _ c cs :).positive]
    exact hcuts
  fun_induction scanFrom origin last place cs generalizing before with
  | case1 place =>
      obtain rfl := (List.append_eq_nil_iff.1 (List.append_eq_nil_iff.1 htokens.symm).2).1
      cases hlast
  | case2 last place c cs length next rest hfirst =>
      rename_i ih
      obtain ⟨k, m, n, hm, hn, hcuts⟩ := ih hfaults htokens
      refine ⟨k, length + m, n, ?_, hn, hshift hfirst hcuts⟩
      rw [hm, Piece.offset_first place hfirst]
      omega
  | case3 last place c cs length next span rest kind text found stop hscan hfirst =>
      rename_i ih
      cases before with
      | nil =>
          -- The first of the tokens is the one that stands here.
          have hwhole : scanFrom origin last place (c :: cs) =
              (.token ⟨kind, String.ofList text, span⟩ :: found, stop) := by
            rw [scanFrom, hfirst]
            simp only [hscan, rest, next, span]
          rw [← hwhole] at hfaults htokens
          rw [List.nil_append] at htokens
          obtain ⟨n, hn, hcuts⟩ :=
            cuts_take_of_scanFrom origin last place (c :: cs) hfaults htokens hlast
          obtain ⟨more, rfl⟩ := List.head?_eq_some_iff.1 hhead
          rw [hwhole] at htokens
          obtain ⟨rfl, -⟩ := List.cons.inj htokens
          exact ⟨last, 0, n, (Int.add_zero _).symm, hn, hcuts⟩
      | cons t before =>
          rw [hscan] at ih
          obtain ⟨k, m, n, hm, hn, hcuts⟩ := ih hfaults (List.cons.inj htokens).2
          refine ⟨k, length + m, n, ?_, hn, hshift hfirst hcuts⟩
          rw [hm, Piece.offset_first place hfirst]
          omega
  | case4 => cases hfaults

/-- Tokens one behind the other, the first of them no file, are found as well in the text that is
cut out from the first to the last of them. -/
theorem tokenize_slice {text origin : String} (hfaults : (tokenize text origin).faults = [])
    {before us behind : List Token} {u v mark : Token}
    (htokens : (tokenize text origin).tokens = before ++ (us ++ behind) ++ [mark])
    (hhead : us.head? = some u) (hlast : us.getLast? = some v) (hfile : u.kind ≠ .file)
    (origin' : String) :
    (tokenize (String.ofList (slice text.toList u.span.start.offset v.span.stop.offset))
      origin').faults = [] ∧ ∃ vs mark',
        (tokenize (String.ofList (slice text.toList u.span.start.offset v.span.stop.offset))
        origin').tokens =
          vs ++ [mark'] ∧ vs.map (fun t => (t.kind, t.text)) = us.map fun t =>
            (t.kind, t.text) := by
  obtain ⟨k, m, n, hm, hn, hcuts⟩ := cuts_slice_of_scanFrom origin none .start text.toList hfaults
    (List.append_inj' htokens rfl).1 hhead hlast
  have hslice : slice text.toList u.span.start.offset v.span.stop.offset =
      (text.toList.drop m).take n := by
    have hstart : u.span.start.offset = m := hm.trans (Int.zero_add _)
    rw [slice, hn, hstart, Int.toNat_natCast, Int.add_comm, Int.add_sub_cancel, Int.toNat_natCast]
  refine tokenize_of_cuts ?_ origin'
  rw [String.toList_ofList, hslice]
  refine hcuts.alone fun e he => ?_
  rw [List.head?_map, hhead] at he
  cases he
  exact hfile

end Scad
