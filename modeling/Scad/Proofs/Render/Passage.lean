import Scad.Proofs.Render.Laid
import Scad.Proofs.Token.Join

/-! Passages of a text that a scanner cuts to the same tokens wherever they stand, as long as what
follows them does not go on with them. Unlike a layout, a passage may be the text of a tree whose
tokens are known only as a whole. -/
namespace Scad

open Lexeme (Delimited Closed IsNumeral EndsNumeral Meets)

namespace Cuts

variable {last last' : Option TokenKind} {cs : List Char} {found found' : List (TokenKind × String)}

/-- Of what stands before a text it matters only whether a file is expected. -/
theorem of_expects (h : Cuts last cs found)
    (he : last'.any TokenKind.expectsFile = last.any TokenKind.expectsFile) :
    Cuts last' cs found := by
  induction h generalizing last' with
  | done => exact .done
  | blank hfirst _ ih => exact .blank (he ▸ hfirst) (ih he)
  | token hfirst hrest _ => exact .token (he ▸ hfirst) hrest

/-- What the scanner takes at the front is what the text is cut to. -/
theorem of_token {c : Char} {k : TokenKind} {t : List Char} {n : Nat}
    (h : Cuts last (c :: cs) found) (hfirst : Piece.first (last.any TokenKind.expectsFile) c cs =
      (.token k t, n)) :
    ∃ more, found = (k, String.ofList t) :: more ∧ Cuts (some k) (cs.drop (n - 1)) more := by
  cases h with
  | blank hfirst' _ =>
      rw [hfirst] at hfirst'
      cases hfirst'
  | token hfirst' hrest =>
      rw [hfirst] at hfirst'
      cases hfirst'
      exact ⟨_, rfl, hrest⟩

theorem of_blank {c : Char} {n : Nat} (h : Cuts last (c :: cs) found)
    (hfirst : Piece.first (last.any TokenKind.expectsFile) c cs = (.blank, n)) :
    Cuts last (cs.drop (n - 1)) found := by
  cases h with
  | blank hfirst' hrest =>
      rw [hfirst] at hfirst'
      cases hfirst'
      exact hrest
  | token hfirst' _ =>
      rw [hfirst] at hfirst'
      cases hfirst'

/-- A text is cut in one way. -/
theorem unique (h : Cuts last cs found) (h' : Cuts last cs found') : found = found' := by
  induction h generalizing found' with
  | done =>
      cases h'
      rfl
  | blank hfirst _ ih => exact ih (h'.of_blank hfirst)
  | token hfirst _ ih =>
      obtain ⟨more, rfl, hmore⟩ := h'.of_token hfirst
      rw [ih hmore]

end Cuts

/-- Before whatever may follow it, a passage is cut to certain tokens, and what follows as if it
stood alone. No file is expected where the passage begins. -/
def Scans (follow : List Char → Prop) (written : List Char) (found : List (TokenKind × String)) :
    Prop :=
  ∀ ⦃last cs more⦄, last.any TokenKind.expectsFile = false → follow cs →
    (Cuts last (written ++ cs) (found ++ more) ↔ Cuts none cs more)

namespace Scans

variable {follow follow' : List Char → Prop} {written written' : List Char}
  {found found' : List (TokenKind × String)}

theorem nil : Scans (fun _ => True) [] [] := fun _ _ _ hlast _ =>
  ⟨fun h => h.of_expects hlast.symm, fun h => h.of_expects hlast⟩

/-- A piece that the scanner takes as one token. -/
theorem piece {k : TokenKind} {t : List Char} (hk : k.expectsFile = false)
    (h : ∀ {cs}, follow cs → ∃ c ds, written = c :: ds ∧
      Piece.first false c (ds ++ cs) = (.token k t, written.length)) :
    Scans follow written [(k, String.ofList t)] := by
  intro last cs more hlast hcs
  obtain ⟨c, ds, rfl, hfirst⟩ := h hcs
  rw [← hlast] at hfirst
  have hnext : (some k).any TokenKind.expectsFile =
      (none : Option TokenKind).any TokenKind.expectsFile := hk
  have hdrop : (ds ++ cs).drop ((c :: ds).length - 1) = cs := List.drop_left
  rw [List.cons_append, List.cons_append, List.nil_append]
  constructor
  · intro hcuts
    obtain ⟨rest, hrest, hcuts⟩ := hcuts.of_token hfirst
    obtain rfl := (List.cons.inj hrest).2
    rw [hdrop] at hcuts
    exact hcuts.of_expects hnext.symm
  · intro hcuts
    refine .token hfirst ?_
    rw [hdrop]
    exact hcuts.of_expects hnext

theorem blank {c : Char} (hc : Piece.isBlank c) : Scans (fun _ => True) [c] [] := by
  intro last cs more hlast _
  refine ⟨fun hcuts => ?_, fun hcuts => (hcuts.of_expects hlast).behindBlank hc⟩
  rw [List.singleton_append, List.nil_append] at hcuts
  -- The blanks that follow are of the same piece.
  have hblanks : ∀ c ∈ cs.takeWhile Piece.isBlank, Piece.isBlank c :=
    List.all_eq_true.1 List.all_takeWhile
  have hrest := (hcuts.of_blank (Piece.first_blank hc _ _)).behindBlanks hblanks
  rw [Nat.add_sub_cancel_left, ← Lexeme.take_run, List.take_append_drop] at hrest
  exact hrest.of_expects hlast.symm

theorem mono (h : Scans follow written found) (hfollow : ∀ {cs}, follow' cs → follow cs) :
    Scans follow' written found := by
  intro last cs more hlast hcs
  exact h hlast (hfollow hcs)

/-- A passage before another one. -/
theorem append (h : Scans follow written found) (h' : Scans follow' written' found')
    (hfollow : ∀ {cs}, follow' cs → follow (written' ++ cs)) :
    Scans follow' (written ++ written') (found ++ found') := by
  intro last cs more hlast hcs
  rw [List.append_assoc, List.append_assoc, h hlast (hfollow hcs)]
  exact h' rfl hcs

/-- A passage alone. -/
theorem cuts (h : Scans follow written found) (hfollow : follow []) : Cuts none written found := by
  have hcuts : Cuts none (written ++ []) (found ++ []) := (h rfl hfollow).2 .done
  rwa [List.append_nil, List.append_nil] at hcuts

end Scans

/-- A text, what it is cut to, and what may follow it. -/
structure Passage where
  text : String
  found : List (TokenKind × String)
  follow : List Char → Prop
  scans : Scans follow text.toList found

namespace Passage

def gap : Passage := ⟨" ", [], fun _ => True, .blank rfl⟩

def sign (s : Symbol) : Passage where
  text := s.text
  found := [(.symbol s, s.text)]
  follow := Meets s
  scans := by
    have h := Scans.piece (k := .symbol s) rfl fun {cs} (hcs : Meets s cs) => Piece.first_symbol hcs
    rwa [String.ofList_toList] at h

/-- A keyword, apart from the two that expect a file. -/
def word (w : Keyword) : Passage where
  text := w.text
  found := [(.keyword w, w.text)]
  follow cs := (TokenKind.keyword w).expectsFile = false ∧ Delimited cs
  scans := by
    intro last cs more hlast hcs
    have hpiece : ∀ {cs}, Delimited cs → ∃ c ds, w.text.toList = c :: ds ∧
        Piece.first false c (ds ++ cs) = (.token (.keyword w) w.text.toList,
        w.text.toList.length) := by
      intro cs hcs
      have hfirst := Piece.first_word (isWord_keyword w) hcs false
      simpa only [String.ofList_toList, ofText?_keyword] using hfirst
    have h := Scans.piece hcs.1 hpiece
    rw [String.ofList_toList] at h
    exact h hlast hcs.2

def name (t : String) (ht : IsTextOf .identifier t) : Passage where
  text := t
  found := [(.identifier, t)]
  follow := Delimited
  scans := by
    have h := Scans.piece (k := .identifier) (t := t.toList) rfl fun {cs} (hcs : Delimited cs) => by
      have hfirst := Piece.first_word ht.1 hcs false
      simpa only [String.ofList_toList, ht.2] using hfirst
    rwa [String.ofList_toList] at h

def quoted (t : String) (ht : IsTextOf .string t) : Passage where
  text := quoteString t
  found := [(.string, t)]
  follow := fun _ => True
  scans := by
    obtain ⟨q, hq, hi, htext⟩ := Quotable.quoteString ht
    have hfirst : ∀ {cs}, True → ∃ c ds, (quoteString t).toList = c :: ds ∧
        Piece.first false c (ds ++ cs) =
        (.token .string t.toList, (quoteString t).toList.length) := by
      intro cs _
      refine ⟨q, t.toList ++ [q], htext, ?_⟩
      rw [List.append_assoc, htext]
      simpa using Piece.first_string hq hi false cs
    have h := Scans.piece rfl hfirst
    rwa [String.ofList_toList] at h

def numeral (t : String) (ht : IsNumeral t.toList) : Passage where
  text := t
  found := [(.number, t)]
  follow := EndsNumeral t.toList
  scans := by
    have h := Scans.piece (k := .number) rfl fun {cs} (hcs : EndsNumeral t.toList cs) =>
      Piece.first_number ht hcs false
    rwa [String.ofList_toList] at h

@[simp] theorem text_gap : gap.text = " " := rfl

@[simp] theorem found_gap : gap.found = [] := rfl

@[simp] theorem follow_gap (cs : List Char) : gap.follow cs := trivial

@[simp] theorem text_sign (s : Symbol) : (sign s).text = s.text := rfl

@[simp] theorem found_sign (s : Symbol) : (sign s).found = [(.symbol s, s.text)] := rfl

@[simp] theorem follow_sign (s : Symbol) (cs : List Char) :
    (sign s).follow cs ↔ Meets s cs := Iff.rfl

@[simp] theorem text_word (w : Keyword) : (word w).text = w.text := rfl

@[simp] theorem found_word (w : Keyword) : (word w).found = [(.keyword w, w.text)] := rfl

@[simp] theorem follow_word (w : Keyword) (cs : List Char) :
    (word w).follow cs ↔ (TokenKind.keyword w).expectsFile = false ∧ Delimited cs := Iff.rfl

@[simp] theorem text_name {t : String} (ht) : (name t ht).text = t := rfl

@[simp] theorem found_name {t : String} (ht) : (name t ht).found = [(.identifier, t)] := rfl

@[simp] theorem follow_name {t : String} (ht) (cs : List Char) :
    (name t ht).follow cs ↔ Delimited cs := Iff.rfl

/-! ### Passages one behind the other -/

def textAll : List Passage → String
  | [] => ""
  | p :: ps => p.text ++ textAll ps

def foundAll : List Passage → List (TokenKind × String)
  | [] => []
  | p :: ps => p.found ++ foundAll ps

/-- Every passage may stand before what is behind it. -/
def Fit : List Passage → List Char → Prop
  | [], _ => True
  | p :: ps, cs => p.follow ((textAll ps).toList ++ cs) ∧ Fit ps cs

@[simp] theorem textAll_nil : textAll [] = "" := rfl

@[simp] theorem textAll_cons (p : Passage) (ps : List Passage) :
    textAll (p :: ps) = p.text ++ textAll ps := rfl

@[simp] theorem foundAll_nil : foundAll [] = [] := rfl

@[simp] theorem foundAll_cons (p : Passage) (ps : List Passage) :
    foundAll (p :: ps) = p.found ++ foundAll ps := rfl

@[simp] theorem fit_nil (cs : List Char) : Fit [] cs := trivial

@[simp] theorem fit_cons {p : Passage} {ps : List Passage} {cs : List Char} :
    Fit (p :: ps) cs ↔ p.follow ((textAll ps).toList ++ cs) ∧ Fit ps cs := Iff.rfl

@[simp] theorem textAll_append (ps qs : List Passage) :
    textAll (ps ++ qs) = textAll ps ++ textAll qs := by
  induction ps with
  | nil => simp
  | cons p ps ih => simp only [List.cons_append, textAll_cons, ih, String.append_assoc]

@[simp] theorem foundAll_append (ps qs : List Passage) :
    foundAll (ps ++ qs) = foundAll ps ++ foundAll qs := by
  induction ps with
  | nil => rfl
  | cons p ps ih => simp only [List.cons_append, foundAll_cons, ih, List.append_assoc]

@[simp] theorem fit_append {ps qs : List Passage} {cs : List Char} :
    Fit (ps ++ qs) cs ↔ Fit ps ((textAll qs).toList ++ cs) ∧ Fit qs cs := by
  induction ps with
  | nil => simp
  | cons p ps ih =>
      simp only [List.cons_append, fit_cons, ih, textAll_append, String.toList_append,
        List.append_assoc, and_assoc]

theorem foundAll_eq (ps : List Passage) : foundAll ps = (ps.map found).flatten := by
  induction ps with
  | nil => rfl
  | cons p ps ih => rw [foundAll_cons, ih, List.map_cons, List.flatten_cons]

theorem textAll_eq (ps : List Passage) : textAll ps = String.join (ps.map text) := by
  induction ps with
  | nil => rfl
  | cons p ps ih => rw [textAll_cons, ih, List.map_cons, String.join_cons]

theorem scansAll (ps : List Passage) : Scans (Fit ps) (textAll ps).toList (foundAll ps) := by
  induction ps with
  | nil => exact .nil
  | cons p ps ih =>
      rw [textAll_cons, String.toList_append, foundAll_cons]
      exact p.scans.append (ih.mono And.right) And.left

def join (ps : List Passage) : Passage := ⟨textAll ps, foundAll ps, Fit ps, scansAll ps⟩

def commas : List Passage → List Passage
  | [] => []
  | [p] => [p]
  | p :: q :: ps => p :: sign .comma :: gap :: commas (q :: ps)

theorem text_commas (ps : List Passage) : textAll (commas ps) = commaSeparated (ps.map text) := by
  fun_induction commas ps with
  | case1 => rfl
  | case2 p => simp [commaSeparated]
  | case3 p q ps ih =>
      rw [List.map_cons, List.map_cons, commaSeparated, String.intercalate_cons_cons,
        ← List.map_cons, ← commaSeparated, ← ih]
      simp [← String.toList_inj, Symbol.text]

theorem found_commas (ps : List Passage) :
    foundAll (commas ps) = [(.symbol .comma, ",")].intercalate (ps.map found) := by
  fun_induction commas ps with
  | case1 => rfl
  | case2 p => simp [List.intercalate]
  | case3 p q ps ih => simp [List.intercalate, ih, Symbol.text]

end Passage

/-! ### Parentheses before generators -/

/-- No word that a generator begins with stands behind a parenthesis that opens. One stands before
all of it if `opened` says so. -/
def Ungrouped : Bool → List (TokenKind × String) → Prop
  | _, [] => True
  | opened, e :: es =>
      (opened → Parse.startsGenerator e.1 = false) ∧ Ungrouped (e.1 = .symbol .leftParen) es

namespace Ungrouped

@[simp] theorem nil (opened : Bool) : Ungrouped opened [] := trivial

@[simp] theorem cons {opened : Bool} {e : TokenKind × String} {es : List (TokenKind × String)} :
    Ungrouped opened (e :: es) ↔
      (opened → Parse.startsGenerator e.1 = false) ∧ Ungrouped (e.1 = .symbol .leftParen) es :=
  Iff.rfl

theorem mono {opened : Bool} {es : List (TokenKind × String)} (h : Ungrouped opened es) :
    Ungrouped false es := by
  cases es with
  | nil => exact .nil false
  | cons e es => exact ⟨nofun, h.2⟩

theorem behind {opened : Bool} {es more : List (TokenKind × String)}
    (h : Ungrouped opened (es ++ more)) :
    Ungrouped false more := by
  induction es generalizing opened with
  | nil => exact h.mono
  | cons e es ih => exact ih h.2

end Ungrouped

/-- The passage groups nothing, even behind a parenthesis if `opened` says so, and opens
none itself. -/
def Passage.Ungroups (p : Passage) (opened : Bool) : Prop :=
  ∀ {more}, Ungrouped false more → Ungrouped opened (p.found ++ more)

namespace Passage

theorem Ungroups.mono {p : Passage} {opened : Bool} (h : p.Ungroups opened) : p.Ungroups false :=
  fun hmore => (h hmore).mono

/-- Passages that may stand side by side before what ends a word, behind a parenthesis if
`opened` says so. -/
structure Adjacent (opened : Bool) (ps : List Passage) : Prop where
  fit : ∀ {cs}, Closed cs → Fit ps cs
  ungrouped : ∀ {more}, Ungrouped false more → (opened → Ungrouped true more) →
    Ungrouped opened (foundAll ps ++ more)

namespace Adjacent

variable {opened : Bool} {ps qs : List Passage}

theorem alone (h : Adjacent false ps) {more : List (TokenKind × String)}
    (hmore : Ungrouped false more) : Ungrouped false (foundAll ps ++ more) :=
  h.ungrouped hmore fun hno => absurd hno Bool.false_ne_true

theorem nil : Adjacent opened [] where
  fit _ := trivial
  ungrouped hmore hopen := by
    cases opened with
    | false => exact hmore
    | true => exact hopen rfl

theorem one {p : Passage} (hfit : ∀ {cs}, Closed cs → p.follow cs) (hp : p.Ungroups opened) :
    Adjacent opened [p] where
  fit hcs := by simpa using hfit hcs
  ungrouped hmore _ := by simpa using hp hmore

theorem gap (h : Adjacent opened ps) : Adjacent opened (Passage.gap :: ps) where
  fit hcs := ⟨trivial, h.fit hcs⟩
  ungrouped hmore hopen := by simpa using h.ungrouped hmore hopen

/-- Passages with a sign between them that ends a word. -/
theorem append (h : Adjacent opened ps) {s : Symbol} (hs : s = .comma ∨ s = .colon ∨ s = .semicolon)
    (h' : Adjacent false qs) : Adjacent opened (ps ++ sign s :: qs) where
  fit {cs} hcs := by
    have hends : Meets s ((textAll qs).toList ++ cs) ∧
        Closed (s.text.toList ++ ((textAll qs).toList ++ cs)) := by
      rcases hs with rfl | rfl | rfl <;> simp [Meets, Symbol.text, ends_signs]
    simp [h.fit hends.2, hends.1, h'.fit hcs]
  ungrouped {more} hmore _ := by
    have hrest : ∀ o, Ungrouped o ((.symbol s, s.text) :: (foundAll qs ++ more)) := by
      intro o
      have hsign : s ≠ .leftParen := by rcases hs with rfl | rfl | rfl <;> decide
      simpa [hsign, Parse.startsGenerator] using h'.alone hmore
    simpa using h.ungrouped (hrest false) fun _ => hrest true

/-- Passages with a sign between them and blanks around it. -/
theorem spaced (h : Adjacent opened ps) {s : Symbol} (hs : s ≠ .leftParen)
    (h' : Adjacent false qs) :
    Adjacent opened (ps ++ Passage.gap :: sign s :: Passage.gap :: qs) where
  fit {cs} hcs := by
    have hends : Closed (' ' :: (s.text.toList ++ ' ' :: ((textAll qs).toList ++ cs))) :=
      closed_cons.2 rfl
    simp [h.fit hends, meets_blank, h'.fit hcs]
  ungrouped {more} hmore _ := by
    have hrest : ∀ o, Ungrouped o ((.symbol s, s.text) :: (foundAll qs ++ more)) := by
      intro o
      simpa [hs, Parse.startsGenerator] using h'.alone hmore
    simpa using h.ungrouped (hrest false) fun _ => hrest true

theorem commas (hfit : ∀ p ∈ ps, ∀ {cs}, Closed cs → p.follow cs)
    (h : ∀ p ∈ ps, p.Ungroups opened) : Adjacent opened (commas ps) := by
  fun_induction Passage.commas ps generalizing opened with
  | case1 => exact .nil
  | case2 p => exact .one (hfit p (List.mem_singleton_self p)) (h p (List.mem_singleton_self p))
  | case3 p q ps ih =>
      obtain ⟨hp, hps⟩ := List.forall_mem_cons.1 h
      obtain ⟨hfitp, hfits⟩ := List.forall_mem_cons.1 hfit
      have hrest : Adjacent false (Passage.commas (q :: ps)) :=
        ih hfits fun r hr => Ungroups.mono (hps r hr)
      exact (Adjacent.one hfitp hp).append (.inl rfl) hrest.gap

end Adjacent

end Passage

end Scad
