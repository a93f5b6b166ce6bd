import Scad.Proofs.Token.Layout

/-! Rendered text as a layout of tokens and blanks, with what may stand behind it and what its
tokens read as. -/
namespace Scad

open Lexeme (Delimited Closed Meets)
open Grammar (Phrase Listed Between After Commas Repeated nextKind NearestElse)

namespace Lex

def sign (s : Symbol) : Lex := token (.symbol s) s.text

def word (w : Keyword) : Lex := token (.keyword w) w.text

def name (t : String) : Lex := token .identifier t

def gap : Lex := blank ' '

@[simp] theorem text_sign (s : Symbol) : (sign s).text = s.text := rfl

@[simp] theorem text_word (w : Keyword) : (word w).text = w.text := rfl

@[simp] theorem text_name (t : String) : (name t).text = t := rfl

@[simp] theorem text_gap : gap.text = " " := rfl

@[simp] theorem textAll_nil : textAll [] = "" := rfl

@[simp] theorem textAll_cons (l : Lex) (ls : List Lex) :
    textAll (l :: ls) = l.text ++ textAll ls := rfl

@[simp] theorem spaced_nil (cs : List Char) : Spaced [] cs := trivial

@[simp] theorem spaced_sign {s : Symbol} {ls : List Lex} {cs : List Char} :
    Spaced (sign s :: ls) cs ↔ Meets s ((textAll ls).toList ++ cs) ∧ Spaced ls cs := by
  simp [Spaced, sign, Fits]

@[simp] theorem spaced_gap {ls : List Lex} {cs : List Char} :
    Spaced (gap :: ls) cs ↔ Spaced ls cs :=
  ⟨fun h => h.2, fun h => ⟨rfl, h⟩⟩

@[simp] theorem spaced_word {w : Keyword} {ls : List Lex} {cs : List Char} :
    Spaced (word w :: ls) cs ↔ (TokenKind.keyword w).expectsFile = false ∧
      Delimited ((textAll ls).toList ++ cs) ∧ Spaced ls cs := by
  simp [Spaced, word, Fits, and_assoc]

@[simp] theorem spaced_name {t : String} {ls : List Lex} {cs : List Char} :
    Spaced (name t :: ls) cs ↔
      IsTextOf .identifier t ∧ Delimited ((textAll ls).toList ++ cs) ∧ Spaced ls cs := by
  simp [Spaced, name, Fits, IsTextOf, and_assoc]

@[simp] theorem spelled_name {t : String} {ls : List Lex} {ts rest : List Token} :
    Spelled (name t :: ls) ts rest ↔
      ∃ u us, ts = u :: us ∧ u.kind = .identifier ∧ u.text = t ∧ Spelled ls us rest :=
  spelled_token

@[simp] theorem spelled_sign {s : Symbol} {ls : List Lex} {ts rest : List Token} :
    Spelled (sign s :: ls) ts rest ↔
      ∃ u us, ts = u :: us ∧ u.kind = .symbol s ∧ u.text = s.text ∧ Spelled ls us rest :=
  spelled_token

@[simp] theorem spelled_word {w : Keyword} {ls : List Lex} {ts rest : List Token} :
    Spelled (word w :: ls) ts rest ↔
      ∃ u us, ts = u :: us ∧ u.kind = .keyword w ∧ u.text = w.text ∧ Spelled ls us rest :=
  spelled_token

@[simp] theorem spelled_gap {ls : List Lex} {ts rest : List Token} :
    Spelled (gap :: ls) ts rest ↔ Spelled ls ts rest := Iff.rfl

end Lex

open Scad.Lex

/-! ### Heads of texts -/

def ends (c : Char) : Bool := Lexeme.delimits c && c ≠ '.'

theorem ends_signs : ends ' ' ∧ ends '\n' ∧ ends ',' ∧ ends ':' ∧ ends ';' ∧ ends '=' ∧ ends '(' ∧
    ends ')' ∧ ends '[' ∧ ends ']' := by decide

theorem delimits_signs : Lexeme.delimits ' ' ∧ Lexeme.delimits '=' ∧ Lexeme.delimits '(' ∧
    Lexeme.delimits '.' := by decide

@[simp] theorem delimited_cons {c : Char} {cs : List Char} :
    Delimited (c :: cs) ↔ Lexeme.delimits c :=
  ⟨fun h => h c rfl, fun h d hd => by cases hd; exact h⟩

@[simp] theorem closed_nil : Closed [] := ⟨fun c hc => (by cases hc), by simp⟩

@[simp] theorem closed_cons {c : Char} {cs : List Char} : Closed (c :: cs) ↔ ends c := by
  simp only [ends, Bool.and_eq_true, decide_eq_true_eq]
  constructor
  · intro h
    exact ⟨h.delimited c rfl, fun hc => h.point (congrArg some hc)⟩
  · intro h
    exact ⟨fun d hd => by cases hd; exact h.1, fun hd => by cases hd; exact h.2 rfl⟩

theorem meets_blank (s : Symbol) (cs : List Char) : Meets s (' ' :: cs) := by
  cases s with
  | dot =>
      intro c hc
      cases hc
      decide
  | _ => simp [Meets]

/-- The layout begins with a token of a kind. -/
def Lex.Starts (k : TokenKind) (ls : List Lex) : Prop := ∃ t ms, ls = .token k t :: ms

def Heads (k : TokenKind) (ls : List Lex) : Prop := Parse.startsExpression k ∧ Starts k ls

theorem Heads.append {k : TokenKind} {ls : List Lex} (h : Heads k ls) (ms : List Lex) :
    Heads k (ls ++ ms) := by
  obtain ⟨hk, t, ns, rfl⟩ := h
  exact ⟨hk, t, ns ++ ms, rfl⟩

theorem heads_sign {s : Symbol} (h : Parse.startsExpression (.symbol s)) (ms : List Lex) :
    Heads (.symbol s) (sign s :: ms) := ⟨h, _, _, rfl⟩

theorem heads_word {w : Keyword} (h : Parse.startsExpression (.keyword w)) (ms : List Lex) :
    Heads (.keyword w) (word w :: ms) := ⟨h, _, _, rfl⟩

structure Laid (follow : List Char → Prop) (r : Rendered) (P : List Token → List Token → Prop)
    (ls : List Lex) : Prop where
  text : r = .ok (textAll ls)
  spaced : ∀ {cs}, follow cs → Spaced ls cs
  reads : ∀ {ts rest}, Spelled ls ts rest → P ts rest

def Lays (follow : List Char → Prop) (r : Rendered) (P : List Token → List Token → Prop) : Prop :=
  ∃ ls, Laid follow r P ls

/-- A node's text reads as a phrase that begins with a token of kind `k`. -/
def Shows (follow : List Char → Prop) (P : Phrase Node) (x : Node) (k : TokenKind) : Prop :=
  ∃ ls, Heads k ls ∧ Laid follow x.render (fun ts rest => P ts x rest) ls

theorem Shows.lays {follow : List Char → Prop} {P : Phrase Node} {x : Node} {k : TokenKind}
    (h : Shows follow P x k) : Lays follow x.render fun ts rest => P ts x rest := by
  obtain ⟨ls, -, h⟩ := h
  exact ⟨ls, h⟩

theorem Laid.mono {follow : List Char → Prop} {r : Rendered} {P Q : List Token → List Token → Prop}
    {ls : List Lex} (h : Laid follow r P ls) (hPQ : ∀ {ts rest}, P ts rest → Q ts rest) :
    Laid follow r Q ls := ⟨h.text, h.spaced, fun hs => hPQ (h.reads hs)⟩

theorem ok_text {s t : String} (h : s.toList = t.toList) : (Except.ok s : Rendered) = .ok t :=
  congrArg Except.ok (String.toList_inj.1 h)

theorem Shows.weaken {follow follow' : List Char → Prop} {P : Phrase Node} {x : Node}
    {k : TokenKind} (h : Shows follow P x k) (hf : ∀ {cs}, follow' cs → follow cs) :
    Shows follow' P x k := by
  obtain ⟨ls, hk, h⟩ := h
  exact ⟨ls, hk, h.text, fun hcs => h.spaced (hf hcs), h.reads⟩

theorem Shows.at_head {follow : List Char → Prop} {P : Phrase Node} {x : Node} {k : TokenKind}
    {t : Token} {ts : List Token} (ht : t.kind = k) (h : Shows follow P x k) :
    Shows follow P x (nextKind (t :: ts)) := by
  subst ht
  exact h

theorem Shows.mono {follow : List Char → Prop} {P Q : Phrase Node} {x : Node} {k : TokenKind}
    (h : Shows follow P x k) (hPQ : ∀ {ts rest}, P ts x rest → Q ts x rest) :
    Shows follow Q x k := by
  obtain ⟨ls, hk, h⟩ := h
  exact ⟨ls, hk, h.mono hPQ⟩

/-- Symbols around a text. -/
theorem Laid.between (left right : Symbol) {r : Rendered} {α : Type} {P : Phrase α} {a : α}
    {ls : List Lex} (h : Laid Closed r (fun ts rest => P ts a rest) ls)
    (hleft : ∀ cs, Meets left cs)
    (hright : ∀ cs, Meets right cs ∧ Closed (right.text.toList ++ cs)) :
    Laid (fun _ => True) (do return left.text ++ (← r) ++ right.text)
      (fun ts rest => Between left right P ts a rest) (sign left :: (ls ++ [sign right])) where
  text := by
    rw [h.text]
    simp [bind, Except.bind, pure, Except.pure, String.append_assoc]
  spaced _ := by
    simp [hleft, (hright _).1, h.spaced (hright _).2]
  reads hs := by
    simp only [spelled_sign, spelled_append, spelled_nil] at hs
    obtain ⟨l, us, rfl, hl, -, mid, hls, r, vs, rfl, hr, -, rfl⟩ := hs
    exact ⟨hl, h.reads hls, hr⟩

theorem Laid.parens {r : Rendered} {α : Type} {P : Phrase α} {a : α} {ls : List Lex}
    (h : Laid Closed r (fun ts rest => P ts a rest) ls) :
    Laid (fun _ => True) (do return "(" ++ (← r) ++ ")")
      (fun ts rest => Between .leftParen .rightParen P ts a rest)
      (sign .leftParen :: (ls ++ [sign .rightParen])) :=
  .between .leftParen .rightParen h (fun _ => trivial) fun _ => ⟨trivial, closed_cons.2 rfl⟩

theorem Laid.brackets {r : Rendered} {α : Type} {P : Phrase α} {a : α} {ls : List Lex}
    (h : Laid Closed r (fun ts rest => P ts a rest) ls) :
    Laid (fun _ => True) (do return "[" ++ (← r) ++ "]")
      (fun ts rest => Between .leftBracket .rightBracket P ts a rest)
      (sign .leftBracket :: (ls ++ [sign .rightBracket])) :=
  .between .leftBracket .rightBracket h (fun _ => trivial) fun _ => ⟨trivial, closed_cons.2 rfl⟩

/-! ### Lists -/

def renderAll (r : Node → Rendered) (join : List String → String) (xs : List Node) : Rendered := do
  return join (← xs.mapM r)

theorem renderAll_nil (r : Node → Rendered) (join : List String → String) :
    renderAll r join [] = .ok (join []) := rfl

theorem renderAll_one {r : Node → Rendered} (join : List String → String) {x : Node} {t : String}
    (hx : r x = .ok t) : renderAll r join [x] = .ok (join [t]) := by
  rw [renderAll, List.mapM_cons, hx]
  rfl

theorem of_renderAll {r : Node → Rendered} {join : List String → String} {xs : List Node}
    {t : String} (h : renderAll r join xs = .ok t) :
    ∃ texts, xs.mapM r = .ok texts ∧ join texts = t := by
  rw [renderAll] at h
  cases hr : xs.mapM r with
  | error e =>
      rw [hr] at h
      cases h
  | ok texts =>
      rw [hr] at h
      cases h
      exact ⟨texts, rfl, rfl⟩

/-- With a separator between texts, the first text of a list and the rest of it. -/
theorem renderAll_cons_cons {r : Node → Rendered} {separator : String} {x y : Node} {xs : List Node}
    {t u : String} (hx : r x = .ok t) (hxs : renderAll r separator.intercalate (y :: xs) = .ok u) :
    renderAll r separator.intercalate (x :: y :: xs) = .ok (t ++ separator ++ u) := by
  rw [renderAll, List.mapM_cons] at hxs
  rw [renderAll, List.mapM_cons, hx, List.mapM_cons]
  cases hy : r y with
  | error e =>
      rw [hy] at hxs
      cases hxs
  | ok v =>
      rw [hy] at hxs
      cases hm : xs.mapM r with
      | error e =>
          rw [hm] at hxs
          cases hxs
      | ok vs =>
          rw [hm] at hxs
          cases hxs
          exact congrArg Except.ok String.intercalate_cons_cons

/-- Items with commas between them. -/
theorem lays_listed {item : Phrase Node} {r : Node → Rendered} {as : List Node}
    (h : ∀ a ∈ as, Lays Closed (r a) fun ts rest => item ts a rest) :
    Lays Closed (renderAll r commaSeparated as) fun ts rest => Listed item ts as rest := by
  induction as with
  | nil => exact ⟨[], rfl, fun _ => trivial, fun hs => by cases spelled_nil.1 hs; exact .none⟩
  | cons a as ih =>
      obtain ⟨ls, ha⟩ := h a (List.mem_cons_self ..)
      cases as with
      | nil => exact ⟨ls, renderAll_one commaSeparated ha.text, ha.spaced,
          fun hs => .one (ha.reads hs)⟩
      | cons b bs =>
          obtain ⟨ms, hb⟩ := ih fun c hc => h c (List.mem_cons_of_mem _ hc)
          refine ⟨ls ++ sign .comma :: gap :: ms, ?_, ?_, ?_⟩
          · exact (renderAll_cons_cons ha.text hb.text).trans (ok_text (by simp [Symbol.text]))
          · intro cs hcs
            simp [Meets, Symbol.text, hb.spaced hcs, ha.spaced, ends_signs]
          · intro ts rest hs
            simp only [spelled_append, spelled_sign, spelled_gap] at hs
            obtain ⟨mid, hls, c, us, rfl, hc, -, hms⟩ := hs
            exact .more (ha.reads hls) (.one hc) (hb.reads hms)

/-- Items with commas between them, in parentheses. -/
theorem lays_parens {item : Phrase Node} {r : Node → Rendered} {as : List Node}
    (h : ∀ a ∈ as, Lays Closed (r a) fun ts rest => item ts a rest) :
    ∃ texts, as.mapM r = .ok texts ∧
      Lays (fun _ => True) (.ok ("(" ++ commaSeparated texts ++ ")")) fun ts rest =>
        Between .leftParen .rightParen (Listed item) ts as rest := by
  obtain ⟨ls, has⟩ := lays_listed h
  obtain ⟨texts, htexts, hjoin⟩ := of_renderAll has.text
  refine ⟨texts, htexts, _, ?_, has.parens.spaced, has.parens.reads⟩
  exact ok_text (by simp [hjoin, Symbol.text])

end Scad
