import Scad.Proofs.Render.Passage
import Scad.Proofs.Render.Roots
import Scad.Proofs.Tree.Shape

/-! The text of an expression and of each part of it is a passage. All that it needs is that no
number in it is infinite, and that no member is taken for a part of a number. -/
namespace Scad

open List (Forall₂)
open Grammar (TextsScanned)
open Lexeme (Delimited Closed Meets EndsNumeral)
open Passage

namespace Number

/-- Whether the text of a number is digits only, so that a point behind it would be a part of it. -/
def isBare (v : Number) : Bool := v.render.toOption.any fun t => t.toList.all Numeral.isAsciiDigit

end Number

namespace Kind

def generates : Kind → Bool
  | each | forElement | ifElement => true
  | _ => false

/-- The kinds of the parts of expressions, members apart. -/
def isPart : Kind → Bool
  | variableDefinition | parameter | argumentName | argument | callSuffix | indexSuffix
  | loopUpdate | assignment => true
  | k => k.isElement

theorem generates_of_isExpression {k : Kind} (h : k.isExpression) : k.generates = false := by
  cases k <;> first | rfl | cases h

theorem ne_assignment_of_isElement {k : Kind} (h : k.isElement) : k ≠ .assignment := by
  rintro rfl
  cases h

theorem isPart_of_isElement {k : Kind} (h : k.isElement) : k.isPart := by
  cases k <;> first | rfl | exact h

end Kind

/-- A text that `=` does not begin. -/
def Begins (text : String) : Prop := ∃ c cs, text.toList = c :: cs ∧ c ≠ '='

theorem Begins.append {s : String} (h : Begins s) (t : String) : Begins (s ++ t) := by
  obtain ⟨c, cs, hs, hc⟩ := h
  exact ⟨c, cs ++ t.toList, by rw [String.toList_append, hs, List.cons_append], hc⟩

theorem Begins.meets {s : String} (h : Begins s) (cs : List Char) :
    (s.toList ++ cs).head? ≠ some '=' := by
  obtain ⟨c, ds, hs, hc⟩ := h
  rw [hs]
  exact fun heq => hc (Option.some.inj heq)

theorem Begins.word (w : Keyword) : Begins w.text := by
  cases w <;> exact ⟨_, _, rfl, by decide⟩

theorem Begins.sign {s : Symbol} (hs : s ≠ .assign ∧ s ≠ .equal) : Begins s.text := by
  cases s with
  | assign => exact absurd rfl hs.1
  | equal => exact absurd rfl hs.2
  | _ => exact ⟨_, _, rfl, by decide⟩

theorem Begins.of_fits {k : TokenKind} {t : String} (hk : k ≠ .symbol .assign ∧ k ≠ .symbol .equal)
    (h : (Lex.token k t).Fits []) : Begins (Lex.token k t).text := h.head hk

/-- Whether a point may stand behind the text of a node. -/
def Node.meetsPoint (n : Node) : Bool :=
  match n.form with
  | .number v => !v.isBare
  | _ => 9 ≤ n.kind.tightness || n.kind.isSuffix

theorem renderClause_of_ne {n : Node} (hk : n.kind ≠ .assignment) : renderClause n = n.render := by
  obtain ⟨i, f⟩ := n
  cases f with
  | assignment => exact absurd rfl hk
  | _ => rfl

/-- Whether the name of a member, if the node is one, does not begin with a digit. -/
def Node.startsPlain (n : Node) : Bool :=
  match n.form with
  | .memberSuffix m => !m.toList.head?.any Text.isDecimalDigit
  | _ => true

/-- Whether the parts of a call stay apart in its text: behind a number of digits only there is no
member, and no member's name begins with a digit. -/
def Node.isApart (n : Node) : Bool :=
  match n.form with
  | .call t ss =>
      (t.meetsPoint || !ss.head?.any (·.kind = .memberSuffix)) && ss.all Node.startsPlain
  | _ => true

structure Node.Writes (n : Node) (p : Passage) : Prop where
  text : renderClause n = .ok p.text
  follow : ∀ {cs}, Delimited cs → (cs.head? = some '.' → n.meetsPoint) → p.follow cs
  begins : Begins p.text
  ungroups : ∀ {more}, Ungrouped false more → Ungrouped (!n.kind.generates) (p.found ++ more)

namespace Node.Writes

variable {n : Node} {p : Passage}

theorem closed (h : n.Writes p) : ∀ {cs}, Closed cs → p.follow cs :=
  fun hcs => h.follow hcs.delimited fun hpoint => absurd hpoint hcs.point

theorem render (h : n.Writes p) (hk : n.kind ≠ .assignment) : n.render = .ok p.text := by
  rw [← renderClause_of_ne hk, h.text]

theorem element (h : n.Writes p) (hk : n.kind.isElement) : n.render = .ok p.text :=
  h.render (Kind.ne_assignment_of_isElement hk)

theorem expression (h : n.Writes p) (hk : n.kind.isExpression) : n.render = .ok p.text :=
  h.element (Kind.isElement_of_isExpression hk)

theorem enclosed (h : n.Writes p) (hk : n.kind.generates = false)
    {more : List (TokenKind × String)} :
    Ungrouped true (p.found ++ more) ↔ Ungrouped false more := by
  refine ⟨fun hu => hu.behind, fun hmore => ?_⟩
  have hu := h.ungroups hmore
  rwa [hk] at hu

theorem within (h : n.Writes p) {more : List (TokenKind × String)} :
    Ungrouped false (p.found ++ more) ↔ Ungrouped false more :=
  ⟨fun hu => hu.behind, fun hmore => (h.ungroups hmore).mono⟩

end Node.Writes

section Assembly

variable {n : Node} {p : Passage} {ps tail : List Passage}

theorem Node.Writes.stands (h : n.Writes p) {opened : Bool}
    (hk : opened → n.kind.generates = false) :
    Adjacent opened [p] := by
  apply Adjacent.one h.closed
  intro more hmore
  cases opened with
  | false => exact h.within.2 hmore
  | true => exact (h.enclosed (hk rfl)).2 hmore

/-- A passage and more of them, where no point may stand behind the last. -/
theorem Node.Writes.of_cons (hpoint : n.meetsPoint = false) (hbegins : Begins p.text)
    (hfollow : ∀ {cs}, Closed cs → p.follow ((textAll ps).toList ++ cs))
    (hp : p.Ungroups (!n.kind.generates)) (h : Adjacent false ps)
    (htext : renderClause n = .ok (textAll (p :: ps))) : n.Writes (join (p :: ps)) where
  text := htext
  follow {cs} hcs hmeets := by
    have hclosed : Closed cs := ⟨hcs, fun hhead => by simp [hmeets hhead] at hpoint⟩
    exact ⟨hfollow hclosed, h.fit hclosed⟩
  begins := hbegins.append _
  ungroups {more} hmore := by
    have hrest := hp (h.alone hmore)
    rwa [← List.append_assoc] at hrest

/-- The signs that expressions and lists stand between, and whether the first groups a generator. -/
inductive Brackets : Symbol → Symbol → Bool → Prop
  | round : Brackets .leftParen .rightParen true
  | square : Brackets .leftBracket .rightBracket false

theorem Node.Writes.of_enclosed {left right : Symbol} {opened : Bool}
    (hbrackets : Brackets left right opened) (h : Adjacent opened ps)
    (htext : renderClause n = .ok (left.text ++ textAll ps ++ right.text)) :
    n.Writes (join (sign left :: (ps ++ [sign right]))) where
  text := htext.trans (ok_text (by simp [join]))
  follow {cs} _ _ := by
    have hsigns : ∀ ds, Meets left ds ∧ Meets right ds ∧ Closed (right.text.toList ++ ds) := by
      intro ds
      cases hbrackets <;> exact ⟨trivial, trivial, closed_cons.2 rfl⟩
    simp [join, (hsigns _).1, (hsigns _).2.1, h.fit (hsigns _).2.2]
  begins := by
    apply Begins.append
    cases hbrackets <;> exact .sign (by decide)
  ungroups {more} hmore := by
    have hclose : ∀ opened, Ungrouped opened ((.symbol right, right.text) :: more) := by
      intro opened
      cases hbrackets <;> simpa [Parse.startsGenerator] using hmore
    have hinside := h.ungrouped (hclose false) fun _ => hclose true
    cases hbrackets <;> simpa [join, Parse.startsGenerator] using hinside

/-- A word, passages in parentheses and what stands behind them. -/
theorem Node.Writes.of_headed {w : Keyword} {blanks : List Passage} (hpoint : n.meetsPoint = false)
    (hfile : (TokenKind.keyword w).expectsFile = false)
    (hgenerates : Parse.startsGenerator (.keyword w) → n.kind.generates)
    (hblanks : blanks = [] ∨ blanks = [gap]) (h : Adjacent true ps) (htail : Adjacent false tail)
    (htext : renderClause n =
      .ok (w.text ++ textAll blanks ++ "(" ++ textAll ps ++ ")" ++ textAll tail)) :
    n.Writes
      (join (word w :: (blanks ++ sign .leftParen :: (ps ++ sign .rightParen :: tail)))) := by
  refine .of_cons hpoint (.word w) (fun _ => ?_) (fun hmore => ?_) ⟨fun {cs} hcs => ?_,
    fun {more} hmore _ => ?_⟩ (htext.trans (ok_text (by simp [Symbol.text])))
  · rcases hblanks with rfl | rfl <;> simp [hfile, Symbol.text, delimits_signs]
  · have hword : n.kind.generates = false → Parse.startsGenerator (.keyword w) = false := fun hno =>
      Bool.eq_false_iff.2 fun hyes => by simp [hgenerates hyes] at hno
    simpa using ⟨hword, hmore⟩
  · have hinside : Fit ps (')' :: ((textAll tail).toList ++ cs)) := h.fit (closed_cons.2 rfl)
    rcases hblanks with rfl | rfl <;> simp [Meets, Symbol.text, hinside, htail.fit hcs]
  · have hclose : ∀ opened,
        Ungrouped opened ((.symbol .rightParen, ")") :: (foundAll tail ++ more)) :=
      fun _ => ⟨fun _ => rfl, htail.alone hmore⟩
    have hinside := h.ungrouped (hclose false) fun _ => hclose true
    rcases hblanks with rfl | rfl <;> simpa [Symbol.text, Parse.startsGenerator] using hinside

end Assembly

/-! ### Lists -/

/-- What belongs to the members of a list, one by one. -/
theorem exists_forall₂ {α β : Type} {R : α → β → Prop} {as : List α} (h : ∀ a ∈ as, ∃ b, R a b) :
    ∃ bs, Forall₂ R as bs := by
  induction as with
  | nil => exact ⟨[], .nil⟩
  | cons a as ih =>
      obtain ⟨⟨b, hb⟩, hrest⟩ := List.forall_mem_cons.1 h
      obtain ⟨bs, hbs⟩ := ih hrest
      exact ⟨b :: bs, .cons hb hbs⟩

section Lists

variable {as : List Node} {ps : List Passage} (h : Forall₂ Node.Writes as ps)

include h

theorem clauses_text : renderClauses as = .ok (ps.map text) := by
  rw [renderClauses_eq]
  induction h with
  | nil => rfl
  | cons ha _ ih =>
      rw [List.mapM_cons, ha.text, ih]
      rfl

theorem list_text (hk : ∀ a ∈ as, a.kind ≠ .assignment) : renderList as = .ok (ps.map text) := by
  rw [renderList_eq]
  induction h with
  | nil => rfl
  | cons ha _ ih =>
      obtain ⟨hk, hks⟩ := List.forall_mem_cons.1 hk
      rw [List.mapM_cons, ha.render hk, ih hks]
      rfl

theorem exists_writer {p : Passage} (hp : p ∈ ps) : ∃ a ∈ as, a.Writes p := by
  induction h with
  | nil => cases hp
  | @cons a q as ps ha _ ih =>
      rcases List.mem_cons.1 hp with rfl | hp
      · exact ⟨a, List.mem_cons_self .., ha⟩
      · obtain ⟨b, hb, hbp⟩ := ih hp
        exact ⟨b, List.mem_cons_of_mem _ hb, hbp⟩

theorem items_stand {opened : Bool} (hk : opened → ∀ a ∈ as, a.kind.generates = false) :
    Adjacent opened (commas ps) := by
  apply Adjacent.commas
  · intro p hp
    obtain ⟨a, -, ha⟩ := exists_writer h hp
    exact ha.closed
  · intro p hp more hmore
    obtain ⟨a, ha, hap⟩ := exists_writer h hp
    cases opened with
    | false => exact hap.within.2 hmore
    | true => exact (hap.enclosed (hk rfl a ha)).2 hmore

end Lists

/-- Nodes, none of them a generator, whose texts are passages. -/
structure WritesList (as : List Node) (ps : List Passage) : Prop where
  items : Forall₂ Node.Writes as ps
  plain : ∀ a ∈ as, a.kind.generates = false

theorem WritesList.stands {as : List Node} {ps : List Passage} (h : WritesList as ps)
    {opened : Bool} :
    Adjacent opened (commas ps) := items_stand h.items fun _ => h.plain

/-! ### Parts -/

/-- Every part of a form is written in a passage, members apart. -/
def Form.PartsWritten (f : Form Node) : Prop := ∀ c ∈ f.children, c.kind.isPart → ∃ p, c.Writes p

namespace Form.PartsWritten

variable {f : Form Node} (h : f.PartsWritten)

include h

theorem element {e : Node} (he : e ∈ f.children) (hk : e.kind.isElement) : ∃ p, e.Writes p :=
  h e he (Kind.isPart_of_isElement hk)

theorem expression {e : Node} (he : e ∈ f.children) (hk : e.kind.isExpression) : ∃ p, e.Writes p :=
  h.element he (Kind.isElement_of_isExpression hk)

theorem list {as : List Node} (has : ∀ a ∈ as, a ∈ f.children) {k : Kind} (hk : k.isPart)
    (hgenerates : k.generates = false) (hka : ∀ a ∈ as, a.kind = k) : ∃ ps, WritesList as ps := by
  obtain ⟨ps, hps⟩ := exists_forall₂ fun a ha => h a (has a ha) (hka a ha ▸ hk)
  exact ⟨ps, hps, fun a ha => hka a ha ▸ hgenerates⟩

end Form.PartsWritten

end Scad
