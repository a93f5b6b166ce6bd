import Mathlib.Data.List.Forall2
import Scad.Proofs.Parse.Reading
import Scad.Proofs.Tree.Numbered

/-! Two runs side by side, over tokens that differ in nothing but their places. Both runs do the
same, as long as the places of one list coincide where those of the other do. -/
namespace Scad.Parse

open List (Forall₂)

variable {α α' β β' : Type}

/-- Which places of two texts belong together, for the starts of tokens and for the stops. -/
structure Link where
  starts : Position → Position → Prop
  stops : Position → Position → Prop
  /-- Two starts have one offset on both sides or on neither. -/
  together {p p' q q'} : starts p p' → starts q q' → (p.offset = q.offset ↔ p'.offset = q'.offset)
  /-- An error that would go unreported at the beginning would on both sides. -/
  inside {p p'} : starts p p' → (p.offset = -1 ↔ p'.offset = -1)
  /-- The end of a range that must not lie before its start. -/
  clip {p p' q q'} : starts p p' → stops q q' →
    stops (if q.offset < p.offset then p else q) (if q'.offset < p'.offset then p' else q')

namespace Link

variable (L : Link)

structure Spans (a b : Span) : Prop where
  start : L.starts a.start b.start
  stop : L.stops a.stop b.stop

inductive Tokens : Token → Token → Prop
  | mk {kind text a b} : L.Spans a b → Tokens ⟨kind, text, a⟩ ⟨kind, text, b⟩

/-- Trees with the same ids that say the same. -/
structure Nodes (m n : Node) : Prop where
  numbered : m.numbered = n.numbered
  span : L.Spans m.span n.span

structure Findings (d e : Diagnostic) : Prop where
  fault : d.fault = e.fault
  message : d.message = e.message
  span : L.Spans d.span e.span

inductive Events : Event → Event → Prop
  | error {d e} : L.Findings d e → Events (.error d) (.error e)
  | recovered {a b a' b' first behind} : L.Spans a a' → L.Spans b b' →
      Events (.recovered a b first behind) (.recovered a' b' first behind)
  | block {opening closing} : Events (.block opening closing) (.block opening closing)
  | discarded {place} : Events (.discarded place) (.discarded place)

inductive LastErrors : Int → Int → Prop
  | none : LastErrors (-1) (-1)
  | at {p p'} : L.starts p p' → LastErrors p.offset p'.offset

structure States (s s' : State) : Prop where
  rest : Forall₂ L.Tokens s.rest s'.rest
  position : s.position = s'.position
  depth : s.depth = s'.depth
  previous : L.Tokens s.previous s'.previous
  made : Forall₂ L.Nodes s.made.toList s'.made.toList
  events : Forall₂ L.Events s.events.toList s'.events.toList
  lastErrorAt : L.LastErrors s.lastErrorAt s'.lastErrorAt

def Outcomes (Q : α → α' → Prop) : Outcome α → Outcome α' → Prop
  | .done a s, .done a' s' => Q a a' ∧ L.States s s'
  | .abandoned s, .abandoned s' => L.States s s'
  | .broken fault, .broken fault' => fault = fault'
  | _, _ => False

variable {L}

theorem LastErrors.iff {p p' : Position} {m m' : Int} (hm : L.LastErrors m m')
    (hp : L.starts p p') :
    p.offset = m ↔ p'.offset = m' := by
  cases hm with
  | none => exact L.inside hp
  | «at» hq => exact L.together hp hq

theorem Tokens.spans {t t' : Token} (h : L.Tokens t t') : L.Spans t.span t'.span := by
  obtain ⟨h⟩ := h
  exact h

theorem States.size {s s' : State} (h : L.States s s') : s.made.size = s'.made.size :=
  h.made.length_eq

theorem Outcomes.leave {Q : α → α' → Prop} {o : Outcome α} {o' : Outcome α'}
    (h : L.Outcomes Q o o') :
    L.Outcomes Q o.leave o'.leave := by
  cases o <;> cases o' <;> try exact h.elim
  case done.done a s a' s' => exact ⟨h.1, { h.2 with depth := congrArg (· - 1) h.2.depth }⟩
  case abandoned.abandoned s s' =>
    exact { (show L.States s s' from h) with depth := congrArg (· - 1) h.depth }
  case broken.broken => exact h

theorem numbered_list {ms ns : List Node} (h : Forall₂ L.Nodes ms ns) :
    ms.map Node.numbered = ns.map Node.numbered := by
  induction h with
  | nil => rfl
  | cons h _ ih => rw [List.map_cons, List.map_cons, h.numbered, ih]

theorem numbered_option {m n : Option Node} (h : Option.Rel L.Nodes m n) :
    m.map Node.numbered = n.map Node.numbered := by
  cases h with
  | none => rfl
  | some h => exact congrArg some h.numbered

end Link

/-- Started side by side, two productions end side by side, with values as `Q` says. -/
def InLockstep (L : Link) (Q : α → α' → Prop) (p : Parser α) (p' : Parser α') : Prop :=
  ∀ src src' s s', L.Tokens src.stop src'.stop → L.States s s' → L.Outcomes Q (p src s) (p' src' s')

def anyValues (_ : α) (_ : α') : Prop := True

namespace InLockstep

variable {L : Link} {Q : α → α' → Prop} {R : β → β' → Prop}

theorem pure {a : α} {a' : α'} (h : Q a a') : InLockstep L Q (Pure.pure a) (Pure.pure a') :=
  fun _ _ _ _ _ hs => ⟨h, hs⟩

theorem bind {p : Parser α} {p' : Parser α'} {f : α → Parser β} {f' : α' → Parser β'}
    (hp : InLockstep L Q p p') (hf : ∀ a a', Q a a' → InLockstep L R (f a) (f' a')) :
    InLockstep L R (p >>= f) (p' >>= f') := by
  intro src src' s s' hsrc hs
  have h := hp src src' s s' hsrc hs
  show L.Outcomes R (Parser.bind p f src s) (Parser.bind p' f' src' s')
  unfold Parser.bind
  cases ho : p src s with
  | done a t =>
      cases ho' : p' src' s' with
      | done a' t' =>
          rw [ho, ho'] at h
          exact hf a a' h.1 src src' t t' hsrc h.2
      | abandoned t' => rw [ho, ho'] at h; exact h.elim
      | broken fault => rw [ho, ho'] at h; exact h.elim
  | abandoned t =>
      cases ho' : p' src' s' with
      | done a' t' => rw [ho, ho'] at h; exact h.elim
      | abandoned t' => rw [ho, ho'] at h; exact h
      | broken fault => rw [ho, ho'] at h; exact h.elim
  | broken fault =>
      cases ho' : p' src' s' with
      | done a' t' => rw [ho, ho'] at h; exact h.elim
      | abandoned t' => rw [ho, ho'] at h; exact h.elim
      | broken fault' => rw [ho, ho'] at h; exact h

theorem head {src src' : Source} {ts ts' : List Token} (hsrc : L.Tokens src.stop src'.stop)
    (h : Forall₂ L.Tokens ts ts') : L.Tokens (ahead src ts) (ahead src' ts') := by
  cases h with
  | nil => exact hsrc
  | cons h _ => exact h

theorem current : InLockstep L L.Tokens current current :=
  fun _ _ _ _ hsrc hs => ⟨head hsrc hs.rest, hs⟩

theorem peek : InLockstep L L.Tokens peek peek := by
  intro src src' s s' hsrc hs
  refine ⟨?_, hs⟩
  match s.rest, s'.rest, hs.rest with
  | _, _, .nil => exact hsrc
  | _, _, .cons _ h => exact head hsrc h

theorem place : InLockstep L Eq place place := fun _ _ _ _ _ hs => ⟨hs.position, hs⟩

theorem advance : InLockstep L L.Tokens advance advance := by
  intro src src' s s' hsrc hs
  unfold Parse.advance
  have hrest := hs.rest
  cases hr : s.rest with
  | nil =>
      rw [hr] at hrest
      rw [List.forall₂_nil_left_iff.1 hrest]
      exact ⟨hsrc, hs⟩
  | cons t ts =>
      rw [hr] at hrest
      obtain ⟨t', ts', ht, hts, hr'⟩ := List.forall₂_cons_left_iff.1 hrest
      rw [hr']
      exact ⟨ht, { hs with rest := hts, position := congrArg (· + 1) hs.position, previous := ht }⟩

theorem note {e e' : Event} (he : L.Events e e') : InLockstep L anyValues (note e) (note e') := by
  intro src src' s s' _ hs
  refine ⟨trivial, { hs with events := ?_ }⟩
  rw [Array.toList_push, Array.toList_push]
  exact List.rel_append hs.events (.cons he .nil)

theorem report {message : String} {a a' : Span} (ha : L.Spans a a') :
    InLockstep L anyValues (report message a) (report message a') := by
  intro src src' s s' hsrc hs
  have hiff := hs.lastErrorAt.iff ha.start
  unfold Parse.report
  by_cases hm : a.start.offset = s.lastErrorAt
  · rw [if_pos hm, if_pos (hiff.1 hm)]
    exact ⟨trivial, hs⟩
  · rw [if_neg hm, if_neg fun h => hm (hiff.2 h)]
    have hfound : L.Events (.error ⟨.syntactic, a, message⟩) (.error ⟨.syntactic, a', message⟩) :=
      .error ⟨rfl, rfl, ha⟩
    have hnote := note hfound src src' s s' hsrc hs
    exact ⟨trivial, { hnote.2 with lastErrorAt := .at ha.start }⟩

theorem abandon : InLockstep L Q abandon abandon := fun _ _ _ _ _ hs => hs

/-- Looking at the next tokens. -/
theorem look {f : Token → Parser β} {f' : Token → Parser β'}
    (h : ∀ {kind text a b}, L.Spans a b → InLockstep L R (f ⟨kind, text, a⟩) (f' ⟨kind, text, b⟩)) :
    InLockstep L R (Parse.current >>= f) (Parse.current >>= f') := by
  refine current.bind ?_
  rintro _ _ ⟨ht⟩
  exact h ht

theorem take {f : Token → Parser β} {f' : Token → Parser β'}
    (h : ∀ {kind text a b}, L.Spans a b → InLockstep L R (f ⟨kind, text, a⟩) (f' ⟨kind, text, b⟩)) :
    InLockstep L R (Parse.advance >>= f) (Parse.advance >>= f') := by
  refine advance.bind ?_
  rintro _ _ ⟨ht⟩
  exact h ht

/-- Going on in one of two ways. -/
theorem choose {c : Prop} [Decidable c] {p q : Parser α} {p' q' : Parser α'}
    (hp : InLockstep L Q p p') (hq : InLockstep L Q q q') :
    InLockstep L Q (if c then p else q) (if c then p' else q') := by
  split
  · exact hp
  · exact hq

theorem atKind (k : TokenKind) : InLockstep L Eq (atKind k) (atKind k) := look fun _ => pure rfl

theorem test {k : TokenKind} {p q : Parser α} {p' q' : Parser α'} (hp : InLockstep L Q p p')
    (hq : InLockstep L Q q q') :
    InLockstep L Q (Parse.atKind k >>= fun b => if b = true then p else q)
      (Parse.atKind k >>= fun b => if b = true then p' else q') := by
  refine (atKind k).bind ?_
  rintro b _ rfl
  exact choose hp hq

theorem fail (message : String) : InLockstep L Q (fail message) (fail message) :=
  look fun ha => (report ha).bind fun _ _ _ => abandon

theorem expect (k : TokenKind) : InLockstep L (Option.Rel L.Tokens) (expect k) (expect k) :=
  look fun ha => choose (advance.bind fun _ _ h => pure (.some h))
    ((report ha).bind fun _ _ _ => pure .none)

theorem expectSymbol (sign : Symbol) :
    InLockstep L anyValues (expectSymbol sign) (expectSymbol sign) :=
  (expect _).bind fun _ _ _ => pure trivial

theorem identifier : InLockstep L Eq identifier identifier := by
  refine (expect _).bind ?_
  rintro _ _ (⟨⟨_⟩⟩ | _)
  · exact pure rfl
  · exact pure rfl

theorem numberValue (text : String) : InLockstep L Eq (numberValue text) (numberValue text) := by
  intro src src' s s' _ hs
  unfold Parse.numberValue
  cases Numeral.read text with
  | ok x => exact ⟨rfl, hs⟩
  | error fault => exact rfl

/-- The range of a node ends where the last token ends, but not before it starts. -/
theorem spans {src src' : Source} {s s' : State} {t t' : Token} (hs : L.States s s')
    (ht : L.Tokens t t') : L.Spans (spanFrom src s t) (spanFrom src' s' t') := by
  have hstart := ht.spans.start
  exact ⟨hstart, L.clip hstart hs.previous.spans.stop⟩

theorem make {t t' : Token} (ht : L.Tokens t t') {f f' : Form Node}
    (hf : f.map Node.numbered = f'.map Node.numbered) :
    InLockstep L L.Nodes (make t f) (make t' f') := by
  intro src src' s s' _ hs
  have hnode : L.Nodes ⟨⟨s.made.size, spanFrom src s t, none⟩, f⟩
      ⟨⟨s'.made.size, spanFrom src' s' t', none⟩, f'⟩ := by
    refine ⟨?_, spans hs ht⟩
    rw [Node.numbered_mk, Node.numbered_mk, hf, hs.size]
  refine ⟨hnode, { hs with made := ?_ }⟩
  rw [Array.toList_push, Array.toList_push]
  exact List.rel_append hs.made (.cons hnode .nil)

theorem nested {p : Parser α} {p' : Parser α'} (h : InLockstep L Q p p') :
    InLockstep L Q (nested p) (nested p') := by
  intro src src' s s' hsrc hs
  unfold Parse.nested
  rw [← hs.depth]
  split
  · exact fail _ src src' s s' hsrc hs
  · refine Link.Outcomes.leave (h src src' _ _ hsrc ?_)
    exact { hs with depth := rfl }

theorem iterate {step : Parser (Option α)} {step' : Parser (Option α')}
    (h : InLockstep L (Option.Rel Q) step step') {fuel fuel' : List Token}
    (hfuel : fuel.length = fuel'.length) :
    InLockstep L (Forall₂ Q) (Parser.iterate step fuel) (Parser.iterate step' fuel') := by
  induction fuel generalizing fuel' with
  | nil =>
      cases fuel' with
      | nil =>
          refine h.bind ?_
          rintro _ _ (ha | _)
          · exact pure (.cons ha .nil)
          · exact pure .nil
      | cons t ts => cases hfuel
  | cons t fuel ih =>
      cases fuel' with
      | nil => cases hfuel
      | cons t' fuel' =>
          refine h.bind ?_
          rintro _ _ (ha | _)
          · exact (ih (Nat.succ.inj hfuel)).bind fun _ _ has => pure (.cons ha has)
          · exact pure .nil

theorem many {step : Parser (Option α)} {step' : Parser (Option α')}
    (h : InLockstep L (Option.Rel Q) step step') :
    InLockstep L (Forall₂ Q) (Parser.many step) (Parser.many step') :=
  fun src src' s s' hsrc hs => iterate h hs.rest.length_eq src src' s s' hsrc hs

theorem skipCommas : InLockstep L Eq skipCommas skipCommas := by
  have hcomma : InLockstep L (Option.Rel L.Tokens) comma? comma? :=
    test (advance.bind fun _ _ h => pure (.some h)) (pure .none)
  refine (many hcomma).bind ?_
  rintro _ _ (_ | _)
  · exact pure rfl
  · exact pure rfl

section Lists

variable {starts : TokenKind → Bool} {p p' : Parser Node} (hp : InLockstep L L.Nodes p p')

include hp

theorem item : InLockstep L (Option.Rel L.Nodes) (item? starts p) (item? starts p') :=
  look fun _ => choose (hp.bind fun _ _ h => pure (.some h)) (pure .none)

theorem separated : InLockstep L (Forall₂ L.Nodes) (separated starts p) (separated starts p') := by
  have hnext : InLockstep L (Option.Rel L.Nodes) (nextItem? starts p) (nextItem? starts p') := by
    refine skipCommas.bind ?_
    rintro commas _ rfl
    exact choose hp.item (pure .none)
  refine hp.item.bind ?_
  rintro _ _ (hfirst | _)
  · exact (many hnext).bind fun _ _ hmore => pure (.cons hfirst hmore)
  · exact pure .nil

end Lists

end InLockstep

end Scad.Parse
