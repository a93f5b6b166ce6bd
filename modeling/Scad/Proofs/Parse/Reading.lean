import Scad.Proofs.Grammar
import Scad.Proofs.Parse.Outcome

/-! What a production may be relied on for, whatever the tokens are: if it ends without having
reported anything, it has read a phrase. -/
namespace Scad.Parse

open Grammar (Phrase nextKind)

variable {α β : Type}

def State.errors (s : State) : List Diagnostic := s.events.toList.filterMap Event.error?

def Clean (s : State) : Prop := s.errors = []

/-- Only an error sets the place of the last error. -/
def Recorded (s : State) : Prop := Clean s → s.lastErrorAt = -1

/-- Tokens that lie in a text before its end marker. Their numbers can be read, unless `B` allows
others. -/
structure Legible (src : Source) (B : Prop) (ts : List Token) : Prop where
  stopKind : src.stop.kind = .eof
  stopPlaced : 0 ≤ src.stop.span.start.offset
  placed : ∀ t ∈ ts, 0 ≤ t.span.start.offset
  running : ∀ t ∈ ts, t.kind ≠ .eof
  numeral : ∀ t ∈ ts, t.kind = .number → (∃ x, Numeral.read t.text = .ok x) ∨ B

theorem Legible.suffix {src : Source} {B : Prop} {ts rest : List Token} (h : Legible src B ts)
    (hr : rest <:+ ts) : Legible src B rest where
  stopKind := h.stopKind
  stopPlaced := h.stopPlaced
  placed t ht := h.placed t (hr.mem ht)
  running t ht := h.running t (hr.mem ht)
  numeral t ht := h.numeral t (hr.mem ht)

/-- A later state of the same work. -/
structure Follows (s' s : State) : Prop where
  suffix : s'.rest <:+ s.rest
  recorded : Recorded s'

theorem Follows.trans {s s' s'' : State} (h : Follows s'' s') (h' : Follows s' s) : Follows s'' s :=
  ⟨h.suffix.trans h'.suffix, h.recorded⟩

/-- A production that ends in a clean state has read a phrase and was clean all the way. One that
abandons its statement has reported it, and a number stops it only if `B` allows that. -/
def Reads (src : Source) (B : Prop) (p : Parser α) (P : Phrase α) : Prop :=
  ∀ s, Legible src B s.rest → Recorded s → (p src s).Ends
    (fun a s' => Follows s' s ∧ (Clean s' → Clean s ∧ P s.rest a s'.rest))
    (fun s' => Follows s' s ∧ ¬ Clean s') B

/-- A step that only looks. -/
theorem Recorded.unmoved {s : State} {P : Prop} (h : Recorded s) (hP : P) :
    Follows s s ∧ (Clean s → Clean s ∧ P) :=
  ⟨⟨List.suffix_refl _, h⟩, fun hc => ⟨hc, hP⟩⟩

def ahead (src : Source) (ts : List Token) : Token := ts.head?.getD src.stop

theorem Legible.ahead_placed {src : Source} {B : Prop} {ts : List Token} (h : Legible src B ts) :
    0 ≤ (ahead src ts).span.start.offset := by
  cases ts with
  | nil => exact h.stopPlaced
  | cons t ts => exact h.placed t (List.mem_cons_self ..)

theorem Legible.ahead_kind {src : Source} {B : Prop} {ts : List Token} (h : Legible src B ts) :
    (ahead src ts).kind = nextKind ts := by
  cases ts with
  | nil => exact h.stopKind
  | cons t ts => rfl

theorem Legible.ahead_numeral {src : Source} {B : Prop} {ts : List Token} (h : Legible src B ts)
    (hk : (ahead src ts).kind = .number) : (∃ x, Numeral.read (ahead src ts).text = .ok x) ∨ B := by
  cases ts with
  | nil =>
      rw [h.ahead_kind] at hk
      cases hk
  | cons t ts => exact h.numeral t (List.mem_cons_self ..) hk

theorem nextKind_cons {t : Token} {ts : List Token} {k : TokenKind} (h : t.kind = k) :
    nextKind (t :: ts) = k := h

theorem cons_of_nextKind {ts : List Token} {k : TokenKind} (h : nextKind ts = k) (hk : k ≠ .eof) :
    ∃ t rest, ts = t :: rest ∧ t.kind = k := by
  cases ts with
  | nil => exact absurd h.symm hk
  | cons t rest => exact ⟨t, rest, rfl, h⟩

/-- What the steps of a loop read one after the other, up to the one that gives nothing. -/
inductive Iterated (S : Phrase (Option α)) : Phrase (List α)
  | stop {ts rest} : S ts none rest → Iterated S ts [] rest
  | step {ts a mid as rest} : S ts (some a) mid → Iterated S mid as rest →
      Iterated S ts (a :: as) rest

namespace Reads

variable {src : Source} {B : Prop} {P P' : Phrase α} {Q : α → Phrase β}

theorem mono {p : Parser α} (h : Reads src B p P)
    (hP : ∀ ts a rest, Legible src B ts → P ts a rest → P' ts a rest) : Reads src B p P' :=
  fun s hs hr => (h s hs hr).mono
    (fun _ _ h => ⟨h.1, fun hc => ⟨(h.2 hc).1, hP _ _ _ hs (h.2 hc).2⟩⟩) fun _ h => h

theorem pure (a : α) : Reads src B (Pure.pure a) fun ts b rest => b = a ∧ rest = ts :=
  fun _ _ hr => hr.unmoved ⟨rfl, rfl⟩

theorem bind {p : Parser α} {f : α → Parser β} (hp : Reads src B p P)
    (hf : ∀ a, Reads src B (f a) (Q a)) :
    Reads src B (p >>= f) fun ts b rest => ∃ a mid, P ts a mid ∧ Q a mid b rest := by
  intro s hs hr
  refine (hp s hs hr).bind ?_ fun _ h => h
  rintro a mid ⟨hm, hP⟩
  refine (hf a mid (hs.suffix hm.suffix) hm.recorded).mono ?_ fun s' h => ⟨h.1.trans hm, h.2⟩
  rintro b s' ⟨hm', hQ⟩
  refine ⟨hm'.trans hm, fun hc => ?_⟩
  obtain ⟨hc', hq⟩ := hQ hc
  obtain ⟨hc'', hp'⟩ := hP hc'
  exact ⟨hc'', a, mid.rest, hp', hq⟩

/-- Looking ahead says of what kind the next token is, that it lies in the text and that it can be
read if it is a number. -/
theorem look {f : Token → Parser α}
    (h : ∀ t : Token, 0 ≤ t.span.start.offset →
      (t.kind = .number → (∃ x, Numeral.read t.text = .ok x) ∨ B) →
      Reads src B (f t) fun ts b rest => ahead src ts = t → nextKind ts = t.kind → P ts b rest) :
    Reads src B (Parse.current >>= f) P :=
  fun s hs hr => (h (ahead src s.rest) hs.ahead_placed hs.ahead_numeral s hs hr).mono
    (fun _ _ h => ⟨h.1, fun hc => ⟨(h.2 hc).1, (h.2 hc).2 rfl hs.ahead_kind.symm⟩⟩) fun _ h => h

theorem peek : Reads src B peek fun ts t rest => t = ahead src ts.tail ∧ rest = ts :=
  fun _ _ hr => hr.unmoved ⟨rfl, rfl⟩

theorem atKind (k : TokenKind) :
    Reads src B (atKind k) fun ts b rest => b = decide (nextKind ts = k) ∧ rest = ts := by
  refine look fun t _ _ => (pure _).mono fun ts b rest _ hb _ ht => ?_
  rw [ht]
  exact hb

theorem advance : Reads src B advance fun ts t rest =>
    t = ahead src ts ∧ rest = ts.tail ∧ 0 ≤ t.span.start.offset := by
  intro s hs hr
  unfold Parse.advance
  cases ht : s.rest with
  | nil =>
      have hp := hs.ahead_placed
      rw [ht] at hp
      exact hr.unmoved ⟨rfl, by rw [ht]; rfl, hp⟩
  | cons t rest =>
      have hp := hs.ahead_placed
      rw [ht] at hp
      exact ⟨⟨by rw [ht]; exact List.suffix_cons _ _, hr⟩, fun hc =>
        ⟨hc, rfl, rfl, hp⟩⟩

theorem not_clean_push (s : State) (d : Diagnostic) (offset : Int) :
    ¬ Clean { s with events := s.events.push (.error d), lastErrorAt := offset } := by
  simp [Clean, State.errors, Event.error?]

/-- Only a report outside of the text leaves a clean state behind. -/
theorem report (message : String) (span : Span) :
    Reads src B (report message span) fun ts _ rest => span.start.offset = -1 ∧ rest = ts := by
  intro s hs hr
  unfold Parse.report
  by_cases he : span.start.offset = s.lastErrorAt
  · rw [if_pos he]
    exact ⟨⟨List.suffix_refl _, hr⟩, fun hc => ⟨hc, he.trans (hr hc), rfl⟩⟩
  · rw [if_neg he]
    have hc := not_clean_push s ⟨.syntactic, span, message⟩ span.start.offset
    exact ⟨⟨List.suffix_refl _, fun h => absurd h hc⟩, fun h => absurd h hc⟩

theorem place : Reads src B place fun ts _ rest => rest = ts := fun _ _ hr => hr.unmoved rfl

/-- Events that are no errors do not count. -/
theorem note {e : Event} (he : e.error? = none) :
    Reads src B (note e) fun ts _ rest => rest = ts := by
  intro s hs hr
  have herrors : State.errors { s with events := s.events.push e } = s.errors := by
    simp [State.errors, he]
  have hc : Clean { s with events := s.events.push e } → Clean s := fun h => herrors.symm.trans h
  exact ⟨⟨List.suffix_refl _, fun h => hr (hc h)⟩, fun h => ⟨hc h, rfl⟩⟩

theorem expect (k : TokenKind) : Reads src B (expect k) fun ts o rest =>
    (k ≠ .eof → ∃ t, o = some t ∧ ts = t :: rest ∧ t.kind = k) := by
  refine look fun t ht _ => ?_
  by_cases hk : t.kind = k
  · rw [if_pos hk]
    refine (advance.bind fun a => pure (some a)).mono ?_
    rintro ts o rest _ ⟨a, mid, ⟨rfl, rfl, _⟩, rfl, rfl⟩ _ hn he
    obtain ⟨u, tail, rfl, hu⟩ := cons_of_nextKind (hn.trans hk) he
    exact ⟨u, rfl, rfl, hu⟩
  · rw [if_neg hk]
    refine ((report _ _).bind fun _ => pure none).mono ?_
    rintro ts o rest _ ⟨_, _, ⟨hf, _⟩, _⟩
    omega

theorem expectSymbol (sign : Symbol) : Reads src B (expectSymbol sign) fun ts _ rest =>
    ∃ t, ts = t :: rest ∧ t.kind = .symbol sign := by
  refine ((expect (.symbol sign)).bind fun _ => pure ()).mono ?_
  rintro ts _ rest _ ⟨o, mid, h, rfl, rfl⟩
  obtain ⟨t, _, ht⟩ := h (by simp)
  exact ⟨t, ht⟩

theorem fail (message : String) : Reads src B (fail message : Parser α) P := by
  refine look fun t ht _ s hs hr => ?_
  refine (report message t.span s hs hr).bind ?_ fun _ h => h
  rintro _ s' ⟨hm, hf⟩
  refine ⟨hm, fun hc => ?_⟩
  obtain ⟨-, ho, -⟩ := hf hc
  omega

/-- How many levels are open does not matter to what was read. -/
theorem nested {p : Parser α} (h : Reads src B p P) : Reads src B (nested p) P := by
  intro s hs hr
  unfold Parse.nested
  split
  · exact fail _ s hs hr
  · have hp := h { s with depth := s.depth + 1 } hs hr
    cases ho : p src { s with depth := s.depth + 1 } with
    | done a s' | abandoned s' =>
        rw [ho] at hp
        exact ⟨⟨hp.1.suffix, hp.1.recorded⟩, hp.2⟩
    | broken fault =>
        rw [ho] at hp
        exact hp

theorem iterate {step : Parser (Option α)} {S : Phrase (Option α)} (h : Reads src B step S)
    (hs : ∀ ts a rest, S ts (some a) rest → rest.length < ts.length) (fuel : List Token) :
    Reads src B (Parser.iterate step fuel) fun ts as rest =>
      ts.length ≤ fuel.length → Iterated S ts as rest := by
  induction fuel with
  | nil =>
      refine (h.bind fun last => pure last.toList).mono ?_
      rintro ts as rest _ ⟨o, mid, ho, rfl, rfl⟩ hl
      cases o with
      | none => exact .stop ho
      | some a =>
          have := hs _ _ _ ho
          simp only [List.length_nil] at hl
          omega
  | cons t fuel ih =>
      refine (bind (Q := fun o ts as rest => (o = none ∧ as = [] ∧ rest = ts) ∨
        ∃ a more, o = some a ∧ as = a :: more ∧ (ts.length ≤ fuel.length → Iterated S ts more rest))
        h fun o => ?_).mono ?_
      · cases o with
        | none => exact (pure []).mono fun ts as rest _ h => .inl ⟨rfl, h⟩
        | some a =>
            refine (ih.bind fun more => pure (a :: more)).mono ?_
            rintro ts as rest _ ⟨more, mid, hm, rfl, rfl⟩
            exact .inr ⟨a, more, rfl, rfl, hm⟩
      · rintro ts as rest _ ⟨o, mid, ho, ⟨rfl, rfl, rfl⟩ | ⟨a, more, rfl, rfl, hm⟩⟩ hl
        · exact .stop ho
        · have := hs _ _ _ ho
          refine .step ho (hm ?_)
          simp only [List.length_cons] at hl
          omega

/-- A loop whose steps each consume a token ends with a step that gives nothing. -/
theorem many {step : Parser (Option α)} {S : Phrase (Option α)} (h : Reads src B step S)
    (hs : ∀ ts a rest, S ts (some a) rest → rest.length < ts.length) :
    Reads src B (Parser.many step) (Iterated S) :=
  fun s hl hr => (iterate h hs s.rest s hl hr).mono
    (fun _ _ h => ⟨h.1, fun hc => ⟨(h.2 hc).1, (h.2 hc).2 (Nat.le_refl _)⟩⟩) fun _ h => h

/-- A node keeps the start of the token it was made at. -/
theorem make (start : Token) (form : Form Node) : Reads src B (make start form) fun ts n rest =>
    n.form = form ∧ n.span.start = start.span.start ∧ rest = ts :=
  fun _ _ hr => ⟨⟨List.suffix_refl _, hr⟩, fun hc => ⟨hc, rfl, rfl, rfl⟩⟩

end Reads

theorem isSign_eof : isSign .eof = false := rfl

theorem isOperator_eof (level : ChainLevel) : isOperator level .eof = false := by
  cases level <;> rfl

/-- Skipping leaves a part of the tokens ahead. -/
theorem skipStatement_suffix (depth : Nat) (previous : Token) (ts : List Token) :
    (skipStatement depth previous ts).2 <:+ ts := by
  fun_induction skipStatement depth previous ts with
  | case1 => exact List.suffix_refl _
  | case2 => exact List.suffix_cons _ _
  | case3 _ _ _ _ _ _ ih => exact ih.trans (List.suffix_cons _ _)
  | case4 => exact List.suffix_refl _
  | case5 => exact List.suffix_cons _ _
  | case6 _ _ _ _ _ _ _ _ _ ih => exact ih.trans (List.suffix_cons _ _)
  | case7 _ _ _ _ _ _ _ ih => exact ih.trans (List.suffix_cons _ _)

end Scad.Parse
