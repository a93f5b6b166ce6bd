import Scad.Proofs.Grammar.Progress
import Scad.Proofs.Parse.Reading

/-! Every production for expressions reads the phrase of its name. -/
namespace Scad.Parse

open Grammar (Phrase Level Shrinks Commas Listed After Between nextKind)

variable {α β : Type} {src : Source} {B : Prop}

namespace Reads

variable {P : Phrase α}

/-- Both ways on from a test of the next token. -/
theorem test {k : TokenKind} {p q : Parser α}
    (hp : Reads src B p fun ts a rest => nextKind ts = k → P ts a rest)
    (hq : Reads src B q fun ts a rest => nextKind ts ≠ k → P ts a rest) :
    Reads src B (Parse.atKind k >>= fun b => if b = true then p else q) P := by
  have hb : ∀ b : Bool, Reads src B (if b = true then p else q)
      fun ts a rest => b = decide (nextKind ts = k) → P ts a rest := by
    intro b
    cases b with
    | true => exact hp.mono fun ts a rest _ h hd => h (of_decide_eq_true hd.symm)
    | false => exact hq.mono fun ts a rest _ h hd => h (of_decide_eq_false hd.symm)
  refine ((atKind k).bind hb).mono ?_
  rintro ts a rest _ ⟨b, mid, ⟨hd, rfl⟩, h⟩
  exact h hd

/-- Both ways on from a decision. -/
theorem branch {c : Parser Bool} {C : Phrase Bool} {p q : Parser α} {R : Bool → Phrase α}
    (hc : Reads src B c C) (hp : Reads src B p (R true)) (hq : Reads src B q (R false)) :
    Reads src B (c >>= fun b => if b = true then p else q)
      fun ts a rest => ∃ b mid, C ts b mid ∧ R b mid a rest := by
  refine hc.bind fun b => ?_
  cases b with
  | true => exact hp
  | false => exact hq

/-- Consuming a token that is known not to be the end marker. -/
theorem take {q : Token → Parser α} {Q : Token → Phrase α}
    (hq : ∀ t : Token, 0 ≤ t.span.start.offset → Reads src B (q t) (Q t)) :
    Reads src B (Parse.advance >>= q) fun ts a rest => nextKind ts ≠ .eof →
      ∃ t tail, ts = t :: tail ∧ Q t tail a rest := by
  intro s hs hr
  cases ht : s.rest with
  | nil =>
      have he : (Parse.advance >>= q) src s = q src.stop src s := by
        show Parser.bind Parse.advance q src s = _
        unfold Parser.bind Parse.advance
        rw [ht]
      rw [he, ← ht]
      refine (hq src.stop hs.stopPlaced s hs hr).mono
        (fun a s' h => ⟨h.1, fun hc => ?_⟩) fun _ h => h
      refine ⟨(h.2 hc).1, fun hk => absurd ?_ hk⟩
      rw [ht]
      rfl
  | cons t tail =>
      have he : (Parse.advance >>= q) src s =
          q t src { s with rest := tail, position := s.position + 1, previous := t } := by
        show Parser.bind Parse.advance q src s = _
        unfold Parser.bind Parse.advance
        rw [ht]
      rw [ht] at hs
      rw [he]
      have hf : Follows { s with rest := tail, position := s.position + 1, previous := t } s :=
        ⟨by rw [ht]; exact List.suffix_cons t tail, hr⟩
      refine (hq t (hs.placed t (List.mem_cons_self ..))
        { s with rest := tail, position := s.position + 1, previous := t }
        (hs.suffix (List.suffix_cons t tail)) hr).mono (fun a s' h => ⟨h.1.trans hf, fun hc => ?_⟩)
        fun s' h => ⟨h.1.trans hf, h.2⟩
      exact ⟨(h.2 hc).1, fun _ => ⟨t, tail, rfl, (h.2 hc).2⟩⟩

end Reads

def Located (P : Phrase Node) : Phrase Node :=
  fun ts n rest => P ts n rest ∧ 0 ≤ n.span.start.offset

theorem located_make {P : Phrase Node} {form : Form Node} {start : Token}
    (h : 0 ≤ start.span.start.offset) {ts rest : List Token}
    (hP : ∀ i, P ts ⟨i, form⟩ rest) {n : Node} (hn : n.form = form)
    (hs : n.span.start = start.span.start) : Located P ts n rest := by
  obtain ⟨i, f⟩ := n
  cases hn
  exact ⟨hP i, by rw [hs]; exact h⟩

/-- What a step reads that gives nothing where no phrase begins. -/
def ReadsIfAny (P : Phrase α) : Phrase (Option α) := fun ts o rest =>
  match o with
  | some a => P ts a rest
  | none => rest = ts

theorem Iterated.repeated {P : Phrase α} {ts rest : List Token} {as : List α}
    (h : Iterated (ReadsIfAny P) ts as rest) : Grammar.Repeated P ts as rest := by
  induction h with
  | stop h =>
      cases h
      exact .nil
  | step h _ ih => exact .cons h ih

theorem reads_skipCommas : Reads src B skipCommas fun ts b rest =>
    (b = true ∧ Commas ts rest) ∨ (b = false ∧ rest = ts) := by
  have hstep : Reads src B (do
      if ← atKind (.symbol .comma) then
        return some (← advance)
      else return none : Parser (Option Token))
        (ReadsIfAny fun ts t rest => ts = t :: rest ∧ t.kind = .symbol .comma) := by
    refine Reads.test ?_ ?_
    · refine (Reads.take fun t _ => Reads.pure (some t)).mono ?_
      rintro ts o rest _ h hk
      obtain ⟨t, tail, rfl, rfl, rfl⟩ := h (by rw [hk]; simp)
      exact ⟨rfl, hk⟩
    · refine (Reads.pure none).mono ?_
      rintro ts o rest _ ⟨rfl, rfl⟩ _
      rfl
  refine ((hstep.many ?_).bind fun commas => Reads.pure (!commas.isEmpty)).mono ?_
  · rintro ts t rest ⟨rfl, _⟩
    simp
  · rintro ts b rest - ⟨as, mid, hi, rfl, rfl⟩
    induction hi with
    | stop h => exact .inr ⟨rfl, h⟩
    | step h _ ih =>
        obtain ⟨rfl, hk⟩ := h
        rcases ih with ⟨_, hc⟩ | ⟨_, rfl⟩
        · exact .inl ⟨rfl, .more hk hc⟩
        · exact .inl ⟨rfl, .one hk⟩

/-- An item of a list, or nothing where none begins. -/
theorem reads_next {starts : TokenKind → Bool} {item : Parser Node} {P : Phrase Node}
    (hi : Reads src B item fun ts n rest => starts (nextKind ts) → P ts n rest) :
    Reads src B (do
      if starts (← current).kind then
        return some (← item)
      else return none : Parser (Option Node)) (ReadsIfAny P) := by
  refine Reads.look fun t _ _ => ?_
  by_cases ht : starts t.kind = true
  · rw [if_pos ht]
    refine (hi.bind fun a => Reads.pure (some a)).mono ?_
    rintro ts o rest - ⟨a, mid, ha, rfl, rfl⟩ - hk
    exact ha (by rw [hk]; exact ht)
  · rw [if_neg ht]
    refine (Reads.pure none).mono ?_
    rintro ts o rest - ⟨rfl, rfl⟩ - -
    rfl

/-- What a step behind the first item of a list reads. -/
def ReadsFurther (P : Phrase Node) : Phrase (Option Node) := fun ts o rest =>
  match o with
  | some a => ∃ mid, Commas ts mid ∧ P mid a rest
  | none => rest = ts ∨ Commas ts rest

theorem ReadsFurther.shrinks {P : Phrase Node} (hP : Shrinks P) {ts : List Token} {a : Node}
    {rest : List Token} (h : ReadsFurther P ts (some a) rest) : rest.length < ts.length := by
  obtain ⟨mid, hc, ha⟩ := h
  have := hc.shrinks
  have := hP ha
  omega

theorem listed_of_iterated {P : Phrase Node} {ts mid : List Token} {first : Node}
    {more : List Node} {rest : List Token} (hf : P ts first mid)
    (hm : Iterated (ReadsFurther P) mid more rest) : Listed P ts (first :: more) rest := by
  induction hm generalizing ts first with
  | stop h =>
      rcases h with rfl | hc
      · exact .one hf
      · exact .more hf hc .none
  | step h _ ih =>
      obtain ⟨next, hc, ha⟩ := h
      exact .more hf hc (ih ha)

theorem reads_further {next : Parser (Option Node)} {P : Phrase Node}
    (hn : Reads src B next (ReadsIfAny P)) :
    Reads src B (do if ← skipCommas then next else return none) (ReadsFurther P) := by
  refine (Reads.branch (R := fun b ts o rest => match b with
    | true => ReadsIfAny P ts o rest
    | false => o = none ∧ rest = ts) reads_skipCommas hn (Reads.pure none)).mono ?_
  rintro ts o rest - ⟨b, mid, hb, ho⟩
  rcases hb with ⟨rfl, hc⟩ | ⟨rfl, rfl⟩
  · cases o with
    | some a => exact ⟨mid, hc, ho⟩
    | none =>
        cases ho
        exact .inr hc
  · obtain ⟨rfl, rfl⟩ := ho
    exact .inl rfl

theorem reads_separated {starts : TokenKind → Bool} {item : Parser Node} {P : Phrase Node}
    (hi : Reads src B item fun ts n rest => starts (nextKind ts) → P ts n rest) (hP : Shrinks P) :
    Reads src B (separated starts item) (Listed P) := by
  refine (Reads.bind (Q := fun o ts as rest => (o = none ∧ as = [] ∧ rest = ts) ∨
    ∃ first more, o = some first ∧ as = first :: more ∧ Iterated (ReadsFurther P) ts more rest)
    (reads_next hi) fun o => ?_).mono ?_
  · cases o with
    | none => exact (Reads.pure []).mono fun ts as rest _ h => .inl ⟨rfl, h⟩
    | some first =>
        refine (((reads_further (reads_next hi)).many fun _ _ _ => ReadsFurther.shrinks hP).bind
          fun more =>
          Reads.pure (first :: more)).mono ?_
        rintro ts as rest - ⟨more, mid, hm, rfl, rfl⟩
        exact .inr ⟨first, more, rfl, rfl, hm⟩
  · rintro ts as rest - ⟨o, mid, ho, ⟨rfl, rfl, rfl⟩ | ⟨first, more, rfl, rfl, hm⟩⟩
    · cases ho
      exact .none
    · exact listed_of_iterated ho hm

/-- A phrase between two symbols that have to be there. -/
theorem reads_between {p : Parser α} {P : Phrase α} (left right : Symbol) (hp : Reads src B p P) :
    Reads src B (do
      expectSymbol left
      let found ← p
      expectSymbol right
      return found) (Between left right P) := by
  refine ((Reads.expectSymbol left).bind fun _ => hp.bind fun found =>
    (Reads.expectSymbol right).bind fun _ => Reads.pure found).mono ?_
  rintro ts a rest - ⟨_, _, ⟨l, rfl, hl⟩, found, mid, ha, _, _, ⟨r, rfl, hr⟩, rfl, rfl⟩
  exact ⟨hl, ha, hr⟩

theorem reads_identifier : Reads src B identifier fun ts name rest =>
    ∃ t, ts = t :: rest ∧ t.kind = .identifier ∧ name = t.text := by
  refine (Reads.bind (Q := fun o ts name rest => rest = ts ∧ ∀ t, o = some t → name = t.text)
    (Reads.expect .identifier) fun o => ?_).mono ?_
  · cases o with
    | some t =>
        refine (Reads.pure t.text).mono ?_
        rintro ts name rest - ⟨rfl, rfl⟩
        exact ⟨rfl, fun u hu => by cases hu; rfl⟩
    | none =>
        refine (Reads.pure _).mono ?_
        rintro ts name rest - ⟨-, rfl⟩
        exact ⟨rfl, fun u hu => by cases hu⟩
  · rintro ts name rest - ⟨o, mid, ho, rfl, hn⟩
    obtain ⟨t, rfl, rfl, hk⟩ := ho (by simp)
    exact ⟨t, rfl, hk, hn t rfl⟩

/-- The productions of the next level read its phrases, and an `else` is never left behind. -/
structure SoundExpressions (src : Source) (B : Prop) (rules : ExpressionRules) (inner : Level) :
    Prop where
  expression : Reads src B rules.expression (Located inner.expression)
  unary : Reads src B rules.unary (Located inner.unary)
  element : Reads src B rules.element (Located inner.element)
  shrinking : inner.Shrinking
  ifEnd : ∀ rest, nextKind rest ≠ .keyword .otherwise → inner.ifEnd rest

variable {rules : ExpressionRules} {inner : Level} (h : SoundExpressions src B rules inner)

include h

theorem reads_argument (declares : Bool) :
    Reads src B (argument rules declares) (Grammar.Argument inner declares) := by
  refine Reads.look fun t _ _ => ?_
  have hbranch : ∀ u : Token, Reads src B (if t.kind = .identifier ∧
    u.kind = .symbol .assign then do
      let _ ← advance
      let name ← make t
        (if declares then .variableDefinition t.text else .argumentName t.text)
      let _ ← advance
      let expr ← rules.expression
      make t (.argument (some name) expr)
    else do
      let expr ← rules.expression
      make t (.argument none expr))
      fun ts n rest => ahead src ts = t → u = ahead src ts.tail →
        Grammar.Argument inner declares ts n rest := by
    intro u
    by_cases hk : t.kind = .identifier ∧ u.kind = .symbol .assign
    · rw [if_pos hk]
      refine (Reads.take fun _ _ => (Reads.make t _).bind fun name =>
        Reads.take fun _ _ => h.expression.bind fun e => Reads.make t _).mono ?_
      rintro ts n rest hl hr ht hu
      obtain ⟨t', _, rfl, ⟨j, g⟩, tail, ⟨hname, -, rfl⟩, hr'⟩ :=
        hr (by rw [← hl.ahead_kind, ht, hk.1]; simp)
      obtain rfl : t' = t := ht
      have hu' : nextKind tail = .symbol .assign := by
        rw [← (hl.suffix (List.suffix_cons _ _)).ahead_kind, ← hk.2, hu]
        rfl
      obtain ⟨eq, tail', rfl, e, mid, ⟨he, -⟩, hf, -, rfl⟩ := hr' (by rw [hu']; simp)
      obtain ⟨i, f⟩ := n
      cases hf
      cases hname
      exact .named hk.1 ⟨hu', he⟩
    · rw [if_neg hk]
      refine (h.expression.bind fun e => Reads.make t _).mono ?_
      rintro ts ⟨i, f⟩ rest - ⟨e, mid, ⟨he, -⟩, hf, -, rfl⟩ - -
      cases hf
      exact .unnamed he
  refine (Reads.peek.bind hbranch).mono ?_
  rintro ts n rest - ⟨u, mid, ⟨hu, rfl⟩, ha⟩ ht -
  exact ha ht hu

theorem reads_arguments (declares : Bool) :
    Reads src B (arguments rules declares) (Grammar.Arguments inner declares) :=
  reads_between .leftParen .rightParen (reads_separated
    ((reads_argument h declares).mono fun _ _ _ _ ha _ => ha)
    (Grammar.Argument.shrinks h.shrinking declares))

theorem reads_value {start : Token} {f : Node → Form Node} : Reads src B (do
    let _ ← advance
    let expr ← rules.expression
    make start (f expr)) fun ts n rest => nextKind ts = .symbol .assign →
      ∃ e, Grammar.Value inner ts e rest ∧ n.form = f e := by
  refine (Reads.take fun _ _ => h.expression.bind fun e => Reads.make start _).mono ?_
  rintro ts n rest - hr hk
  obtain ⟨t, tail, rfl, e, mid, ⟨he, -⟩, hf, -, rfl⟩ := hr (by rw [hk]; simp)
  exact ⟨e, ⟨hk, he⟩, hf⟩

theorem reads_parameter : Reads src B (parameter rules) fun ts n rest =>
    isIdentifier (nextKind ts) → Grammar.Parameter inner ts n rest := by
  refine (Reads.take fun t _ => Reads.test
    (P := fun ts n rest => (∃ e, Grammar.Value inner ts e rest ∧
      n.form = .parameter t.text (some e)) ∨ (n.form = .parameter t.text none ∧ rest = ts))
    ((reads_value h).mono fun ts n rest _ hv hk => .inl (hv hk))
    ((Reads.make t _).mono fun ts n rest _ hm _ => .inr ⟨hm.1, hm.2.2⟩)).mono ?_
  rintro ts ⟨i, f⟩ rest - hr hk
  have hk : nextKind ts = .identifier := of_decide_eq_true hk
  obtain ⟨t, tail, rfl, ⟨e, he, rfl⟩ | ⟨rfl, rfl⟩⟩ := hr (by rw [hk]; simp)
  · exact .optional hk he
  · exact .required hk

theorem reads_parameters : Reads src B (parameters rules) (Grammar.Parameters inner) :=
  reads_between .leftParen .rightParen
    (reads_separated (reads_parameter h) (Grammar.Parameter.shrinks h.shrinking))

theorem reads_assignmentParts : Reads src B (assignmentParts rules) fun ts a rest =>
    nextKind ts = .identifier → ∃ tail j, ts = a.1 :: tail ∧ 0 ≤ a.1.span.start.offset ∧
      a.2.1 = ⟨j, .variableDefinition a.1.text⟩ ∧ Grammar.Value inner tail a.2.2 rest := by
  refine (Reads.take fun t ht => (Reads.make t _).bind fun target =>
    (Reads.expectSymbol .assign).bind fun _ => h.expression.bind fun e =>
      (Reads.pure (t, target, e)).mono fun ts a rest _ ha => And.intro ht ha).mono ?_
  rintro ts a rest - hr hk
  obtain ⟨t, _, rfl, ⟨j, g⟩, tail, ⟨hg, -, rfl⟩, _, _, ⟨eq, rfl, heq⟩, e, mid, ⟨he, -⟩,
    ht, rfl, rfl⟩ :=
    hr (by rw [hk]; simp)
  cases hg
  exact ⟨_, j, rfl, ht, rfl, heq, he⟩

theorem reads_assignment : Reads src B (assignment rules) fun ts n rest =>
    isIdentifier (nextKind ts) → Grammar.Assignment inner ts n rest := by
  refine ((reads_assignmentParts h).bind fun a => Reads.make a.1 (.assignment a.2.1 a.2.2)).mono ?_
  rintro ts ⟨i, f⟩ rest - ⟨⟨t, target, e⟩, mid, ha, hf, -, rfl⟩ hk
  have hk : nextKind ts = .identifier := of_decide_eq_true hk
  obtain ⟨tail, j, rfl, -, ht, he⟩ := ha hk
  cases hf
  dsimp only at ht
  rw [ht]
  exact ⟨hk, he⟩

theorem reads_assignments :
    Reads src B (assignments rules) (Listed (Grammar.Assignment inner)) :=
  reads_separated (reads_assignment h) (Grammar.Assignment.shrinks h.shrinking)

theorem reads_letAssignments : Reads src B (letAssignments rules)
    (Between .leftParen .rightParen (Listed (Grammar.Assignment inner))) :=
  reads_between .leftParen .rightParen (reads_assignments h)

theorem reads_loopUpdate : Reads src B (loopUpdate rules) fun ts n rest =>
    isIdentifier (nextKind ts) → Grammar.Update inner ts n rest := by
  refine (Reads.take fun t ht => (Reads.make t _).bind fun target =>
    (Reads.expectSymbol .assign).bind fun _ => h.expression.bind fun e => Reads.make t _).mono ?_
  rintro ts ⟨i, f⟩ rest - hr hk
  have hk : nextKind ts = .identifier := of_decide_eq_true hk
  obtain ⟨t, _, rfl, ⟨j, g⟩, tail, ⟨hg, -, rfl⟩, _, _, ⟨eq, rfl, heq⟩, e, mid,
    ⟨he, -⟩, hf, -, rfl⟩ :=
    hr (by rw [hk]; simp)
  cases hg
  cases hf
  exact ⟨hk, heq, he⟩

theorem reads_loopControl : Reads src B (loopControl rules) fun ts c rest =>
    (c = (none, []) ∧ rest = ts) ∨ ∃ e s next, c.1 = some e ∧
      After (.symbol .semicolon) inner.expression ts e (s :: next) ∧
      s.kind = .symbol .semicolon ∧ Listed (Grammar.Update inner) next c.2 rest := by
  refine Reads.test ?_ ?_
  · refine (Reads.take fun t ht => h.expression.bind fun e =>
      (Reads.expectSymbol .semicolon).bind fun _ =>
        (reads_separated (reads_loopUpdate h) (Grammar.Update.shrinks h.shrinking)).bind fun us =>
          Reads.pure (some e, us)).mono ?_
    rintro ts c rest - hr hk
    obtain ⟨t, tail, rfl, e, mid, ⟨he, -⟩, _, next, ⟨s, rfl, hs⟩, us, _, hu, rfl, rfl⟩ :=
      hr (by rw [hk]; simp)
    exact .inr ⟨e, s, next, rfl, ⟨hk, he⟩, hs, hu⟩
  · refine (Reads.pure _).mono ?_
    rintro ts c rest - ⟨rfl, rfl⟩ -
    exact .inl ⟨rfl, rfl⟩

theorem reads_forElement : Reads src B (forElement rules) fun ts n rest =>
    nextKind ts = .keyword .forLoop → Located (Grammar.Element inner) ts n rest := by
  refine (Reads.take fun t ht => (Reads.expectSymbol .leftParen).bind fun _ =>
    (reads_assignments h).bind fun inits => (reads_loopControl h).bind fun control =>
      (Reads.expectSymbol .rightParen).bind fun _ => h.element.bind fun body =>
        (Reads.make t (.forElement inits control.1 control.2 body)).mono
          fun ts n rest _ hm => And.intro ht hm).mono ?_
  rintro ts n rest - hr hk
  obtain ⟨t, _, rfl, _, tail, ⟨l, rfl, hl⟩, as, mid, ha, ⟨c, us⟩, _, hc, _, _, ⟨r, rfl, hr⟩,
    b, _, ⟨hb, -⟩, ht, hf, hs, rfl⟩ := hr (by rw [hk]; simp)
  refine located_make ht (fun i => ?_) hf hs
  rcases hc with ⟨hc, rfl⟩ | ⟨e, s, next, he, hw, hs, hu⟩
  · cases hc
    exact .loop hk ⟨hl, .plain ha, hr⟩ hb
  · dsimp only at he
    rw [he]
    exact .loop hk ⟨hl, .counted ha hw hs hu, hr⟩ hb

omit h in
theorem cons_of_startsGenerator {ts : List Token} (hl : Legible src B ts)
    (h : startsGenerator (ahead src ts).kind) :
    ∃ t rest, ts = t :: rest ∧ startsGenerator t.kind := by
  cases ts with
  | nil =>
      rw [hl.ahead_kind] at h
      cases h
  | cons t rest => exact ⟨t, rest, rfl, h⟩

omit h in
/-- An `else` branch is read whenever there is one. -/
theorem reads_elseBranch {branch : Parser Node} {P : Phrase Node} (hb : Reads src B branch P) :
    Reads src B (elseBranch branch) fun ts o rest =>
      match o with
      | some e => After (.keyword .otherwise) P ts e rest
      | none => nextKind ts ≠ .keyword .otherwise ∧ rest = ts := by
  refine Reads.test ?_ ?_
  · refine (Reads.take fun _ _ => hb.bind fun e => Reads.pure (some e)).mono ?_
    rintro ts o rest - hr hk
    obtain ⟨t, tail, rfl, e, mid, he, rfl, rfl⟩ := hr (by rw [hk]; simp)
    exact ⟨hk, he⟩
  · refine (Reads.pure none).mono ?_
    rintro ts o rest - ⟨rfl, rfl⟩ hk
    exact ⟨hk, rfl⟩

theorem reads_element : Reads src B (element rules) (Located (Grammar.Element inner)) := by
  refine Reads.look fun t ht _ => ?_
  split
  · rename_i hk
    refine (reads_forElement h).mono ?_
    rintro ts n rest - hr - hn
    exact hr (hn.trans hk)
  · rename_i hk
    refine (Reads.take fun _ _ => h.element.bind fun b => Reads.make t (.each b)).mono ?_
    rintro ts n rest - hr - hn
    obtain ⟨k, tail, rfl, b, _, ⟨hb, -⟩, hf, hs, rfl⟩ := hr (by rw [hn, hk]; simp)
    exact located_make ht (fun i => .each (hn.trans hk) hb) hf hs
  · rename_i hk
    refine (Reads.take fun _ _ => (Reads.expectSymbol .leftParen).bind fun _ =>
      h.expression.bind fun c => (Reads.expectSymbol .rightParen).bind fun _ =>
        h.element.bind fun a => (reads_elseBranch h.element).bind fun b =>
          Reads.make t (.ifElement c a b)).mono ?_
    rintro ts n rest - hr - hn
    obtain ⟨k, _, rfl, _, tail, ⟨l, rfl, hl⟩, c, _, ⟨hc, -⟩, _, mid, ⟨r, rfl, hr⟩, a,
      next, ⟨ha, -⟩, b, _, hb, hf, hs, rfl⟩ := hr (by rw [hn, hk]; simp)
    refine located_make ht (fun i => ?_) hf hs
    cases b with
    | none =>
        obtain ⟨he, rfl⟩ := hb
        exact .ifThen (hn.trans hk) ⟨hl, hc, hr⟩ ha (h.ifEnd _ he)
    | some b =>
        obtain ⟨he, hb, -⟩ := hb
        exact .ifElse (hn.trans hk) ⟨hl, hc, hr⟩ ha ⟨he, hb⟩
  · rename_i hk
    refine (Reads.take fun _ _ => (reads_letAssignments h).bind fun as =>
      h.element.bind fun b => Reads.make t (.letIn as b)).mono ?_
    rintro ts n rest - hr - hn
    obtain ⟨k, tail, rfl, as, _, ha, b, _, ⟨hb, -⟩, hf, hs, rfl⟩ := hr (by rw [hn, hk]; simp)
    exact located_make ht (fun i => .letIn (hn.trans hk) ha hb) hf hs
  · rename_i hk
    have hbranch : ∀ u : Token, Reads src B (if startsGenerator u.kind then do
        let _ ← advance
        let inner ← rules.element
        expectSymbol .rightParen
        return inner
      else rules.expression)
        fun ts n rest => nextKind ts = .symbol .leftParen → u = ahead src ts.tail →
          Located (Grammar.Element inner) ts n rest := by
      intro u
      by_cases hu : startsGenerator u.kind
      · rw [if_pos hu]
        refine (Reads.take fun _ _ => h.element.bind fun x =>
          (Reads.expectSymbol .rightParen).bind fun _ => Reads.pure x).mono ?_
        rintro ts n rest hl hr hn rfl
        obtain ⟨k, tail, rfl, x, _, ⟨hx, hp⟩, _, _, ⟨r, rfl, hc⟩, rfl, rfl⟩ := hr (by rw [hn]; simp)
        obtain ⟨g, tail, rfl, hg⟩ := cons_of_startsGenerator (hl.suffix (List.suffix_cons _ _)) hu
        exact ⟨.group ⟨hn, hx, hc⟩ hg, hp⟩
      · rw [if_neg hu]
        refine h.expression.mono ?_
        rintro ts n rest - ⟨he, hp⟩ hn -
        exact ⟨.plain he (by rw [hn]; simp), hp⟩
    refine (Reads.peek.bind hbranch).mono ?_
    rintro ts n rest - ⟨u, mid, ⟨hu, rfl⟩, hr⟩ - hn
    exact hr (hn.trans hk) hu
  · rename_i _ _ _ hlet _
    refine h.expression.mono ?_
    rintro ts n rest - hr - hn
    exact ⟨.plain hr.1 (by rw [hn]; exact hlet), hr.2⟩

omit h in
/-- A report is avoided only by elements of one sort. -/
theorem reads_checkUniform (elements : List Node) :
    Reads src B (checkUniform elements) fun ts _ rest =>
      (∀ x ∈ elements, 0 ≤ x.span.start.offset) → Grammar.Uniform elements ∧ rest = ts := by
  cases elements with
  | nil =>
      refine (Reads.pure ()).mono fun ts a rest _ hr _ => ⟨?_, hr.2⟩
      intro x hx
      cases hx
  | cons first more =>
      unfold checkUniform
      dsimp only
      split
      · rename_i hf
        refine (Reads.pure ()).mono fun ts a rest _ hr _ => ⟨?_, hr.2⟩
        have hall : ∀ x ∈ first :: more, x.isGenerator = first.isGenerator := by
          intro x hx
          rcases List.mem_cons.1 hx with rfl | hx
          · rfl
          · have := List.find?_eq_none.1 hf x hx
            simpa using this
        intro x hx y hy
        rw [hall x hx, hall y hy]
      · rename_i odd hf
        have hm : odd ∈ first :: more := List.mem_cons_of_mem _ (List.mem_of_find?_eq_some hf)
        refine (Reads.report _ _).mono fun ts a rest _ hr hp => ?_
        have := hp odd hm
        omega

def RangeRest (inner : Level) (first : Node) (ts : List Token) (n : Node) (rest : List Token) :
    Prop :=
  ∃ b s r, n.form = .range first b s ∧ 0 ≤ n.span.start.offset ∧
    r.kind = .symbol .rightBracket ∧ ∀ ts', Grammar.Element inner ts' first ts →
      Grammar.Range inner ts' (first, b, s) (r :: rest)

theorem reads_rangeRest {start : Token} (ht : 0 ≤ start.span.start.offset) (first : Node) :
    Reads src B (rangeRest rules start first) fun ts n rest => nextKind ts = .symbol .colon →
      first.isGenerator = false ∧ RangeRest inner first ts n rest := by
  have hend : ∀ second, Reads src B (do
      if ← atKind (.symbol .colon) then
        let _ ← advance
        let stop ← rules.expression
        expectSymbol .rightBracket
        make start (.range first stop (some second))
      else
        expectSymbol .rightBracket
        make start (.range first second none)) fun ts n rest =>
        (∃ b r, n.form = .range first b (some second) ∧ 0 ≤ n.span.start.offset ∧
          r.kind = .symbol .rightBracket ∧
          After (.symbol .colon) inner.expression ts b (r :: rest)) ∨
        (∃ r, n.form = .range first second none ∧ 0 ≤ n.span.start.offset ∧
          r.kind = .symbol .rightBracket ∧ ts = r :: rest) := by
    intro second
    refine Reads.test ?_ ?_
    · refine (Reads.take fun _ _ => h.expression.bind fun b =>
        (Reads.expectSymbol .rightBracket).bind fun _ => Reads.make start _).mono ?_
      rintro ts n rest - hr hk
      obtain ⟨c, tail, rfl, b, _, ⟨hb, -⟩, _, _, ⟨r, rfl, hc⟩, hf, hs, rfl⟩ := hr (by rw [hk]; simp)
      exact .inl ⟨b, r, hf, by rw [hs]; exact ht, hc, ⟨hk, hb⟩⟩
    · refine ((Reads.expectSymbol .rightBracket).bind fun _ => Reads.make start _).mono ?_
      rintro ts n rest - ⟨_, _, ⟨r, rfl, hc⟩, hf, hs, rfl⟩ -
      exact .inr ⟨r, hf, by rw [hs]; exact ht, hc, rfl⟩
  have hrest := Reads.take fun (_ : Token) _ => h.expression.bind hend
  by_cases hg : first.isGenerator = true
  · refine Reads.mono (P := fun _ _ _ => False) ?_ fun ts n rest _ hf => hf.elim
    unfold rangeRest
    dsimp only
    rw [if_pos hg]
    refine Reads.look fun t hp _ => ((Reads.report _ _).bind fun _ => hrest).mono ?_
    rintro ts n rest - ⟨_, _, ⟨hf, -⟩, -⟩
    omega
  · unfold rangeRest
    dsimp only
    rw [if_neg hg]
    refine hrest.mono ?_
    rintro ts n rest - hr hk
    obtain ⟨c, tail, rfl, e, mid, ⟨he, -⟩, ⟨b, r, hf, hs, hc, hb⟩ | ⟨r, hf, hs, hc, rfl⟩⟩ :=
      hr (by rw [hk]; simp)
    · exact ⟨by simpa using hg, b, some e, r, hf, hs, hc, fun ts' ha => .stepped ha ⟨hk, he⟩ hb⟩
    · exact ⟨by simpa using hg, e, none, r, hf, hs, hc, fun ts' ha => .ends ha ⟨hk, he⟩⟩

/-- A further element of a vector, or nothing before the closing bracket. -/
theorem reads_nextElement : Reads src B (do
    if ← atKind (.symbol .rightBracket) then
      return none
    else
      return some (← element rules) : Parser (Option Node))
      (ReadsIfAny (Located (Grammar.Element inner))) := by
  refine Reads.test ?_ ?_
  · refine (Reads.pure none).mono ?_
    rintro ts o rest - ⟨rfl, rfl⟩ -
    rfl
  · refine ((reads_element h).bind fun a => Reads.pure (some a)).mono ?_
    rintro ts o rest - ⟨a, _, ha, rfl, rfl⟩ -
    exact ha

omit h in
theorem Listed.located {P : Phrase Node} {ts : List Token} {as : List Node} {rest : List Token}
    (hl : Listed (Located P) ts as rest) :
    Listed P ts as rest ∧ ∀ a ∈ as, 0 ≤ a.span.start.offset := by
  induction hl with
  | none => exact ⟨.none, nofun⟩
  | one ha => exact ⟨.one ha.1, by simpa using ha.2⟩
  | more ha hc _ ih =>
      refine ⟨.more ha.1 hc ih.1, fun a hm => ?_⟩
      rcases List.mem_cons.1 hm with rfl | hm
      · exact ha.2
      · exact ih.2 a hm

/-- A vector from behind its first element on. -/
theorem reads_vectorRest {start : Token} (ht : 0 ≤ start.span.start.offset) (first : Node) :
    Reads src B (do
      let more ← Parser.many do
        if ← skipCommas then
          if ← atKind (.symbol .rightBracket) then
            return none
          else
            return some (← element rules)
        else return none
      expectSymbol .rightBracket
      let elements := first :: more
      let vector ← make start (.vector elements)
      checkUniform elements
      return vector : Parser Node) fun ts n rest => ∀ ts',
        Located (Grammar.Element inner) ts' first ts →
          ∃ es r, Listed (Grammar.Element inner) ts' es (r :: rest) ∧ Grammar.Uniform es ∧
            r.kind = .symbol .rightBracket ∧ n.form = .vector es ∧ 0 ≤ n.span.start.offset := by
  have hshrink : ∀ ts a rest, ReadsFurther (Located (Grammar.Element inner)) ts (some a) rest →
      rest.length < ts.length := fun _ _ _ =>
    ReadsFurther.shrinks fun _ _ _ he => Grammar.Element.shrinks h.shrinking he.1
  refine (((reads_further (reads_nextElement h)).many hshrink).bind fun more =>
    (Reads.expectSymbol .rightBracket).bind fun _ => (Reads.make start _).bind fun vector =>
      (reads_checkUniform (first :: more)).bind fun _ => Reads.pure vector).mono ?_
  rintro ts n rest - ⟨more, _, hm, _, mid, ⟨r, rfl, hr⟩, vector, _, ⟨hf, hs, rfl⟩, _,
    _, hu, rfl, rfl⟩
    ts' ha
  obtain ⟨hl, hp⟩ := Listed.located (listed_of_iterated ha hm)
  obtain ⟨hu', rfl⟩ := hu hp
  exact ⟨first :: more, r, hl, hu', hr, hf, by rw [hs]; exact ht⟩

omit h in
theorem reads_emptyVector (start : Token) : Reads src B (do
    let _ ← advance
    make start (.vector [])) fun ts n rest => nextKind ts = .symbol .rightBracket →
      ∃ r, ts = r :: rest ∧ r.kind = .symbol .rightBracket ∧ n.form = .vector [] ∧
        n.span.start = start.span.start := by
  refine (Reads.take fun _ _ => Reads.make start (.vector [])).mono ?_
  rintro ts n rest - hr hk
  obtain ⟨r, tail, rfl, hf, hs, rfl⟩ := hr (by rw [hk]; simp)
  exact ⟨r, rfl, hk, hf, hs⟩

def Bracketed (inner : Level) (ts : List Token) (n : Node) (rest : List Token) : Prop :=
  0 ≤ n.span.start.offset ∧ ∃ r, r.kind = .symbol .rightBracket ∧
    ((∃ es, Listed (Grammar.Element inner) ts es (r :: rest) ∧ Grammar.Uniform es ∧
      n.form = .vector es) ∨
    ∃ a b s, Grammar.Range inner ts (a, b, s) (r :: rest) ∧ a.isGenerator = false ∧
      n.form = .range a b s)

theorem reads_vectorOrRange : Reads src B (vectorOrRange rules) fun ts n rest =>
    nextKind ts = .symbol .leftBracket → Located (Grammar.Primary inner) ts n rest := by
  refine (Reads.take fun t ht => Reads.test (P := Bracketed inner)
    ((reads_emptyVector t).mono ?_)
    (((reads_element h).bind fun first => Reads.test
      (P := fun mid n rest => ∀ ts, Located (Grammar.Element inner) ts first mid →
        Bracketed inner ts n rest)
      ((reads_rangeRest h ht first).mono ?_) ((reads_vectorRest h ht first).mono ?_)).mono
      ?_)).mono ?_
  · rintro ts n rest - hr hk
    obtain ⟨r, rfl, hc, hf, hs⟩ := hr hk
    exact ⟨by rw [hs]; exact ht, r, hc, .inl ⟨[], .none, nofun, hf⟩⟩
  · rintro mid n rest - hr hk ts ⟨ha, -⟩
    obtain ⟨hg, b, s, r, hf, hp, hc, hrange⟩ := hr hk
    exact ⟨hp, r, hc, .inr ⟨first, b, s, hrange ts ha, hg, hf⟩⟩
  · rintro mid n rest - hr - ts ha
    obtain ⟨es, r, hl, hu, hc, hf, hp⟩ := hr ts ha
    exact ⟨hp, r, hc, .inl ⟨es, hl, hu, hf⟩⟩
  · rintro ts n rest - ⟨first, mid, ha, hr⟩ -
    exact hr ts ha
  · rintro ts ⟨i, f⟩ rest - hr hk
    obtain ⟨l, tail, rfl, hp, r, hc, ⟨es, hl, hu, hf⟩ | ⟨a, b, s, hrange, hg, hf⟩⟩ :=
      hr (by rw [hk]; simp)
    · cases hf
      exact ⟨.vector ⟨hk, hl, hc⟩ hu, hp⟩
    · cases hf
      exact ⟨.range ⟨hk, hrange, hc⟩ hg, hp⟩

omit h in
/-- A node for a single token. -/
theorem reads_literal {P : Phrase Node} {start : Token} {form : Form Node}
    (ht : 0 ≤ start.span.start.offset) (hk : start.kind ≠ .eof)
    (hP : ∀ rest i, P (start :: rest) ⟨i, form⟩ rest) :
    Reads src B (do
      let _ ← advance
      make start form) fun ts n rest => ahead src ts = start → nextKind ts = start.kind →
        Located P ts n rest := by
  refine (Reads.take fun _ _ => Reads.make start form).mono ?_
  rintro ts n rest - hr he hn
  obtain ⟨t, tail, rfl, hf, hs, rfl⟩ := hr (by rw [hn]; exact hk)
  obtain rfl : t = start := he
  exact located_make ht (hP _) hf hs

omit h in
theorem reads_numberValue {text : String} (h : (∃ x, Numeral.read text = .ok x) ∨ B) :
    Reads src B (numberValue text) fun ts y rest =>
      ∃ x, Numeral.read text = .ok x ∧ y = .real x ∧ rest = ts := by
  intro s _ hr
  unfold numberValue
  cases hx : Numeral.read text with
  | ok x => exact hr.unmoved ⟨x, rfl, rfl, rfl⟩
  | error fault =>
      refine h.resolve_left fun hok => ?_
      obtain ⟨x, hok⟩ := hok
      rw [hx] at hok
      cases hok

theorem reads_primary : Reads src B (primary rules) (Located (Grammar.Primary inner)) := by
  refine Reads.look fun t ht hnumber => ?_
  split
  · rename_i hk
    refine (Reads.take fun _ _ => h.expression.bind fun e =>
      (Reads.expectSymbol .rightParen).bind fun _ => Reads.make t (.paren e)).mono ?_
    rintro ts n rest - hr - hn
    obtain ⟨l, tail, rfl, e, _, ⟨he, -⟩, _, _, ⟨r, rfl, hc⟩, hf, hs, rfl⟩ :=
      hr (by rw [hn, hk]; simp)
    exact located_make ht (fun i => .paren ⟨hn.trans hk, he, hc⟩) hf hs
  · rename_i hk
    refine (reads_vectorOrRange h).mono ?_
    rintro ts n rest - hr - hn
    exact hr (hn.trans hk)
  · rename_i hk
    exact reads_literal ht (by rw [hk]; simp) fun rest i => .true hk
  · rename_i hk
    exact reads_literal ht (by rw [hk]; simp) fun rest i => .false hk
  · rename_i hk
    exact reads_literal ht (by rw [hk]; simp) fun rest i => .undef hk
  · rename_i hk
    refine (Reads.take fun _ _ => (reads_numberValue (hnumber hk)).bind fun y =>
      Reads.make t (.number y)).mono ?_
    rintro ts n rest - hr he hn
    obtain ⟨k, tail, rfl, _, _, ⟨x, hx, rfl, rfl⟩, hf, hs, rfl⟩ := hr (by rw [hn, hk]; simp)
    obtain rfl : k = t := he
    exact located_make ht (fun i => .number hk hx) hf hs
  · rename_i hk
    exact reads_literal ht (by rw [hk]; simp) fun rest i => .string hk
  · rename_i hk
    exact reads_literal ht (by rw [hk]; simp) fun rest i => .reference hk
  · exact Reads.fail _

theorem reads_suffix : Reads src B (suffix? rules) (ReadsIfAny (Grammar.Suffix inner)) := by
  refine Reads.look fun t ht _ => ?_
  split
  · refine ((reads_arguments h false).bind fun as => (Reads.make t (.callSuffix as)).bind fun n =>
      Reads.pure (some n)).mono ?_
    rintro ts o rest - ⟨as, _, ha, ⟨i, f⟩, _, ⟨rfl, -, rfl⟩, rfl, rfl⟩ - -
    exact .call ha
  · rename_i hk
    refine (Reads.take fun _ _ => h.expression.bind fun e =>
      (Reads.expectSymbol .rightBracket).bind fun _ => (Reads.make t (.indexSuffix e)).bind fun n =>
        Reads.pure (some n)).mono ?_
    rintro ts o rest - hr - hn
    obtain ⟨l, tail, rfl, e, _, ⟨he, -⟩, _, _, ⟨r, rfl, hc⟩, ⟨i, f⟩, _, ⟨rfl, -, rfl⟩, rfl, rfl⟩ :=
      hr (by rw [hn, hk]; simp)
    exact .index ⟨hn.trans hk, he, hc⟩
  · rename_i hk
    refine (Reads.take fun _ _ => reads_identifier.bind fun m =>
      (Reads.make t (.memberSuffix m)).bind fun n => Reads.pure (some n)).mono ?_
    rintro ts o rest - hr - hn
    obtain ⟨d, _, rfl, _, _, ⟨m, rfl, hm, rfl⟩, ⟨i, f⟩, _, ⟨rfl, -, rfl⟩, rfl, rfl⟩ :=
      hr (by rw [hn, hk]; simp)
    exact .member (hn.trans hk) hm
  · refine (Reads.pure none).mono ?_
    rintro ts o rest - ⟨rfl, rfl⟩ - -
    rfl

theorem reads_suffixed : Reads src B (suffixed rules) (Located (Grammar.Suffixed inner)) := by
  refine Reads.look fun t ht _ => ?_
  have hloop := (reads_suffix h).many fun ts a rest ha => Grammar.Suffix.shrinks h.shrinking ha
  refine ((reads_primary h).bind fun target =>
    Reads.bind (Q := fun suffixes ts n rest => rest = ts ∧ ((suffixes = [] ∧ n = target) ∨
      (suffixes ≠ [] ∧ n.form = .call target suffixes ∧ n.span.start = t.span.start)))
    hloop fun suffixes => ?_).mono ?_
  · cases suffixes with
    | nil => exact (Reads.pure target).mono fun ts n rest _ hn => ⟨hn.2, .inl ⟨rfl, hn.1⟩⟩
    | cons first more =>
        refine (Reads.make t _).mono fun ts n rest _ hn => ⟨hn.2.2, .inr ⟨?_, hn.1, hn.2.1⟩⟩
        simp
  rintro ts n rest - ⟨x, mid, hx, ss, _, hs, rfl, ⟨rfl, rfl⟩ | ⟨hne, hf, hp⟩⟩ - -
  · cases hs with
    | stop hs =>
        cases hs
        exact ⟨.plain hx.1, hx.2⟩
  · exact located_make ht (fun i => .call hx.1 (hs.repeated) hne) hf hp

/-- A phrase with an ending that may be missing. -/
theorem reads_power : Reads src B (power rules) (Located (Grammar.Power inner)) := by
  refine Reads.look fun t ht _ => ?_
  refine ((reads_suffixed h).bind fun b => Reads.test
    (P := fun ts n rest => (∃ e, After (.symbol .caret) inner.unary ts e rest ∧
      n.form = .power b e ∧ n.span.start = t.span.start) ∨ (n = b ∧ rest = ts))
    ((Reads.take fun _ _ => h.unary.bind fun e => Reads.make t (.power b e)).mono ?_)
    ((Reads.pure b).mono fun ts n rest _ hn _ => .inr hn)).mono ?_
  · rintro ts n rest - hr hk
    obtain ⟨c, tail, rfl, e, _, ⟨he, -⟩, hf, hs, rfl⟩ := hr (by rw [hk]; simp)
    exact .inl ⟨e, ⟨hk, he⟩, hf, hs⟩
  · rintro ts n rest - ⟨b, mid, hb, ⟨e, he, hf, hs⟩ | ⟨rfl, rfl⟩⟩ - -
    · exact located_make ht (fun i => .raised hb.1 he) hf hs
    · exact ⟨.plain hb.1, hb.2⟩

theorem reads_unary : Reads src B (unary rules) (Located (Grammar.Unary inner)) := by
  refine Reads.look fun t ht _ => ?_
  by_cases hk : isSign t.kind = true
  · rw [if_pos hk]
    refine (Reads.take fun _ _ => h.unary.bind fun e => Reads.make t (.unary t.text e)).mono ?_
    rintro ts n rest - hr ha hn
    obtain ⟨k, tail, rfl, e, _, ⟨he, -⟩, hf, hs, rfl⟩ := hr (by
      rintro he
      rw [← hn, he, isSign_eof] at hk
      cases hk)
    obtain rfl : k = t := ha
    exact located_make ht (fun i => .sign hk he) hf hs
  · rw [if_neg hk]
    exact (reads_power h).mono fun ts n rest _ hr _ _ => ⟨.plain hr.1, hr.2⟩

omit h in
theorem reads_operation (level : ChainLevel) {operand : Parser Node} {P : Phrase Node}
    (hP : Reads src B operand (Located P)) :
    Reads src B (do
      if isOperator level (← current).kind then
        let sign ← advance
        let x ← operand
        return some (sign.text, x)
      else return none : Parser (Option (String × Node)))
      (ReadsIfAny (Grammar.Operation level P)) := by
  refine Reads.look fun t _ _ => ?_
  by_cases hk : isOperator level t.kind = true
  · rw [if_pos hk]
    refine (Reads.take fun sign _ => hP.bind fun x => Reads.pure (some (sign.text, x))).mono ?_
    rintro ts o rest - hr ha hn
    obtain ⟨k, tail, rfl, x, _, ⟨hx, -⟩, rfl, rfl⟩ := hr (by
      rintro he
      rw [← hn, he, isOperator_eof] at hk
      cases hk)
    obtain rfl : k = t := ha
    exact ⟨hk, hx⟩
  · rw [if_neg hk]
    refine (Reads.pure none).mono ?_
    rintro ts o rest - ⟨rfl, rfl⟩ - -
    rfl

omit h in
theorem reads_chain (level : ChainLevel) {operand : Parser Node} {P : Phrase Node}
    (hP : Reads src B operand (Located P)) (hs : Shrinks P) :
    Reads src B (chain level operand) (Located (Grammar.Chain level P)) := by
  refine Reads.look fun t ht _ => ?_
  have hloop := (reads_operation level hP).many
    fun ts a rest ha => Grammar.Operation.shrinks hs ha
  refine (hP.bind fun first => Reads.bind (Q := fun more ts n rest => rest = ts ∧
    ((more = [] ∧ n = first) ∨ (more ≠ [] ∧
      n.form = .chain level (first :: more.map (·.2)) (more.map (·.1)) ∧
      n.span.start = t.span.start)))
    hloop fun more => ?_).mono ?_
  · cases more with
    | nil => exact (Reads.pure first).mono fun ts n rest _ hn => ⟨hn.2, .inl ⟨rfl, hn.1⟩⟩
    | cons _ _ =>
        refine (Reads.make t _).mono fun ts n rest _ hn => ⟨hn.2.2, .inr ⟨?_, hn.1, hn.2.1⟩⟩
        simp
  rintro ts n rest - ⟨x, mid, hx, more, _, hm, rfl, ⟨rfl, rfl⟩ | ⟨hne, hf, hp⟩⟩ - -
  · cases hm with
    | stop hm =>
        cases hm
        exact ⟨.single hx.1, hx.2⟩
  · exact located_make ht (fun i => .several hx.1 hm.repeated hne) hf hp

theorem reads_chains : Reads src B (chains rules) (Located (Grammar.Chains inner)) := by
  have hstep : ∀ (level : ChainLevel) {p : Parser Node} {P : Phrase Node},
      Reads src B p (Located P) ∧ Shrinks P →
      Reads src B (chain level p) (Located (Grammar.Chain level P)) ∧
        Shrinks (Grammar.Chain level P) :=
    fun level _ _ hp => ⟨reads_chain level hp.1 hp.2, Grammar.Chain.shrinks hp.2⟩
  have hunary := And.intro (reads_unary h) (Grammar.Unary.shrinks h.shrinking)
  have hproduct := hstep .multiplicative hunary
  have hsum := hstep .additive hproduct
  have hcomparison := hstep .comparison hsum
  have hequality := hstep .equality hcomparison
  have hconjunction := hstep .conjunction hequality
  exact (hstep .disjunction hconjunction).1

theorem reads_ternary : Reads src B (ternary rules) (Located (Grammar.Ternary inner)) := by
  refine Reads.look fun t ht _ => ?_
  refine ((reads_chains h).bind fun c => Reads.test
    (P := fun ts n rest => (∃ a mid b, After (.symbol .question) inner.expression ts a mid ∧
      After (.symbol .colon) inner.expression mid b rest ∧ n.form = .ternary c a b ∧
      n.span.start = t.span.start) ∨ (n = c ∧ rest = ts))
    ((Reads.take fun _ _ => h.expression.bind fun a => (Reads.expectSymbol .colon).bind fun _ =>
      h.expression.bind fun b => Reads.make t (.ternary c a b)).mono ?_)
    ((Reads.pure c).mono fun ts n rest _ hn _ => .inr hn)).mono ?_
  · rintro ts n rest - hr hk
    obtain ⟨q, tail, rfl, a, mid, ⟨ha, -⟩, _, _, ⟨r, rfl, hc⟩, b, _, ⟨hb, -⟩, hf, hs, rfl⟩ :=
      hr (by rw [hk]; simp)
    exact .inl ⟨a, _, b, ⟨hk, ha⟩, ⟨hc, hb⟩, hf, hs⟩
  · rintro ts n rest - ⟨c, mid, hc, ⟨a, _, b, ha, hb, hf, hs⟩ | ⟨rfl, rfl⟩⟩ - -
    · exact located_make ht (fun i => .choice hc.1 ha hb) hf hs
    · exact ⟨.plain hc.1, hc.2⟩

theorem reads_remark {verb : Verb} {start : Token} (ht : 0 ≤ start.span.start.offset) :
    Reads src B (remark rules verb start) fun ts n rest =>
      nextKind ts = .keyword verb.keyword → Located (Grammar.Expression inner) ts n rest := by
  have hbody : ∀ as : List Node, Reads src B (do
      if startsExpression (← current).kind then
        let body ← rules.expression
        make start (.remark verb as (some body))
      else
        make start (.remark verb as none)) fun ts n rest =>
        n.span.start = start.span.start ∧ ((∃ b, inner.expression ts b rest ∧
          n.form = .remark verb as (some b)) ∨ (n.form = .remark verb as none ∧ rest = ts)) := by
    intro as
    refine Reads.look fun t _ _ => ?_
    by_cases hk : startsExpression t.kind = true
    · rw [if_pos hk]
      refine (h.expression.bind fun b => Reads.make start (.remark verb as (some b))).mono ?_
      rintro ts n rest - ⟨b, _, ⟨hb, -⟩, hf, hs, rfl⟩ - -
      exact ⟨hs, .inl ⟨b, hb, hf⟩⟩
    · rw [if_neg hk]
      refine (Reads.make start (.remark verb as none)).mono ?_
      rintro ts n rest - ⟨hf, hs, rfl⟩ - -
      exact ⟨hs, .inr ⟨hf, rfl⟩⟩
  refine (Reads.take fun _ _ => (reads_arguments h false).bind hbody).mono ?_
  rintro ts n rest - hr hk
  obtain ⟨k, tail, rfl, as, mid, ha, hs, ⟨b, hb, hf⟩ | ⟨hf, rfl⟩⟩ := hr (by rw [hk]; simp)
  · exact located_make ht (fun i => .remarkOn hk ha hb) hf hs
  · exact located_make ht (fun i => .remark hk ha) hf hs

theorem reads_expression : Reads src B (expression rules) (Located (Grammar.Expression inner)) := by
  refine Reads.look fun t ht _ => ?_
  split
  · rename_i hk
    refine (Reads.take fun _ _ => (reads_letAssignments h).bind fun as =>
      h.expression.bind fun b => Reads.make t (.letIn as b)).mono ?_
    rintro ts n rest - hr - hn
    obtain ⟨k, tail, rfl, as, _, ha, b, _, ⟨hb, -⟩, hf, hs, rfl⟩ := hr (by rw [hn, hk]; simp)
    exact located_make ht (fun i => .letIn (hn.trans hk) ha hb) hf hs
  · rename_i hk
    exact (reads_remark h ht).mono fun ts n rest _ hr _ hn => hr (hn.trans hk)
  · rename_i hk
    exact (reads_remark h ht).mono fun ts n rest _ hr _ hn => hr (hn.trans hk)
  · rename_i hk
    refine (Reads.take fun _ _ => (reads_parameters h).bind fun ps =>
      h.expression.bind fun b => Reads.make t (.functionLiteral ps b)).mono ?_
    rintro ts n rest - hr - hn
    obtain ⟨k, tail, rfl, ps, _, hp, b, _, ⟨hb, -⟩, hf, hs, rfl⟩ := hr (by rw [hn, hk]; simp)
    exact located_make ht (fun i => .functionLiteral (hn.trans hk) hp hb) hf hs
  · exact (reads_ternary h).mono fun ts n rest _ hr _ _ => ⟨.ternary hr.1, hr.2⟩

omit h in
theorem sound_expressionRules (n : Nat) :
    SoundExpressions src B (expressionRules n) (Grammar.level Grammar.NearestElse n) := by
  induction n with
  | zero =>
      exact ⟨Reads.fail _, Reads.fail _, Reads.fail _, Grammar.level_shrinking _ _, fun _ => id⟩
  | succ n ih =>
      exact ⟨(reads_expression ih).nested, (reads_unary ih).nested, (reads_element ih).nested,
        Grammar.level_shrinking _ _, fun _ => id⟩

end Scad.Parse
