import Scad.Proofs.Grammar.Progress

/-! A phrase is made of the tokens that it takes, whatever stands behind it. So a statement is a
program of its own. -/
namespace Scad.Grammar

variable {α : Type} {us : List Token}

/-- A phrase that stops before `us` is a phrase without `us` as well. -/
def IgnoresRest (us : List Token) (P : Phrase α) : Prop :=
  ∀ ⦃ts a rest⦄, P ts a (rest ++ us) → ∃ vs, ts = vs ++ us ∧ P vs a rest

/-- The token that a phrase stops at stands before `us`. -/
theorem IgnoresRest.before {P : Phrase α} (h : IgnoresRest us P) {ts rest : List Token}
    {a : α} {t : Token} (hp : P ts a (t :: (rest ++ us))) :
    ∃ vs, ts = vs ++ us ∧ P vs a (t :: rest) := @h ts a (t :: rest) hp

theorem IgnoresRest.whole {P : Phrase α} (h : IgnoresRest us P) {ts : List Token} {a : α}
    (hp : P ts a us) :
    ∃ vs, ts = vs ++ us ∧ P vs a [] := @h ts a [] hp

theorem Shrinks.exists_cons {P : Phrase α} (h : Shrinks P) {ts rest : List Token} {a : α}
    (hp : P ts a rest) :
    ∃ t more, ts = t :: more := by
  have hlength := h hp
  exact List.exists_cons_of_ne_nil (List.ne_nil_of_length_pos (Nat.zero_lt_of_lt hlength))

structure Level.IgnoringRest (us : List Token) (inner : Level) : Prop where
  expression : IgnoresRest us inner.expression
  unary : IgnoresRest us inner.unary
  element : IgnoresRest us inner.element
  statements : IgnoresRest us inner.statements
  instantiation : IgnoresRest us inner.instantiation
  ifEnd : ∀ ⦃rest⦄, inner.ifEnd (rest ++ us) → inner.ifEnd rest
  /-- No expression is empty, so what it begins with is its own. -/
  shrinking : inner.Shrinking

theorem Repeated.ignoresRest {item : Phrase α} (h : IgnoresRest us item) :
    IgnoresRest us (Repeated item) := by
  intro ts as rest hr
  generalize hbehind : rest ++ us = behind at hr
  induction hr with
  | nil => exact ⟨rest, hbehind.symm, .nil⟩
  | cons ha _ ih =>
      obtain ⟨mid, rfl, hmid'⟩ := ih hbehind
      obtain ⟨vs, rfl, ha'⟩ := h ha
      exact ⟨vs, rfl, .cons ha' hmid'⟩

theorem Commas.ignoresRest {ts rest : List Token} (h : Commas ts (rest ++ us)) :
    ∃ vs, ts = vs ++ us ∧ Commas vs rest := by
  generalize hbehind : rest ++ us = behind at h
  induction h with
  | @one t _ hk =>
      subst hbehind
      exact ⟨t :: rest, rfl, .one hk⟩
  | @more t _ _ hk _ ih =>
      obtain ⟨vs, rfl, hvs'⟩ := ih hbehind
      exact ⟨t :: vs, rfl, .more hk hvs'⟩

theorem Listed.ignoresRest {item : Phrase Node} (h : IgnoresRest us item) :
    IgnoresRest us (Listed item) := by
  intro ts as rest hl
  generalize hbehind : rest ++ us = behind at hl
  induction hl with
  | none => exact ⟨rest, hbehind.symm, .none⟩
  | one ha =>
      subst hbehind
      obtain ⟨vs, rfl, ha'⟩ := h ha
      exact ⟨vs, rfl, .one ha'⟩
  | more ha hc _ ih =>
      obtain ⟨next, rfl, hnext'⟩ := ih hbehind
      obtain ⟨mid, rfl, hc'⟩ := hc.ignoresRest
      obtain ⟨vs, rfl, ha'⟩ := h ha
      exact ⟨vs, rfl, .more ha' hc' hnext'⟩

theorem After.ignoresRest {k : TokenKind} {P : Phrase α} (h : IgnoresRest us P) :
    IgnoresRest us (After k P) := by
  rintro _ _ rest ⟨hk, ha⟩
  obtain ⟨vs, rfl, ha'⟩ := h ha
  exact ⟨_ :: vs, rfl, .mk hk ha'⟩

theorem Between.ignoresRest {left right : Symbol} {P : Phrase α} (h : IgnoresRest us P) :
    IgnoresRest us (Between left right P) := by
  intro ts a rest hb
  cases hb with
  | @mk l _ _ r _ hl ha hr =>
      obtain ⟨vs, rfl, ha'⟩ := h.before ha
      exact ⟨l :: vs, rfl, .mk hl ha' hr⟩

variable {inner : Level} (h : inner.IgnoringRest us)

include h

theorem Value.ignoresRest : IgnoresRest us (Value inner) := After.ignoresRest h.expression

theorem Argument.ignoresRest (declares : Bool) : IgnoresRest us (Argument inner declares) := by
  intro ts a rest ha
  cases ha with
  | named hk he =>
      obtain ⟨vs, rfl, he'⟩ := Value.ignoresRest h he
      exact ⟨_ :: vs, rfl, .named hk he'⟩
  | unnamed he =>
      obtain ⟨vs, rfl, he'⟩ := h.expression he
      exact ⟨vs, rfl, .unnamed he'⟩

theorem Arguments.ignoresRest (declares : Bool) : IgnoresRest us (Arguments inner declares) :=
  Between.ignoresRest (Listed.ignoresRest (Argument.ignoresRest h declares))

theorem Parameter.ignoresRest : IgnoresRest us (Parameter inner) := by
  intro ts a rest ha
  cases ha with
  | required hk => exact ⟨_ :: rest, rfl, .required hk⟩
  | optional hk he =>
      obtain ⟨vs, rfl, he'⟩ := Value.ignoresRest h he
      exact ⟨_ :: vs, rfl, .optional hk he'⟩

theorem Parameters.ignoresRest : IgnoresRest us (Parameters inner) :=
  Between.ignoresRest (Listed.ignoresRest (Parameter.ignoresRest h))

theorem Assignment.ignoresRest : IgnoresRest us (Assignment inner) := by
  rintro _ _ rest ⟨hk, he⟩
  obtain ⟨vs, rfl, he'⟩ := Value.ignoresRest h he
  exact ⟨_ :: vs, rfl, .mk hk he'⟩

theorem Update.ignoresRest : IgnoresRest us (Update inner) := by
  rintro _ _ rest ⟨hk, he⟩
  obtain ⟨vs, rfl, he'⟩ := Value.ignoresRest h he
  exact ⟨_ :: vs, rfl, .mk hk he'⟩

theorem LoopHead.ignoresRest : IgnoresRest us (LoopHead inner) := by
  intro ts a rest ha
  cases ha with
  | plain ha =>
      obtain ⟨vs, rfl, ha'⟩ := Listed.ignoresRest (Assignment.ignoresRest h) ha
      exact ⟨vs, rfl, .plain ha'⟩
  | @counted _ _ _ _ s next _ _ ha hc hs hu =>
      obtain ⟨next, rfl, hu'⟩ := Listed.ignoresRest (Update.ignoresRest h) hu
      obtain ⟨mid, rfl, hc'⟩ := (After.ignoresRest h.expression).before hc
      obtain ⟨vs, rfl, ha'⟩ := Listed.ignoresRest (Assignment.ignoresRest h) ha
      exact ⟨vs, rfl, .counted ha' hc' hs hu'⟩

theorem Condition.ignoresRest : IgnoresRest us (Condition inner) := Between.ignoresRest h.expression

theorem Element.ignoresRest : IgnoresRest us (Element inner) := by
  intro ts a rest ha
  cases ha with
  | loop hk hl hb =>
      obtain ⟨mid, rfl, hb'⟩ := h.element hb
      obtain ⟨vs, rfl, hl'⟩ := Between.ignoresRest (LoopHead.ignoresRest h) hl
      exact ⟨_ :: vs, rfl, .loop hk hl' hb'⟩
  | each hk hb =>
      obtain ⟨vs, rfl, hb'⟩ := h.element hb
      exact ⟨_ :: vs, rfl, .each hk hb'⟩
  | ifThen hk hc ht hend =>
      obtain ⟨mid, rfl, ht'⟩ := h.element ht
      obtain ⟨vs, rfl, hc'⟩ := Condition.ignoresRest h hc
      exact ⟨_ :: vs, rfl, .ifThen hk hc' ht' (h.ifEnd hend)⟩
  | ifElse hk hc ht he =>
      obtain ⟨next, rfl, he'⟩ := After.ignoresRest h.element he
      obtain ⟨mid, rfl, ht'⟩ := h.element ht
      obtain ⟨vs, rfl, hc'⟩ := Condition.ignoresRest h hc
      exact ⟨_ :: vs, rfl, .ifElse hk hc' ht' he'⟩
  | letIn hk ha hb =>
      obtain ⟨mid, rfl, hb'⟩ := h.element hb
      obtain ⟨vs, rfl, ha'⟩ :=
        Between.ignoresRest (Listed.ignoresRest (Assignment.ignoresRest h)) ha
      exact ⟨_ :: vs, rfl, .letIn hk ha' hb'⟩
  | @group l g ts _ _ hg hk =>
      -- Two tokens at least are taken: the parenthesis and what stands in it.
      obtain ⟨vs, heq, hg⟩ := Between.ignoresRest h.element hg
      obtain ⟨hl, hx, hr⟩ := hg
      obtain ⟨v, vs, rfl⟩ := h.shrinking.element.exists_cons hx
      obtain ⟨rfl, hmore⟩ := List.cons.inj heq
      obtain ⟨rfl, rfl⟩ := List.cons.inj hmore
      exact ⟨_ :: g :: vs, rfl, .group (.mk hl hx hr) hk⟩
  | plain he hk =>
      obtain ⟨vs, rfl, he'⟩ := h.expression he
      obtain ⟨v, vs, rfl⟩ := h.shrinking.expression.exists_cons he'
      exact ⟨v :: vs, rfl, .plain he' hk⟩

theorem Range.ignoresRest : IgnoresRest us (Range inner) := by
  intro ts a rest ha
  cases ha with
  | ends ha hb =>
      obtain ⟨mid, rfl, hb'⟩ := After.ignoresRest h.expression hb
      obtain ⟨vs, rfl, ha'⟩ := Element.ignoresRest h ha
      exact ⟨vs, rfl, .ends ha' hb'⟩
  | stepped ha hs hb =>
      obtain ⟨next, rfl, hb'⟩ := After.ignoresRest h.expression hb
      obtain ⟨mid, rfl, hs'⟩ := After.ignoresRest h.expression hs
      obtain ⟨vs, rfl, ha'⟩ := Element.ignoresRest h ha
      exact ⟨vs, rfl, .stepped ha' hs' hb'⟩

theorem Primary.ignoresRest : IgnoresRest us (Primary inner) := by
  intro ts a rest ha
  cases ha with
  | paren he =>
      obtain ⟨vs, rfl, he'⟩ := Between.ignoresRest h.expression he
      exact ⟨vs, rfl, .paren he'⟩
  | vector hv hu =>
      obtain ⟨vs, rfl, hv'⟩ := Between.ignoresRest (Listed.ignoresRest (Element.ignoresRest h)) hv
      exact ⟨vs, rfl, .vector hv' hu⟩
  | range hr hg =>
      obtain ⟨vs, rfl, hr'⟩ := Between.ignoresRest (Range.ignoresRest h) hr
      exact ⟨vs, rfl, .range hr' hg⟩
  | true hk => exact ⟨_ :: rest, rfl, .true hk⟩
  | false hk => exact ⟨_ :: rest, rfl, .false hk⟩
  | undef hk => exact ⟨_ :: rest, rfl, .undef hk⟩
  | number hk hx => exact ⟨_ :: rest, rfl, .number hk hx⟩
  | string hk => exact ⟨_ :: rest, rfl, .string hk⟩
  | reference hk => exact ⟨_ :: rest, rfl, .reference hk⟩

theorem Suffix.ignoresRest : IgnoresRest us (Suffix inner) := by
  intro ts a rest ha
  cases ha with
  | call ha =>
      obtain ⟨vs, rfl, ha'⟩ := Arguments.ignoresRest h false ha
      exact ⟨vs, rfl, .call ha'⟩
  | index he =>
      obtain ⟨vs, rfl, he'⟩ := Between.ignoresRest h.expression he
      exact ⟨vs, rfl, .index he'⟩
  | member hd hm => exact ⟨_ :: _ :: rest, rfl, .member hd hm⟩

theorem Suffixed.ignoresRest : IgnoresRest us (Suffixed inner) := by
  intro ts a rest ha
  cases ha with
  | plain hp =>
      obtain ⟨vs, rfl, hp'⟩ := Primary.ignoresRest h hp
      exact ⟨vs, rfl, .plain hp'⟩
  | call hp hs hne =>
      obtain ⟨mid, rfl, hs'⟩ := Repeated.ignoresRest (Suffix.ignoresRest h) hs
      obtain ⟨vs, rfl, hp'⟩ := Primary.ignoresRest h hp
      exact ⟨vs, rfl, .call hp' hs' hne⟩

theorem Power.ignoresRest : IgnoresRest us (Power inner) := by
  intro ts a rest ha
  cases ha with
  | plain hs =>
      obtain ⟨vs, rfl, hs'⟩ := Suffixed.ignoresRest h hs
      exact ⟨vs, rfl, .plain hs'⟩
  | raised hb he =>
      obtain ⟨mid, rfl, he'⟩ := After.ignoresRest h.unary he
      obtain ⟨vs, rfl, hb'⟩ := Suffixed.ignoresRest h hb
      exact ⟨vs, rfl, .raised hb' he'⟩

theorem Unary.ignoresRest : IgnoresRest us (Unary inner) := by
  intro ts a rest ha
  cases ha with
  | plain hp =>
      obtain ⟨vs, rfl, hp'⟩ := Power.ignoresRest h hp
      exact ⟨vs, rfl, .plain hp'⟩
  | sign hk he =>
      obtain ⟨vs, rfl, he'⟩ := h.unary he
      exact ⟨_ :: vs, rfl, .sign hk he'⟩

omit h in
theorem Operation.ignoresRest {level : ChainLevel} {operand : Phrase Node}
    (h : IgnoresRest us operand) :
    IgnoresRest us (Operation level operand) := by
  rintro _ _ rest ⟨hk, hx⟩
  obtain ⟨vs, rfl, hx'⟩ := h hx
  exact ⟨_ :: vs, rfl, .mk hk hx'⟩

omit h in
theorem Chain.ignoresRest {level : ChainLevel} {operand : Phrase Node}
    (h : IgnoresRest us operand) :
    IgnoresRest us (Chain level operand) := by
  intro ts a rest ha
  cases ha with
  | single hx =>
      obtain ⟨vs, rfl, hx'⟩ := h hx
      exact ⟨vs, rfl, .single hx'⟩
  | several hx hm hne =>
      obtain ⟨mid, rfl, hm'⟩ := Repeated.ignoresRest (Operation.ignoresRest h) hm
      obtain ⟨vs, rfl, hx'⟩ := h hx
      exact ⟨vs, rfl, .several hx' hm' hne⟩

theorem Chains.ignoresRest : IgnoresRest us (Chains inner) :=
  Chain.ignoresRest <| Chain.ignoresRest <| Chain.ignoresRest <| Chain.ignoresRest <|
    Chain.ignoresRest <|
    Chain.ignoresRest (Unary.ignoresRest h)

theorem Ternary.ignoresRest : IgnoresRest us (Ternary inner) := by
  intro ts a rest ha
  cases ha with
  | plain hx =>
      obtain ⟨vs, rfl, hx'⟩ := Chains.ignoresRest h hx
      exact ⟨vs, rfl, .plain hx'⟩
  | choice hc ht he =>
      obtain ⟨next, rfl, he'⟩ := After.ignoresRest h.expression he
      obtain ⟨mid, rfl, ht'⟩ := After.ignoresRest h.expression ht
      obtain ⟨vs, rfl, hc'⟩ := Chains.ignoresRest h hc
      exact ⟨vs, rfl, .choice hc' ht' he'⟩

theorem Expression.ignoresRest : IgnoresRest us (Expression inner) := by
  intro ts a rest ha
  cases ha with
  | letIn hk ha hb =>
      obtain ⟨mid, rfl, hb'⟩ := h.expression hb
      obtain ⟨vs, rfl, ha'⟩ :=
        Between.ignoresRest (Listed.ignoresRest (Assignment.ignoresRest h)) ha
      exact ⟨_ :: vs, rfl, .letIn hk ha' hb'⟩
  | remark hk ha =>
      obtain ⟨vs, rfl, ha'⟩ := Arguments.ignoresRest h false ha
      exact ⟨_ :: vs, rfl, .remark hk ha'⟩
  | remarkOn hk ha hb =>
      obtain ⟨mid, rfl, hb'⟩ := h.expression hb
      obtain ⟨vs, rfl, ha'⟩ := Arguments.ignoresRest h false ha
      exact ⟨_ :: vs, rfl, .remarkOn hk ha' hb'⟩
  | functionLiteral hk hp hb =>
      obtain ⟨mid, rfl, hb'⟩ := h.expression hb
      obtain ⟨vs, rfl, hp'⟩ := Parameters.ignoresRest h hp
      exact ⟨_ :: vs, rfl, .functionLiteral hk hp' hb'⟩
  | ternary hx =>
      obtain ⟨vs, rfl, hx'⟩ := Ternary.ignoresRest h hx
      exact ⟨vs, rfl, .ternary hx'⟩

theorem Block.ignoresRest : IgnoresRest us (Block inner) := by
  rintro _ _ _ ⟨hs⟩
  obtain ⟨vs, rfl, hs'⟩ := Between.ignoresRest h.statements hs
  exact ⟨vs, rfl, .mk hs'⟩

theorem Child.ignoresRest : IgnoresRest us (Child inner) := by
  intro ts a rest ha
  cases ha with
  | empty hk => exact ⟨_ :: rest, rfl, .empty hk⟩
  | block hb =>
      obtain ⟨vs, rfl, hb'⟩ := Block.ignoresRest h hb
      exact ⟨vs, rfl, .block hb'⟩
  | instantiation hi =>
      obtain ⟨vs, rfl, hi'⟩ := h.instantiation hi
      exact ⟨vs, rfl, .instantiation hi'⟩

theorem Payload.ignoresRest : IgnoresRest us (Payload inner) := by
  intro ts a rest ha
  cases ha with
  | ifThen hk hc ht hend =>
      obtain ⟨mid, rfl, ht'⟩ := Child.ignoresRest h ht
      obtain ⟨vs, rfl, hc'⟩ := Condition.ignoresRest h hc
      exact ⟨_ :: vs, rfl, .ifThen hk hc' ht' (h.ifEnd hend)⟩
  | ifElse hk hc ht he =>
      obtain ⟨next, rfl, he'⟩ := After.ignoresRest (Child.ignoresRest h) he
      obtain ⟨mid, rfl, ht'⟩ := Child.ignoresRest h ht
      obtain ⟨vs, rfl, hc'⟩ := Condition.ignoresRest h hc
      exact ⟨_ :: vs, rfl, .ifElse hk hc' ht' he'⟩
  | remark hk ha hc =>
      obtain ⟨mid, rfl, hc'⟩ := Child.ignoresRest h hc
      obtain ⟨vs, rfl, ha'⟩ := Arguments.ignoresRest h false ha
      exact ⟨_ :: vs, rfl, .remark hk ha' hc'⟩
  | call hk ha hc =>
      obtain ⟨mid, rfl, hc'⟩ := Child.ignoresRest h hc
      obtain ⟨vs, rfl, ha'⟩ := Arguments.ignoresRest h _ ha
      exact ⟨_ :: vs, rfl, .call hk ha' hc'⟩

omit h in
theorem Mark.ignoresRest : IgnoresRest us Mark := by
  rintro _ _ rest ⟨hk⟩
  exact ⟨_ :: rest, rfl, .mk hk⟩

theorem Instantiation.ignoresRest : IgnoresRest us (Instantiation inner) := by
  rintro _ _ _ ⟨hm, hp⟩
  obtain ⟨mid, rfl, hp'⟩ := Payload.ignoresRest h hp
  obtain ⟨vs, rfl, hm'⟩ := Repeated.ignoresRest Mark.ignoresRest hm
  exact ⟨vs, rfl, .mk hm' hp'⟩

theorem Statement.ignoresRest : IgnoresRest us (Statement inner) := by
  intro ts a rest ha
  generalize hbehind : rest ++ us = behind at ha
  induction ha with
  | module hk hn hp _ ih =>
      obtain ⟨mid, rfl, hb'⟩ := ih hbehind
      obtain ⟨vs, rfl, hp'⟩ := Parameters.ignoresRest h hp
      exact ⟨_ :: _ :: vs, rfl, .module hk hn hp' hb'⟩
  | empty hk =>
      subst hbehind
      exact ⟨_ :: rest, rfl, .empty hk⟩
  | file hk hf =>
      subst hbehind
      exact ⟨_ :: _ :: rest, rfl, .file hk hf⟩
  | block hb =>
      subst hbehind
      obtain ⟨vs, rfl, hb'⟩ := Block.ignoresRest h hb
      exact ⟨vs, rfl, .block hb'⟩
  | @assignment _ _ _ s _ _ _ hk he hs =>
      subst hbehind
      obtain ⟨vs, rfl, he'⟩ := (Value.ignoresRest h).before he
      exact ⟨_ :: vs, rfl, .assignment hk he' hs⟩
  | @function _ _ _ _ _ _ s _ _ hk hn hp he hs =>
      subst hbehind
      obtain ⟨mid, rfl, he'⟩ := (Value.ignoresRest h).before he
      obtain ⟨vs, rfl, hp'⟩ := Parameters.ignoresRest h hp
      exact ⟨_ :: _ :: vs, rfl, .function hk hn hp' he' hs⟩
  | instantiation hi =>
      subst hbehind
      obtain ⟨vs, rfl, hi'⟩ := Instantiation.ignoresRest h hi
      exact ⟨vs, rfl, .instantiation hi'⟩

omit h

theorem level_receding {ifEnd : List Token → Prop}
    (hend : ∀ ⦃rest⦄, ifEnd (rest ++ us) → ifEnd rest) (n : Nat) :
    (level ifEnd n).IgnoringRest us := by
  induction n with
  | zero => exact ⟨nofun, nofun, nofun, nofun, nofun, hend, level_shrinking ifEnd 0⟩
  | succ n ih =>
      exact ⟨Expression.ignoresRest ih, Unary.ignoresRest ih, Element.ignoresRest ih,
        Repeated.ignoresRest (Statement.ignoresRest ih), Instantiation.ignoresRest ih, hend,
        level_shrinking ifEnd (n + 1)⟩

theorem NearestElse.of_append {rest us : List Token} (h : NearestElse (rest ++ us)) :
    NearestElse rest := by
  cases rest with
  | nil => exact (by decide : nextKind [] ≠ .keyword .otherwise)
  | cons t rest => exact h

/-- The tokens of a statement are a program by themselves. -/
theorem Statement.program {n : Nat} {ts rest : List Token} {s : Node}
    (h : Statement (level NearestElse n) (ts ++ rest) s rest) : Program NearestElse n ts [s] := by
  have hlevel : (level NearestElse n).IgnoringRest rest :=
    level_receding (fun _ => NearestElse.of_append) n
  obtain ⟨vs, hvs, hs⟩ := (Statement.ignoresRest hlevel).whole h
  obtain rfl := List.append_cancel_right hvs
  exact .cons hs .nil

end Scad.Grammar
