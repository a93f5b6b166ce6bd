import Scad.Proofs.Grammar

/-! How phrases begin. -/
namespace Scad.Grammar

open Parse (startsExpression startsGenerator)

def startsPrimary : TokenKind → Bool
  | .identifier | .number | .string => true
  | .keyword .true | .keyword .false | .keyword .undef => true
  | .symbol .leftParen | .symbol .leftBracket => true
  | _ => false

def startsOperand (k : TokenKind) : Bool := startsPrimary k || Parse.isSign k

/-- A phrase begins with a token of some kinds. If this is a parenthesis, an expression stands in
it, and a name before `=` is all of the phrase. -/
structure Headed (kinds : TokenKind → Bool) (P : Phrase Node) : Prop where
  starts : ∀ {ts x rest}, P ts x rest → kinds (nextKind ts)
  paren : ∀ {t ts x rest}, P (t :: ts) x rest → t.kind = .symbol .leftParen →
    startsExpression (nextKind ts)
  name : ∀ {t u ts x rest}, P (t :: u :: ts) x rest → t.kind = .identifier →
    u.kind = .symbol .assign → rest = u :: ts

theorem Between.nextKind {α : Type} {left right : Symbol} {P : Phrase α} {ts : List Token} {a : α}
    {rest : List Token} (h : Between left right P ts a rest) : nextKind ts = .symbol left := by
  obtain ⟨hl, -, -⟩ := h
  exact hl

theorem After.nextKind {α : Type} {k : TokenKind} {P : Phrase α} {ts : List Token} {a : α}
    {rest : List Token} (h : After k P ts a rest) : nextKind ts = k := by
  obtain ⟨hk, -⟩ := h
  exact hk

section

variable {inner : Level}

theorem Suffix.nextKind {ts : List Token} {x : Node} {rest : List Token}
    (h : Suffix inner ts x rest) : nextKind ts = .symbol .leftParen ∨
      nextKind ts = .symbol .leftBracket ∨ nextKind ts = .symbol .dot := by
  cases h with
  | call ha => exact .inl ha.nextKind
  | index he => exact .inr (.inl he.nextKind)
  | member hd _ => exact .inr (.inr hd)

theorem Primary.headed (h : Headed startsExpression inner.expression) :
    Headed startsPrimary (Primary inner) where
  starts hp := by
    cases hp with
    | paren he | vector he _ | range he _ =>
        rw [he.nextKind]
        rfl
    | true hk | false hk | undef hk | number hk _ | string hk | reference hk =>
        show startsPrimary (Token.kind _) = _
        rw [hk]
        rfl
  paren hp hk := by
    cases hp with
    | paren he =>
        obtain ⟨-, he, -⟩ := he
        exact h.starts he
    | vector he _ | range he _ =>
        obtain ⟨hl, -, -⟩ := he
        rw [hk] at hl
        cases hl
    | true hl | false hl | undef hl | number hl _ | string hl | reference hl =>
        rw [hk] at hl
        cases hl
  name hp hk _ := by
    cases hp with
    | paren he | vector he _ | range he _ =>
        obtain ⟨hl, -, -⟩ := he
        rw [hk] at hl
        cases hl
    | true | false | undef | number | string | reference => rfl

/-- A phrase that is another one, or another one with something behind it that `=` does
not begin. -/
theorem Headed.extend {kinds : TokenKind → Bool} {P Q : Phrase Node} (h : Headed kinds P)
    (hQ : ∀ {ts x rest}, Q ts x rest → ∃ y mid, P ts y mid ∧
      (rest = mid ∨ nextKind mid ≠ .symbol .assign)) : Headed kinds Q where
  starts hq := by
    obtain ⟨y, mid, hp, -⟩ := hQ hq
    exact h.starts hp
  paren hq hk := by
    obtain ⟨y, mid, hp, -⟩ := hQ hq
    exact h.paren hp hk
  name hq hk hu := by
    obtain ⟨y, mid, hp, hm⟩ := hQ hq
    obtain rfl := h.name hp hk hu
    exact hm.resolve_right fun hn => hn hu

theorem Suffixed.headed (h : Headed startsExpression inner.expression) :
    Headed startsPrimary (Suffixed inner) := by
  refine (Primary.headed h).extend fun hs => ?_
  cases hs with
  | plain hp => exact ⟨_, _, hp, .inl rfl⟩
  | call hp hs hne =>
      refine ⟨_, _, hp, .inr ?_⟩
      cases hs with
      | nil => exact absurd rfl hne
      | cons hs _ => rcases hs.nextKind with hk | hk | hk <;> simp [hk]

theorem Power.headed (h : Headed startsExpression inner.expression) :
    Headed startsPrimary (Power inner) := by
  refine (Suffixed.headed h).extend fun hp => ?_
  cases hp with
  | plain hs => exact ⟨_, _, hs, .inl rfl⟩
  | raised hb he => exact ⟨_, _, hb, .inr (by simp [he.nextKind])⟩

theorem Unary.headed (h : Headed startsExpression inner.expression) :
    Headed startsOperand (Unary inner) where
  starts hu := by
    cases hu with
    | plain hp =>
        rw [startsOperand, (Power.headed h).starts hp]
        rfl
    | sign hk _ =>
        rw [startsOperand, Bool.or_eq_true]
        exact .inr hk
  paren hu hk := by
    cases hu with
    | plain hp => exact (Power.headed h).paren hp hk
    | sign hs _ =>
        rw [hk] at hs
        cases hs
  name hu hk ha := by
    cases hu with
    | plain hp => exact (Power.headed h).name hp hk ha
    | sign hs _ =>
        rw [hk] at hs
        cases hs

theorem not_isOperator_assign (level : ChainLevel) :
    Parse.isOperator level (.symbol .assign) = false := by
  cases level <;> rfl

theorem Chain.headed {kinds : TokenKind → Bool} {level : ChainLevel} {P : Phrase Node}
    (h : Headed kinds P) : Headed kinds (Chain level P) := by
  refine h.extend fun hc => ?_
  cases hc with
  | single hx => exact ⟨_, _, hx, .inl rfl⟩
  | several hx hm hne =>
      refine ⟨_, _, hx, .inr fun hn => ?_⟩
      cases hm with
      | nil => exact hne rfl
      | cons ho _ =>
          obtain ⟨hk, -⟩ := ho
          rw [show Token.kind _ = _ from hn, not_isOperator_assign] at hk
          cases hk

theorem Ternary.headed (h : Headed startsExpression inner.expression) :
    Headed startsOperand (Ternary inner) := by
  have hc : Headed startsOperand (Chains inner) :=
    Chain.headed <| Chain.headed <| Chain.headed <| Chain.headed <| Chain.headed <| Chain.headed <|
      Unary.headed h
  refine hc.extend fun ht => ?_
  cases ht with
  | plain hc => exact ⟨_, _, hc, .inl rfl⟩
  | choice hc ha _ => exact ⟨_, _, hc, .inr (by simp [ha.nextKind])⟩

theorem startsExpression_of_startsOperand {k : TokenKind} (h : startsOperand k) :
    startsExpression k := by
  rw [startsOperand, Bool.or_eq_true] at h
  rcases h with h | h
  · unfold startsPrimary at h
    split at h <;> first | rfl | cases h
  · simp only [Parse.isSign, Bool.or_eq_true, decide_eq_true_eq] at h
    rcases h with (rfl | rfl) | rfl <;> rfl

theorem Expression.headed (h : Headed startsExpression inner.expression) :
    Headed startsExpression (Expression inner) where
  starts he := by
    cases he with
    | letIn hk _ _ | functionLiteral hk _ _ =>
        show startsExpression (Token.kind _) = _
        rw [hk]
        rfl
    | @remark verb _ _ _ _ _ hk _ | @remarkOn verb _ _ _ _ _ _ _ hk _ _ =>
        show startsExpression (Token.kind _) = _
        rw [hk]
        cases verb <;> rfl
    | ternary ht => exact startsExpression_of_startsOperand ((Ternary.headed h).starts ht)
  paren he hk := by
    cases he with
    | letIn hl _ _ | functionLiteral hl _ _ | remark hl _ | remarkOn hl _ _ =>
        rw [hk] at hl
        cases hl
    | ternary ht => exact (Ternary.headed h).paren ht hk
  name he hk ha := by
    cases he with
    | letIn hl _ _ | functionLiteral hl _ _ | remark hl _ | remarkOn hl _ _ =>
        rw [hk] at hl
        cases hl
    | ternary ht => exact (Ternary.headed h).name ht hk ha

theorem level_headed (ifEnd : List Token → Prop) (n : Nat) :
    Headed startsExpression (level ifEnd n).expression := by
  induction n with
  | zero => exact ⟨nofun, nofun, nofun⟩
  | succ n ih => exact Expression.headed ih

end

end Scad.Grammar
