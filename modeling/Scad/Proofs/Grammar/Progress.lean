import Scad.Proofs.Grammar

/-! Every phrase of the grammar, lists and repetitions apart, takes at least one token. -/
namespace Scad.Grammar

variable {α : Type}

def Shrinks (P : Phrase α) : Prop := ∀ ⦃ts a rest⦄, P ts a rest → rest.length < ts.length

/-- A phrase that may be empty, but does not give tokens back. -/
def Keeps (P : Phrase α) : Prop := ∀ ⦃ts a rest⦄, P ts a rest → rest.length ≤ ts.length

theorem Shrinks.keeps {P : Phrase α} (h : Shrinks P) : Keeps P :=
  fun _ _ _ hp => Nat.le_of_lt (h hp)

structure Level.Shrinking (inner : Level) : Prop where
  expression : Shrinks inner.expression
  unary : Shrinks inner.unary
  element : Shrinks inner.element
  statements : Keeps inner.statements
  instantiation : Shrinks inner.instantiation

theorem Repeated.keeps {item : Phrase α} (h : Shrinks item) : Keeps (Repeated item) := by
  intro ts as rest hr
  induction hr with
  | nil => exact Nat.le_refl _
  | cons ha _ ih =>
      have := h ha
      omega

theorem Commas.shrinks {ts rest : List Token} (h : Commas ts rest) : rest.length < ts.length := by
  induction h with
  | one => simp
  | more _ _ ih => simp only [List.length_cons]; omega

theorem Listed.keeps {item : Phrase Node} (h : Shrinks item) : Keeps (Listed item) := by
  intro ts as rest hl
  induction hl with
  | none => exact Nat.le_refl _
  | one ha => exact Nat.le_of_lt (h ha)
  | more ha hc _ ih =>
      have := h ha
      have := hc.shrinks
      omega

theorem After.shrinks {k : TokenKind} {P : Phrase α} (h : Keeps P) : Shrinks (After k P) := by
  rintro _ _ _ ⟨_, ha⟩
  have := h ha
  simp only [List.length_cons]
  omega

theorem Between.shrinks {left right : Symbol} {P : Phrase α} (h : Keeps P) :
    Shrinks (Between left right P) := by
  rintro _ _ _ ⟨_, ha, _⟩
  have := h ha
  simp only [List.length_cons] at *
  omega

variable {inner : Level} (h : inner.Shrinking)

include h

theorem Value.shrinks : Shrinks (Value inner) := After.shrinks h.expression.keeps

theorem Argument.shrinks (declares : Bool) : Shrinks (Argument inner declares) := by
  intro ts a rest ha
  cases ha with
  | named _ he =>
      have := Value.shrinks h he
      simp only [List.length_cons]
      omega
  | unnamed he => exact h.expression he

theorem Arguments.shrinks (declares : Bool) : Shrinks (Arguments inner declares) :=
  Between.shrinks (Listed.keeps (Argument.shrinks h declares))

theorem Parameter.shrinks : Shrinks (Parameter inner) := by
  intro ts a rest ha
  cases ha with
  | required => simp
  | optional _ he =>
      have := Value.shrinks h he
      simp only [List.length_cons]
      omega

theorem Parameters.shrinks : Shrinks (Parameters inner) :=
  Between.shrinks (Listed.keeps (Parameter.shrinks h))

theorem Assignment.shrinks : Shrinks (Assignment inner) := by
  rintro _ _ _ ⟨_, he⟩
  have := Value.shrinks h he
  simp only [List.length_cons]
  omega

theorem Update.shrinks : Shrinks (Update inner) := by
  rintro _ _ _ ⟨_, he⟩
  have := Value.shrinks h he
  simp only [List.length_cons]
  omega

theorem LoopHead.keeps : Keeps (LoopHead inner) := by
  intro ts a rest ha
  cases ha with
  | plain ha => exact Listed.keeps (Assignment.shrinks h) ha
  | counted ha hc _ hu =>
      have := Listed.keeps (Assignment.shrinks h) ha
      have := After.shrinks h.expression.keeps hc
      have := Listed.keeps (Update.shrinks h) hu
      simp only [List.length_cons] at *
      omega

theorem Condition.shrinks : Shrinks (Condition inner) := Between.shrinks h.expression.keeps

theorem Element.shrinks : Shrinks (Element inner) := by
  intro ts a rest ha
  cases ha with
  | loop _ hl hb =>
      have := Between.shrinks (LoopHead.keeps h) hl
      have := h.element hb
      simp only [List.length_cons]
      omega
  | each _ hb =>
      have := h.element hb
      simp only [List.length_cons]
      omega
  | ifThen _ hc ht _ =>
      have := Condition.shrinks h hc
      have := h.element ht
      simp only [List.length_cons]
      omega
  | ifElse _ hc ht he =>
      have := Condition.shrinks h hc
      have := h.element ht
      have := After.shrinks h.element.keeps he
      simp only [List.length_cons]
      omega
  | letIn _ ha hb =>
      have := Between.shrinks (Listed.keeps (Assignment.shrinks h)) ha
      have := h.element hb
      simp only [List.length_cons]
      omega
  | group hg _ => exact Between.shrinks h.element.keeps hg
  | plain he _ => exact h.expression he

theorem Range.shrinks : Shrinks (Range inner) := by
  intro ts a rest ha
  cases ha with
  | ends ha hb =>
      have := Element.shrinks h ha
      have := After.shrinks h.expression.keeps hb
      omega
  | stepped ha hs hb =>
      have := Element.shrinks h ha
      have := After.shrinks h.expression.keeps hs
      have := After.shrinks h.expression.keeps hb
      omega

theorem Primary.shrinks : Shrinks (Primary inner) := by
  intro ts a rest ha
  cases ha with
  | paren he => exact Between.shrinks h.expression.keeps he
  | vector hv _ => exact Between.shrinks (Listed.keeps (Element.shrinks h)) hv
  | range hr _ => exact Between.shrinks (Range.shrinks h).keeps hr
  | true | false | undef | number | string | reference => simp

theorem Suffix.shrinks : Shrinks (Suffix inner) := by
  intro ts a rest ha
  cases ha with
  | call ha => exact Arguments.shrinks h false ha
  | index he => exact Between.shrinks h.expression.keeps he
  | member =>
      simp only [List.length_cons]
      omega

theorem Suffixed.shrinks : Shrinks (Suffixed inner) := by
  intro ts a rest ha
  cases ha with
  | plain hp => exact Primary.shrinks h hp
  | call hp hs _ =>
      have := Primary.shrinks h hp
      have := Repeated.keeps (Suffix.shrinks h) hs
      omega

theorem Power.shrinks : Shrinks (Power inner) := by
  intro ts a rest ha
  cases ha with
  | plain hs => exact Suffixed.shrinks h hs
  | raised hb he =>
      have := Suffixed.shrinks h hb
      have := After.shrinks h.unary.keeps he
      omega

theorem Unary.shrinks : Shrinks (Unary inner) := by
  intro ts a rest ha
  cases ha with
  | plain hp => exact Power.shrinks h hp
  | sign _ he =>
      have := h.unary he
      simp only [List.length_cons]
      omega

omit h in
theorem Operation.shrinks {level : ChainLevel} {operand : Phrase Node} (h : Shrinks operand) :
    Shrinks (Operation level operand) := by
  rintro _ _ _ ⟨_, hx⟩
  have := h hx
  simp only [List.length_cons]
  omega

omit h in
theorem Chain.shrinks {level : ChainLevel} {operand : Phrase Node} (h : Shrinks operand) :
    Shrinks (Chain level operand) := by
  intro ts a rest ha
  cases ha with
  | single hx => exact h hx
  | several hx hm _ =>
      have := h hx
      have := Repeated.keeps (Operation.shrinks h) hm
      omega

theorem Chains.shrinks : Shrinks (Chains inner) :=
  Chain.shrinks <| Chain.shrinks <| Chain.shrinks <| Chain.shrinks <| Chain.shrinks <|
    Chain.shrinks (Unary.shrinks h)

theorem Ternary.shrinks : Shrinks (Ternary inner) := by
  intro ts a rest ha
  cases ha with
  | plain hx => exact Chains.shrinks h hx
  | choice hc ht he =>
      have := Chains.shrinks h hc
      have := After.shrinks h.expression.keeps ht
      have := After.shrinks h.expression.keeps he
      omega

theorem Expression.shrinks : Shrinks (Expression inner) := by
  intro ts a rest ha
  cases ha with
  | letIn _ ha hb =>
      have := Between.shrinks (Listed.keeps (Assignment.shrinks h)) ha
      have := h.expression hb
      simp only [List.length_cons]
      omega
  | remark _ ha =>
      have := Arguments.shrinks h false ha
      simp only [List.length_cons]
      omega
  | remarkOn _ ha hb =>
      have := Arguments.shrinks h false ha
      have := h.expression hb
      simp only [List.length_cons]
      omega
  | functionLiteral _ hp hb =>
      have := Parameters.shrinks h hp
      have := h.expression hb
      simp only [List.length_cons]
      omega
  | ternary hx => exact Ternary.shrinks h hx

theorem Block.shrinks : Shrinks (Block inner) := by
  rintro _ _ _ ⟨hs⟩
  exact Between.shrinks h.statements hs

theorem Child.shrinks : Shrinks (Child inner) := by
  intro ts a rest ha
  cases ha with
  | empty => simp
  | block hb => exact Block.shrinks h hb
  | instantiation hi => exact h.instantiation hi

theorem Payload.shrinks : Shrinks (Payload inner) := by
  intro ts a rest ha
  cases ha with
  | ifThen _ hc ht _ =>
      have := Condition.shrinks h hc
      have := Child.shrinks h ht
      simp only [List.length_cons]
      omega
  | ifElse _ hc ht he =>
      have := Condition.shrinks h hc
      have := Child.shrinks h ht
      have := After.shrinks (Child.shrinks h).keeps he
      simp only [List.length_cons]
      omega
  | remark _ ha hc =>
      have := Arguments.shrinks h false ha
      have := Child.shrinks h hc
      simp only [List.length_cons]
      omega
  | call _ ha hc =>
      have := Arguments.shrinks h _ ha
      have := Child.shrinks h hc
      simp only [List.length_cons]
      omega

omit h in
theorem Mark.shrinks : Shrinks Mark := by
  rintro _ _ _ ⟨_⟩
  simp

theorem Instantiation.shrinks : Shrinks (Instantiation inner) := by
  rintro _ _ _ ⟨hm, hp⟩
  have := Repeated.keeps Mark.shrinks hm
  have := Payload.shrinks h hp
  omega

theorem Statement.shrinks : Shrinks (Statement inner) := by
  intro ts a rest ha
  induction ha with
  | empty => simp
  | block hb => exact Block.shrinks h hb
  | file => simp only [List.length_cons]; omega
  | assignment _ he _ =>
      have := Value.shrinks h he
      simp only [List.length_cons] at *
      omega
  | function _ _ hp he _ =>
      have := Parameters.shrinks h hp
      have := Value.shrinks h he
      simp only [List.length_cons] at *
      omega
  | module _ _ hp _ ih =>
      have := Parameters.shrinks h hp
      simp only [List.length_cons]
      omega
  | instantiation hi => exact Instantiation.shrinks h hi

omit h in
theorem level_shrinking (ifEnd : List Token → Prop) (n : Nat) : (level ifEnd n).Shrinking := by
  induction n with
  | zero => exact ⟨nofun, nofun, nofun, nofun, nofun⟩
  | succ n ih =>
      exact ⟨Expression.shrinks ih, Unary.shrinks ih, Element.shrinks ih,
        Repeated.keeps (Statement.shrinks ih), Instantiation.shrinks ih⟩

end Scad.Grammar
