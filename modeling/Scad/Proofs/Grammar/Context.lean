import Scad.Proofs.Grammar.Progress

/-! A phrase ends where it ends whatever else stands behind it, an `else` apart: only that could go
on with an `if`. So the programs of two texts are one program one behind the other. -/
namespace Scad.Grammar

variable {α : Type} {us : List Token}

/-- What a phrase takes is a phrase as well when more stands behind it. -/
def AllowsRest (us : List Token) (P : Phrase α) : Prop :=
  ∀ ⦃ts a rest⦄, P ts a rest → P (ts ++ us) a (rest ++ us)

theorem nextKind_append {ts : List Token} (h : ts ≠ []) (us : List Token) :
    nextKind (ts ++ us) = nextKind ts := by
  cases ts with
  | nil => exact absurd rfl h
  | cons t ts => rfl

structure Level.AllowingRest (us : List Token) (inner : Level) : Prop where
  expression : AllowsRest us inner.expression
  unary : AllowsRest us inner.unary
  element : AllowsRest us inner.element
  statements : AllowsRest us inner.statements
  instantiation : AllowsRest us inner.instantiation
  ifEnd : ∀ ⦃rest⦄, inner.ifEnd rest → inner.ifEnd (rest ++ us)
  /-- No expression is empty, so what it begins with is its own. -/
  shrinking : inner.Shrinking

theorem Repeated.allowsRest {item : Phrase α} (h : AllowsRest us item) :
    AllowsRest us (Repeated item) := by
  intro ts as rest hr
  induction hr with
  | nil => exact .nil
  | cons ha _ ih => exact .cons (h ha) ih

theorem Commas.allowsRest {ts rest : List Token} (h : Commas ts rest) :
    Commas (ts ++ us) (rest ++ us) := by
  induction h with
  | one hk => exact .one hk
  | more hk _ ih => exact .more hk ih

theorem Listed.allowsRest {item : Phrase Node} (h : AllowsRest us item) :
    AllowsRest us (Listed item) := by
  intro ts as rest hl
  induction hl with
  | none => exact .none
  | one ha => exact .one (h ha)
  | more ha hc _ ih => exact .more (h ha) hc.allowsRest ih

theorem After.allowsRest {k : TokenKind} {P : Phrase α} (h : AllowsRest us P) :
    AllowsRest us (After k P) := by
  rintro _ _ _ ⟨hk, ha⟩
  exact .mk hk (h ha)

theorem Between.allowsRest {left right : Symbol} {P : Phrase α} (h : AllowsRest us P) :
    AllowsRest us (Between left right P) := by
  rintro _ _ _ ⟨hl, ha, hr⟩
  exact .mk hl (h ha) hr

variable {inner : Level} (h : inner.AllowingRest us)

include h

theorem Value.allowsRest : AllowsRest us (Value inner) := After.allowsRest h.expression

theorem Argument.allowsRest (declares : Bool) : AllowsRest us (Argument inner declares) := by
  intro ts a rest ha
  cases ha with
  | named hk he => exact .named hk (Value.allowsRest h he)
  | unnamed he => exact .unnamed (h.expression he)

theorem Arguments.allowsRest (declares : Bool) : AllowsRest us (Arguments inner declares) :=
  Between.allowsRest (Listed.allowsRest (Argument.allowsRest h declares))

theorem Parameter.allowsRest : AllowsRest us (Parameter inner) := by
  intro ts a rest ha
  cases ha with
  | required hk => exact .required hk
  | optional hk he => exact .optional hk (Value.allowsRest h he)

theorem Parameters.allowsRest : AllowsRest us (Parameters inner) :=
  Between.allowsRest (Listed.allowsRest (Parameter.allowsRest h))

theorem Assignment.allowsRest : AllowsRest us (Assignment inner) := by
  rintro _ _ _ ⟨hk, he⟩
  exact .mk hk (Value.allowsRest h he)

theorem Update.allowsRest : AllowsRest us (Update inner) := by
  rintro _ _ _ ⟨hk, he⟩
  exact .mk hk (Value.allowsRest h he)

theorem LoopHead.allowsRest : AllowsRest us (LoopHead inner) := by
  intro ts a rest ha
  cases ha with
  | plain ha => exact .plain (Listed.allowsRest (Assignment.allowsRest h) ha)
  | counted ha hc hs hu =>
      exact .counted (Listed.allowsRest (Assignment.allowsRest h) ha)
        (After.allowsRest h.expression hc) hs (Listed.allowsRest (Update.allowsRest h) hu)

theorem Condition.allowsRest : AllowsRest us (Condition inner) := Between.allowsRest h.expression

theorem Element.allowsRest : AllowsRest us (Element inner) := by
  intro ts a rest ha
  cases ha with
  | loop hk hl hb => exact .loop hk (Between.allowsRest (LoopHead.allowsRest h) hl) (h.element hb)
  | each hk hb => exact .each hk (h.element hb)
  | ifThen hk hc ht hend =>
      exact .ifThen hk (Condition.allowsRest h hc) (h.element ht) (h.ifEnd hend)
  | ifElse hk hc ht he =>
      exact .ifElse hk (Condition.allowsRest h hc) (h.element ht) (After.allowsRest h.element he)
  | letIn hk ha hb =>
      exact .letIn hk (Between.allowsRest (Listed.allowsRest (Assignment.allowsRest h)) ha)
        (h.element hb)
  | group hg hk => exact .group (Between.allowsRest h.element hg) hk
  | plain he hk =>
      have hlength := h.shrinking.expression he
      refine .plain (h.expression he) ?_
      rw [nextKind_append (List.ne_nil_of_length_pos (Nat.zero_lt_of_lt hlength))]
      exact hk

theorem Range.allowsRest : AllowsRest us (Range inner) := by
  intro ts a rest ha
  cases ha with
  | ends ha hb => exact .ends (Element.allowsRest h ha) (After.allowsRest h.expression hb)
  | stepped ha hs hb =>
      exact .stepped (Element.allowsRest h ha) (After.allowsRest h.expression hs)
        (After.allowsRest h.expression hb)

theorem Primary.allowsRest : AllowsRest us (Primary inner) := by
  intro ts a rest ha
  cases ha with
  | paren he => exact .paren (Between.allowsRest h.expression he)
  | vector hv hu =>
      exact .vector (Between.allowsRest (Listed.allowsRest (Element.allowsRest h)) hv) hu
  | range hr hg => exact .range (Between.allowsRest (Range.allowsRest h) hr) hg
  | true hk => exact .true hk
  | false hk => exact .false hk
  | undef hk => exact .undef hk
  | number hk hx => exact .number hk hx
  | string hk => exact .string hk
  | reference hk => exact .reference hk

theorem Suffix.allowsRest : AllowsRest us (Suffix inner) := by
  intro ts a rest ha
  cases ha with
  | call ha => exact .call (Arguments.allowsRest h false ha)
  | index he => exact .index (Between.allowsRest h.expression he)
  | member hd hm => exact .member hd hm

theorem Suffixed.allowsRest : AllowsRest us (Suffixed inner) := by
  intro ts a rest ha
  cases ha with
  | plain hp => exact .plain (Primary.allowsRest h hp)
  | call hp hs hne =>
      exact .call (Primary.allowsRest h hp) (Repeated.allowsRest (Suffix.allowsRest h) hs) hne

theorem Power.allowsRest : AllowsRest us (Power inner) := by
  intro ts a rest ha
  cases ha with
  | plain hs => exact .plain (Suffixed.allowsRest h hs)
  | raised hb he => exact .raised (Suffixed.allowsRest h hb) (After.allowsRest h.unary he)

theorem Unary.allowsRest : AllowsRest us (Unary inner) := by
  intro ts a rest ha
  cases ha with
  | plain hp => exact .plain (Power.allowsRest h hp)
  | sign hk he => exact .sign hk (h.unary he)

omit h in
theorem Operation.allowsRest {level : ChainLevel} {operand : Phrase Node}
    (h : AllowsRest us operand) :
    AllowsRest us (Operation level operand) := by
  rintro _ _ _ ⟨hk, hx⟩
  exact .mk hk (h hx)

omit h in
theorem Chain.allowsRest {level : ChainLevel} {operand : Phrase Node} (h : AllowsRest us operand) :
    AllowsRest us (Chain level operand) := by
  intro ts a rest ha
  cases ha with
  | single hx => exact .single (h hx)
  | several hx hm hne => exact .several (h hx) (Repeated.allowsRest (Operation.allowsRest h) hm) hne

theorem Chains.allowsRest : AllowsRest us (Chains inner) :=
  Chain.allowsRest <| Chain.allowsRest <| Chain.allowsRest <| Chain.allowsRest <|
    Chain.allowsRest <|
    Chain.allowsRest (Unary.allowsRest h)

theorem Ternary.allowsRest : AllowsRest us (Ternary inner) := by
  intro ts a rest ha
  cases ha with
  | plain hx => exact .plain (Chains.allowsRest h hx)
  | choice hc ht he =>
      exact .choice (Chains.allowsRest h hc) (After.allowsRest h.expression ht)
        (After.allowsRest h.expression he)

theorem Expression.allowsRest : AllowsRest us (Expression inner) := by
  intro ts a rest ha
  cases ha with
  | letIn hk ha hb =>
      exact .letIn hk (Between.allowsRest (Listed.allowsRest (Assignment.allowsRest h)) ha)
        (h.expression hb)
  | remark hk ha => exact .remark hk (Arguments.allowsRest h false ha)
  | remarkOn hk ha hb => exact .remarkOn hk (Arguments.allowsRest h false ha) (h.expression hb)
  | functionLiteral hk hp hb =>
      exact .functionLiteral hk (Parameters.allowsRest h hp) (h.expression hb)
  | ternary hx => exact .ternary (Ternary.allowsRest h hx)

theorem Block.allowsRest : AllowsRest us (Block inner) := by
  rintro _ _ _ ⟨hs⟩
  exact .mk (Between.allowsRest h.statements hs)

theorem Child.allowsRest : AllowsRest us (Child inner) := by
  intro ts a rest ha
  cases ha with
  | empty hk => exact .empty hk
  | block hb => exact .block (Block.allowsRest h hb)
  | instantiation hi => exact .instantiation (h.instantiation hi)

theorem Payload.allowsRest : AllowsRest us (Payload inner) := by
  intro ts a rest ha
  cases ha with
  | ifThen hk hc ht hend =>
      exact .ifThen hk (Condition.allowsRest h hc) (Child.allowsRest h ht) (h.ifEnd hend)
  | ifElse hk hc ht he =>
      exact .ifElse hk (Condition.allowsRest h hc) (Child.allowsRest h ht)
        (After.allowsRest (Child.allowsRest h) he)
  | remark hk ha hc => exact .remark hk (Arguments.allowsRest h false ha) (Child.allowsRest h hc)
  | call hk ha hc => exact .call hk (Arguments.allowsRest h _ ha) (Child.allowsRest h hc)

omit h in
theorem Mark.allowsRest : AllowsRest us Mark := by
  rintro _ _ _ ⟨hk⟩
  exact .mk hk

theorem Instantiation.allowsRest : AllowsRest us (Instantiation inner) := by
  rintro _ _ _ ⟨hm, hp⟩
  exact .mk (Repeated.allowsRest Mark.allowsRest hm) (Payload.allowsRest h hp)

theorem Statement.allowsRest : AllowsRest us (Statement inner) := by
  intro ts a rest ha
  induction ha with
  | empty hk => exact .empty hk
  | block hb => exact .block (Block.allowsRest h hb)
  | file hk hf => exact .file hk hf
  | assignment hk he hs => exact .assignment hk (Value.allowsRest h he) hs
  | function hk hn hp he hs =>
      exact .function hk hn (Parameters.allowsRest h hp) (Value.allowsRest h he) hs
  | module hk hn hp _ ih => exact .module hk hn (Parameters.allowsRest h hp) ih
  | instantiation hi => exact .instantiation (Instantiation.allowsRest h hi)

omit h

theorem level_continuing {ifEnd : List Token → Prop}
    (hend : ∀ ⦃rest⦄, ifEnd rest → ifEnd (rest ++ us)) (n : Nat) :
    (level ifEnd n).AllowingRest us := by
  induction n with
  | zero => exact ⟨nofun, nofun, nofun, nofun, nofun, hend, level_shrinking ifEnd 0⟩
  | succ n ih =>
      exact ⟨Expression.allowsRest ih, Unary.allowsRest ih, Element.allowsRest ih,
        Repeated.allowsRest (Statement.allowsRest ih), Instantiation.allowsRest ih, hend,
        level_shrinking ifEnd (n + 1)⟩

theorem Repeated.append {item : Phrase α} {ts mid rest : List Token} {as bs : List α}
    (ha : Repeated item ts as mid) (hb : Repeated item mid bs rest) :
    Repeated item ts (as ++ bs) rest := by
  induction ha with
  | nil => exact hb
  | cons hx _ ih => exact .cons hx (ih hb)

/-- What no `else` begins goes on with none of the phrases before it. -/
theorem NearestElse.append {rest us : List Token} (h : NearestElse rest)
    (hus : nextKind us ≠ .keyword .otherwise) :
    NearestElse (rest ++ us) := by
  cases rest with
  | nil => exact hus
  | cons t rest => exact h

/-- Two programs one behind the other are one program. -/
theorem Program.append {n : Nat} {ts us : List Token} {ss ss' : List Node}
    (h : Program NearestElse n ts ss) (h' : Program NearestElse n us ss')
    (hus : nextKind us ≠ .keyword .otherwise) :
    Program NearestElse n (ts ++ us) (ss ++ ss') := by
  have hlevel : (level NearestElse n).AllowingRest us :=
    level_continuing (fun rest hrest => NearestElse.append hrest hus) n
  have hfirst := Repeated.allowsRest (Statement.allowsRest hlevel) h
  exact hfirst.append h'

end Scad.Grammar
