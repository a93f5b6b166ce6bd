import Scad.Proofs.Parse.Lockstep

/-! Expressions that are read side by side. -/
namespace Scad.Parse

open List (Forall₂)
open Link (numbered_list numbered_option)

variable {L : Link}

abbrev NodeInLockstep (L : Link) (p : Parser Node) : Prop := InLockstep L L.Nodes p p

abbrev NodesInLockstep (L : Link) (p : Parser (List Node)) : Prop :=
  InLockstep L (Forall₂ L.Nodes) p p

structure ExpressionsInLockstep (L : Link) (rules : ExpressionRules) : Prop where
  expression : NodeInLockstep L rules.expression
  unary : NodeInLockstep L rules.unary
  element : NodeInLockstep L rules.element

section

variable {rules : ExpressionRules} (h : ExpressionsInLockstep L rules)

include h

theorem lockstep_argument (declares : Bool) : NodeInLockstep L (argument rules declares) := by
  refine .look fun ht => InLockstep.peek.bind ?_
  rintro _ _ ⟨-⟩
  refine .choose ?_ ?_
  · refine InLockstep.advance.bind fun _ _ _ => (InLockstep.make (.mk ht) rfl).bind fun _ _ hname =>
      InLockstep.advance.bind fun _ _ _ => h.expression.bind fun _ _ he => .make (.mk ht) ?_
    simp only [Form.map, Option.map, hname.numbered, he.numbered]
  · refine h.expression.bind fun _ _ he => .make (.mk ht) ?_
    simp only [Form.map, Option.map, he.numbered]

theorem lockstep_arguments (declares : Bool) : NodesInLockstep L (arguments rules declares) :=
  (InLockstep.expectSymbol _).bind fun _ _ _ =>
    (InLockstep.separated (lockstep_argument h declares)).bind fun _ _ hs =>
    (InLockstep.expectSymbol _).bind fun _ _ _ => .pure hs

theorem lockstep_parameter : NodeInLockstep L (parameter rules) := by
  refine .take fun ht => .test ?_ (.make (.mk ht) rfl)
  refine InLockstep.advance.bind fun _ _ _ => h.expression.bind fun _ _ he => .make (.mk ht) ?_
  simp only [Form.map, Option.map, he.numbered]

theorem lockstep_parameters : NodesInLockstep L (parameters rules) :=
  (InLockstep.expectSymbol _).bind fun _ _ _ =>
    (InLockstep.separated (lockstep_parameter h)).bind fun _ _ hs =>
    (InLockstep.expectSymbol _).bind fun _ _ _ => .pure hs

theorem lockstep_assignmentParts : InLockstep L
    (fun a b => L.Tokens a.1 b.1 ∧ L.Nodes a.2.1 b.2.1 ∧ L.Nodes a.2.2 b.2.2)
    (assignmentParts rules) (assignmentParts rules) :=
  .take fun ht => (InLockstep.make (.mk ht) rfl).bind fun _ _ hn =>
    (InLockstep.expectSymbol _).bind fun _ _ _ =>
    h.expression.bind fun _ _ he => .pure ⟨.mk ht, hn, he⟩

theorem lockstep_assignment : NodeInLockstep L (assignment rules) := by
  refine (lockstep_assignmentParts h).bind fun _ _ hparts => .make hparts.1 ?_
  simp only [Form.map, hparts.2.1.numbered, hparts.2.2.numbered]

theorem lockstep_assignments : NodesInLockstep L (assignments rules)   :=
  .separated (lockstep_assignment h)

theorem lockstep_letAssignments : NodesInLockstep L (letAssignments rules) :=
  (InLockstep.expectSymbol _).bind fun _ _ _ => (lockstep_assignments h).bind fun _ _ hs =>
    (InLockstep.expectSymbol _).bind fun _ _ _ => .pure hs

theorem lockstep_loopUpdate : NodeInLockstep L (loopUpdate rules) := by
  refine .take fun ht => (InLockstep.make (.mk ht) rfl).bind fun _ _ hn =>
    (InLockstep.expectSymbol _).bind fun _ _ _ =>
    h.expression.bind fun _ _ he => .make (.mk ht) ?_
  simp only [Form.map, hn.numbered, he.numbered]

theorem lockstep_loopControl : InLockstep L
    (fun a b => Option.Rel L.Nodes a.1 b.1 ∧ Forall₂ L.Nodes a.2 b.2)
    (loopControl rules) (loopControl rules) :=
  .test (InLockstep.advance.bind fun _ _ _ => h.expression.bind fun _ _ he =>
    (InLockstep.expectSymbol _).bind fun _ _ _ =>
    (InLockstep.separated (lockstep_loopUpdate h)).bind fun _ _ hs => .pure ⟨.some he, hs⟩)
      (.pure ⟨.none, .nil⟩)

theorem lockstep_forElement : NodeInLockstep L (forElement rules) := by
  refine .take fun ht => (InLockstep.expectSymbol _).bind fun _ _ _ =>
    (lockstep_assignments h).bind fun _ _ hinits =>
    (lockstep_loopControl h).bind fun _ _ hc => (InLockstep.expectSymbol _).bind fun _ _ _ =>
      h.element.bind fun _ _ hb => .make (.mk ht) ?_
  simp only [Form.map, numbered_list hinits, numbered_option hc.1, numbered_list hc.2, hb.numbered]

omit h in
theorem lockstep_elseBranch {branch : Parser Node} (hb : NodeInLockstep L branch) :
    InLockstep L (Option.Rel L.Nodes) (elseBranch branch) (elseBranch branch) :=
  .test (InLockstep.advance.bind fun _ _ _ => hb.bind fun _ _ hx => .pure (.some hx)) (.pure .none)

theorem lockstep_element : NodeInLockstep L (element rules) := by
  refine .look fun ht => ?_
  dsimp only
  split
  · exact lockstep_forElement h
  · refine InLockstep.advance.bind fun _ _ _ => h.element.bind fun _ _ hb => .make (.mk ht) ?_
    simp only [Form.map, hb.numbered]
  · refine InLockstep.advance.bind fun _ _ _ => (InLockstep.expectSymbol _).bind fun _ _ _ =>
      h.expression.bind fun _ _ hc => (InLockstep.expectSymbol _).bind fun _ _ _ =>
        h.element.bind fun _ _ hx => (lockstep_elseBranch h.element).bind fun _ _ hy =>
          .make (.mk ht) ?_
    simp only [Form.map, hc.numbered, hx.numbered, numbered_option hy]
  · refine InLockstep.advance.bind fun _ _ _ => (lockstep_letAssignments h).bind fun _ _ hs =>
      h.element.bind fun _ _ hb => .make (.mk ht) ?_
    simp only [Form.map, numbered_list hs, hb.numbered]
  · refine InLockstep.peek.bind ?_
    rintro _ _ ⟨-⟩
    refine .choose ?_ h.expression
    exact InLockstep.advance.bind fun _ _ _ => h.element.bind fun _ _ hx =>
      (InLockstep.expectSymbol _).bind fun _ _ _ => .pure hx
  · exact h.expression

omit h in
/-- The first odd element is found at one place of both lists. -/
theorem find_odd {first first' : Node} (hfirst : L.Nodes first first') {ns ns' : List Node}
    (hs : Forall₂ L.Nodes ns ns') :
    Option.Rel L.Nodes (ns.find? (·.isGenerator ≠ first.isGenerator))
      (ns'.find? (·.isGenerator ≠ first'.isGenerator)) := by
  have hg := Node.isGenerator_of_numbered hfirst.numbered
  induction hs with
  | nil => exact .none
  | cons hn _ ih =>
      rw [List.find?_cons, List.find?_cons, ← Node.isGenerator_of_numbered hn.numbered, ← hg]
      rw [← hg] at ih
      split
      · exact .some hn
      · exact ih

omit h in
theorem lockstep_checkUniform {ns ns' : List Node} (hs : Forall₂ L.Nodes ns ns') :
    InLockstep L anyValues (checkUniform ns) (checkUniform ns') := by
  cases hs with
  | nil => exact .pure trivial
  | @cons n n' ns ns' hn hs =>
      have hodd := find_odd hn hs
      unfold checkUniform
      dsimp only
      revert hodd
      generalize ns.find? _ = o
      generalize ns'.find? _ = o'
      rintro (hodd | _)
      · exact .report hodd.span
      · exact .pure trivial

theorem lockstep_rangeRest {start start' : Token} (ht : L.Tokens start start') {first first' : Node}
    (hfirst : L.Nodes first first') :
    InLockstep L L.Nodes (rangeRest rules start first) (rangeRest rules start' first') := by
  have hrest : InLockstep L L.Nodes (do
      let _ ← advance
      let second ← rules.expression
      if ← atKind (.symbol .colon) then
        let _ ← advance
        let stop ← rules.expression
        expectSymbol .rightBracket
        make start (.range first stop (some second))
      else
        expectSymbol .rightBracket
        make start (.range first second none)) (do
      let _ ← advance
      let second ← rules.expression
      if ← atKind (.symbol .colon) then
        let _ ← advance
        let stop ← rules.expression
        expectSymbol .rightBracket
        make start' (.range first' stop (some second))
      else
        expectSymbol .rightBracket
        make start' (.range first' second none)) := by
    refine InLockstep.advance.bind fun _ _ _ => h.expression.bind fun _ _ hx => .test ?_ ?_
    · refine InLockstep.advance.bind fun _ _ _ => h.expression.bind fun _ _ hy =>
        (InLockstep.expectSymbol _).bind fun _ _ _ => .make ht ?_
      simp only [Form.map, Option.map, hfirst.numbered, hx.numbered, hy.numbered]
    · refine (InLockstep.expectSymbol _).bind fun _ _ _ => .make ht ?_
      simp only [Form.map, Option.map, hfirst.numbered, hx.numbered]
  unfold rangeRest
  rw [Node.isGenerator_of_numbered hfirst.numbered]
  exact .choose (.look fun ha => (InLockstep.report ha).bind fun _ _ _ => hrest) hrest

theorem lockstep_nextElement :
    InLockstep L (Option.Rel L.Nodes) (nextElement? rules) (nextElement? rules) := by
  refine InLockstep.skipCommas.bind ?_
  rintro commas _ rfl
  refine .choose ?_ (.pure .none)
  exact .test (.pure .none) ((lockstep_element h).bind fun _ _ hx => .pure (.some hx))

theorem lockstep_vectorOrRange : NodeInLockstep L (vectorOrRange rules) := by
  refine .take fun ht => .test (InLockstep.advance.bind fun _ _ _ => .make (.mk ht) rfl) ?_
  refine (lockstep_element h).bind fun _ _ hfirst => .test (lockstep_rangeRest h (.mk ht) hfirst) ?_
  refine (InLockstep.many (lockstep_nextElement h)).bind fun _ _ hmore =>
    (InLockstep.expectSymbol _).bind fun _ _ _ => (InLockstep.make (.mk ht) ?_).bind fun _ _ hv =>
      (lockstep_checkUniform (.cons hfirst hmore)).bind fun _ _ _ => .pure hv
  simp only [Form.map, numbered_list (.cons hfirst hmore)]

theorem lockstep_primary : NodeInLockstep L (primary rules) := by
  refine .look fun ht => ?_
  dsimp only
  split
  · refine InLockstep.advance.bind fun _ _ _ => h.expression.bind fun _ _ hx =>
      (InLockstep.expectSymbol _).bind fun _ _ _ => .make (.mk ht) ?_
    simp only [Form.map, hx.numbered]
  · exact lockstep_vectorOrRange h
  · exact InLockstep.advance.bind fun _ _ _ => .make (.mk ht) rfl
  · exact InLockstep.advance.bind fun _ _ _ => .make (.mk ht) rfl
  · exact InLockstep.advance.bind fun _ _ _ => .make (.mk ht) rfl
  · refine InLockstep.advance.bind fun _ _ _ => (InLockstep.numberValue _).bind ?_
    rintro x _ rfl
    exact .make (.mk ht) rfl
  · exact InLockstep.advance.bind fun _ _ _ => .make (.mk ht) rfl
  · exact InLockstep.advance.bind fun _ _ _ => .make (.mk ht) rfl
  · exact .fail _

theorem lockstep_suffix : InLockstep L (Option.Rel L.Nodes) (suffix? rules) (suffix? rules) := by
  refine .look fun ht => ?_
  dsimp only
  split
  · refine (lockstep_arguments h false).bind fun _ _ hs =>
      (InLockstep.make (.mk ht) ?_).bind fun _ _ hx =>
      .pure (.some hx)
    simp only [Form.map, numbered_list hs]
  · refine InLockstep.advance.bind fun _ _ _ => h.expression.bind fun _ _ hi =>
      (InLockstep.expectSymbol _).bind fun _ _ _ => (InLockstep.make (.mk ht) ?_).bind fun _ _ hx =>
        .pure (.some hx)
    simp only [Form.map, hi.numbered]
  · refine InLockstep.advance.bind fun _ _ _ => InLockstep.identifier.bind ?_
    rintro member _ rfl
    exact (InLockstep.make (.mk ht) rfl).bind fun _ _ hx => .pure (.some hx)
  · exact .pure .none

theorem lockstep_suffixed : NodeInLockstep L (suffixed rules) := by
  refine .look fun ht => (lockstep_primary h).bind fun _ _ htarget =>
    (InLockstep.many (lockstep_suffix h)).bind ?_
  rintro _ _ (_ | @⟨n, n', ns, ns', hn, hs⟩)
  · exact .pure htarget
  · refine .make (.mk ht) ?_
    simp only [Form.map, htarget.numbered, numbered_list (.cons hn hs)]

theorem lockstep_power : NodeInLockstep L (power rules) := by
  refine .look fun ht => (lockstep_suffixed h).bind fun _ _ hbase => .test ?_ (.pure hbase)
  refine InLockstep.advance.bind fun _ _ _ => h.unary.bind fun _ _ hx => .make (.mk ht) ?_
  simp only [Form.map, hbase.numbered, hx.numbered]

theorem lockstep_unary : NodeInLockstep L (unary rules) := by
  refine .look fun ht => .choose ?_ (lockstep_power h)
  refine InLockstep.advance.bind fun _ _ _ => h.unary.bind fun _ _ hx => .make (.mk ht) ?_
  simp only [Form.map, hx.numbered]

omit h in
/-- Operators are the same on both sides, and operands belong together. -/
theorem lockstep_operation {level : ChainLevel} {operand : Parser Node}
    (ho : NodeInLockstep L operand) :
    InLockstep L (Option.Rel fun a b => a.1 = b.1 ∧ L.Nodes a.2 b.2) (operation? level operand)
      (operation? level operand) :=
  .look fun _ => .choose (.take fun _ => ho.bind fun _ _ hx => .pure (.some ⟨rfl, hx⟩))
    (.pure .none)

omit h in
theorem lockstep_chain {level : ChainLevel} {operand : Parser Node}
    (ho : NodeInLockstep L operand) :
    NodeInLockstep L (chain level operand) := by
  refine .look fun ht => ho.bind fun _ _ hfirst => (InLockstep.many (lockstep_operation ho)).bind ?_
  intro more more' hmore
  have hsigns : more.map (·.1) = more'.map (·.1) := by
    induction hmore with
    | nil => rfl
    | cons hx _ ih => rw [List.map_cons, List.map_cons, hx.1, ih]
  have hoperands : Forall₂ L.Nodes (more.map (·.2)) (more'.map (·.2)) := by
    rw [List.forall₂_map_left_iff, List.forall₂_map_right_iff]
    exact hmore.imp fun _ _ hx => hx.2
  cases hmore with
  | nil => exact .pure hfirst
  | cons =>
      refine .make (.mk ht) ?_
      simp only [Form.map, numbered_list (.cons hfirst hoperands), hsigns]

theorem lockstep_chains : NodeInLockstep L (chains rules) :=
  lockstep_chain (lockstep_chain (lockstep_chain (lockstep_chain (lockstep_chain (lockstep_chain
    (lockstep_unary h))))))

theorem lockstep_ternary : NodeInLockstep L (ternary rules) := by
  refine .look fun ht => (lockstep_chains h).bind fun _ _ hc => .test ?_ (.pure hc)
  refine InLockstep.advance.bind fun _ _ _ => h.expression.bind fun _ _ hx =>
    (InLockstep.expectSymbol _).bind fun _ _ _ => h.expression.bind fun _ _ hy => .make (.mk ht) ?_
  simp only [Form.map, hc.numbered, hx.numbered, hy.numbered]

theorem lockstep_remark (verb : Verb) {start start' : Token} (ht : L.Tokens start start') :
    InLockstep L L.Nodes (remark rules verb start) (remark rules verb start') := by
  refine InLockstep.advance.bind fun _ _ _ => (lockstep_arguments h false).bind fun _ _ hs =>
    .look fun _ => .choose ?_ ?_
  · refine h.expression.bind fun _ _ hx => .make ht ?_
    simp only [Form.map, Option.map, numbered_list hs, hx.numbered]
  · refine .make ht ?_
    simp only [Form.map, Option.map, numbered_list hs]

theorem lockstep_expression : NodeInLockstep L (expression rules) := by
  refine .look fun ht => ?_
  dsimp only
  split
  · refine InLockstep.advance.bind fun _ _ _ => (lockstep_letAssignments h).bind fun _ _ hs =>
      h.expression.bind fun _ _ hx => .make (.mk ht) ?_
    simp only [Form.map, numbered_list hs, hx.numbered]
  · exact lockstep_remark h .assert (.mk ht)
  · exact lockstep_remark h .echo (.mk ht)
  · refine InLockstep.advance.bind fun _ _ _ => (lockstep_parameters h).bind fun _ _ hs =>
      h.expression.bind fun _ _ hx => .make (.mk ht) ?_
    simp only [Form.map, numbered_list hs, hx.numbered]
  · exact lockstep_ternary h

end

theorem lockstep_expressionRules (L : Link) (n : Nat) :
    ExpressionsInLockstep L (expressionRules n) := by
  induction n with
  | zero => exact ⟨.fail _, .fail _, .fail _⟩
  | succ n ih =>
      exact ⟨(lockstep_expression ih).nested, (lockstep_unary ih).nested,
      (lockstep_element ih).nested⟩

end Scad.Parse
