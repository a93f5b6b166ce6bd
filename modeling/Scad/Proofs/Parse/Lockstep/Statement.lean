import Scad.Proofs.Parse.Lockstep.Expression

/-! Statements that are read side by side. A statement that is abandoned is abandoned on both sides,
and the same tokens are skipped. -/
namespace Scad.Parse

open List (Forall₂)
open Link (numbered_list numbered_option)

variable {L : Link}

structure StatementsInLockstep (L : Link) (deeper : StatementRules) : Prop where
  block : NodesInLockstep L deeper.block
  instantiation : NodeInLockstep L deeper.instantiation

abbrev OptionInLockstep (L : Link) (p : Parser (Option Node)) : Prop :=
  InLockstep L (Option.Rel L.Nodes) p p

theorem lockstep_closeBlock (opening : Nat) :
    InLockstep L anyValues (closeBlock opening) (closeBlock opening) := by
  refine InLockstep.place.bind ?_
  rintro closing _ rfl
  refine (InLockstep.expect _).bind ?_
  rintro _ _ (_ | _)
  · exact .note .block
  · exact .pure trivial

theorem lockstep_mark : InLockstep L (Option.Rel Eq) mark? mark? := by
  refine .look fun _ => ?_
  dsimp only
  split
  · exact InLockstep.advance.bind fun _ _ _ => .pure (.some rfl)
  · exact .pure .none

theorem skipStatement_abreast {ts ts' : List Token} (hts : Forall₂ L.Tokens ts ts') (depth : Nat)
    {previous previous' : Token} (hp : L.Tokens previous previous') :
    L.Tokens (skipStatement depth previous ts).1 (skipStatement depth previous' ts').1 ∧
      Forall₂ L.Tokens (skipStatement depth previous ts).2
        (skipStatement depth previous' ts').2 := by
  induction hts generalizing depth previous previous' with
  | nil => exact ⟨hp, .nil⟩
  | @cons t t' ts ts' ht hts ih =>
      obtain ⟨hspan⟩ := ht
      simp only [skipStatement]
      split
      · exact ⟨.mk hspan, hts⟩
      · split
        · exact ih _ (.mk hspan)
        · split
          · split
            · exact ⟨hp, .cons (.mk hspan) hts⟩
            · split
              · exact ⟨.mk hspan, hts⟩
              · exact ih _ (.mk hspan)
          · exact ih _ (.mk hspan)

theorem lockstep_synchronize : InLockstep L anyValues synchronize synchronize := by
  intro src src' s s' hsrc hs
  obtain ⟨hprevious, hrest⟩ := skipStatement_abreast hs.rest 0 hs.previous
  have hposition : s.position + (s.rest.length - (skipStatement 0 s.previous s.rest).2.length) =
      s'.position + (s'.rest.length - (skipStatement 0 s'.previous s'.rest).2.length) := by
    rw [hs.position, hs.rest.length_eq, hrest.length_eq]
  refine ⟨trivial,
    { hs with rest := hrest, previous := hprevious, position := hposition, events := ?_ }⟩
  rw [Array.toList_push, Array.toList_push]
  refine List.rel_append hs.events (.cons ?_ .nil)
  show L.Events (.recovered _ _ _ (s.position + _)) _
  rw [hposition, hs.position]
  exact .recovered (InLockstep.head hsrc hs.rest).spans (InLockstep.head hsrc hrest).spans

theorem lockstep_recovering {p : Parser (Option Node)} (hp : OptionInLockstep L p) :
    OptionInLockstep L (recovering p) := by
  intro src src' s s' hsrc hs
  have ho := hp src src' s s' hsrc hs
  have hskip : OptionInLockstep L (do synchronize; return none) :=
    lockstep_synchronize.bind fun _ _ _ => .pure .none
  unfold recovering
  cases hr : p src s <;> cases hr' : p src' s' <;> rw [hr, hr'] at ho <;> try exact ho.elim
  case abandoned.abandoned t t' => exact hskip src src' t t' hsrc ho
  all_goals exact ho

section Statements

variable {deeper : StatementRules} (hd : StatementsInLockstep L deeper) {rules : ExpressionRules}
  (h : ExpressionsInLockstep L rules)

section

include hd

theorem lockstep_block : NodeInLockstep L (block deeper) := by
  refine .look fun ht => InLockstep.place.bind ?_
  rintro opening _ rfl
  refine hd.block.bind fun _ _ hs => (lockstep_closeBlock opening).bind fun _ _ _ =>
    .make (.mk ht) ?_
  simp only [Form.map, numbered_list hs]

theorem lockstep_child : NodeInLockstep L (child deeper) := by
  refine .look fun ht => ?_
  dsimp only
  split
  · exact InLockstep.advance.bind fun _ _ _ => .make (.mk ht) rfl
  · exact lockstep_block hd
  · exact hd.instantiation

include h

theorem lockstep_moduleCall {start start' : Token} (ht : L.Tokens start start') :
    InLockstep L L.Nodes (moduleCall deeper rules start) (moduleCall deeper rules start') := by
  obtain ⟨ht⟩ := ht
  refine InLockstep.advance.bind fun _ _ _ => (InLockstep.make (.mk ht) rfl).bind fun _ _ hn =>
    (lockstep_arguments h _).bind fun _ _ hs => (InLockstep.make (.mk ht) ?_).bind fun _ _ hhead =>
      (lockstep_child hd).bind fun _ _ hx => .make (.mk ht) ?_
  · simp only [Form.map, hn.numbered, numbered_list hs]
  · simp only [Form.map, hhead.numbered, hx.numbered]

theorem lockstep_moduleRemark (verb : Verb) {start start' : Token} (ht : L.Tokens start start') :
    InLockstep L L.Nodes (moduleRemark deeper rules verb start)
      (moduleRemark deeper rules verb start') := by
  refine InLockstep.advance.bind fun _ _ _ => (lockstep_arguments h _).bind fun _ _ hs =>
    (lockstep_child hd).bind fun _ _ hx => .make ht ?_
  simp only [Form.map, numbered_list hs, hx.numbered]

theorem lockstep_payload : NodeInLockstep L (payload deeper rules) := by
  refine .look fun ht => ?_
  dsimp only
  split
  · refine InLockstep.advance.bind fun _ _ _ => (InLockstep.expectSymbol _).bind fun _ _ _ =>
      h.expression.bind fun _ _ hc => (InLockstep.expectSymbol _).bind fun _ _ _ =>
        (lockstep_child hd).bind fun _ _ hx =>
          (lockstep_elseBranch (lockstep_child hd)).bind fun _ _ hy => .make (.mk ht) ?_
    simp only [Form.map, hc.numbered, hx.numbered, numbered_option hy]
  · exact lockstep_moduleRemark hd h _ (.mk ht)
  · exact lockstep_moduleRemark hd h _ (.mk ht)
  · exact lockstep_moduleCall hd h (.mk ht)
  · exact lockstep_moduleCall hd h (.mk ht)
  · exact lockstep_moduleCall hd h (.mk ht)
  · exact lockstep_moduleCall hd h (.mk ht)
  · exact .fail _

theorem lockstep_instantiation : NodeInLockstep L (instantiation deeper rules) := by
  refine .look fun ht => (InLockstep.many lockstep_mark).bind fun marks marks' hmarks =>
    (lockstep_payload hd h).bind fun _ _ hx => .make (.mk ht) ?_
  rw [List.forall₂_eq_eq_eq] at hmarks
  simp only [Form.map, hmarks, hx.numbered]

end

section

include h

theorem lockstep_functionDefinition : NodeInLockstep L (functionDefinition rules) := by
  refine .take fun ht => InLockstep.identifier.bind ?_
  rintro name _ rfl
  refine (lockstep_parameters h).bind fun _ _ hs => (InLockstep.expectSymbol _).bind fun _ _ _ =>
    h.expression.bind fun _ _ hx => (InLockstep.expectSymbol _).bind fun _ _ _ => .make (.mk ht) ?_
  simp only [Form.map, numbered_list hs, hx.numbered]

theorem lockstep_assignmentStatement : NodeInLockstep L (assignmentStatement rules) := by
  refine (lockstep_assignmentParts h).bind fun _ _ hparts =>
    (InLockstep.expectSymbol _).bind fun _ _ _ =>
    .make hparts.1 ?_
  simp only [Form.map, hparts.2.1.numbered, hparts.2.2.numbered]

end

structure Link.Headers (L : Link) (a b : ModuleHeader) : Prop where
  start : L.Tokens a.start b.start
  name : a.name = b.name
  parameters : Forall₂ L.Nodes a.parameters b.parameters

theorem lockstep_moduleHeader (h : ExpressionsInLockstep L rules) :
    InLockstep L (Option.Rel L.Headers) (moduleHeader? rules) (moduleHeader? rules) := by
  refine .test (.take fun ht => InLockstep.identifier.bind ?_) (.pure .none)
  rintro name _ rfl
  exact (lockstep_parameters h).bind fun _ _ hs => .pure (.some ⟨.mk ht, rfl, hs⟩)

theorem lockstep_wrapModules {body body' : Node} (hbody : L.Nodes body body')
    {headers headers' : List ModuleHeader} (hs : Forall₂ L.Headers headers headers') :
    InLockstep L L.Nodes (wrapModules body headers) (wrapModules body' headers') := by
  induction hs with
  | nil => exact .pure hbody
  | cons hh _ ih =>
      refine ih.bind fun _ _ hx => .make hh.start ?_
      simp only [Form.map, hh.name, numbered_list hh.parameters, hx.numbered]

theorem lockstep_fileReference (inclusion : Inclusion) :
    OptionInLockstep L (fileReference inclusion) := by
  refine .take fun hstart => .look fun ht => .choose ?_ ?_
  · exact InLockstep.advance.bind fun _ _ _ => (InLockstep.make (.mk hstart) rfl).bind fun _ _ hx =>
      .pure (.some hx)
  · exact (InLockstep.report ht).bind fun _ _ _ => .pure .none

omit hd h in
theorem lockstep_giving {p p' : Parser Node} (hp : InLockstep L L.Nodes p p') :
    InLockstep L (Option.Rel L.Nodes) (return some (← p)) (return some (← p')) :=
  hp.bind fun _ _ hx => .pure (.some hx)

include hd h

theorem lockstep_plainStatement : OptionInLockstep L (plainStatement deeper rules) := by
  refine .look fun ht => ?_
  dsimp only
  split
  · exact InLockstep.advance.bind fun _ _ _ => (InLockstep.make (.mk ht) rfl).bind fun _ _ hx =>
      .pure (.some hx)
  · exact lockstep_giving (lockstep_block hd)
  · exact lockstep_giving (lockstep_functionDefinition h)
  · exact lockstep_fileReference _
  · exact lockstep_fileReference _
  · refine InLockstep.peek.bind ?_
    rintro _ _ ⟨-⟩
    exact .choose (lockstep_giving (lockstep_assignmentStatement h))
      (lockstep_giving (lockstep_instantiation hd h))
  · exact lockstep_giving (lockstep_instantiation hd h)

theorem lockstep_statement : OptionInLockstep L (statement deeper rules) := by
  refine (InLockstep.many (lockstep_moduleHeader h)).bind fun headers headers' hheaders =>
    (lockstep_plainStatement hd h).bind fun body body' hbody => ?_
  cases hheaders with
  | nil => exact .pure hbody
  | cons hh hs =>
      have hall := Forall₂.cons hh hs
      cases hbody with
      | some hx => exact lockstep_giving (lockstep_wrapModules hx hall)
      | none =>
          exact .look fun ht => (InLockstep.make (.mk ht) rfl).bind fun _ _ hx =>
            lockstep_giving (lockstep_wrapModules hx hall)

theorem lockstep_statementStep (inBlock : Bool) :
    InLockstep L (Option.Rel (Option.Rel L.Nodes)) (statementStep deeper rules inBlock)
      (statementStep deeper rules inBlock) := by
  refine .look fun ht => ?_
  dsimp only
  split
  · exact .pure .none
  · refine .choose (.pure .none) (InLockstep.place.bind ?_)
    rintro place _ rfl
    exact (InLockstep.note .discarded).bind fun _ _ _ => .take fun ha =>
      (InLockstep.report ha).bind fun _ _ _ => .pure (.some .none)
  · exact (lockstep_recovering (lockstep_statement hd h)).bind fun _ _ hx => .pure (.some hx)

theorem lockstep_statements (inBlock : Bool) :
    NodesInLockstep L (statements deeper rules inBlock) := by
  refine (InLockstep.many (lockstep_statementStep hd h inBlock)).bind fun found found' hfound =>
    .pure ?_
  induction hfound with
  | nil => exact .nil
  | cons hx _ ih =>
      cases hx with
      | none => exact ih
      | some hx => exact .cons hx ih

theorem lockstep_blockBody : NodesInLockstep L (blockBody deeper rules) :=
  InLockstep.advance.bind fun _ _ _ => lockstep_statements hd h true

end Statements

theorem lockstep_statementRules (L : Link) (n : Nat) :
    StatementsInLockstep L (statementRules n) := by
  induction n with
  | zero => exact ⟨.fail _, .fail _⟩
  | succ n ih =>
      have hrules := lockstep_expressionRules L n
      exact ⟨(lockstep_blockBody ih hrules).nested, (lockstep_instantiation ih hrules).nested⟩

theorem lockstep_program (L : Link) : NodesInLockstep L program :=
  lockstep_statements (lockstep_statementRules L _) (lockstep_expressionRules L _) false

end Scad.Parse
