import Scad.Proofs.Render.Expression

/-! Whatever was read at some depth is read again from its text, at the same depth or with more
levels left. -/
namespace Scad

open Lexeme (Delimited Closed)
open Grammar

attribute [local simp] Form.children Form.fields Field.children

/-- From lawful tokens, phrases of printable nodes leave lawful tokens behind, and their nodes have
a text of a kind. -/
def Rereads (P : Phrase Node) (Q : Node → TokenKind → Prop) : Prop :=
  ∀ ⦃ts x rest⦄, P ts x rest → TextsMatchKinds ts → x.AllPrintable → TextsMatchKinds rest ∧
    Q x (nextKind ts)

/-- What is read with the levels `inner` left can be read again with `outer` left. -/
structure Converts (inner outer : Level) : Prop where
  ifEnd : ∀ {ts}, NearestElse ts → outer.ifEnd ts
  expression : Rereads inner.expression (Shows Closed outer.expression)
  unary : Rereads inner.unary (Shows Closed outer.unary)
  element : Rereads inner.element fun x _ =>
    Lays Closed x.render fun ts rest => OwnsElses outer.element ts x rest
  /-- Without the parentheses around it, an element is read one level further out. -/
  raised : Rereads inner.element fun x _ =>
    Lays Closed x.render fun ts rest => OwnsElses (Element outer) ts x rest

theorem Grammar.Commas.textsMatchKinds {ts rest : List Token} (h : Commas ts rest)
    (hl : TextsMatchKinds ts) :
    TextsMatchKinds rest := by
  induction h with
  | one _ => exact hl.tail
  | more _ _ ih => exact ih hl.tail

theorem Rereads.listed {P : Phrase Node} {Q : Node → TokenKind → Prop} (h : Rereads P Q)
    {ts rest : List Token} {as : List Node} (hp : Listed P ts as rest) (hl : TextsMatchKinds ts)
    (hg : ∀ a ∈ as, a.AllPrintable) : TextsMatchKinds rest ∧ ∀ a ∈ as, ∃ k, Q a k := by
  induction hp with
  | none => exact ⟨hl, fun a ha => by cases ha⟩
  | one ha =>
      obtain ⟨hrest, hq⟩ := h ha hl (hg _ (List.mem_cons_self ..))
      refine ⟨hrest, fun b hb => ?_⟩
      cases List.mem_singleton.1 hb
      exact ⟨_, hq⟩
  | more ha hc _ ih =>
      obtain ⟨hmid, hq⟩ := h ha hl (hg _ (List.mem_cons_self ..))
      obtain ⟨hrest, hqs⟩ := ih (hc.textsMatchKinds hmid) fun b hb =>
        hg b (List.mem_cons_of_mem _ hb)
      refine ⟨hrest, fun b hb => ?_⟩
      rcases List.mem_cons.1 hb with rfl | hb
      · exact ⟨_, hq⟩
      · exact hqs b hb

namespace Grammar

theorem symbol_of_isSign {k : TokenKind} (h : Parse.isSign k) : ∃ s, k = .symbol s := by
  simp only [Parse.isSign, Bool.or_eq_true, decide_eq_true_eq] at h
  rcases h with (rfl | rfl) | rfl <;> exact ⟨_, rfl⟩

theorem symbol_of_isOperator {level : ChainLevel} {k : TokenKind} (h : Parse.isOperator level k) :
    ∃ s, k = .symbol s := by
  obtain ⟨s, -, hs⟩ := List.any_eq_true.1 h
  exact ⟨s, of_decide_eq_true hs⟩

theorem Operations.rereads {level : ChainLevel} {P Q : Phrase Node} (h : Rereads P (Shows Closed Q))
    {ts rest : List Token} {more : List (String × Node)}
    (hm : Repeated (Operation level P) ts more rest) (hl : TextsMatchKinds ts)
    (hg : ∀ y ∈ more.map (·.2), y.AllPrintable) : TextsMatchKinds rest ∧
      ∀ m ∈ more, (∃ s, m.1 = Symbol.text s ∧ Parse.isOperator level (.symbol s)) ∧
        Lays Closed m.2.render fun ts rest => Q ts m.2 rest := by
  induction hm with
  | nil => exact ⟨hl, fun m hm => by cases hm⟩
  | cons ho _ ih =>
      obtain ⟨hk, hy⟩ := ho
      rename_i k _ _
      obtain ⟨s, hks⟩ := symbol_of_isOperator hk
      have htext := hl.symbol hks
      obtain ⟨hmid, hs⟩ := h hy hl.tail (hg _ (by simp))
      obtain ⟨hrest, hms⟩ := ih hmid fun y hy => hg y (List.mem_cons_of_mem _ hy)
      refine ⟨hrest, fun m hm => ?_⟩
      rcases List.mem_cons.1 hm with rfl | hm
      · exact ⟨⟨s, htext, hks ▸ hk⟩, hs.lays⟩
      · exact hms m hm

section Expressions

variable {inner outer : Level} (h : Converts inner outer)

include h

theorem Value.rereads :
    Rereads (Value inner) fun e _ => ∃ k, Shows Closed outer.expression e k := by
  intro ts e rest hv hl hg
  obtain ⟨-, he⟩ := hv
  obtain ⟨hrest, hs⟩ := h.expression he hl.tail hg
  exact ⟨hrest, _, hs⟩

theorem Argument.rereads (declares : Bool) : Rereads (Argument inner declares) fun a _ =>
    Lays Closed a.render fun ts rest => Argument outer declares ts a rest := by
  intro ts a rest ha hl hg
  cases ha with
  | named hk hv =>
      obtain ⟨hrest, k, he⟩ := Value.rereads h hv hl.tail (hg.child (by simp))
      exact ⟨hrest, lays_argument_named (hk ▸ hl.head) he⟩
  | unnamed he =>
      obtain ⟨hrest, he⟩ := h.expression he hl (hg.child (by simp))
      exact ⟨hrest, lays_argument_unnamed he⟩

theorem Arguments.rereads {declares : Bool} {ts rest : List Token} {as : List Node}
    (ha : Arguments inner declares ts as rest) (hl : TextsMatchKinds ts)
    (hg : ∀ a ∈ as, a.AllPrintable) : TextsMatchKinds rest ∧
      ∀ a ∈ as, Lays Closed a.render fun ts rest => Argument outer declares ts a rest := by
  obtain ⟨-, has, -⟩ := ha
  obtain ⟨hrest, has⟩ := (Argument.rereads h declares).listed has hl.tail hg
  exact ⟨hrest.tail, fun a ha => (has a ha).elim fun _ hq => hq⟩

theorem Parameter.rereads : Rereads (Parameter inner) fun p _ =>
    Lays Closed p.render fun ts rest => Parameter outer ts p rest := by
  intro ts p rest hp hl hg
  cases hp with
  | required hk => exact ⟨hl.tail, lays_parameter_required (hk ▸ hl.head)⟩
  | optional hk hv =>
      obtain ⟨hrest, k, he⟩ := Value.rereads h hv hl.tail (hg.child (by simp))
      exact ⟨hrest, lays_parameter_optional (hk ▸ hl.head) he⟩

theorem Parameters.rereads {ts rest : List Token} {ps : List Node}
    (hp : Parameters inner ts ps rest) (hl : TextsMatchKinds ts) (hg : ∀ p ∈ ps, p.AllPrintable) :
    TextsMatchKinds rest ∧ ∀ p ∈ ps, Lays Closed p.render fun ts rest =>
      Parameter outer ts p rest := by
  obtain ⟨-, hps, -⟩ := hp
  obtain ⟨hrest, hps⟩ := (Parameter.rereads h).listed hps hl.tail hg
  exact ⟨hrest.tail, fun p hp => (hps p hp).elim fun _ hq => hq⟩

theorem Assignment.rereads : Rereads (Assignment inner) fun a _ =>
    Lays Closed (renderClause a) fun ts rest => Assignment outer ts a rest := by
  intro ts a rest ha hl hg
  obtain ⟨hk, hv⟩ := ha
  obtain ⟨hrest, k, he⟩ := Value.rereads h hv hl.tail (hg.child (by simp))
  exact ⟨hrest, lays_assignment (hk ▸ hl.head) he⟩

theorem Assignments.rereads {ts rest : List Token} {as : List Node}
    (ha : Listed (Assignment inner) ts as rest) (hl : TextsMatchKinds ts)
    (hg : ∀ a ∈ as, a.AllPrintable) : TextsMatchKinds rest ∧
      ∀ a ∈ as, Lays Closed (renderClause a) fun ts rest => Assignment outer ts a rest := by
  obtain ⟨hrest, has⟩ := (Assignment.rereads h).listed ha hl hg
  exact ⟨hrest, fun a ha => (has a ha).elim fun _ hq => hq⟩

theorem Update.rereads : Rereads (Update inner) fun u _ =>
    Lays Closed u.render fun ts rest => Update outer ts u rest := by
  intro ts u rest hu hl hg
  obtain ⟨hk, hv⟩ := hu
  obtain ⟨hrest, k, he⟩ := Value.rereads h hv hl.tail (hg.child (by simp))
  exact ⟨hrest, lays_update (hk ▸ hl.head) he⟩

theorem Condition.rereads {ts rest : List Token} {c : Node} (hc : Condition inner ts c rest)
    (hl : TextsMatchKinds ts) (hg : c.AllPrintable) :
    TextsMatchKinds rest ∧ ∃ k, Shows Closed outer.expression c k := by
  obtain ⟨-, hc, -⟩ := hc
  obtain ⟨hrest, hs⟩ := h.expression hc hl.tail hg
  exact ⟨hrest.tail, _, hs⟩

theorem Suffix.rereads : Rereads (Suffix inner) fun s _ => ShowsSuffix outer s := by
  intro ts s rest hs hl hg
  cases hs with
  | call ha =>
      obtain ⟨hrest, has⟩ := Arguments.rereads h ha hl fun a ha => hg.child (by simpa using ha)
      exact ⟨hrest, showsSuffix_call has⟩
  | index he =>
      obtain ⟨-, he, -⟩ := he
      obtain ⟨hrest, he⟩ := h.expression he hl.tail (hg.child (by simp))
      exact ⟨hrest.tail, showsSuffix_index he⟩
  | member _ hm =>
      refine ⟨hl.tail.tail, showsSuffix_member (hm ▸ hl.tail.head) fun c hc => ?_⟩
      exact hg.self.member _ c rfl hc

theorem Suffixes.rereads {ts rest : List Token} {ss : List Node}
    (hs : Repeated (Suffix inner) ts ss rest) (hl : TextsMatchKinds ts)
    (hg : ∀ s ∈ ss, s.AllPrintable) :
    TextsMatchKinds rest ∧ ∀ s ∈ ss, ShowsSuffix outer s := by
  induction hs with
  | nil => exact ⟨hl, fun s hs => by cases hs⟩
  | cons hs _ ih =>
      obtain ⟨hmid, hq⟩ := Suffix.rereads h hs hl (hg _ (List.mem_cons_self ..))
      obtain ⟨hrest, hqs⟩ := ih hmid fun s hs => hg s (List.mem_cons_of_mem _ hs)
      refine ⟨hrest, fun s hs => ?_⟩
      rcases List.mem_cons.1 hs with rfl | hs
      · exact hq
      · exact hqs s hs

/-- What the parentheses of a group keep together stands apart without them. -/
theorem Element.rereads : Rereads (Element inner) fun x _ =>
    Lays Closed x.render fun ts rest => OwnsElses (Element outer) ts x rest := by
  intro ts x rest hx hl hg
  cases hx with
  | loop _ hh hb =>
      obtain ⟨-, hh, -⟩ := hh
      cases hh with
      | plain has =>
          obtain ⟨hmid, has⟩ := Assignments.rereads h has hl.tail.tail fun a ha =>
            hg.child (by simp [ha])
          obtain ⟨hrest, hb⟩ := h.element hb hmid.tail (hg.child (by simp))
          exact ⟨hrest, lays_loop has hb⟩
      | counted has hc hs hus =>
          obtain ⟨hmid, hcas⟩ := Assignments.rereads h has hl.tail.tail fun a ha =>
            hg.child (by simp [ha])
          obtain ⟨-, hc⟩ := hc
          obtain ⟨hnext, hcc⟩ := h.expression hc hmid.tail (hg.child (by simp))
          obtain ⟨hlast, hcus⟩ := (Update.rereads h).listed hus hnext.tail fun u hu =>
            hg.child (by simp [hu])
          obtain ⟨hrest, hcb⟩ := h.element hb hlast.tail (hg.child (by simp))
          exact ⟨hrest, lays_countedLoop hcas hcc (fun u hu => (hcus u hu).elim fun _ hq => hq) hcb⟩
  | each _ hb =>
      obtain ⟨hrest, hb⟩ := h.element hb hl.tail (hg.child (by simp))
      exact ⟨hrest, lays_each hb⟩
  | ifThen _ hc ht _ =>
      obtain ⟨hmid, k, hc⟩ := Condition.rereads h hc hl.tail (hg.child (by simp))
      obtain ⟨hrest, ht⟩ := h.element ht hmid (hg.child (by simp))
      exact ⟨hrest, lays_ifThen h.ifEnd hc ht⟩
  | ifElse _ hc ht he =>
      obtain ⟨hmid, k, hcc⟩ := Condition.rereads h hc hl.tail (hg.child (by simp))
      obtain ⟨hnext, hct⟩ := h.element ht hmid (hg.child (by simp))
      obtain ⟨-, he⟩ := he
      obtain ⟨hrest, hce⟩ := h.element he hnext.tail (hg.child (by simp))
      exact ⟨hrest, lays_ifElse hg.self hcc hct hce⟩
  | letIn _ has hb =>
      obtain ⟨-, has, -⟩ := has
      obtain ⟨hmid, has⟩ := Assignments.rereads h has hl.tail.tail fun a ha =>
        hg.child (by simp [ha])
      obtain ⟨hrest, hb⟩ := h.element hb hmid.tail (hg.child (by simp))
      exact ⟨hrest, lays_let has hb⟩
  | group hx _ =>
      obtain ⟨-, hx, -⟩ := hx
      obtain ⟨hrest, -⟩ := h.element hx hl.tail hg
      exact ⟨hrest.tail, (h.raised hx hl.tail hg).2⟩
  | plain hx hk =>
      obtain ⟨hrest, hx⟩ := h.expression hx hl hg
      exact ⟨hrest, lays_plain hx hk⟩

theorem Elements.rereads {ts rest : List Token} {es : List Node}
    (he : Listed (Element inner) ts es rest) (hl : TextsMatchKinds ts)
    (hg : ∀ e ∈ es, e.AllPrintable) :
    TextsMatchKinds rest ∧
      ∀ e ∈ es, Lays Closed e.render fun ts rest => OwnsElses (Element outer) ts e rest := by
  obtain ⟨hrest, hes⟩ := (Element.rereads h).listed he hl hg
  exact ⟨hrest, fun e he => (hes e he).elim fun _ hq => hq⟩

theorem Primary.rereads : Rereads (Primary inner) fun x k =>
    Shows (FollowsPrimary x) (Primary outer) x k := by
  have hmono : ∀ {x k}, Shows Delimited (Primary outer) x k →
      Shows (FollowsPrimary x) (Primary outer) x k := fun hs => hs.weaken fun hcs => hcs.1
  intro ts x rest hp hl hg
  cases hp with
  | paren he =>
      obtain ⟨hk, he, -⟩ := he
      obtain ⟨hrest, hs⟩ := h.expression he hl.tail (hg.child (by simp))
      exact ⟨hrest.tail, .at_head hk (hmono (shows_paren hs))⟩
  | vector hes hu =>
      obtain ⟨hk, hes, -⟩ := hes
      obtain ⟨hrest, hs⟩ := Elements.rereads h hes hl.tail fun e he => hg.child (by simpa using he)
      exact ⟨hrest.tail, .at_head hk (hmono (shows_vector hs hu))⟩
  | range hr hgen =>
      obtain ⟨hk, hr, -⟩ := hr
      cases hr with
      | ends ha hb =>
          obtain ⟨hmid, hsa⟩ := Element.rereads h ha hl.tail (hg.child (by simp))
          obtain ⟨-, hb⟩ := hb
          obtain ⟨hrest, hsb⟩ := h.expression hb hmid.tail (hg.child (by simp))
          exact ⟨hrest.tail, .at_head hk (hmono (shows_ends hgen hsa hsb))⟩
      | stepped ha hs hb =>
          obtain ⟨hmid, hsa⟩ := Element.rereads h ha hl.tail (hg.child (by simp))
          obtain ⟨-, hs⟩ := hs
          obtain ⟨hnext, hss⟩ := h.expression hs hmid.tail (hg.child (by simp))
          obtain ⟨-, hb⟩ := hb
          obtain ⟨hrest, hsb⟩ := h.expression hb hnext.tail (hg.child (by simp))
          exact ⟨hrest.tail, .at_head hk (hmono (shows_stepped hgen hsa hss hsb))⟩
  | true hk => exact ⟨hl.tail, .at_head hk (hmono shows_true)⟩
  | false hk => exact ⟨hl.tail, .at_head hk (hmono shows_false)⟩
  | undef hk => exact ⟨hl.tail, .at_head hk (hmono shows_undef)⟩
  | number hk hx =>
      exact ⟨hl.tail, .at_head hk (shows_number (hk ▸ hl.head) hx (hg.self.finite _ rfl))⟩
  | string hk => exact ⟨hl.tail, .at_head hk (hmono (shows_string (hk ▸ hl.head)))⟩
  | reference hk => exact ⟨hl.tail, .at_head hk (hmono (shows_reference (hk ▸ hl.head)))⟩

theorem Suffixed.rereads : Rereads (Suffixed inner) (Shows Closed (Suffixed outer)) := by
  intro ts x rest hx hl hg
  cases hx with
  | plain hx =>
      obtain ⟨hrest, hs⟩ := Primary.rereads h hx hl hg
      exact ⟨hrest, (hs.weaken fun hcs => hcs.followsPrimary x).mono .plain⟩
  | call hx hss hne =>
      obtain ⟨hmid, hs⟩ := Primary.rereads h hx hl (hg.child (by simp))
      obtain ⟨hrest, hsuffixes⟩ := Suffixes.rereads h hss hmid fun s hs => hg.child (by simp [hs])
      exact ⟨hrest, shows_call hs hsuffixes hne hg.self⟩

theorem Power.rereads : Rereads (Power inner) (Shows Closed (Power outer)) := by
  intro ts x rest hx hl hg
  cases hx with
  | plain hx =>
      obtain ⟨hrest, hs⟩ := Suffixed.rereads h hx hl hg
      exact ⟨hrest, hs.mono .plain⟩
  | raised hb he =>
      obtain ⟨hmid, hsb⟩ := Suffixed.rereads h hb hl (hg.child (by simp))
      obtain ⟨-, he⟩ := he
      obtain ⟨hrest, hse⟩ := h.unary he hmid.tail (hg.child (by simp))
      exact ⟨hrest, shows_power hsb hse⟩

theorem Unary.rereads : Rereads (Unary inner) (Shows Closed (Unary outer)) := by
  intro ts x rest hx hl hg
  cases hx with
  | plain hx =>
      obtain ⟨hrest, hs⟩ := Power.rereads h hx hl hg
      exact ⟨hrest, hs.mono .plain⟩
  | @sign k _ _ _ _ hk he =>
      obtain ⟨hrest, hs⟩ := h.unary he hl.tail (hg.child (by simp))
      obtain ⟨s, hks⟩ := symbol_of_isSign hk
      have htext := hl.symbol hks
      rw [htext]
      exact ⟨hrest, .at_head hks (shows_sign (hks ▸ hk) hs)⟩

omit h in
theorem Chain.rereads {level : ChainLevel} {P Q : Phrase Node} (h : Rereads P (Shows Closed Q)) :
    Rereads (Chain level P) (Shows Closed (Chain level Q)) := by
  intro ts x rest hx hl hg
  cases hx with
  | single hx =>
      obtain ⟨hrest, hs⟩ := h hx hl hg
      exact ⟨hrest, hs.mono .single⟩
  | several hx hm hne =>
      obtain ⟨hmid, hs⟩ := h hx hl (hg.child (by simp))
      obtain ⟨hrest, hms⟩ := Operations.rereads h hm hmid fun m hm => hg.child (by simp [hm])
      exact ⟨hrest, shows_chain hs hms hne⟩

theorem Chains.rereads : Rereads (Chains inner) (Shows Closed (Chains outer)) :=
  Chain.rereads <| Chain.rereads <| Chain.rereads <| Chain.rereads <| Chain.rereads <|
    Chain.rereads <| Unary.rereads h

theorem Ternary.rereads : Rereads (Ternary inner) (Shows Closed (Ternary outer)) := by
  intro ts x rest hx hl hg
  cases hx with
  | plain hx =>
      obtain ⟨hrest, hs⟩ := Chains.rereads h hx hl hg
      exact ⟨hrest, hs.mono .plain⟩
  | choice hc ht he =>
      obtain ⟨hmid, hsc⟩ := Chains.rereads h hc hl (hg.child (by simp))
      obtain ⟨-, ht⟩ := ht
      obtain ⟨hnext, hst⟩ := h.expression ht hmid.tail (hg.child (by simp))
      obtain ⟨-, he⟩ := he
      obtain ⟨hrest, hse⟩ := h.expression he hnext.tail (hg.child (by simp))
      exact ⟨hrest, shows_ternary hsc hst hse⟩

theorem Expression.rereads : Rereads (Expression inner) (Shows Closed (Expression outer)) := by
  intro ts x rest hx hl hg
  cases hx with
  | letIn hk has hb =>
      obtain ⟨-, has, -⟩ := has
      obtain ⟨hmid, hsas⟩ := Assignments.rereads h has hl.tail.tail fun a ha =>
        hg.child (by simp [ha])
      obtain ⟨hrest, hsb⟩ := h.expression hb hmid.tail (hg.child (by simp))
      exact ⟨hrest, .at_head hk (shows_let hsas hsb)⟩
  | remark hk has =>
      obtain ⟨hrest, hsas⟩ := Arguments.rereads h has hl.tail fun a ha => hg.child (by simp [ha])
      exact ⟨hrest, .at_head hk (shows_remark hsas)⟩
  | remarkOn hk has hb =>
      obtain ⟨hmid, hsas⟩ := Arguments.rereads h has hl.tail fun a ha => hg.child (by simp [ha])
      obtain ⟨hrest, hsb⟩ := h.expression hb hmid (hg.child (by simp))
      exact ⟨hrest, .at_head hk (shows_remarkOn hsas hsb)⟩
  | functionLiteral hk hps hb =>
      obtain ⟨hmid, hsps⟩ := Parameters.rereads h hps hl.tail fun p hp => hg.child (by simp [hp])
      obtain ⟨hrest, hsb⟩ := h.expression hb hmid (hg.child (by simp))
      exact ⟨hrest, .at_head hk (shows_functionLiteral hsps hsb)⟩
  | ternary ht =>
      obtain ⟨hrest, hs⟩ := Ternary.rereads h ht hl hg
      exact ⟨hrest, hs.mono .ternary⟩

end Expressions

end Grammar

end Scad
