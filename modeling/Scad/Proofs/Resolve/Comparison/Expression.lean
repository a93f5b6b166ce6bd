import Scad.Proofs.Resolve.Comparison

/-! Two runs over an expression, with one lemma for each form. -/
namespace Scad.Resolve.Comparison

variable {M : Type} [AddMonoid M] {c : Comparison M}

/-- Both runs over a node go as the comparison says, whatever they take it for; and so they do over
each of the arguments that it may stand around. -/
structure Everywhere (c : Comparison M) (n : Node) : Prop where
  expression : ∀ pending scope, c.AsExpression n pending scope
  argument : ∀ callee scope, c.AsArgument callee scope n
  arguments : ∀ a ∈ n.children, ∀ callee scope, c.AsArgument callee scope a
  suffix : ∀ scope, c.AsSuffix scope n
  update : ∀ scope, c.AsUpdate scope n
  parameter : ∀ scope, c.AsParameter scope n
  assignment : ∀ scope, c.AsAssignment scope n

namespace Sound

variable (h : c.Sound)

include h

attribute [local simp] Node.children Node.form Form.children Form.fields Field.children

variable {info : Info} {f : Form Node} {n b : Node} {as ss ps us : List Node}
  {callee : Option Callee} {pending : Pending} {scope : Scope}

theorem compares_argument (he : ∀ e ∈ n.children, c.AsExpression e none scope) :
    c.AsArgument callee scope n := by
  intro hn
  obtain ⟨info, f⟩ := n
  rw [changed_mk]
  cases f with
  | argument l e =>
      have hvalue := he e (by simp) (h.child hn (by simp))
      by_cases hl : ∃ ni name, l = some ⟨ni, .argumentName name⟩
      · obtain ⟨ni, name, rfl⟩ := hl
        rw [Form.map, Option.map_some, changed_mk]
        refine hvalue.bind fun e' e'' x hx => (h.label callee ni name).bind fun ni' ni'' y hy =>
          .pure ?_
        rw [add_zero]
        exact hy hx
      · rw [Form.map, argument.eq_2 _ _ _ _ _ _ fun ni name hi => hl ⟨ni, name, hi⟩,
          argument.eq_2 _ _ _ _ _ _ fun ni name hi => label_changed hl ni name hi]
        refine hvalue.bind fun e' e'' x hx => .pure (h.unlabelled ?_ (h.node rfl rfl rfl ?_))
        · rintro ⟨_, ni, name, _, heq⟩
          exact hl ⟨ni, name, (Form.argument.inj (Node.mk.inj heq).2).1⟩
        · have hlabel : ∀ m ∈ l.toList, c.admits m :=
            fun m hm => h.child hn (by simp [Option.mem_toList.1 hm])
          have heach := (h.each_same hlabel).append (.single hx)
          rw [zero_add] at heach
          cases l <;> simpa using heach
  | _ =>
      have hsame := h.same hn
      rw [changed_mk] at hsame
      refine .pure (h.unlabelled ?_ hsame)
      rintro ⟨_, _, _, _, ⟨⟩⟩

theorem compares_suffix (ha : ∀ a ∈ n.children, c.AsArgument none scope a)
    (he : ∀ e ∈ n.children, c.AsExpression e none scope) : c.AsSuffix scope n := by
  intro hn
  obtain ⟨info, f⟩ := n
  cases f with
  | callSuffix as =>
      rw [changed_mk]
      refine (Tracking.Relates.mapM fun a hm => ha a (by simpa using hm)
        (h.child hn (by simpa using hm))).bind fun as' as'' x hx => .pure (h.node rfl rfl rfl ?_)
      simpa using hx
  | indexSuffix i =>
      rw [changed_mk]
      refine (he i (by simp) (h.child hn (by simp))).bind fun i' i'' x hx =>
        .pure (h.node rfl rfl rfl ?_)
      simpa using Each.single hx
  | _ => exact .pure (h.same hn)

theorem compares_update (he : ∀ e ∈ n.children, c.AsExpression e none scope) :
    c.AsUpdate scope n := by
  intro hn
  obtain ⟨info, f⟩ := n
  cases f with
  | loopUpdate t e =>
      obtain ⟨ti, tf⟩ := t
      cases tf with
      | variableRef name =>
          rw [changed_mk, Form.map, changed_mk]
          refine (h.reference .vars scope name ti).bind fun ti' ti'' x hx =>
            (he e (by simp) (h.child hn (by simp))).bind fun e' e'' y hy =>
              .pure (h.node rfl rfl rfl ?_)
          simpa using Each.cons (h.variableRef hx) (.single hy)
      | _ => exact .pure (h.same hn)
  | _ => exact .pure (h.same hn)

theorem compares_parameter (he : ∀ e ∈ n.children, c.AsExpression e none scope) :
    c.AsParameter scope n := by
  intro hn
  obtain ⟨info, f⟩ := n
  cases f with
  | parameter name d =>
      rw [changed_mk]
      refine (Tracking.Relates.option fun e hm => he e (by simp [Option.mem_def.1 hm])
        (h.child hn (by simp [Option.mem_def.1 hm]))).bind fun d' d'' x hx =>
        .pure (h.node rfl rfl rfl ?_)
      simpa using hx
  | _ => exact .pure (h.same hn)

theorem compares_assignment (he : ∀ e ∈ n.children, ∀ pending, c.AsExpression e pending scope) :
    c.AsAssignment scope n := by
  intro hn
  obtain ⟨info, f⟩ := n
  cases f with
  | assignment t e =>
      rw [changed_mk, Form.map, assignment, assignment, h.declared_changed]
      refine (he e (by simp) _ (h.child hn (by simp))).bind fun e' e'' x hx =>
        .pure (h.node rfl rfl rfl ?_)
      have heach := Each.cons (h.same (h.child hn (n := t) (by simp))) (.single hx)
      rw [zero_add] at heach
      simpa using heach
  | _ => exact .pure (h.same hn)

theorem compares_leaf (hf : f.kind.isLeaf) : c.AsExpression ⟨info, f⟩ pending scope := by
  intro hn
  rw [expression_leaf hf, changed_mk, expression_leaf (by rwa [Form.kind_map]), ← changed_mk]
  exact .pure (h.same hn)

theorem compares_plain (hf : f.kind.isPlain) (he : ∀ e ∈ f.children, c.AsExpression e none scope) :
    c.AsExpression ⟨info, f⟩ pending scope := by
  intro hn
  rw [expression_plain hf, changed_mk, expression_plain (by rwa [Form.kind_map])]
  refine (Tracking.Relates.traverse fun e hm => he e hm (h.child hn hm)).map fun f' f'' x hx => ?_
  exact h.node (Kind.isPassive_of_isPlain hf) hx.1 hx.2.1 hx.2.2

theorem compares_variableRef (name : String) :
    c.AsExpression ⟨info, .variableRef name⟩ pending scope := by
  intro _
  rw [changed_mk, Form.map, expression_variableRef, expression_variableRef]
  refine (h.reference .vars scope name info).bind fun i' i'' x hx => .pure ?_
  rw [add_zero]
  exact h.variableRef hx

theorem compares_bare (ti : Info) (name : String) :
    c.AsExpression ⟨info, .call ⟨ti, .variableRef name⟩ []⟩ pending scope := by
  intro hn
  have hsame := h.same hn
  rw [changed_mk, Form.map, changed_mk] at hsame ⊢
  refine (h.halt hn).bind fun _ _ x hx => .pure ?_
  rw [hx, add_zero]
  exact hsame

theorem compares_applied (ti si : Info) (name : String)
    (has : ∀ callee, ∀ a ∈ as, c.AsArgument callee scope a) (hss : ∀ s ∈ ss, c.AsSuffix scope s) :
    c.AsExpression ⟨info, .call ⟨ti, .variableRef name⟩ (⟨si, .callSuffix as⟩ :: ss)⟩
      pending scope := by
  intro hn
  have hsuffix : c.admits ⟨si, .callSuffix as⟩ := h.child hn (by simp)
  have hcallee := h.callee .functions scope name
  rw [changed_mk, Form.map, changed_mk, List.map_cons, changed_mk, Form.map, Form.map,
    expression_applied, expression_applied,
    show callee? c.second name (c.second.functionBinding scope name) = _ from hcallee]
  refine (h.reference .functions scope name ti).bind fun ti' ti'' x hx =>
    (Tracking.Relates.mapM fun a ha => has _ a ha (h.child hsuffix (by simpa using ha))).bind
      fun as' as'' y hy =>
      (Tracking.Relates.mapM fun s hs => hss s hs (h.child hn (by simp [hs]))).bind
        fun ss' ss'' z hz => .pure ?_
  rw [add_zero]
  exact h.applied hx hy hz

theorem compares_call {t : Node} (hi : Indirect t ss) (ht : c.AsExpression t none scope)
    (hss : ∀ s ∈ ss, c.AsSuffix scope s) : c.AsExpression ⟨info, .call t ss⟩ pending scope := by
  intro hn
  rw [changed_mk, Form.map, expression_call hi, expression_call (indirect_changed hi)]
  refine (ht (h.child hn (by simp))).bind fun t' t'' x hx =>
    (Tracking.Relates.mapM fun s hs => hss s hs (h.child hn (by simp [hs]))).bind
      fun ss' ss'' y hy => .pure ?_
  rw [add_zero]
  exact h.call hi (.cons hx hy)

theorem compares_letIn (has : ∀ scope, ∀ a ∈ as, c.AsAssignment scope a)
    (hb : ∀ scope, c.AsExpression b none scope) :
    c.AsExpression ⟨info, .letIn as b⟩ pending scope := by
  intro hn
  rw [changed_mk, Form.map, expression_letIn, expression_letIn,
    foldl_changed h.withVariable_changed]
  refine (Tracking.Relates.inTurn _ h.withVariable_changed
    (fun scope a ha => has scope a ha (h.child hn (by simp [ha]))) _).bind fun as' as'' x hx =>
      (hb _ (h.child hn (by simp))).bind fun b' b'' y hy => .pure (h.node rfl rfl rfl ?_)
  simpa using hx.append (.single hy)

theorem compares_functionLiteral (hps : ∀ p ∈ ps, c.AsParameter scope p)
    (hb : ∀ scope, c.AsExpression b none scope) :
    c.AsExpression ⟨info, .functionLiteral ps b⟩ pending scope := by
  intro hn
  rw [changed_mk, Form.map, expression_functionLiteral, expression_functionLiteral,
    foldl_changed h.withParameter_changed]
  refine (Tracking.Relates.mapM fun p hp => hps p hp (h.child hn (by simp [hp]))).bind
    fun ps' ps'' x hx =>
    (hb _ (h.child hn (by simp))).bind fun b' b'' y hy => .pure (h.node rfl rfl rfl ?_)
  simpa using hx.append (.single hy)

theorem compares_remark {verb : Verb} {o : Option Node} (has : ∀ a ∈ as, c.AsArgument none scope a)
    (ho : ∀ e ∈ o, c.AsExpression e none scope) :
    c.AsExpression ⟨info, .remark verb as o⟩ pending scope := by
  intro hn
  rw [changed_mk, Form.map, expression_remark, expression_remark]
  refine (Tracking.Relates.mapM fun a ha => has a ha (h.child hn (by simp [ha]))).bind
    fun as' as'' x hx =>
    (Tracking.Relates.option fun e he => ho e he (h.child hn (by simp [Option.mem_def.1 he]))).bind
      fun o' o'' y hy => .pure (h.node rfl rfl rfl ?_)
  simpa using hx.append hy

theorem compares_forElement {o : Option Node} (has : ∀ scope, ∀ a ∈ as, c.AsAssignment scope a)
    (ho : ∀ scope, ∀ e ∈ o, c.AsExpression e none scope)
    (hus : ∀ scope, ∀ u ∈ us, c.AsUpdate scope u) (hb : ∀ scope, c.AsExpression b none scope) :
    c.AsExpression ⟨info, .forElement as o us b⟩ pending scope := by
  intro hn
  rw [changed_mk, Form.map, expression_forElement, expression_forElement,
    foldl_changed h.withVariable_changed]
  refine (Tracking.Relates.inTurn _ h.withVariable_changed
    (fun scope a ha => has scope a ha (h.child hn (by simp [ha]))) _).bind fun as' as'' x hx =>
      (Tracking.Relates.option fun e he =>
        ho _ e he (h.child hn (by simp [Option.mem_def.1 he]))).bind
        fun o' o'' y hy =>
          (Tracking.Relates.mapM fun u hu => hus _ u hu (h.child hn (by simp [hu]))).bind
          fun us' us'' z hz => (hb _ (h.child hn (by simp))).bind fun b' b'' w hw =>
            .pure (h.node rfl rfl rfl ?_)
  simpa using hx.append (hy.append (hz.append (.single hw)))

/-- Whatever form a node has, it is enough to know of its children. -/
theorem compares_form (hf : ∀ m ∈ f.children, c.Everywhere m) (pending : Pending) (scope : Scope) :
    c.AsExpression ⟨info, f⟩ pending scope := by
  by_cases hleaf : f.kind.isLeaf
  · exact h.compares_leaf hleaf
  by_cases hplain : f.kind.isPlain
  · exact h.compares_plain hplain fun e he => (hf e he).expression none scope
  cases f with
  | variableRef name => exact h.compares_variableRef name
  | call t ss =>
      have hss : ∀ s ∈ ss, c.AsSuffix scope s := fun s hs => (hf s (by simp [hs])).suffix scope
      obtain hi | ⟨ti, name, rfl, rfl | ⟨si, as, rest, rfl⟩⟩ := indirect_or t ss
      · exact h.compares_call hi ((hf t (by simp)).expression none scope) hss
      · exact h.compares_bare ti name
      · refine h.compares_applied ti si name (fun callee a ha => ?_) fun s hs =>
          hss s (List.mem_cons_of_mem _ hs)
        exact (hf ⟨si, .callSuffix as⟩ (by simp)).arguments a (by simpa using ha) callee scope
  | letIn as b =>
      exact h.compares_letIn (fun scope a ha => (hf a (by simp [ha])).assignment scope)
        ((hf b (by simp)).expression none)
  | functionLiteral ps b =>
      exact h.compares_functionLiteral (fun p hp => (hf p (by simp [hp])).parameter scope)
        ((hf b (by simp)).expression none)
  | remark verb as o =>
      exact h.compares_remark (fun a ha => (hf a (by simp [ha])).argument none scope) fun e he =>
        (hf e (by simp [Option.mem_def.1 he])).expression none scope
  | forElement as o us b =>
      exact h.compares_forElement (fun scope a ha => (hf a (by simp [ha])).assignment scope)
        (fun scope e he => (hf e (by simp [Option.mem_def.1 he])).expression none scope)
        (fun scope u hu => (hf u (by simp [hu])).update scope) ((hf b (by simp)).expression none)
  | _ => first | exact absurd rfl hleaf | exact absurd rfl hplain

/-- By induction on the tree, the runs go as the comparison says. -/
theorem everywhere (n : Node) : c.Everywhere n := by
  induction n using Node.ofChildren with
  | h n ih =>
      have hexpression : ∀ m ∈ n.children, ∀ pending scope, c.AsExpression m pending scope :=
        fun m hm => (ih m hm).expression
      have hplain : ∀ scope, ∀ m ∈ n.children, c.AsExpression m none scope :=
        fun scope m hm => hexpression m hm none scope
      have harguments : ∀ a ∈ n.children, ∀ callee scope, c.AsArgument callee scope a :=
        fun a ha => (ih a ha).argument
      refine ⟨?_, fun _ scope => h.compares_argument (hplain scope), harguments,
        fun scope => h.compares_suffix (fun a ha => harguments a ha none scope) (hplain scope),
        fun scope => h.compares_update (hplain scope),
        fun scope => h.compares_parameter (hplain scope),
        fun scope => h.compares_assignment fun m hm pending => hexpression m hm pending scope⟩
      obtain ⟨info, f⟩ := n
      exact h.compares_form ih

theorem compares_expression (hn : c.admits n) (pending : Pending) (scope : Scope) :
    c.Relates (expression c.first n pending scope) (expression c.second (c.changed n) pending scope)
      (c.makes none n) :=
  (h.everywhere n).expression pending scope hn

theorem compares_arguments (has : ∀ a ∈ as, c.admits a) (callee : Option Callee) (scope : Scope) :
    c.Relates (arguments c.first as callee scope)
      (arguments c.second (as.map c.changed) callee scope) (Each (c.makes callee) as) := by
  rw [arguments_eq, arguments_eq]
  exact .mapM fun a ha => (h.everywhere a).argument callee scope (has a ha)

theorem compares_parameters (hps : ∀ p ∈ ps, c.admits p) (outer inner : Scope) :
    c.Relates (parameters c.first ps outer inner)
      (parameters c.second (ps.map c.changed) outer inner) (Scoped (Each (c.makes none) ps)) := by
  rw [parameters_eq, parameters_eq]
  exact (Tracking.Relates.mapM fun p hp => (h.everywhere p).parameter outer (hps p hp)).map
    fun _ _ _ hx => ⟨foldl_changed h.withParameter_changed ps inner, hx⟩

end Sound

end Scad.Resolve.Comparison
