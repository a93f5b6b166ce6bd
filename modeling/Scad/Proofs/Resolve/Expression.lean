import Scad.Proofs.Resolve.Parts
import Scad.Proofs.Resolve.Work
import Scad.Proofs.Tree.Shape

/-! Expressions are resolved as the rules say. -/
namespace Scad.Resolve

attribute [local simp] Node.children Form.children Form.fields Field.children Node.form

variable {env : Environment} {library : Frame} {v : View} {n : Node}

/-- The expressions among smaller trees are resolved. -/
def Ready (env : Environment) (library : Frame) (size : Nat) : Prop :=
  ∀ n, n.size < size → n.AllShaped .any → n.kind.isElement → Resolvable env library n

structure Inside (size : Nat) (n : Node) : Prop where
  small : n.size < size
  shaped : n.AllShaped .any

theorem Inside.of_mem {c : Node} (h : n.AllShaped .any) (hc : c ∈ n.children) : Inside n.size c :=
  ⟨Node.size_lt_of_mem_children hc, h.child hc⟩

theorem Inside.child {size : Nat} {c : Node} (h : Inside size n) (hc : c ∈ n.children) :
    Inside size c :=
  ⟨Nat.lt_trans (Node.size_lt_of_mem_children hc) h.small, h.shaped.child hc⟩

section

variable {size : Nat} (hr : Ready env library size) {scope : Scope}

include hr

theorem resolvable_of_isExpression (h : Inside size n) (hk : n.kind.isExpression) :
    Resolvable env library n := hr n h.small h.shaped (Kind.isElement_of_isExpression hk)

/-- The arguments of a call see the same. Their names are bound to parameters of the callee. -/
theorem returns_arguments (hm : Matches env library scope v) (name : String) {as : List Node}
    (has : ∀ a ∈ as, Inside size a ∧ a.kind = .argument) :
    Returns (arguments env as (v.role.ofLabel.callee?.bind (callee? env name)) scope)
      (ResolvedAll env library v.alike as) := by
  induction as with
  | nil => exact .pure (.nil rfl)
  | cons a as ih =>
      have ih := ih fun b hb => has b (List.mem_cons_of_mem _ hb)
      obtain ⟨ha, hk⟩ := has a (List.mem_cons_self ..)
      obtain ⟨info, form⟩ := a
      cases form <;> cases hk
      rename_i l e
      have he := resolvable_of_isExpression hr (ha.child (c := e) (by simp)) ha.shaped.self.2
      cases l with
      | none =>
          exact (he.plain hm).bind fun e' he' => ih.bind fun as' has' =>
            .pure (.alike
              (resolved_argument rfl (fun m hm => absurd hm (Option.not_mem_none m)) he') has')
      | some l =>
          obtain ⟨ni, lf⟩ := l
          have hl := ha.shaped.self.1 _ rfl
          cases lf <;> simp [Node.kind, Form.kind] at hl
          case variableDefinition other =>
            refine (he.plain hm).bind fun e' he' => ih.bind fun as' has' =>
              .pure (.alike (resolved_argument rfl ?_ he') has')
            rintro m ⟨⟩
            exact throughout_leaf trivial rfl
          case argumentName other =>
            refine (he.plain hm).bind fun e' he' => (Returns.bindArgument env _ name ni other).bind
              fun ni' hni => ih.bind fun as' has' =>
                .pure (.alike (resolved_argument ?_ ?_ he') has')
            · rw [hni]
              simp [Node.unbound_mk, Form.map]
            · rintro m ⟨⟩
              refine throughout_leaf ?_ rfl
              rw [hni]
              rfl

/-- Suffixes that do not apply to a plain name. -/
theorem returns_suffixes (hm : Matches env library scope v) {ss : List Node}
    (hss : ∀ s ∈ ss, Inside size s ∧ s.kind.isSuffix) :
    Returns (suffixes env ss scope) (ResolvedAll env library v.plain.alike ss) := by
  induction ss with
  | nil => exact .pure (.nil rfl)
  | cons s ss ih =>
      have ih := ih fun b hb => hss b (List.mem_cons_of_mem _ hb)
      obtain ⟨hs, hk⟩ := hss s (List.mem_cons_self ..)
      obtain ⟨info, form⟩ := s
      cases form <;> cases hk
      case cons.callSuffix.refl as =>
        refine (returns_arguments hr hm.plain "" fun a ha =>
          ⟨hs.child (by simpa using ha), ?_⟩).bind
          fun as' has' => ih.bind fun ss' hss' =>
            .pure (.alike ⟨?_, trivial, fun w m hm => ?_⟩ hss')
        · exact (hs.shaped.self a ha).kind
        · simp [Node.unbound_mk, Form.map, has'.unbound]
        · exact has'.bound w m hm
      case cons.indexSuffix.refl i =>
        have hi := resolvable_of_isExpression hr (hs.child (c := i) (by simp)) hs.shaped.self
        refine (hi.plain hm).bind fun i' hi' => ih.bind fun ss' hss' =>
          .pure (.alike ⟨?_, trivial, fun w m hm => ?_⟩ hss')
        · simp [Node.unbound_mk, Form.map, hi'.unbound]
        · obtain ⟨rfl, hmem⟩ := View.mem_alike hm
          cases List.mem_singleton.1 hmem
          exact hi'.bound
      case cons.memberSuffix.refl name =>
        exact ih.bind fun ss' hss' => .pure (.alike ⟨rfl, throughout_leaf trivial rfl⟩ hss')

/-- Each assignment sees the ones before it. -/
theorem returns_assignments (hm : Matches env library scope v) {as : List Node}
    (has : ∀ a ∈ as, Inside size a ∧ a.kind = .assignment) :
    Returns (assignments env as scope) fun r => ResolvedAll env library v.plain.inOrder as r.1 ∧
      Matches env library r.2 (v.seeing (as.filterMap Node.introduces?)) := by
  induction as generalizing v scope with
  | nil => exact .pure ⟨.nil rfl, hm.seeing_nil⟩
  | cons a as ih =>
      obtain ⟨ha, hk⟩ := has a (List.mem_cons_self ..)
      obtain ⟨info, form⟩ := a
      cases form <;> cases hk
      rename_i t e
      obtain ⟨ti, tf⟩ := t
      have ht := ha.shaped.self.1
      cases tf <;> cases ht
      rename_i name
      have he := resolvable_of_isExpression hr (ha.child (c := e) (by simp)) ha.shaped.self.2
      have hrest := ih (v := v.seeing [⟨.variableDef, name, ti.id⟩]) (hm.define _)
        fun b hb => has b (List.mem_cons_of_mem _ hb)
      refine (he (v.as (.value (some ⟨.variableDef, name, ti.id⟩))) scope (hm.as _) nofun).bind
        fun e' he' =>
        hrest.bind fun (as', inner) ⟨has', hinner⟩ =>
          .pure ⟨.inOrder (resolved_assignment he') has', ?_⟩
      rw [View.seeing_seeing] at hinner
      exact hinner

/-- Defaults are resolved outside; the parameters come into view inside. -/
theorem returns_parameters {inner : Scope} {w : View} (hm : Matches env library scope v)
    (hin : Matches env library inner w) {ps : List Node}
    (hps : ∀ p ∈ ps, Inside size p ∧ p.kind = .parameter) :
    Returns (parameters env ps scope inner) fun r => ResolvedAll env library v.plain.alike ps r.1 ∧
      Matches env library r.2 (w.seeing (ps.filterMap Node.declaration?)) := by
  induction ps generalizing w inner with
  | nil => exact .pure ⟨.nil rfl, hin.seeing_nil⟩
  | cons p ps ih =>
      obtain ⟨hp, hk⟩ := hps p (List.mem_cons_self ..)
      obtain ⟨info, form⟩ := p
      cases form <;> cases hk
      rename_i name d
      have hrest := ih (w := w.seeing [⟨.parameterDef, name, info.id⟩]) (hin.define _)
        fun q hq => hps q (List.mem_cons_of_mem _ hq)
      refine (returns_optional (fun c hc => resolvable_of_isExpression hr
        (hp.child (c := c) (by simpa using hc)) (hp.shaped.self c hc)) hm).bind fun d' hd' =>
        hrest.bind fun (ps', inner') ⟨hps', hinner⟩ =>
          .pure ⟨.alike ⟨?_, trivial, fun u m hm => ?_⟩ hps', ?_⟩
      · simp [Node.unbound_mk, Form.map, hd'.1]
      · obtain ⟨rfl, hmem⟩ := View.mem_alike hm
        exact hd'.2 m (by simpa using hmem)
      · rw [View.seeing_seeing] at hinner
        exact hinner

theorem returns_updates (hm : Matches env library scope v) {us : List Node}
    (hus : ∀ u ∈ us, Inside size u ∧ u.kind = .loopUpdate) :
    Returns (updates env us scope) (ResolvedAll env library v.plain.alike us) := by
  induction us with
  | nil => exact .pure (.nil rfl)
  | cons u us ih =>
      have ih := ih fun b hb => hus b (List.mem_cons_of_mem _ hb)
      obtain ⟨hu, hk⟩ := hus u (List.mem_cons_self ..)
      obtain ⟨info, form⟩ := u
      cases form <;> cases hk
      rename_i t e
      obtain ⟨ti, tf⟩ := t
      have ht := hu.shaped.self.1
      cases tf <;> cases ht
      rename_i name
      have he := resolvable_of_isExpression hr (hu.child (c := e) (by simp)) hu.shaped.self.2
      refine (Returns.bindReference ti name "variable" _).bind fun ti' hti =>
        (he.plain hm).bind fun e' he' =>
        ih.bind fun us' hus' => .pure (.alike ⟨?_, trivial, fun w m hm' => ?_⟩ hus')
      · rw [hti]
        simp [Node.unbound_mk, Form.map, he'.unbound]
      · obtain ⟨rfl, hmem⟩ := View.mem_alike hm'
        rcases List.mem_cons.1 hmem with rfl | hmem
        · refine throughout_leaf ?_ rfl
          rw [hti]
          exact congrArg some (variableBinding_eq hm name)
        · cases List.mem_singleton.1 hmem
          exact he'.bound

end

section

variable {info : Info} {scope : Scope}

theorem returns_letIn {as : List Node} {b : Node} {pending : Pending}
    (hr : Ready env library (Node.mk info (.letIn as b)).size)
    (hs : (Node.mk info (.letIn as b)).AllShaped .any) (hm : Matches env library scope v) :
    Returns (expression env ⟨info, .letIn as b⟩ pending scope)
      (Resolved env library v ⟨info, .letIn as b⟩) := by
  have hin := fun c hc => Inside.of_mem (n := ⟨info, .letIn as b⟩) hs (c := c) hc
  refine (returns_assignments hr hm.enter fun a ha => ⟨hin a (by simp [ha]), hs.self.1 a ha⟩).bind
    fun (as', inner) ⟨has', hinner⟩ => ?_
  have hb := hr b (hin b (by simp)).small (hs.child (by simp)) hs.self.2
  refine (hb.plain hinner).bind fun b' hb' => .pure ⟨?_, trivial, fun w m hm => ?_⟩
  · simp [Node.unbound_mk, Form.map, has'.unbound, hb'.unbound]
  · rcases List.mem_append.1 hm with hm | hm
    · exact has'.bound w m hm
    · cases List.mem_singleton.1 hm
      rw [filterMap_of_unbound introduces?_unbound has'.unbound]
      exact hb'.bound

theorem returns_forElement {as us : List Node} {c : Option Node} {b : Node} {pending : Pending}
    (hr : Ready env library (Node.mk info (.forElement as c us b)).size)
    (hs : (Node.mk info (.forElement as c us b)).AllShaped .any)
    (hm : Matches env library scope v) :
    Returns (expression env ⟨info, .forElement as c us b⟩ pending scope)
      (Resolved env library v ⟨info, .forElement as c us b⟩) := by
  have hin := fun d hd => Inside.of_mem (n := ⟨info, .forElement as c us b⟩) hs (c := d) hd
  obtain ⟨has, hc, hus, -, hb⟩ := hs.self
  refine (returns_assignments hr hm.enter fun a ha => ⟨hin a (by simp [ha]), has a ha⟩).bind
    fun (as', inner) ⟨has', hinner⟩ => ?_
  have hbody := hr b (hin b (by simp)).small (hs.child (by simp)) hb
  refine (returns_optional (fun d hd => resolvable_of_isExpression hr
      (hin d (by simp [Option.mem_def.1 hd])) (hc d hd)) hinner).bind fun c' hc' =>
    (returns_updates hr hinner fun u hu => ⟨hin u (by simp [hu]), hus u hu⟩).bind fun us' hus' =>
      (hbody.plain hinner).bind fun b' hb' => .pure ⟨?_, trivial, fun w m hm => ?_⟩
  · simp [Node.unbound_mk, Form.map, has'.unbound, hc'.1, hus'.unbound, hb'.unbound]
  · rcases List.mem_append.1 hm with hm | hm
    · exact has'.bound w m hm
    · obtain ⟨rfl, hmem⟩ := View.mem_alike hm
      rw [filterMap_of_unbound introduces?_unbound has'.unbound]
      rcases List.mem_append.1 hmem with hmem | hmem
      · rcases List.mem_append.1 hmem with hmem | hmem
        · exact hc'.2 m (Option.mem_toList.1 hmem)
        · exact hus'.mem m hmem
      · cases List.mem_singleton.1 hmem
        exact hb'.bound

/-- The variable that a literal is assigned to is in view in its body, before the parameters. -/
theorem open_hint (hm : Matches env library scope v) (role : Role) :
    Matches env library ((hint env role).open scope) (v.seeing role.assigned?.toList) := by
  unfold hint
  cases role.assigned? with
  | none => exact hm.seeing_nil
  | some d => exact hm.define d

theorem returns_functionLiteral {ps : List Node} {b : Node}
    (hr : Ready env library (Node.mk info (.functionLiteral ps b)).size)
    (hs : (Node.mk info (.functionLiteral ps b)).AllShaped .any)
    (hm : Matches env library scope v) :
    Returns (expression env ⟨info, .functionLiteral ps b⟩ (hint env v.role) scope)
      (Resolved env library v ⟨info, .functionLiteral ps b⟩) := by
  have hin := fun d hd => Inside.of_mem (n := ⟨info, .functionLiteral ps b⟩) hs (c := d) hd
  refine (returns_parameters hr hm (open_hint hm.enter v.role) fun p hp =>
    ⟨hin p (by simp [hp]), hs.self.1 p hp⟩).bind fun (ps', inner) ⟨hps', hinner⟩ => ?_
  rw [View.seeing_seeing] at hinner
  have hb := resolvable_of_isExpression hr (hin b (by simp)) hs.self.2
  refine (hb.plain hinner).bind fun b' hb' => .pure ⟨?_, trivial, fun w m hm => ?_⟩
  · simp [Node.unbound_mk, Form.map, hps'.unbound, hb'.unbound]
  · rcases List.mem_append.1 hm with hm | hm
    · exact hps'.bound w m hm
    · cases List.mem_singleton.1 hm
      rw [filterMap_of_unbound declaration?_unbound hps'.unbound]
      exact hb'.bound

theorem returns_remark {verb : Verb} {as : List Node} {b : Option Node} {pending : Pending}
    (hr : Ready env library (Node.mk info (.remark verb as b)).size)
    (hs : (Node.mk info (.remark verb as b)).AllShaped .any) (hm : Matches env library scope v) :
    Returns (expression env ⟨info, .remark verb as b⟩ pending scope)
      (Resolved env library v ⟨info, .remark verb as b⟩) := by
  have hin := fun d hd => Inside.of_mem (n := ⟨info, .remark verb as b⟩) hs (c := d) hd
  refine (returns_arguments hr hm.plain "" fun a ha => ⟨hin a (by simp [ha]),
    (hs.self.1 a ha).kind⟩).bind
    fun as' has' => (returns_optional (fun d hd => resolvable_of_isExpression hr
      (hin d (by simp [Option.mem_def.1 hd])) (hs.self.2 d hd)) hm).bind fun b' hb' =>
        .pure (resolved_of_children trivial rfl ?_ fun c hc => ?_)
  · simp [Form.map, has'.unbound, hb'.1]
  · rcases List.mem_append.1 hc with hc | hc
    · exact has'.mem c hc
    · exact hb'.2 c (by simpa using hc)

theorem appliesName_unbound (t s : Node) : t.unbound.appliesName s.unbound = t.appliesName s := by
  rw [Node.appliesName, Node.kind_unbound, Node.kind_unbound, Node.appliesName]

/-- A call that does not apply a plain name to arguments is resolved part by part. -/
theorem expression_call_other {t s : Node} {ss : List Node} {pending : Pending}
    (h : t.appliesName s = false) :
    expression env ⟨info, .call t (s :: ss)⟩ pending scope = (do
      let t ← expression env t none scope
      let ss ← suffixes env (s :: ss) scope
      return ⟨info, .call t ss⟩) := by
  obtain ⟨ti, tf⟩ := t
  obtain ⟨si, sf⟩ := s
  cases tf with
  | variableRef name =>
      cases sf with
      | callSuffix as => cases h
      | _ => rfl
  | _ => rfl

theorem returns_call {t : Node} {ss : List Node} {pending : Pending}
    (hr : Ready env library (Node.mk info (.call t ss)).size)
    (hs : (Node.mk info (.call t ss)).AllShaped .any) (hm : Matches env library scope v) :
    Returns (expression env ⟨info, .call t ss⟩ pending scope)
      (Resolved env library v ⟨info, .call t ss⟩) := by
  have hin := fun d hd => Inside.of_mem (n := ⟨info, .call t ss⟩) hs (c := d) hd
  obtain ⟨ht, hne, hss⟩ := hs.self
  cases ss with
  | nil => exact absurd rfl hne
  | cons s ss =>
      by_cases happ : t.appliesName s = true
      · obtain ⟨ti, tf⟩ := t
        obtain ⟨si, sf⟩ := s
        have hkinds := Bool.and_eq_true_iff.1 happ
        cases tf <;> cases of_decide_eq_true hkinds.1
        cases sf <;> cases of_decide_eq_true hkinds.2
        rename_i name as
        have hsuffix := hin ⟨si, .callSuffix as⟩ (by simp)
        refine (Returns.bindReference ti name "function" _).bind fun ti' hti => ?_
        refine (returns_arguments hr (hm.as (.passed (some _))) name fun a ha =>
          ⟨hsuffix.child (by simpa using ha), (hsuffix.shaped.self a ha).kind⟩).bind fun as' has' =>
            (returns_suffixes hr hm fun x hx => ⟨hin x (by simp [hx]),
              hss x (List.mem_cons_of_mem _ hx)⟩).bind
              fun ss' hss' => .pure ⟨?_, trivial, fun w m hm' => ?_⟩
        · rw [hti]
          simp [Node.unbound_mk, Form.map, has'.unbound, hss'.unbound]
        · rcases List.mem_cons.1 hm' with hm' | hm'
          · cases hm'
            refine throughout_leaf ?_ rfl
            rw [hti]
            exact congrArg some (functionBinding_eq hm name)
          · rcases List.mem_cons.1 hm' with hm' | hm'
            · cases hm'
              refine ⟨trivial, fun w m hm' => ?_⟩
              rw [hti] at hm'
              exact has'.bound w m hm'
            · exact hss'.bound w m hm'
      · have happ := eq_false_of_ne_true happ
        rw [expression_call_other happ]
        have htarget := resolvable_of_isExpression hr (hin t (by simp))
          (Kind.isExpression_of_tight (Nat.lt_of_lt_of_le (by decide) ht))
        refine (htarget.plain hm).bind fun t' ht' => (returns_suffixes hr hm fun x hx =>
          ⟨hin x (by simpa using Or.inr (List.mem_cons.1 hx)), hss x hx⟩).bind fun ss' hss' =>
            .pure ?_
        cases ss' with
        | nil => cases hss'.unbound
        | cons s' ss' =>
            have hs' := (List.cons.inj hss'.unbound).1
            refine resolved_of_children trivial ?_ ?_ fun c hc => ?_
            · have happ' : t'.appliesName s' = false := by
                rw [← appliesName_unbound, ht'.unbound, hs', appliesName_unbound, happ]
              simp [View.parts, happ']
            · rw [Form.map, Form.map, ht'.unbound, hss'.unbound]
            · have hc : c = t' ∨ c ∈ s' :: ss' := by simpa using hc
              rcases hc with rfl | hc
              · exact ht'.bound
              · exact hss'.mem c hc

end

/-! ### Expressions that are resolved child by child -/

section

variable {info : Info} {f : Form Node}

theorem parts_of_isPlain (hf : f.kind.isPlain) (hk : f.kind.isElement) :
    v.parts ⟨info, f⟩ = v.plain.alike f.children := by
  cases f <;> first | rfl | (cases hf; done) | cases hk

theorem bound_of_isPlain (hf : f.kind.isPlain) (hk : f.kind.isElement) :
    Bound env library v ⟨info, f⟩ := by
  cases f <;> trivial

theorem isElement_of_mem_children (hs : f.Shaped .any) (hf : f.kind.isPlain)
    (hk : f.kind.isElement) : ∀ c ∈ f.children, c.kind.isElement := by
  have hexpression : ∀ {k : Kind}, k.isExpression → k.isElement := Kind.isElement_of_isExpression
  have hoperand : ∀ {k : Kind} {t : Nat}, t < k.tightness → k.isElement :=
    fun ht => hexpression (Kind.isExpression_of_tight (Nat.zero_lt_of_lt ht))
  cases f with
  | paren e => simpa using hexpression hs
  | each b => simpa [Form.Shaped] using hs
  | unary op e => simpa using hoperand hs
  | vector es => simpa [Form.Shaped] using hs
  | chain level xs ops => simpa using fun x hx => hoperand (hs.2.2.2 x hx)
  | power b e => simpa using ⟨hoperand hs.1, hoperand hs.2⟩
  | ternary c t e => simpa using ⟨hoperand hs.1, hexpression hs.2.1, hexpression hs.2.2⟩
  | range a b s =>
      simpa using ⟨hs.1, hexpression hs.2.1, fun x hx => hexpression (hs.2.2 x hx)⟩
  | ifElement c t e => simpa using ⟨hexpression hs.1, hs.2.1, hs.2.2⟩
  | _ => first | (cases hf; done) | cases hk

variable {d : Field Node} {ds : List (Field Node)} {scope : Scope}

/-- A field whose nodes are resolved. -/
structure ResolvedField (env : Environment) (library : Frame) (v : View) (d d' : Field Node) :
    Prop where
  unbound : d'.map Node.unbound = d.map Node.unbound
  bound : ∀ c ∈ d'.children, Throughout (Bound env library) v.plain c

theorem returns_field (hm : Matches env library scope v)
    (hc : ∀ c ∈ d.children, Resolvable env library c) :
    Returns (d.traverse fun c => expression env c none scope) (ResolvedField env library v d) := by
  cases d with
  | node c =>
      refine ((hc c (List.mem_singleton_self c)).plain hm).map fun c' hc' => ⟨?_, ?_⟩
      · exact congrArg Field.node hc'.unbound
      · intro m hmem
        exact List.mem_singleton.1 hmem ▸ hc'.bound
  | optional o =>
      have ho := returns_optional (fun c hmem => hc c (Option.mem_toList.2 hmem)) hm
      rw [optional_eq] at ho
      refine ho.map fun o' ho' => ⟨congrArg Field.optional ho'.1, fun m hmem => ?_⟩
      exact ho'.2 m (Option.mem_toList.1 hmem)
  | nodes cs =>
      have hcs := returns_expressions hc hm
      rw [expressions_eq] at hcs
      exact hcs.map fun cs' hcs' => ⟨congrArg Field.nodes hcs'.unbound, hcs'.mem⟩
  | _ => exact .pure ⟨rfl, fun m hmem => absurd hmem List.not_mem_nil⟩

theorem returns_fields (hm : Matches env library scope v)
    (hc : ∀ c ∈ ds.flatMap Field.children, Resolvable env library c) :
    Returns (ds.mapM (Field.traverse fun c => expression env c none scope)) fun ds' =>
      ds'.map (Field.map Node.unbound) = ds.map (Field.map Node.unbound) ∧
        ∀ c ∈ ds'.flatMap Field.children, Throughout (Bound env library) v.plain c := by
  induction ds with
  | nil => exact .pure ⟨rfl, fun c hmem => absurd hmem List.not_mem_nil⟩
  | cons d ds ih =>
      rw [List.flatMap_cons, List.forall_mem_append] at hc
      rw [List.mapM_cons]
      refine (returns_field hm hc.1).bind fun d' hd => (ih hc.2).bind fun ds' hds =>
        .pure ⟨?_, ?_⟩
      · rw [List.map_cons, hd.unbound, hds.1, List.map_cons]
      · rw [List.flatMap_cons, List.forall_mem_append]
        exact ⟨hd.bound, hds.2⟩

/-- Where all children see what the form around them sees, they are resolved one by one. -/
theorem resolvable_of_isPlain (hf : f.kind.isPlain) (hk : f.kind.isElement)
    (hc : ∀ c ∈ f.children, Resolvable env library c) : Resolvable env library ⟨info, f⟩ := by
  intro v scope hm _ p hp
  have hfields := returns_fields hm hc
  rw [← Form.fields_traverse] at hfields
  obtain ⟨hp', hunbound, hbound⟩ := hfields p hp
  have hkind := Form.kind_run_traverse (fun c => expression env c none scope) f p
  rw [expression_plain hf]
  refine ⟨hp', resolved_of_children (bound_of_isPlain (hkind ▸ hf) (hkind ▸ hk))
    (parts_of_isPlain (hkind ▸ hf) (hkind ▸ hk)) (Form.ext_fields ?_ ?_) hbound⟩
  · rw [Form.kind_map, Form.kind_map]
    exact hkind
  · rw [Form.fields_map, Form.fields_map]
    exact hunbound

end

/-- Every shaped expression or vector element is resolved in every scope. -/
theorem resolvable (hs : n.AllShaped .any) (hk : n.kind.isElement) : Resolvable env library n := by
  induction hsize : n.size using Nat.strongRecOn generalizing n with
  | ind size ih =>
      subst hsize
      have hr : Ready env library n.size := fun m hm hs hk => ih m.size hm hs hk rfl
      obtain ⟨info, form⟩ := n
      by_cases hplain : form.kind.isPlain
      · refine resolvable_of_isPlain hplain hk fun c hc => ?_
        have hin := Inside.of_mem hs hc
        exact hr c hin.small hin.shaped (isElement_of_mem_children hs.self hplain hk c hc)
      intro v scope hm hcalled
      cases form with
      | number | string | boolean | undefined => exact .pure ⟨rfl, throughout_leaf trivial rfl⟩
      | variableRef name =>
          refine (Returns.bindReference info name "variable" _).bind fun info' hinfo =>
            .pure ⟨?_, ?_⟩
          · rw [hinfo]
            simp [Node.unbound_mk]
          · refine throughout_leaf ?_ rfl
            rw [hinfo]
            refine congrArg some ?_
            rw [if_neg hcalled]
            exact variableBinding_eq hm name
      | call t ss => exact returns_call hr hs hm
      | letIn as b => exact returns_letIn hr hs hm
      | functionLiteral ps b => exact returns_functionLiteral hr hs hm
      | remark verb as b => exact returns_remark hr hs hm
      | forElement as c us b => exact returns_forElement hr hs hm
      | _ => first | exact absurd rfl hplain | cases hk

end Scad.Resolve
