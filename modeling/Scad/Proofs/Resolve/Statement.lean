import Scad.Proofs.Resolve.Expression

/-! Statements are resolved as the rules say, and the scope behind a statement shows what it
declares. -/
namespace Scad.Resolve

attribute [local simp] Node.children Form.children Form.fields Field.children Node.form

variable {env : Environment} {library : Frame} {v : View} {n : Node} {scope : Scope}
  {info : Info} {size : Nat}

theorem ready : Ready env library size := fun _ _ hs hk => resolvable hs hk

theorem resolvable_of_inside (h : Inside size n) (hk : n.kind.isExpression) :
    Resolvable env library n :=
  resolvable_of_isExpression ready h hk

/-- The arguments of a module that declares variables: each sees those of the ones before it. -/
theorem returns_declaringArguments (hm : Matches env library scope v) {as : List Node}
    (has : ∀ a ∈ as, Inside size a ∧ a.kind = .argument) :
    Returns (declaringArguments env as scope) fun r =>
      ResolvedAll env library v.plain.inOrder as r.1 ∧
      Matches env library r.2 (v.seeing (as.filterMap Node.introduces?)) := by
  induction as generalizing v scope with
  | nil => exact .pure ⟨.nil rfl, hm.seeing_nil⟩
  | cons a as ih =>
      obtain ⟨ha, hk⟩ := has a (List.mem_cons_self ..)
      have hrest := fun b hb => has b (List.mem_cons_of_mem a hb)
      obtain ⟨info, form⟩ := a
      cases form <;> cases hk
      rename_i l e
      have he : Resolvable env library e :=
        resolvable_of_inside (ha.child (by simp)) ha.shaped.self.2
      cases l with
      | none =>
          refine (he.plain hm).bind fun e' he' => (ih hm.seeing_nil hrest).bind
            fun r hr => .pure ⟨.inOrder (resolved_argument rfl ?_ he') hr.1, ?_⟩
          · exact fun m hm => absurd hm (Option.not_mem_none m)
          · have hinner := hr.2
            rw [View.seeing_seeing] at hinner
            exact hinner
      | some l =>
          obtain ⟨ni, lf⟩ := l
          have hl := ha.shaped.self.1 _ rfl
          cases lf <;> simp [Node.kind, Form.kind] at hl
          case variableDefinition other =>
            refine (he.plain hm).bind fun e' he' =>
              (ih (hm.define ⟨.variableDef, other, ni.id⟩) hrest).bind
              fun r hr => .pure ⟨.inOrder (resolved_argument rfl ?_ he') hr.1, ?_⟩
            · rintro m ⟨⟩
              exact throughout_leaf trivial rfl
            · have hinner := hr.2
              rw [View.seeing_seeing] at hinner
              exact hinner
          case argumentName other =>
            refine (he.plain hm).bind fun e' he' =>
              (Returns.assign ni .unresolved).bind fun ni' hni =>
              (ih hm.seeing_nil hrest).bind fun r hr =>
                .pure ⟨.inOrder (resolved_argument ?_ ?_ he') hr.1, ?_⟩
            · rw [hni]
              simp [Node.unbound_mk, Form.map]
            · rintro m ⟨⟩
              refine throughout_leaf ?_ rfl
              rw [hni]
              rfl
            · have hinner := hr.2
              rw [View.seeing_seeing] at hinner
              exact hinner

theorem headVariables_unbound (n : Node) : n.unbound.headVariables = n.headVariables := by
  obtain ⟨i, f⟩ := n
  rw [Node.unbound_mk]
  cases f with
  | moduleHead m as =>
      have hp : m.unbound.isPseudo = m.isPseudo := by
        obtain ⟨j, g⟩ := m
        rw [Node.unbound_mk]
        cases g <;> rfl
      show (if m.unbound.isPseudo then (as.map Node.unbound).filterMap Node.introduces? else []) = _
      rw [hp, filterMap_unbound introduces?_unbound]
      rfl
  | _ => rfl

/-- The head of a module call, and the scope of its child. -/
theorem returns_moduleHead (hi : Info) (hm : Matches env library scope v) {mi : Info}
    {name : String} {as : List Node} (has : ∀ a ∈ as, Inside size a ∧ a.kind = .argument) :
    Returns (moduleHead env name mi as scope) fun r =>
      Resolved env library v.plain ⟨hi, .moduleHead ⟨mi, .moduleName name⟩ as⟩
        ⟨hi, .moduleHead ⟨r.1, .moduleName name⟩ r.2.1⟩ ∧
      Matches env library r.2.2
        (v.seeing (Node.mk hi (.moduleHead ⟨mi, .moduleName name⟩ as)).headVariables) := by
  unfold moduleHead
  split
  · rename_i hp
    have hpseudo : ∀ i : Info, (Node.mk i (.moduleName name)).isPseudo = true :=
      fun _ => decide_eq_true hp
    refine (Returns.assign mi .builtin).bind fun mi' hmi =>
      (returns_declaringArguments hm.enter has).bind
      fun r hr => .pure ⟨⟨?_, trivial, fun w m hm => ?_⟩, ?_⟩
    · rw [hmi]
      simp [Node.unbound_mk, Form.map, hr.1.unbound]
    · rcases List.mem_cons.1 hm with hm | hm
      · cases hm
        refine throughout_leaf ?_ rfl
        rw [hmi]
        exact congrArg some (if_pos hp).symm
      · rw [if_pos (hpseudo mi')] at hm
        exact hr.1.bound w m hm
    · have hvars : (Node.mk hi (.moduleHead ⟨mi, .moduleName name⟩ as)).headVariables =
          as.filterMap Node.introduces? := if_pos (hpseudo mi)
      rw [hvars]
      exact hr.2
  · rename_i hp
    have hpseudo : ∀ i : Info, ¬ (Node.mk i (.moduleName name)).isPseudo = true :=
      fun _ h => hp (of_decide_eq_true h)
    refine (Returns.bindReference mi name "module" _).bind fun mi' hmi => (returns_arguments ready
      (hm.as (.passed (some _))) name has).bind fun as' has' =>
      .pure ⟨⟨?_, trivial, fun w m hm' => ?_⟩, ?_⟩
    · rw [hmi]
      simp [Node.unbound_mk, Form.map, has'.unbound]
    · rcases List.mem_cons.1 hm' with hm' | hm'
      · cases hm'
        refine throughout_leaf ?_ rfl
        rw [hmi]
        refine congrArg some ?_
        rw [if_neg hp]
        exact moduleBinding_eq hm name
      · rw [if_neg (hpseudo mi'), hmi] at hm'
        exact has'.bound w m hm'
    · have hvars : (Node.mk hi (.moduleHead ⟨mi, .moduleName name⟩ as)).headVariables = [] :=
        if_neg (hpseudo mi)
      rw [hvars]
      exact hm.seeing_nil

def ResolvableStatement (env : Environment) (library : Frame) (n : Node) : Prop :=
  ∀ v scope, Matches env library scope v → Returns (statement env n scope) fun r =>
    Resolved env library v.plain n r.1 ∧ Matches env library r.2 (v.seeing n.introduces?.toList)

/-- A statement list: each statement sees the variables of the ones before it. -/
theorem returns_statements (hm : Matches env library scope v) {ss : List Node}
    (hss : ∀ s ∈ ss, ResolvableStatement env library s) :
    Returns (statements env ss scope) fun r => ResolvedAll env library v.plain.inOrder ss r.1 := by
  induction ss generalizing v scope with
  | nil => exact .pure (.nil rfl)
  | cons s ss ih =>
      exact (hss s (List.mem_cons_self ..) v scope hm).bind fun _ hs' =>
        (ih hs'.2 fun t ht => hss t (List.mem_cons_of_mem _ ht)).bind fun _ hss' =>
          .pure (.inOrder hs'.1 hss')

/-- The child of an instantiation stands in a scope of its own, to which it brings no definition. -/
theorem returns_child {c : Node} (hc : ResolvableStatement env library c) (hk : c.kind.isChild)
    (hm : Matches env library scope v) :
    Returns (statement env c (hoist env scope.enter c)) fun r =>
      Resolved env library v.plain c r.1 := by
  have hhoist : hoist env scope.enter c = scope.enter := by
    obtain ⟨info, form⟩ := c
    cases form <;> first | rfl | cases hk
  rw [hhoist]
  exact (hc v _ hm.enter).mono fun _ h => h.1

def ReadyStatements (env : Environment) (library : Frame) (size : Nat) : Prop :=
  ∀ n, Inside size n → n.kind.isStatement → ResolvableStatement env library n

section

variable (hr : ReadyStatements env library size)

include hr

theorem returns_inside {c : Node} (hc : Inside size c) (hk : c.kind.isChild)
    (hm : Matches env library scope v) :
    Returns (statement env c (hoist env scope.enter c)) fun r =>
      Resolved env library v.plain c r.1 :=
  returns_child (hr c hc (Kind.isStatement_of_isChild hk)) hk hm

theorem returns_instantiation {ms : NameSet} {p : Node} (hp : Inside size p) (hk : p.kind.isPayload)
    (hm : Matches env library scope v) :
    Returns (statement env ⟨info, .instantiation ms p⟩ scope) fun r =>
      Resolved env library v.plain ⟨info, .instantiation ms p⟩ r.1 ∧ r.2 = scope := by
  have hinst : ∀ {p'}, Resolved env library v.plain p p' →
      Resolved env library v.plain ⟨info, .instantiation ms p⟩ ⟨info, .instantiation ms p'⟩ := by
    intro p' hp'
    refine resolved_of_children trivial rfl ?_ ?_
    · rw [Form.map, Form.map, hp'.unbound]
    · intro c hc
      cases List.mem_singleton.1 hc
      exact hp'.bound
  obtain ⟨pi, form⟩ := p
  have hshape := hp.shaped.self
  cases form <;> try cases hk
  case moduleCall h c =>
    obtain ⟨hi, hf⟩ := h
    have hhead : Inside size ⟨hi, hf⟩ := hp.child (by simp)
    cases hf <;> cases hshape.1
    rename_i m as
    obtain ⟨name, declares, hname, -, has⟩ := hhead.shaped.self
    obtain ⟨mi, mf⟩ := m
    cases hname
    refine (returns_moduleHead hi hm fun a ha => ⟨hhead.child (by simp [ha]), (has a ha).kind⟩).bind
      fun _ hh => (returns_inside hr (hp.child (by simp)) hshape.2 hh.2).bind fun _ hc => .pure
        ⟨hinst ⟨?_, trivial, fun w m hm => ?_⟩, rfl⟩
    · rw [Node.unbound_mk, Node.unbound_mk, Form.map, Form.map, hh.1.unbound, hc.unbound]
    · rcases List.mem_cons.1 hm with hm | hm
      · cases hm
        exact hh.1.bound
      · cases List.mem_singleton.1 hm
        rw [← headVariables_unbound, hh.1.unbound, headVariables_unbound]
        exact hc.bound
  case moduleRemark verb as c =>
    refine (returns_arguments ready hm.plain "" fun a ha => ⟨hp.child (by simp [ha]),
      (hshape.1 a ha).kind⟩).bind
      fun as' has' => (returns_inside hr (hp.child (by simp)) hshape.2 hm).bind fun _ hc =>
        .pure ⟨hinst (resolved_of_children trivial rfl ?_ ?_), rfl⟩
    · simp [Form.map, has'.unbound, hc.unbound]
    · intro x hx
      rcases List.mem_append.1 hx with hx | hx
      · exact has'.mem x hx
      · cases List.mem_singleton.1 hx
        exact hc.bound
  case moduleIf c t e =>
    have hcondition : Resolvable env library c := resolvable_of_inside (hp.child (by simp)) hshape.1
    cases e with
    | none =>
        refine (hcondition.plain hm).bind fun c' hc =>
          (returns_inside hr (hp.child (by simp)) hshape.2.1 hm).bind
          fun t' ht => .pure ⟨hinst (resolved_of_children trivial rfl ?_ ?_), rfl⟩
        · simp [Form.map, hc.unbound, ht.unbound]
        · intro x hx
          have hx : x = c' ∨ x = t'.1 := by simpa using hx
          rcases hx with rfl | rfl
          · exact hc.bound
          · exact ht.bound
    | some e =>
        refine (hcondition.plain hm).bind fun c' hc =>
          (returns_inside hr (hp.child (by simp)) hshape.2.1 hm).bind
          fun t' ht => (returns_inside hr (hp.child (by simp)) (hshape.2.2 e rfl) hm).bind
            fun e' he =>
            .pure ⟨hinst (resolved_of_children trivial rfl ?_ ?_), rfl⟩
        · simp [Form.map, hc.unbound, ht.unbound, he.unbound]
        · intro x hx
          have hx : x = c' ∨ x = t'.1 ∨ x = e'.1 := by simpa using hx
          rcases hx with rfl | rfl | rfl
          · exact hc.bound
          · exact ht.bound
          · exact he.bound

end

/-- Every shaped statement is resolved in every scope. -/
theorem resolvable_statement (hs : n.AllShaped .any) (hk : n.kind.isStatement) :
    ResolvableStatement env library n := by
  induction hsize : n.size using Nat.strongRecOn generalizing n with
  | ind size ih =>
      subst hsize
      have hr : ReadyStatements env library n.size :=
        fun m hm hk => ih m.size hm.small hm.shaped hk rfl
      have hin := fun d hd => Inside.of_mem (n := n) hs (c := d) hd
      intro v scope hm
      obtain ⟨info, form⟩ := n
      have hshape := hs.self
      cases form with
      | empty => exact .pure ⟨⟨rfl, throughout_leaf trivial rfl⟩, hm.seeing_nil⟩
      | fileReference => exact .pure ⟨⟨rfl, throughout_leaf trivial rfl⟩, hm.seeing_nil⟩
      | instantiation ms p =>
          refine (returns_instantiation hr (hin p (by simp)) hshape hm).mono fun r h => ⟨h.1, ?_⟩
          rw [h.2]
          exact hm.seeing_nil
      | assignment t e =>
          obtain ⟨ti, tf⟩ := t
          cases tf <;> cases hshape.1
          rename_i name
          have he : Resolvable env library e := resolvable_of_inside (hin e (by simp)) hshape.2
          exact (he (v.as (.value (some ⟨.variableDef, name, ti.id⟩))) scope (hm.as _) nofun).bind
            fun e' he' =>
            .pure ⟨resolved_assignment he', hm.define ⟨.variableDef, name, ti.id⟩⟩
      | block ss =>
          refine (returns_statements (hm.enter.within ss) fun s hs => hr s (hin s (by simp [hs]))
            (hshape s hs)).bind fun r hss' => .pure ⟨⟨?_, trivial, fun w m hm => ?_⟩, hm.seeing_nil⟩
          · simp [Node.unbound_mk, Form.map, hss'.unbound]
          · refine hss'.bound w m ?_
            have hw : v.plain.within r.1 = v.within ss := by
              rw [View.within, filterMap_of_unbound declaration?_unbound hss'.unbound]
              rfl
            rw [View.parts] at hm
            simp only [Node.form, hw] at hm
            exact hm
      | functionDefinition name ps e =>
          have he : Resolvable env library e := resolvable_of_inside (hin e (by simp)) hshape.2
          refine (returns_parameters ready hm hm.enter fun p hp =>
            ⟨hin p (by simp [hp]), hshape.1 p hp⟩).bind
            fun _ hps' => (he.plain hps'.2).bind fun e' he' =>
              .pure ⟨⟨?_, trivial, fun w m hm => ?_⟩, hm.seeing_nil⟩
          · simp [Node.unbound_mk, Form.map, hps'.1.unbound, he'.unbound]
          · rcases List.mem_append.1 hm with hm | hm
            · exact hps'.1.bound w m hm
            · cases List.mem_singleton.1 hm
              rw [filterMap_of_unbound declaration?_unbound hps'.1.unbound]
              exact he'.bound
      | moduleDefinition name ps b =>
          refine (returns_parameters ready hm hm.enter fun p hp =>
            ⟨hin p (by simp [hp]), hshape.1 p hp⟩).bind
            fun _ hps' => (hr b (hin b (by simp)) hshape.2 _ _ (hps'.2.within [b])).bind
              fun b' hb' => .pure ⟨⟨?_, trivial, fun w m hm => ?_⟩, hm.seeing_nil⟩
          · simp [Node.unbound_mk, Form.map, hps'.1.unbound, hb'.1.unbound]
          · rcases List.mem_append.1 hm with hm | hm
            · exact hps'.1.bound w m hm
            · cases List.mem_singleton.1 hm
              have hb : [b'.1].map Node.unbound = [b].map Node.unbound := by simp [hb'.1.unbound]
              rw [filterMap_of_unbound declaration?_unbound hps'.1.unbound, View.within,
                filterMap_of_unbound declaration?_unbound hb]
              exact hb'.1.bound
      | _ => cases hk

end Scad.Resolve
