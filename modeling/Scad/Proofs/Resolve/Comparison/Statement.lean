import Scad.Proofs.Resolve.Comparison.Expression

/-! Two runs over statements. -/
namespace Scad.Resolve.Comparison

variable {M : Type} [AddMonoid M] {c : Comparison M}

namespace Sound

variable (h : c.Sound) {info : Info} {n : Node} {as ss : List Node}

attribute [local simp] Node.children Node.form Form.children Form.fields Field.children

theorem isInert_changed (n : Node) : isInert (c.changed n) = isInert n := by
  obtain ⟨i, f⟩ := n
  rw [changed_mk]
  cases f with
  | instantiation ms payload =>
      obtain ⟨pi, pf⟩ := payload
      rw [Form.map, changed_mk]
      cases pf with
      | moduleCall h n =>
          obtain ⟨hi, hf⟩ := h
          rw [Form.map, changed_mk]
          cases hf with
          | moduleHead m as =>
              obtain ⟨mi, mf⟩ := m
              rw [Form.map, changed_mk]
              cases mf <;> rfl
          | _ => rfl
      | _ => rfl
  | _ => rfl

theorem compares_statements_of {ns : List Node} (hns : ∀ n ∈ ns, c.AsStatement n)
    (hadmits : ∀ n ∈ ns, c.admits n) (scope : Scope) :
    c.Relates (statements c.first ns scope) (statements c.second (ns.map c.changed) scope)
      (Scoped (Each (c.makes none) ns)) := by
  induction ns generalizing scope with
  | nil => exact .pure ⟨rfl, .nil⟩
  | cons n ns ih =>
      obtain ⟨hn, hns⟩ := List.forall_mem_cons.1 hns
      obtain ⟨hfirst, hrest⟩ := List.forall_mem_cons.1 hadmits
      rw [List.map_cons, Resolve.statements, Resolve.statements]
      refine (hn hfirst scope).bindScoped fun n' n'' inner x hx =>
        (ih hns hrest inner).bindScoped fun rest' rest'' behind y hy => .pure ⟨rfl, ?_⟩
      rw [add_zero]
      exact .cons hx hy

include h

theorem compares_declaringArgument (hn : c.admits n) (scope : Scope) :
    c.Relates (declaringArgument c.first scope n) (declaringArgument c.second scope (c.changed n))
      (c.makes none n) := by
  -- A name that declares nothing is bound as if the argument were passed to no callee.
  obtain ⟨info, f⟩ := n
  cases f with
  | argument l e =>
      have heq : ∀ env info l e, declaringArgument env scope ⟨info, .argument l e⟩ =
          argument env none scope ⟨info, .argument l e⟩ := by
        intro env info l e
        cases l with
        | none => rfl
        | some l =>
            obtain ⟨ni, lf⟩ := l
            cases lf <;> rfl
      rw [changed_mk, Form.map, heq, heq]
      have hargument := (h.everywhere ⟨info, .argument l e⟩).argument none scope hn
      rwa [changed_mk, Form.map] at hargument
  | _ => exact .pure (h.same hn)

theorem compares_declaringArguments (has : ∀ a ∈ as, c.admits a) (scope : Scope) :
    c.Relates (declaringArguments c.first as scope)
      (declaringArguments c.second (as.map c.changed) scope) (Scoped (Each (c.makes none) as)) := by
  rw [declaringArguments_eq, declaringArguments_eq]
  exact (Tracking.Relates.inTurn _ h.withArgument_changed
    (fun scope a ha => h.compares_declaringArgument (has a ha) scope) scope).map
      fun _ _ _ hx => ⟨foldl_changed h.withArgument_changed as scope, hx⟩

theorem compares_moduleHead {mi : Info} {name : String} (has : ∀ a ∈ as, c.admits a) (hi : Info)
    (scope : Scope) :
    c.Relates (moduleHead c.first name mi as scope) (moduleHead c.second name (c.change mi)
      (as.map c.changed) scope) fun r r' x => r'.2.2 = r.2.2 ∧
        c.makes none ⟨hi, .moduleHead ⟨mi, .moduleName name⟩ as⟩
          ⟨hi, .moduleHead ⟨r.1, .moduleName name⟩ r.2.1⟩ ⟨c.change hi,
          .moduleHead ⟨r'.1, .moduleName name⟩ r'.2.1⟩
        x := by
  unfold moduleHead
  split
  · refine (h.builtin mi name).bind fun mi' mi'' x hx =>
      (h.compares_declaringArguments has scope.enter).bindScoped fun as' as'' inner y hy =>
        .pure ⟨rfl, ?_⟩
    rw [add_zero]
    -- What is part of the language leads to no definition.
    exact h.head hx hy
  · have hcallee : callee? c.second name (c.second.moduleBinding scope name) = _ :=
      h.callee .modules scope name
    simp only [hcallee]
    refine (h.reference .modules scope name mi).bind fun mi' mi'' x hx =>
      (h.compares_arguments has _ scope).bind fun as' as'' y hy => .pure ⟨rfl, ?_⟩
    rw [add_zero]
    exact h.head hx hy

/-- A statement around another form, which is made in the same way. -/
theorem instantiation {ms : NameSet} {pi : Info} {f f' f'' : Form Node} {x : M}
    (hf : f.kind.isPassive) (hk : f'.kind = f.kind) (hk' : f''.kind = f.kind)
    (heach : Each (c.makes none) f.children f'.children f''.children x) :
    c.makes none ⟨info, .instantiation ms ⟨pi, f⟩⟩ ⟨info, .instantiation ms ⟨pi, f'⟩⟩
      ⟨c.change info, .instantiation ms ⟨c.change pi, f''⟩⟩ x := by
  have hpayload : c.makes none ⟨pi, f⟩ ⟨pi, f'⟩ ⟨c.change pi, f''⟩ x := h.node hf hk hk' heach
  exact h.node rfl rfl rfl (by simpa using Each.single hpayload)

theorem compares_statement (n : Node) : c.AsStatement n := by
  induction n using statement_induction with
  | assignment info t e =>
      intro hn scope
      rw [changed_mk, Form.map, statement, statement, h.declared_changed]
      refine (h.compares_expression (h.child hn (by simp)) _ scope).bind fun e' e'' x hx =>
        .pure ⟨rfl, h.node rfl rfl rfl ?_⟩
      have heach := Each.cons (h.same (h.child hn (n := t) (by simp))) (.single hx)
      rw [zero_add] at heach
      simpa using heach
  | block info ss ih =>
      intro hn scope
      rw [changed_mk, Form.map, statement, statement, h.hoistAll_changed]
      refine (compares_statements_of ih (fun s hs => h.child hn (by simpa using hs)) _).bind
        fun r r' x hx =>
        .pure ⟨rfl, h.node rfl rfl rfl ?_⟩
      simpa using hx.related
  | moduleDefinition info name ps body ih =>
      intro hn scope
      rw [changed_mk, Form.map, statement, statement]
      simp only [h.hoist_changed]
      refine (h.compares_parameters (fun p hp => h.child hn (by simp [hp])) scope
        scope.enter).bindScoped
        fun ps' ps'' inner x hx => (ih (h.child hn (by simp)) _).bind fun r r' y hy =>
          .pure ⟨rfl, h.node rfl rfl rfl ?_⟩
      simpa using hx.append (.single hy.related)
  | functionDefinition info name ps e =>
      intro hn scope
      rw [changed_mk, Form.map, statement, statement]
      refine (h.compares_parameters (fun p hp => h.child hn (by simp [hp])) scope
        scope.enter).bindScoped
        fun ps' ps'' inner x hx => (h.compares_expression (h.child hn (by simp)) none inner).bind
          fun e' e'' y hy =>
          .pure ⟨rfl, h.node rfl rfl rfl ?_⟩
      simpa using hx.append (.single hy)
  | moduleCall info ms pi hi mi name as n ih =>
      intro hn scope
      have hpayload : c.admits ⟨pi, .moduleCall ⟨hi, .moduleHead ⟨mi, .moduleName name⟩ as⟩ n⟩ :=
        h.child hn (by simp)
      have hhead : c.admits ⟨hi, .moduleHead ⟨mi, .moduleName name⟩ as⟩ :=
        h.child hpayload (by simp)
      rw [changed_mk, Form.map, changed_mk, Form.map, changed_mk, Form.map, changed_mk, Form.map,
        statement, statement]
      simp only [h.hoist_changed]
      refine (h.compares_moduleHead (fun a ha => h.child hhead (by simp [ha])) hi scope).bind ?_
      rintro ⟨mi', as', _⟩ ⟨mi'', as'', inner⟩ x ⟨rfl, hx⟩
      refine (ih (h.child hpayload (by simp)) _).bind fun r r' y hy =>
        .pure ⟨rfl, h.instantiation rfl rfl rfl ?_⟩
      simpa using Each.cons hx (.single hy.related)
  | moduleRemark info ms pi verb as n ih =>
      intro hn scope
      have hpayload : c.admits ⟨pi, .moduleRemark verb as n⟩ := h.child hn (by simp)
      rw [changed_mk, Form.map, changed_mk, Form.map, statement, statement, h.hoist_changed]
      refine (h.compares_arguments (fun a ha => h.child hpayload (by simp [ha])) none scope).bind
        fun as' as'' x hx => (ih (h.child hpayload (by simp)) _).bind fun r r' y hy =>
          .pure ⟨rfl, h.instantiation rfl rfl rfl ?_⟩
      simpa using hx.append (.single hy.related)
  | moduleIf info ms pi n t ih =>
      intro hn scope
      have hpayload : c.admits ⟨pi, .moduleIf n t none⟩ := h.child hn (by simp)
      rw [changed_mk, Form.map, changed_mk, Form.map, Option.map_none, statement, statement,
        h.hoist_changed]
      refine (h.compares_expression (h.child hpayload (by simp)) none scope).bind fun n' n'' x hx =>
        (ih (h.child hpayload (by simp)) _).bind fun r r' y hy =>
          .pure ⟨rfl, h.instantiation rfl rfl rfl ?_⟩
      simpa using Each.cons hx (.single hy.related)
  | moduleIfElse info ms pi n t e iht ihe =>
      intro hn scope
      have hpayload : c.admits ⟨pi, .moduleIf n t (some e)⟩ := h.child hn (by simp)
      rw [changed_mk, Form.map, changed_mk, Form.map, Option.map_some, statement, statement,
        h.hoist_changed, h.hoist_changed]
      refine (h.compares_expression (h.child hpayload (by simp)) none scope).bind fun n' n'' x hx =>
        (iht (h.child hpayload (by simp)) _).bind fun r r' y hy =>
          (ihe (h.child hpayload (by simp)) _).bind
          fun s s' z hz => .pure ⟨rfl, h.instantiation rfl rfl rfl ?_⟩
      simpa using Each.cons hx (.cons hy.related (.single hz.related))
  | inert n hinert =>
      intro hn scope
      rw [statement_inert c.first hinert, statement_inert c.second (by rwa [isInert_changed])]
      exact .pure ⟨rfl, h.same hn⟩

/-- Two runs over statements make of each of them what the comparison says. -/
theorem compares_statements (ns : List Node) (hns : ∀ n ∈ ns, c.admits n) (scope : Scope) :
    c.Relates (statements c.first ns scope) (statements c.second (ns.map c.changed) scope)
      (Scoped (Each (c.makes none) ns)) :=
  compares_statements_of (fun n _ => h.compares_statement n) hns scope

end Sound

end Scad.Resolve.Comparison
