import Scad.Proofs.Resolve.Rule

/-! What a step of the work gives: trees that differ in bindings only, bound as the rules say. -/
namespace Scad.Resolve

variable {α β : Type}

/-- Unless the work is halted, it goes on, with a result of some kind. -/
def Returns (m : Resolving α) (Q : α → Prop) : Prop :=
  ∀ p, p.halted = false → (m.run p).2.halted = false ∧ Q (m.run p).1

theorem callee?_eq (env : Environment) (name : String) (b : Binding) :
    callee? env name b = ((env.declaration? b).bind parametersOf).map (⟨name, b.origin, ·⟩) := by
  unfold callee?
  cases env.declaration? b with
  | none => rfl
  | some n =>
      obtain ⟨info, form⟩ := n
      cases form <;> rfl

namespace Returns

variable {P Q : α → Prop} {R : β → Prop}

theorem pure {a : α} (h : Q a) : Returns (Pure.pure a) Q := fun _ hp => ⟨hp, h⟩

theorem mono {m : Resolving α} (hm : Returns m P) (h : ∀ a, P a → Q a) : Returns m Q :=
  fun p hp => ⟨(hm p hp).1, h _ (hm p hp).2⟩

theorem bind {m : Resolving α} {f : α → Resolving β} (hm : Returns m P)
    (hf : ∀ a, P a → Returns (f a) R) :
    Returns (m >>= f) R := by
  intro p hp
  obtain ⟨hp', hP⟩ := hm p hp
  exact hf _ hP _ hp'

theorem map {m : Resolving α} {g : α → β} (hm : Returns m P) (h : ∀ a, P a → R (g a)) :
    Returns (g <$> m) R :=
  fun p hp => ⟨(hm p hp).1, h _ (hm p hp).2⟩

theorem assign (info : Info) (b : Binding) :
    Returns (assign info b) (· = { info with binding := some b }) := by
  intro p hp
  refine ⟨hp, ?_⟩
  show (if p.halted then info else _) = _
  rw [hp]
  rfl

theorem report (span : Span) (identifier message : String) :
    Returns (report span identifier message) fun _ => True := by
  intro p hp
  refine ⟨?_, trivial⟩
  show (if p.halted then p else _).halted = false
  rw [hp]
  rfl

theorem bindReference (info : Info) (name noun : String) (b : Binding) :
    Returns (bindReference info name noun b) (· = { info with binding := some b }) := by
  unfold Resolve.bindReference
  split
  · exact (report _ _ _).bind fun _ _ => assign info b
  · exact assign info b

theorem bindArgument (env : Environment) (callee : Option Binding) (name : String) (info : Info)
    (label : String) :
    Returns (bindArgument (callee.bind (callee? env name)) info label)
      (· = { info with binding := some (labelRule env callee label) }) := by
  cases callee with
  | none => exact assign info _
  | some b =>
      rw [Option.bind_some, callee?_eq, labelRule, Option.bind_some]
      cases (env.declaration? b).bind parametersOf with
      | none => exact assign info _
      | some ps =>
          simp only [Option.map_some, Option.getD_some, Resolve.bindArgument, parameterRule]
          cases ps.reverse.find? (·.1 = label) with
          | some found => exact assign info _
          | none =>
              by_cases hs : isSpecial label
              · rw [if_pos hs, if_pos hs]
                exact assign info _
              · rw [if_neg hs, if_neg hs]
                exact (report _ _ _).bind fun _ _ => assign info _

end Returns

theorem declaration?_unbound (n : Node) : n.unbound.declaration? = n.declaration? := by
  obtain ⟨i, f⟩ := n
  rw [Node.unbound_mk]
  cases f <;> rfl

theorem introduces?_unbound (n : Node) : n.unbound.introduces? = n.introduces? := by
  obtain ⟨i, f⟩ := n
  rw [Node.unbound_mk]
  cases f with
  | assignment t e => exact declaration?_unbound t
  | argument l e =>
      cases l with
      | none => rfl
      | some l => exact declaration?_unbound l
  | _ => rfl

theorem filterMap_unbound {f : Node → Option Declaration} (hf : ∀ n, f n.unbound = f n)
    (ns : List Node) :
    (ns.map Node.unbound).filterMap f = ns.filterMap f := by
  rw [List.filterMap_map]
  exact List.filterMap_congr fun n _ => hf n

theorem filterMap_of_unbound {f : Node → Option Declaration} (hf : ∀ n, f n.unbound = f n)
    {ns ns' : List Node} (h : ns'.map Node.unbound = ns.map Node.unbound) :
    ns'.filterMap f = ns.filterMap f := by
  rw [← filterMap_unbound hf, h, filterMap_unbound hf]

/-- The variable that may be seen inside of a value. -/
def hint (env : Environment) (role : Role) : Pending :=
  role.assigned?.map fun d => (d.name, d.binding env.origin)

section

variable (env : Environment) (library : Frame)

/-- A tree with the same nodes, bound throughout. -/
structure Resolved (v : View) (n n' : Node) : Prop where
  unbound : n'.unbound = n.unbound
  bound : Throughout (Bound env library) v n'

structure ResolvedAll (place : List Node → List (View × Node)) (ns ns' : List Node) : Prop where
  unbound : ns'.map Node.unbound = ns.map Node.unbound
  bound : ∀ w m, (w, m) ∈ place ns' → Throughout (Bound env library) w m

def Resolvable (n : Node) : Prop := ∀ v scope, Matches env library scope v → v.role ≠ .called →
  Returns (expression env n (hint env v.role) scope) (Resolved env library v n)

end

section

variable {env : Environment} {library : Frame} {v : View} {n n' : Node} {ns ns' : List Node}

theorem Resolvable.plain (h : Resolvable env library n) {scope : Scope}
    (hm : Matches env library scope v) :
    Returns (expression env n none scope) (Resolved env library v.plain n) :=
  h v.plain scope hm.plain nofun

namespace ResolvedAll

theorem nil {place : List Node → List (View × Node)} (h : place [] = []) :
    ResolvedAll env library place [] [] :=
  ⟨rfl, fun w m hm => by rw [h] at hm; cases hm⟩

theorem alike (hn : Resolved env library v n n') (h : ResolvedAll env library v.alike ns ns') :
    ResolvedAll env library v.alike (n :: ns) (n' :: ns') := by
  refine ⟨by rw [List.map_cons, hn.unbound, h.unbound, List.map_cons], fun w m hm => ?_⟩
  rcases List.mem_cons.1 hm with hm | hm
  · cases hm
    exact hn.bound
  · exact h.bound w m hm

theorem inOrder (hn : Resolved env library v n n')
    (h : ResolvedAll env library (v.seeing n.introduces?.toList).inOrder ns ns') :
    ResolvedAll env library v.inOrder (n :: ns) (n' :: ns') := by
  have hi : n'.introduces? = n.introduces? := by
    rw [← introduces?_unbound, hn.unbound, introduces?_unbound]
  refine ⟨by rw [List.map_cons, hn.unbound, h.unbound, List.map_cons], fun w m hm => ?_⟩
  rw [View.inOrder, hi] at hm
  rcases List.mem_cons.1 hm with hm | hm
  · cases hm
    exact hn.bound
  · exact h.bound w m hm

end ResolvedAll

/-- A node without parts. -/
theorem throughout_leaf {P : View → Node → Prop} (h : P v n) (hc : n.children = []) :
    Throughout P v n := by
  refine ⟨h, fun w m hm => ?_⟩
  have hs := List.mem_map_of_mem (f := Prod.snd) hm
  rw [View.map_snd_parts, hc] at hs
  cases hs

theorem returns_expressions (hr : ∀ n ∈ ns, Resolvable env library n) {scope : Scope}
    (hm : Matches env library scope v) :
    Returns (expressions env ns scope) (ResolvedAll env library v.plain.alike ns) := by
  induction ns with
  | nil => exact .pure (.nil rfl)
  | cons n ns ih =>
      exact ((hr n (List.mem_cons_self ..)).plain hm).bind fun n' hn =>
        (ih fun m hm => hr m (List.mem_cons_of_mem _ hm)).bind fun ns' hns => .pure (.alike hn hns)

theorem returns_optional {o : Option Node} (hr : ∀ n ∈ o, Resolvable env library n) {scope : Scope}
    (hm : Matches env library scope v) : Returns (optional env o scope) fun o' =>
      o'.map Node.unbound = o.map Node.unbound ∧
        ∀ m ∈ o', Throughout (Bound env library) v.plain m := by
  cases o with
  | none => exact .pure ⟨rfl, fun m hm => absurd hm (Option.not_mem_none m)⟩
  | some n =>
      refine ((hr n rfl).plain hm).bind fun n' hn => .pure ⟨congrArg some hn.unbound, ?_⟩
      rintro m ⟨⟩
      exact hn.bound

theorem undeclared_eq {c : NameClass} {name : String} (hc : c ≠ .modules) :
    env.undeclared c name = if isSpecial name then .special
      else if env.hasBuiltin c name then .builtin else .unresolved :=
  if_congr (and_iff_right hc) rfl rfl

theorem variableBinding_eq {scope : Scope} (hm : Matches env library scope v) (name : String) :
    env.variableBinding scope name = variableRule env library (v.nearest? name) name := by
  rw [Environment.variableBinding, hm.vars, undeclared_eq (by simp)]
  rfl

theorem moduleBinding_eq {scope : Scope} (hm : Matches env library scope v) (name : String) :
    env.moduleBinding scope name = moduleRule env library (v.definition? .moduleDef name) name := by
  rw [Environment.moduleBinding, hm.definitions .modules name (by simp)]
  rfl

theorem functionBinding_eq {scope : Scope} (hm : Matches env library scope v) (name : String) :
    env.functionBinding scope name =
      functionRule env library (v.definition? .functionDef name) (v.nearest? name) name := by
  have hor : ∀ a b : Option Binding, (a <|> b) = a.or b := fun a b => by cases a <;> rfl
  rw [Environment.functionBinding, hm.vars, hm.definitions .functions name (by simp), hor,
    undeclared_eq (by simp)]
  rfl

theorem ResolvedAll.mem (h : ResolvedAll env library v.alike ns ns') :
    ∀ m ∈ ns', Throughout (Bound env library) v m :=
  fun m hm => h.bound v m (List.mem_map.2 ⟨m, hm, rfl⟩)

/-- A node that is no reference and opens no scope. -/
theorem resolved_of_children {info : Info} {f f' : Form Node} (hb : Bound env library v ⟨info, f'⟩)
    (hp : v.parts ⟨info, f'⟩ = v.plain.alike f'.children)
    (hu : f'.map Node.unbound = f.map Node.unbound)
    (h : ∀ c ∈ f'.children, Throughout (Bound env library) v.plain c) :
    Resolved env library v ⟨info, f⟩ ⟨info, f'⟩ := by
  refine ⟨by rw [Node.unbound_mk, Node.unbound_mk, hu], hb, fun w m hm => ?_⟩
  rw [hp] at hm
  obtain ⟨rfl, hmem⟩ := View.mem_alike hm
  exact h m hmem

/-- An argument's name stands in for the argument, its value is a plain expression. -/
theorem resolved_argument {info : Info} {l l' : Option Node} {e e' : Node}
    (hl : l'.map Node.unbound = l.map Node.unbound)
    (hbound : ∀ m ∈ l', Throughout (Bound env library) (v.as v.role.ofLabel) m)
    (he : Resolved env library v.plain e e') :
    Resolved env library v ⟨info, .argument l e⟩ ⟨info, .argument l' e'⟩ := by
  refine ⟨by rw [Node.unbound_mk, Node.unbound_mk, Form.map, Form.map, hl, he.unbound], trivial, ?_⟩
  intro w m hm
  rcases List.mem_append.1 hm with hm | hm
  · obtain ⟨rfl, hmem⟩ := View.mem_alike hm
    exact hbound m (Option.mem_toList.1 hmem)
  · cases List.mem_singleton.1 hm
    exact he.bound

theorem resolved_assignment {info ti : Info} {name : String} {e e' : Node}
    (he : Resolved env library (v.as (.value (some ⟨.variableDef, name, ti.id⟩))) e e') :
    Resolved env library v ⟨info, .assignment ⟨ti, .variableDefinition name⟩ e⟩
      ⟨info, .assignment ⟨ti, .variableDefinition name⟩ e'⟩ := by
  refine ⟨by rw [Node.unbound_mk, Node.unbound_mk, Form.map, Form.map, he.unbound], trivial,
    fun w m hm => ?_⟩
  rcases List.mem_cons.1 hm with hm | hm
  · cases hm
    exact throughout_leaf trivial rfl
  · cases List.mem_singleton.1 hm
    exact he.bound

end

end Scad.Resolve
