import Mathlib.Data.List.Induction
import Scad.Proofs.Resolve.View
import Scad.Proofs.Tree.Unbound

/-! The rules by which names are bound, and scopes that say the same as a view. -/
namespace Scad.Resolve

/-- A name that is looked up where the program runs, unless something declares it. -/
abbrev isSpecial (name : String) : Prop := name.toList.head? = some '$'

section

variable (env : Environment) (library : Frame)

/-- A variable: a declaration in the document, then the library, then what needs no declaration. -/
def variableRule (found : Option Declaration) (name : String) : Binding :=
  ((found.map (·.binding env.origin)).or (library.vars.lookup name)).getD <|
    if isSpecial name then .special
    else if env.builtins.any (·.vars.contains name) then .builtin
    else .unresolved

/-- What a call applies to: functions come before variables. -/
def functionRule (function var : Option Declaration) (name : String) : Binding :=
  (((function.map (·.binding env.origin)).or (library.functions.lookup name)).or
    ((var.map (·.binding env.origin)).or (library.vars.lookup name))).getD <|
    if isSpecial name then .special
    else if env.builtins.any (·.functions.contains name) then .builtin
    else .unresolved

def moduleRule (found : Option Declaration) (name : String) : Binding :=
  ((found.map (·.binding env.origin)).or (library.modules.lookup name)).getD <|
    if env.builtins.any (·.modules.contains name) then .builtin else .unresolved

end

def parametersOf (n : Node) : Option (List (String × Int)) :=
  match n.form with
  | .moduleDefinition _ ps _ | .functionDefinition _ ps _ =>
    some (ps.map fun p => (p.name?.getD "", p.id))
  | _ => none

/-- The name of an argument: the last parameter of that name. -/
def parameterRule (origin : Option String) (parameters : List (String × Int)) (name : String) :
    Binding :=
  match parameters.reverse.find? (·.1 = name) with
  | some (_, id) => ⟨.parameterDef, some id, origin⟩
  | none => if isSpecial name then .special else .unresolved

def labelRule (env : Environment) (callee : Option Binding) (name : String) : Binding :=
  (callee.bind fun b => ((env.declaration? b).bind parametersOf).map
    (parameterRule b.origin · name)).getD .unresolved

/-- A reference is bound as the rules say. -/
def Bound (env : Environment) (library : Frame) (v : View) (n : Node) : Prop :=
  match n.form with
  | .variableRef name =>
    n.binding = some (if v.role = .called then
        functionRule env library (v.definition? .functionDef name) (v.nearest? name) name
      else variableRule env library (v.nearest? name) name)
  | .moduleName name =>
    n.binding = some (if name ∈ pseudoModules then .builtin
      else moduleRule env library (v.definition? .moduleDef name) name)
  | .argumentName name => n.binding = some (labelRule env v.role.callee? name)
  | _ => True

/-! ### Scopes and views -/

end Resolve

/-- The kind of definition that brings a name of a class into a statement list. -/
def NameClass.definitionKind : NameClass → BindingKind
  | vars => .variableDef
  | functions => .functionDef
  | modules => .moduleDef

theorem Frame.lookup_define (f : Frame) (c c' : NameClass) (name other : String) (b : Binding) :
    ((f.define c name b).table c').lookup other =
      if c = c' ∧ name = other then some b else (f.table c').lookup other := by
  cases c <;> cases c' <;> simp [define, table, NameTable.lookup_define]

namespace Scope

theorem lookup_enter (s : Scope) (c : NameClass) (name : String) :
    s.enter.lookup c name = s.lookup c name := by
  cases c <;> rfl

theorem lookup_define (s : Scope) (c c' : NameClass) (name other : String) (b : Binding) :
    (s.define c name b).lookup c' other =
      if c = c' ∧ name = other then some b else s.lookup c' other := by
  have hcons : ∀ (f : Frame) (rest : Scope), lookup (f :: rest) c' other =
      ((f.table c').lookup other).or (lookup rest c' other) := by
    intro f rest
    rw [lookup, List.findSome?_cons]
    cases (f.table c').lookup other <;> rfl
  cases s with
  | nil =>
      rw [define, hcons, Frame.lookup_define]
      split
      · rfl
      · cases c' <;> rfl
  | cons f rest =>
      rw [define, hcons, hcons, Frame.lookup_define]
      split <;> rfl

end Scope

namespace View

theorem nearest?_seeing (v : View) (ds : List Declaration) (name : String) :
    (v.seeing ds).nearest? name = (ds.filter (·.name = name)).getLast?.or (v.nearest? name) := by
  rw [nearest?, seeing, List.filter_append, List.getLast?_append, nearest?]

theorem definition?_within (v : View) (ns : List Node) (kind : BindingKind) (name : String) :
    (v.within ns).definition? kind name =
      (lastDefinition? kind name (ns.filterMap Node.declaration?)).or
        (v.definition? kind name) := by
  rw [definition?, within, List.findSome?_cons, definition?]
  cases lastDefinition? _ _ _ <;> rfl

end View

namespace Resolve

section

variable {env : Environment} {c : NameClass} {name : String}

/-- One declaration, before something else. -/
theorem or_lastDefinition? (kind : BindingKind) (d : Declaration) (x : Option Binding) :
    ((lastDefinition? kind name [d]).map (·.binding env.origin)).or x =
      if d.kind = kind ∧ d.name = name then some (d.binding env.origin) else x := by
  by_cases h : d.kind = kind ∧ d.name = name <;> simp [lastDefinition?, h]

theorem lookup_hoist (hc : c ≠ .vars) (scope : Scope) (n : Node) :
    (hoist env scope n).lookup c name =
      ((lastDefinition? c.definitionKind name n.declaration?.toList).map (·.binding env.origin)).or
        (scope.lookup c name) := by
  obtain ⟨info, form⟩ := n
  cases form with
  | moduleDefinition other ps b =>
      refine Eq.trans ?_ (or_lastDefinition? _ ⟨.moduleDef, other, info.id⟩ _).symm
      refine (Scope.lookup_define ..).trans ?_
      cases c <;> simp [NameClass.definitionKind, Environment.binding,
        Declaration.binding, Node.info]
  | functionDefinition other ps e =>
      refine Eq.trans ?_ (or_lastDefinition? _ ⟨.functionDef, other, info.id⟩ _).symm
      refine (Scope.lookup_define ..).trans ?_
      cases c <;> simp [NameClass.definitionKind, Environment.binding,
        Declaration.binding, Node.info]
  -- Variables and parameters are no definitions.
  | variableDefinition other =>
      refine Eq.trans ?_ (or_lastDefinition? _ ⟨.variableDef, other, info.id⟩ _).symm
      cases c with
      | vars => exact absurd rfl hc
      | functions | modules => rfl
  | parameter other d =>
      refine Eq.trans ?_ (or_lastDefinition? _ ⟨.parameterDef, other, info.id⟩ _).symm
      cases c with
      | vars => exact absurd rfl hc
      | functions | modules => rfl
  | _ => rfl

theorem lookup_hoistAll (hc : c ≠ .vars) (scope : Scope) (ns : List Node) :
    (hoistAll env scope ns).lookup c name =
      ((lastDefinition? c.definitionKind name (ns.filterMap Node.declaration?)).map
        (·.binding env.origin)).or (scope.lookup c name) := by
  induction ns using List.reverseRecOn with
  | nil => rfl
  | append_singleton ns n ih =>
      have hlast : lastDefinition? c.definitionKind name ((ns ++ [n]).filterMap Node.declaration?) =
          (lastDefinition? c.definitionKind name n.declaration?.toList).or
            (lastDefinition? c.definitionKind name (ns.filterMap Node.declaration?)) := by
        rw [List.filterMap_append]
        unfold lastDefinition?
        rw [List.filter_append, List.getLast?_append]
        cases h : n.declaration? <;> simp [h]
      rw [hoistAll, List.foldl_append, List.foldl_cons, List.foldl_nil, lookup_hoist hc,
        hlast, Option.map_or, Option.or_assoc]
      exact congrArg _ ih

theorem lookup_vars_hoistAll (scope : Scope) (ns : List Node) :
    (hoistAll env scope ns).lookup .vars name = scope.lookup .vars name := by
  induction ns generalizing scope with
  | nil => rfl
  | cons n ns ih =>
      rw [hoistAll, List.foldl_cons]
      refine (ih _).trans ?_
      unfold hoist
      split
      · rw [Scope.lookup_define, if_neg (by simp)]
      · rw [Scope.lookup_define, if_neg (by simp)]
      · rfl

end

/-- A scope finds what a view shows, and then what is in the library. -/
structure Matches (env : Environment) (library : Frame) (scope : Scope) (v : View) : Prop where
  vars : ∀ name, scope.lookup .vars name =
    ((v.nearest? name).map (·.binding env.origin)).or (library.vars.lookup name)
  definitions : ∀ c name, c ≠ .vars → scope.lookup c name =
    ((v.definition? c.definitionKind name).map (·.binding env.origin)).or
    ((library.table c).lookup name)

namespace Matches

variable {env : Environment} {library : Frame} {scope : Scope} {v : View}

theorem enter (h : Matches env library scope v) : Matches env library scope.enter v :=
  ⟨fun name => by rw [Scope.lookup_enter, h.vars], fun c name hc => by rw [Scope.lookup_enter,
    h.definitions c name hc]⟩

/-- The role does not matter. -/
theorem as (h : Matches env library scope v) (role : Role) :
    Matches env library scope (v.as role) :=
  ⟨h.vars, h.definitions⟩

theorem plain (h : Matches env library scope v) : Matches env library scope v.plain := h.as .plain

theorem define (h : Matches env library scope v) (d : Declaration) :
    Matches env library (scope.define .vars d.name (d.binding env.origin)) (v.seeing [d]) := by
  refine ⟨fun name => ?_, fun c name hc => ?_⟩
  · rw [Scope.lookup_define, View.nearest?_seeing, h.vars]
    by_cases hn : d.name = name
    · simp [hn]
    · simp [hn]
  · rw [Scope.lookup_define, if_neg fun he => hc he.1.symm, h.definitions c name hc]
    rfl

theorem seeing_nil (h : Matches env library scope v) : Matches env library scope (v.seeing []) := by
  refine ⟨fun name => ?_, h.definitions⟩
  rw [View.nearest?_seeing, h.vars]
  rfl

theorem within (h : Matches env library scope v) (ns : List Node) :
    Matches env library (hoistAll env scope ns) (v.within ns) := by
  refine ⟨fun name => ?_, fun c name hc => ?_⟩
  · rw [lookup_vars_hoistAll]
    exact h.vars name
  · rw [lookup_hoistAll hc, View.definition?_within, h.definitions c name hc, Option.map_or,
      Option.or_assoc]

end Matches

end Scad.Resolve
