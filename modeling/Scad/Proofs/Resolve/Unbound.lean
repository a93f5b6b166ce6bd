import Scad.Proofs.Resolve.Targets

/-! Resolution does not look at the bindings of the documents that a document refers to: they may
have been resolved in any way, or not at all. -/
namespace Scad

def Arena.unbound (a : Arena) : Arena := ⟨a.entries.map fun e => (e.1, e.2.unbound), a.nextId⟩

/-- A document as it was before it was resolved. -/
def Document.unbound (d : Document) : Document :=
  { d with
    statements := d.statements.map Node.unbound
    arena := d.arena.unbound
    bindingErrors := [] }

theorem Arena.get?_unbound (a : Arena) (id : Int) :
    a.unbound.get? id = (a.get? id).map Node.unbound := by
  rw [get?, unbound, List.find?_map, Option.map_map, get?, Option.map_map]
  rfl

namespace Resolve

abbrev Dependencies.unbound (deps : Dependencies) : Dependencies :=
  deps.map fun e => (e.1, e.2.unbound)

theorem Dependencies.unbound_cons (e : String × Document) (deps : Dependencies) :
    Dependencies.unbound (e :: deps) = (e.1, e.2.unbound) :: deps.unbound := rfl

theorem Dependencies.find?_unbound (deps : Dependencies) (reference : String) :
    deps.unbound.find? reference = (deps.find? reference).map Document.unbound := by
  rw [find?, unbound, List.find?_map, Option.map_map, find?, Option.map_map]
  rfl

theorem Dependencies.origins_of_unbound {deps deps' : Dependencies}
    (h : deps.unbound = deps'.unbound) :
    deps.map (·.2.origin) = deps'.map (·.2.origin) := by
  have horigins : ∀ ds : Dependencies, ds.unbound.map (·.2.origin) = ds.map (·.2.origin) := by
    intro ds
    rw [List.map_map]
    rfl
  rw [← horigins deps, h, horigins]

/-! ### What file references bring in -/

def Exports.unbound (x : Exports) : Exports :=
  { x with documents := Dependencies.unbound x.documents }

theorem Exports.unbound_enter (x : Exports) (d : Document) :
    (x.enter d).unbound = x.unbound.enter d.unbound := by
  simp only [unbound, enter, List.map_append]
  rfl

section

variable {deps : Dependencies} {withVariables : Bool} {x : Exports}

theorem exportStatement_unbound {nested nested' : Document → Exports → Exports}
    (h : ∀ d x, (nested d x).unbound = nested' d.unbound x.unbound) (origin : String) (n : Node) :
    (exportStatement deps withVariables origin nested x n).unbound =
      exportStatement deps.unbound withVariables origin nested' x.unbound n.unbound := by
  unfold exportStatement
  rw [Node.form_unbound]
  cases hf : n.form with
  | fileReference inclusion file =>
      cases inclusion with
      | everything =>
          simp only [Form.map, Dependencies.find?_unbound]
          cases deps.find? file with
          | none => rfl
          | some d => exact h d x
      | definitions => rfl
  | moduleDefinition name ps b =>
      simp only [Form.map, Node.id_unbound]
      rfl
  | functionDefinition name ps e =>
      simp only [Form.map, Node.id_unbound]
      rfl
  | assignment t e =>
      simp only [Form.map, Node.id_unbound, Node.name?_unbound]
      split <;> rfl
  | _ => rfl

theorem exportFrom_unbound (fuel : Nat) (d : Document) (x : Exports) :
    (exportFrom deps withVariables fuel d x).unbound =
      exportFrom deps.unbound withVariables fuel d.unbound x.unbound := by
  induction fuel generalizing d x with
  | zero => rfl
  | succ fuel ih =>
      rw [exportFrom, exportFrom]
      by_cases hseen : d.origin ∈ x.seen
      · rw [if_pos hseen, if_pos (show d.unbound.origin ∈ x.unbound.seen from hseen)]
      · rw [if_neg hseen, if_neg (show d.unbound.origin ∉ x.unbound.seen from hseen),
          ← Exports.unbound_enter, Document.unbound, List.foldl_map]
        exact (List.foldl_hom Exports.unbound fun y n =>
          (exportStatement_unbound ih d.origin n).symm).symm

theorem importAll_unbound (deps : Dependencies) (d : Document) :
    (importAll deps d).unbound = importAll deps.unbound d.unbound := by
  rw [importAll, importAll, Document.unbound, List.foldl_map]
  refine (List.foldl_hom Exports.unbound fun x n => ?_).symm
  rw [Node.form_unbound]
  cases n.form with
  | fileReference inclusion file =>
      simp only [Form.map, Dependencies.find?_unbound, List.length_map]
      cases deps.find? file with
      | none => rfl
      | some e => exact (exportFrom_unbound deps.length e x).symm
  | _ => rfl

end

/-! ### Resolution with other documents behind the bindings -/

def Environment.over (env : Environment) (documents : List (String × Document)) : Environment :=
  { env with documents }

section

variable {env : Environment} {documents : List (String × Document)}

theorem variableBinding_over (scope : Scope) (name : String) :
    (env.over documents).variableBinding scope name = env.variableBinding scope name := rfl

theorem functionBinding_over (scope : Scope) (name : String) :
    (env.over documents).functionBinding scope name = env.functionBinding scope name := rfl

theorem moduleBinding_over (scope : Scope) (name : String) :
    (env.over documents).moduleBinding scope name = env.moduleBinding scope name := rfl

theorem binding_over (kind : BindingKind) (info : Info) :
    (env.over documents).binding kind info = env.binding kind info := rfl

theorem declared_over (target : Node) :
    declared (env.over documents) target = declared env target := rfl

theorem hoist_over (scope : Scope) (n : Node) :
    hoist (env.over documents) scope n = hoist env scope n := rfl

theorem hoistAll_over (scope : Scope) (ns : List Node) :
    hoistAll (env.over documents) scope ns = hoistAll env scope ns := rfl

/-- The parameters of a callee do not depend on the bindings of its document. -/
theorem callee?_unbound (env : Environment) :
    callee? (env.over (Dependencies.unbound env.documents)) = callee? env := by
  funext name b
  have hfound : ((env.over (Dependencies.unbound env.documents)).declaration? b).bind parametersOf =
      (env.declaration? b).bind parametersOf := by
    simp only [Environment.declaration?, Environment.over, Option.bind_eq_bind]
    cases b.target with
    | none => rfl
    | some target =>
        cases b.origin with
        | none => rfl
        | some origin =>
            have hfind := Dependencies.find?_unbound env.documents origin
            rw [Dependencies.find?, Dependencies.find?] at hfind
            simp only [Option.bind_some, hfind]
            cases (env.documents.find? (·.1 = origin)).map (·.2) with
            | none => rfl
            | some d =>
                simp only [Option.map_some, Option.bind_some, Document.unbound, Arena.get?_unbound]
                cases d.arena.get? target with
                | none => rfl
                | some n => exact parametersOf_unbound n
  rw [callee?_eq, callee?_eq, hfound]

variable (h : callee? (env.over documents) = callee? env)

include h

/-- Documents matter to expressions only through the parameters of callees. -/
theorem expression_over :
    (∀ n pending scope, expression (env.over documents) n pending scope =
      expression env n pending scope) ∧
    (∀ ns scope, expressions (env.over documents) ns scope = expressions env ns scope) ∧
    (∀ us scope, updates (env.over documents) us scope = updates env us scope) ∧
    (∀ o scope, optional (env.over documents) o scope = optional env o scope) ∧
    (∀ ps outer inner, parameters (env.over documents) ps outer inner =
      parameters env ps outer inner) ∧
    (∀ as scope, assignments (env.over documents) as scope = assignments env as scope) ∧
    (∀ ss scope, suffixes (env.over documents) ss scope = suffixes env ss scope) ∧
    ∀ as callee scope, arguments (env.over documents) as callee scope =
      arguments env as callee scope := by
  apply expression.mutual_induct env
  -- The only expression that looks up a callee.
  case case3 =>
    intro info ti name si as ss pending scope b has hss
    simp only [b] at has
    simp only [expression, functionBinding_over, h, has, hss]
  all_goals
    intros
    simp only [expression, expressions, updates, optional, parameters, assignments,
      suffixes, arguments, variableBinding_over, binding_over, declared_over, *]

theorem moduleHead_over (name : String) (mi : Info) (as : List Node) (scope : Scope) :
    moduleHead (env.over documents) name mi as scope = moduleHead env name mi as scope := by
  obtain ⟨hexpression, -, -, -, -, -, -, harguments⟩ := expression_over h
  have hdeclaring : ∀ as scope, declaringArguments (env.over documents) as scope =
      declaringArguments env as scope := by
    intro as scope
    induction as, scope using declaringArguments.induct env <;>
      simp only [declaringArguments, binding_over, *]
  simp only [moduleHead, hdeclaring, moduleBinding_over, h, harguments]

theorem statement_over :
    (∀ n scope, statement (env.over documents) n scope = statement env n scope) ∧
    ∀ ns scope, statements (env.over documents) ns scope = statements env ns scope := by
  have hhead := moduleHead_over h
  obtain ⟨hexpression, -, -, -, hparameters, -, -, harguments⟩ := expression_over h
  apply statement.mutual_induct env
  all_goals
    intros
    simp only [statement, statements, declared_over, hoist_over, hoistAll_over, *]

end

/-! ### Resolution of a document -/

section

variable {d : Document} {deps deps' : Dependencies} {builtins : Option Builtins}

/-- Dependencies that are equal apart from bindings give the same document. -/
theorem resolve_congr (h : deps.unbound = deps'.unbound) :
    (resolve d deps builtins).document = (resolve d deps' builtins).document := by
  have hexports : (importAll deps d).unbound = (importAll deps' d).unbound := by
    rw [importAll_unbound, importAll_unbound, h]
  obtain ⟨hframe, -, hdocuments⟩ := Exports.mk.inj hexports
  have hcallee : callee? ((environment deps d builtins).over (importAll deps' d).documents) =
      callee? (environment deps d builtins) := by
    rw [← callee?_unbound (environment deps d builtins), environment, hdocuments]
    exact (callee?_unbound (environment deps' d builtins)).symm
  have hstatements : ∀ scope, statements (environment deps' d builtins) d.statements scope =
      statements (environment deps d builtins) d.statements scope :=
      (statement_over hcallee).2 d.statements
  have hstart : hoistAll (environment deps' d builtins) (Scope.enter [(importAll deps' d).frame])
    d.statements =
      hoistAll (environment deps d builtins) (Scope.enter [(importAll deps d).frame])
      d.statements := by
    rw [hframe]
    rfl
  simp only [environment] at hstatements hstart
  simp only [resolve, hstart, hstatements]
  rfl

/-- The arena of a resolved document holds the same nodes with their bindings. -/
theorem unbound_arena_resolve (hd : d.Consistent) (hids : (d.arena.entries.map Prod.fst).Nodup)
    (deps : Dependencies) (builtins : Option Builtins) :
    (resolve d deps builtins).document.arena.unbound = d.arena.unbound := by
  have hstatements := (resolve_bound hd.shaped deps builtins).2.1
  have hentries : ∀ e ∈ d.arena.entries,
      (((resolve d deps builtins).document.walk.reverse.find? (·.id = e.1)).getD e.2).unbound =
      e.2.unbound := by
    intro e he
    cases hf : (resolve d deps builtins).document.walk.reverse.find? (·.id = e.1) with
    | none => rfl
    | some m =>
        have hid : m.id = e.1 := by simpa using List.find?_some hf
        obtain ⟨n, hn, hu⟩ := Node.mem_walkFrom_of_unbound hstatements
          (List.mem_reverse.1 (List.mem_of_find?_eq_some hf))
        have hn' : n.id = e.1 := by rw [← Node.id_unbound, hu, Node.id_unbound, hid]
        have hstored := hd.stored n hn
        rw [hn'] at hstored
        obtain ⟨e', hfind, rfl⟩ := Option.map_eq_some_iff.1 hstored
        have hfst : e'.1 = e.1 := by simpa using List.find?_some hfind
        have hsame := List.inj_on_of_nodup_map hids (List.mem_of_find?_eq_some hfind) he hfst
        rw [Option.getD_some, ← hu, hsame]
  refine congrArg (Arena.mk · d.arena.nextId) ?_
  rw [show (resolve d deps builtins).document.arena = d.arena.refresh _ from rfl, Arena.refresh,
    List.map_map]
  exact List.map_congr_left fun e he => congrArg (Prod.mk e.1) (hentries e he)

/-- Resolution adds bindings to a document, and nothing else. -/
theorem unbound_resolve (hd : d.Consistent) (hids : (d.arena.entries.map Prod.fst).Nodup)
    (deps : Dependencies) (builtins : Option Builtins) :
    (resolve d deps builtins).document.unbound = d.unbound := by
  rw [Document.unbound, (resolve_bound hd.shaped deps builtins).2.1, unbound_arena_resolve hd hids]
  rfl

end

end Resolve

end Scad
