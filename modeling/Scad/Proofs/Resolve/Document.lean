import Scad.Proofs.Parse.Order
import Scad.Proofs.Parse.Recovery
import Scad.Proofs.Resolve.Descent
import Scad.Proofs.Resolve.Statement
import Scad.Token.Stream

/-! Every reference of a parsed document is bound as the rules say. -/
namespace Scad

theorem Parse.Produced.allShaped {spelling : Spelling} {tokens : List Token}
    {origin : Option String} {p : Parsed} {s : State} (h : Produced spelling tokens origin p s)
    {n : Node} (hn : n ∈ s.made.toList) :
    n.AllShaped spelling := by
  induction n using Node.ofChildren with
  | h n ih => exact ⟨h.shaped n hn, fun c hc => ih c hc (h.closed n hn c hc)⟩

namespace Resolve

/-- What names are looked up in, besides scopes, when a document is resolved. -/
def environment (deps : Dependencies) (d : Document) (builtins : Option Builtins) : Environment :=
  ⟨d.origin, builtins, (importAll deps d).documents⟩

theorem matches_library (env : Environment) (library : Frame) :
    Matches env library [library] .outside := by
  have hlookup : ∀ c name, Scope.lookup [library] c name = (library.table c).lookup name := by
    intro c name
    rw [Scope.lookup, List.findSome?_cons]
    cases (library.table c).lookup name <;> rfl
  exact ⟨fun name => hlookup .vars name, fun c name _ => hlookup c name⟩

/-- The work is never halted, changes bindings only, and binds every reference. -/
theorem resolve_bound {d : Document}
    (hd : ∀ n ∈ d.statements, n.AllShaped .any ∧ n.kind.isStatement) (deps : Dependencies)
    (builtins : Option Builtins) :
    (resolve d deps builtins).halted = false ∧
    (resolve d deps builtins).document.statements.map Node.unbound = d.statements.map Node.unbound ∧
    ∀ v n, Stands (resolve d deps builtins).document.statements v n →
      Throughout (Bound (environment deps d builtins) (importAll deps d).frame) v n := by
  have hstart :=
    ((matches_library (environment deps d builtins) (importAll deps d).frame).enter).within
    d.statements
  obtain ⟨hhalted, hresolved⟩ :=
    returns_statements hstart (fun n hn => resolvable_statement (hd n hn).1 (hd n hn).2)
    ⟨[], false⟩ rfl
  have hunbound : (resolve d deps builtins).document.statements.map Node.unbound =
      d.statements.map Node.unbound := hresolved.unbound
  refine ⟨hhalted, hunbound, fun v n h => h.throughout fun w m hm => hresolved.bound w m ?_⟩
  rw [View.within, filterMap_of_unbound declaration?_unbound hunbound] at hm
  exact hm

theorem bound_of_stands {d : Document}
    (hd : ∀ n ∈ d.statements, n.AllShaped .any ∧ n.kind.isStatement) {deps : Dependencies}
    {builtins : Option Builtins} {v : View} {n : Node}
    (hn : Stands (resolve d deps builtins).document.statements v n) :
    Bound (environment deps d builtins) (importAll deps d).frame v n := by
  cases (resolve_bound hd deps builtins).2.2 v n hn with
  | mk here below => exact here

/-- A parsed document's statements are shaped. -/
theorem shaped_of_ok {tokens : List Token} {origin : Option String} {p : Parse.Parsed}
    (h : parse tokens origin = .ok p) :
    ∀ n ∈ p.document.statements, n.AllShaped .any ∧ n.kind.isStatement := by
  obtain ⟨s, hs⟩ := Parse.produced_of_ok h
  exact fun n hn => ⟨hs.allShaped (hs.statements n hn).1, (hs.statements n hn).2⟩

section

variable {tokens : List Token} {origin : Option String} {p : Parse.Parsed}
  (h : parse tokens origin = .ok p) (deps : Dependencies) (builtins : Option Builtins)

include h

/-- In a resolved document, too, the last variable in view is the one with the greatest id. -/
theorem nearest_eq_latest {v : View} {n : Node}
    (hn : Stands (resolve p.document deps builtins).document.statements v n) (name : String) :
    v.nearest? name = v.latest? name := by
  obtain ⟨s, hs⟩ := Parse.produced_of_ok h
  refine hn.nearest_eq_latest ?_ name
  rw [← trails_unbound, (resolve_bound (shaped_of_ok h) deps builtins).2.1, trails_unbound]
  exact hs.rising.increasing

/-- A variable that no call applies is bound to the declaration in view with the greatest id, then
to the library's variable. -/
theorem resolve_binds_variables :
    (∀ n ∈ (resolve p.document deps builtins).document.walk,
      ∃ v, Stands (resolve p.document deps builtins).document.statements v n) ∧
    ∀ v n name, Stands (resolve p.document deps builtins).document.statements v n →
      n.form = .variableRef name →
      ¬ IsCalled (resolve p.document deps builtins).document.statements n →
      n.binding = some (variableRule (environment deps p.document builtins)
        (importAll deps p.document).frame (v.latest? name) name) := by
  refine ⟨fun n hn => Stands.of_mem_walk hn, fun v n name hn hf hcalled => ?_⟩
  have hbound := bound_of_stands (shaped_of_ok h) hn
  rw [Bound, hf] at hbound
  rw [hbound, if_neg fun hv => hcalled (hn.called hv), nearest_eq_latest h deps builtins hn]

/-- Variables that hide each other, a function literal that sees its own variable, and a parameter
whose default is not itself. -/
def shadowing : List Token :=
  (tokenize
    ("a = 1; f = function(n) n < a ? 0 : f(n - 1); b = let(a = 2, c = a) [for(a = [1:c]) a];" ++
    "module m(a = a) cube(a);") "").tokens

omit h in
theorem resolve_binds_shadowing : ∃ p, parse shadowing none = .ok p ∧
    ∀ v n name, Stands (resolve p.document [] none).document.statements v n →
      n.form = .variableRef name → ¬ IsCalled (resolve p.document [] none).document.statements n →
      n.binding =
        some (variableRule (environment [] p.document none) (importAll [] p.document).frame
          (v.latest? name) name) := by
  have hok : (parse shadowing none).isOk := by
    rw [shadowing, ← String.ofList_append, tokens_ofList]
    decide +kernel
  obtain ⟨p, hp⟩ := Parse.exists_of_isOk hok
  exact ⟨p, hp, (resolve_binds_variables hp [] none).2⟩

/-- A module name is bound to the last definition in the innermost list that has one, and what a
call applies to likewise, before variables. -/
theorem resolve_binds_definitions :
    (∀ n ∈ (resolve p.document deps builtins).document.walk,
      ∃ v, Stands (resolve p.document deps builtins).document.statements v n) ∧
    (∀ v n name, Stands (resolve p.document deps builtins).document.statements v n →
      n.form = .moduleName name → name ∉ pseudoModules →
      n.binding = some (moduleRule (environment deps p.document builtins)
        (importAll deps p.document).frame (v.definition? .moduleDef name) name)) ∧
    ∀ v n t s ss name, Stands (resolve p.document deps builtins).document.statements v n →
      n.form = .call t (s :: ss) → s.kind = .callSuffix → t.form = .variableRef name →
      t.binding = some (functionRule (environment deps p.document builtins)
        (importAll deps p.document).frame (v.definition? .functionDef name)
          (v.latest? name) name) := by
  refine ⟨fun n hn => Stands.of_mem_walk hn, fun v n name hn hf hp => ?_,
    fun v n t s ss name hn hf hs ht => ?_⟩
  · have hbound := bound_of_stands (shaped_of_ok h) hn
    rw [Bound, hf] at hbound
    exact hbound.trans (congrArg some (if_neg hp))
  · have happ : t.appliesName s = true := by
      rw [Node.appliesName, Node.kind, ht, hs]
      rfl
    have hpart : (v.as .called, t) ∈ v.parts n := by
      simp [View.parts, hf, happ]
    have hbound := bound_of_stands (shaped_of_ok h) (.part hn hpart)
    rw [Bound, ht] at hbound
    rw [hbound, if_pos (show (v.as .called).role = .called from rfl),
      nearest_eq_latest h deps builtins (.part hn hpart)]
    rfl

/-- A module that is defined twice, behind its use, and once more inside of a block; a function and
a variable of one name. -/
def hoisting : List Token :=
  (tokenize ("m(1); module m(x) cube(x); module m(y) \x7b m(y); module m() sphere(f(y)); \x7d" ++
    "f = 1; function f(z) = f;") "").tokens

omit h in
theorem resolve_binds_hoisting : ∃ p, parse hoisting none = .ok p ∧
    ∀ v n name, Stands (resolve p.document [] none).document.statements v n →
      n.form = .moduleName name → name ∉ pseudoModules →
      n.binding = some (moduleRule (environment [] p.document none) (importAll [] p.document).frame
        (v.definition? .moduleDef name) name) := by
  have hok : (parse hoisting none).isOk := by
    rw [hoisting, ← String.ofList_append, tokens_ofList]
    decide +kernel
  obtain ⟨p, hp⟩ := Parse.exists_of_isOk hok
  exact ⟨p, hp, (resolve_binds_definitions hp [] none).2.1⟩

end

end Resolve

end Scad
