import Mathlib.Algebra.Order.Group.Multiset
import Scad.Proofs.Resolve.Comparison.Statement
import Scad.Proofs.Resolve.Repeated
import Scad.Proofs.Resolve.Unbound
import Scad.Proofs.Resolve.Unique

/-! Resolution starts from scratch: what it binds and reports does not depend on what was
bound before. -/
namespace Scad

namespace Resolve

/-- Two runs that find the same; nothing is to be noted. -/
def agreeing : Tracking (Multiset Empty) where
  fair p p' := p = p'
  leads _ _ _ q q' := q = q'
  fair_of_leads h := h
  leads_refl h := h
  leads_trans _ h := h

/-- The runs over a tree as it is and without its bindings. -/
def forgetting (env : Environment) : Comparison (Multiset Empty) where
  toTracking := agreeing
  first := env
  second := env
  change info := { info with binding := none }
  admits _ := True
  makes _ _ _ _ _ := True
  names _ _ _ _ _ := True

theorem agree_of_eq {α : Type} {m m' : Resolving α} (h : ∀ p, (m'.run p).2 = (m.run p).2) :
    agreeing.Relates m m' fun _ _ _ => True := by
  rintro p _ rfl
  exact ⟨0, (h p).symm, trivial⟩

theorem agree_assign (info : Info) (b : Binding) :
    agreeing.Relates (assign info b) (assign { info with binding := none } b) fun _ _ _ => True :=
  agree_of_eq fun _ => rfl

theorem agree_bindReference (info : Info) (name noun : String) (b : Binding) :
    agreeing.Relates (bindReference info name noun b)
      (bindReference { info with binding := none } name noun b) fun _ _ _ => True := by
  refine agree_of_eq fun p => ?_
  unfold bindReference
  split <;> rfl

theorem agree_bindArgument (callee : Option Callee) (info : Info) (name : String) :
    agreeing.Relates (bindArgument callee info name)
      (bindArgument callee { info with binding := none } name) fun _ _ _ => True := by
  refine agree_of_eq fun p => ?_
  unfold bindArgument
  cases callee with
  | none => rfl
  | some c =>
      cases h : c.parameters.reverse.find? (·.1 = name) with
      | some found =>
          simp only [h]
          rfl
      | none =>
          simp only [h]
          split <;> rfl

theorem sound_forgetting (env : Environment) : (forgetting env).Sound where
  origin := rfl
  id_change _ := rfl
  child _ _ := trivial
  same _ := trivial
  unlabelled _ _ := trivial
  node _ _ _ _ := trivial
  call _ _ := trivial
  label callee ni name := (agree_bindArgument callee ni name).mono fun _ _ _ _ => fun _ => trivial
  reference c scope name info := agree_bindReference info name c.noun _
  callee _ _ _ := rfl
  builtin info _ := agree_assign info .builtin
  variableRef _ := trivial
  applied _ _ _ := trivial
  head _ _ := trivial
  halt _ := by
    rintro p _ rfl
    exact ⟨0, rfl, rfl⟩

/-- What is found in statements does not depend on their bindings. -/
theorem progress_unbound (env : Environment) (ns : List Node) (scope : Scope) (p : Progress) :
    ((statements env (ns.map Node.unbound) scope).run p).2 =
      ((statements env ns scope).run p).2 := by
  obtain ⟨_, hp, -⟩ := (sound_forgetting env).compares_statements ns
    (fun n _ => trivial) scope p p rfl
  exact hp.symm

theorem hoistAll_unbound (env : Environment) (scope : Scope) (ns : List Node) :
    hoistAll env scope (ns.map Node.unbound) = hoistAll env scope ns :=
  (sound_forgetting env).hoistAll_changed scope ns

/-! ### Resolving a document again -/

section

variable {env : Environment} {library : Frame} {documents : List (String × Document)}
  {v : View} {n : Node}

theorem labelRule_eq (callee : Option Binding) (name : String) : labelRule env callee name =
    ((callee.bind (callee? env "")).map fun c => parameterRule c.origin c.parameters name).getD
      .unresolved := by
  cases callee with
  | none => rfl
  | some b =>
      rw [labelRule, Option.bind_some, Option.bind_some, callee?_eq, Option.map_map]
      rfl

/-- The rules look at documents only for the parameters of callees. -/
theorem bound_over (h : callee? (env.over documents) = callee? env)
    (hb : Bound (env.over documents) library v n) :
    Bound env library v n := by
  have hlabel : labelRule (env.over documents) = labelRule env := by
    funext callee name
    rw [labelRule_eq, h, labelRule_eq]
  rw [Bound, hlabel] at hb
  exact hb

end

/-! Documents that differ in bindings only. -/

section

variable {d d' : Document} (h : d'.unbound = d.unbound)

include h

theorem statements_of_unbound : d'.statements.map Node.unbound = d.statements.map Node.unbound :=
  congrArg Document.statements h

theorem importAll_of_unbound (deps : Dependencies) :
    (importAll deps d').unbound = (importAll deps d).unbound := by
  rw [importAll_unbound, importAll_unbound, h]

variable (deps : Dependencies) (builtins : Option Builtins)

theorem frame_of_unbound : (importAll deps d').frame = (importAll deps d).frame :=
  (Exports.mk.inj (importAll_of_unbound h deps)).1

theorem environment_of_unbound : environment deps d' builtins =
    (environment deps d builtins).over (importAll deps d').documents := by
  have horigin : d'.origin = d.origin := (Document.mk.inj h).1
  rw [environment, horigin]
  rfl

theorem callee?_of_unbound :
    callee? ((environment deps d builtins).over (importAll deps d').documents) =
      callee? (environment deps d builtins) := by
  have hdocuments : Dependencies.unbound (importAll deps d').documents =
      Dependencies.unbound (importAll deps d).documents :=
      (Exports.mk.inj (importAll_of_unbound h deps)).2.2
  calc callee? ((environment deps d builtins).over (importAll deps d').documents)
      = callee?
        ((environment deps d builtins).over (Dependencies.unbound (importAll deps d').documents)) :=
        (callee?_unbound ((environment deps d builtins).over (importAll deps d').documents)).symm
    _ = callee?
      ((environment deps d builtins).over (Dependencies.unbound (importAll deps d).documents)) := by
        rw [hdocuments]
    _ = callee? (environment deps d builtins) := callee?_unbound (environment deps d builtins)

/-- The findings are made anew. -/
theorem bindingErrors_of_unbound :
    (resolve d' deps builtins).document.bindingErrors =
      (resolve d deps builtins).document.bindingErrors := by
  have herrors : ∀ e : Document, (resolve e deps builtins).document.bindingErrors =
      ((statements (environment deps e builtins) e.statements
      (hoistAll (environment deps e builtins)
        (Scope.enter [(importAll deps e).frame]) e.statements)).run ⟨[], false⟩).2.errors :=
        fun e => rfl
  have hbare : ∀ env scope p,
    ((statements env d'.statements (hoistAll env scope d'.statements)).run p).2 =
      ((statements env d.statements (hoistAll env scope d.statements)).run p).2 := by
    intro env scope p
    rw [← progress_unbound, ← hoistAll_unbound, statements_of_unbound h, progress_unbound,
      hoistAll_unbound]
  rw [herrors, herrors, hbare, frame_of_unbound h, environment_of_unbound h,
    (statement_over (callee?_of_unbound h deps builtins)).2, hoistAll_over]

/-- Every reference is bound anew. -/
theorem references_of_unbound (hd : ∀ n ∈ d.statements, n.AllShaped .any ∧ n.kind.isStatement) :
    (resolve d' deps builtins).document.references =
      (resolve d deps builtins).document.references := by
  have hd' := shaped_of_unbound (statements_of_unbound h) hd
  have hunbound := (resolve_bound hd deps builtins).2.1
  have hbound' : ∀ v n, Stands (resolve d' deps builtins).document.statements v n →
      Bound (environment deps d builtins) (importAll deps d).frame v n := by
    intro v n hn
    have hb := bound_of_stands hd' hn
    rw [frame_of_unbound h, environment_of_unbound h] at hb
    exact bound_over (callee?_of_unbound h deps builtins) hb
  rw [Document.references_eq, Document.references_eq]
  refine references_of_stands (fun n hn => (shaped_of_unbound hunbound hd n hn).1) ?_
    (fun v n hn => bound_of_stands hd hn) hbound'
  rw [(resolve_bound hd' deps builtins).2.1, statements_of_unbound h, hunbound]

end

/-! ### Any number of times -/

/-- Documents under names. -/
abbrev Shelf := String → Document

/-- A document that is resolved, with others of the shelf behind its file references. -/
structure Run where
  name : String
  references : List (String × String)
  builtins : Option Builtins

namespace Run

def dependencies (r : Run) (shelf : Shelf) : Dependencies :=
  r.references.map fun e => (e.1, shelf e.2)

def result (r : Run) (shelf : Shelf) : Document :=
  (resolve (shelf r.name) (r.dependencies shelf) r.builtins).document

def apply (r : Run) (shelf : Shelf) : Shelf := Function.update shelf r.name (r.result shelf)

end Run

def afterRuns (shelf : Shelf) (runs : List Run) : Shelf := runs.foldl (fun s r => r.apply s) shelf

end Resolve

namespace FromText

theorem distinct {d : Document} (h : FromText d) : (d.arena.entries.map Prod.fst).Nodup := by
  induction h with
  | parsed h =>
      obtain ⟨s, hs⟩ := Parse.produced_of_ok h
      rw [hs.arena, Arena.ofMade, List.map_map]
      exact distinct_of_numbered hs.numbered
  | noted _ faults ih => exact ih
  | @resolved d _ deps builtins ih =>
      show ((d.arena.refresh _).entries.map Prod.fst).Nodup
      rw [Arena.refresh, List.map_map]
      exact ih

theorem unbound_resolve {d : Document} (h : FromText d) (deps : Resolve.Dependencies)
    (builtins : Option Builtins) :
    (resolve d deps builtins).document.unbound = d.unbound :=
  Resolve.unbound_resolve h.ordered.consistent h.distinct deps builtins

end FromText

namespace Resolve

section

variable {shelf : Shelf} (hshelf : ∀ name, FromText (shelf name))

include hshelf

/-- A run changes bindings and findings of one document. -/
theorem Run.unbound_apply (r : Run) (name : String) :
    FromText (r.apply shelf name) ∧ (r.apply shelf name).unbound = (shelf name).unbound := by
  by_cases h : name = r.name
  · subst h
    rw [Run.apply, Function.update_self]
    exact ⟨.resolved (hshelf r.name) _ _, (hshelf r.name).unbound_resolve _ _⟩
  · rw [Run.apply, Function.update_of_ne h]
    exact ⟨hshelf name, rfl⟩

/-- So does any number of runs. -/
theorem unbound_afterRuns (runs : List Run) (name : String) :
    FromText (afterRuns shelf runs name) ∧
      (afterRuns shelf runs name).unbound = (shelf name).unbound := by
  induction runs generalizing shelf with
  | nil => exact ⟨hshelf name, rfl⟩
  | cons r runs ih =>
      obtain ⟨htext, hunbound⟩ := ih fun other => (Run.unbound_apply hshelf r other).1
      exact ⟨htext, hunbound.trans (Run.unbound_apply hshelf r name).2⟩

theorem Run.dependencies_afterRuns (r : Run) (runs : List Run) :
    (r.dependencies (afterRuns shelf runs)).unbound = (r.dependencies shelf).unbound := by
  rw [dependencies, dependencies, Dependencies.unbound, Dependencies.unbound, List.map_map,
    List.map_map]
  exact List.map_congr_left fun e _ => congrArg (Prod.mk e.1) (unbound_afterRuns hshelf runs e.2).2

end

/-- Two documents of one text are bound and reported on alike, whatever was bound in them or in the
documents behind their file references. However often documents of a shelf were resolved, and with
whatever, resolving one of them gives what it would have given at first. That no other document is
changed, the last part, would hold of any result: a run puts it back in the place of its document
alone (`Function.update`). -/
theorem resolve_from_scratch :
    (∀ t d d' : Document, FromText t → d.unbound = t.unbound → d'.unbound = t.unbound →
      ∀ deps deps' : Dependencies, deps'.unbound = deps.unbound → ∀ builtins : Option Builtins,
        (resolve d' deps' builtins).document.references =
          (resolve d deps builtins).document.references ∧
        (resolve d' deps' builtins).document.bindingErrors =
          (resolve d deps builtins).document.bindingErrors) ∧
    ∀ shelf : Shelf, (∀ name, FromText (shelf name)) → ∀ (earlier : List Run) (r : Run),
      (r.result (afterRuns shelf earlier)).references = (r.result shelf).references ∧
      (r.result (afterRuns shelf earlier)).bindingErrors = (r.result shelf).bindingErrors ∧
      (r.result (afterRuns shelf earlier)).unbound = (shelf r.name).unbound ∧
      ∀ other, other ≠ r.name → r.apply (afterRuns shelf earlier) other =
        afterRuns shelf earlier other := by
  have hfirst : ∀ t d d' : Document, FromText t → d.unbound = t.unbound → d'.unbound = t.unbound →
      ∀ deps deps' : Dependencies, deps'.unbound = deps.unbound → ∀ builtins : Option Builtins,
        (resolve d' deps' builtins).document.references =
        (resolve d deps builtins).document.references ∧
        (resolve d' deps' builtins).document.bindingErrors =
        (resolve d deps builtins).document.bindingErrors := by
    intro t d d' ht hd hd' deps deps' hdeps builtins
    have hu := hd'.trans hd.symm
    have hshaped := shaped_of_unbound (statements_of_unbound hd) ht.ordered.consistent.shaped
    rw [resolve_congr hdeps]
    exact ⟨references_of_unbound hu deps builtins hshaped,
      bindingErrors_of_unbound hu deps builtins⟩
  refine ⟨hfirst, fun shelf hshelf earlier r => ?_⟩
  obtain ⟨htext, hunbound⟩ := unbound_afterRuns hshelf earlier r.name
  obtain ⟨hrefs, herrors⟩ := hfirst (shelf r.name) (shelf r.name) _ (hshelf r.name) rfl hunbound
    (r.dependencies shelf) _ (r.dependencies_afterRuns hshelf earlier) r.builtins
  exact ⟨hrefs, herrors, (htext.unbound_resolve _ _).trans hunbound, fun other ho =>
    Function.update_of_ne ho _ _⟩

/-- A name that a file declares, and one that nothing declares; and that file. -/
def unsettled : List Token × List Token :=
  ((tokenize "include <lib>\ny = x + z; m(w = x);" "t").tokens,
    (tokenize "x = 1; module m(w) cube(w);" "lib").tokens)

/-- What is bound with the file is unbound again without it, and bound anew with it. -/
theorem resolve_from_scratch_unsettled :
    ∃ p q, parse unsettled.1 none = .ok p ∧ parse unsettled.2 none = .ok q ∧
    (resolve (resolve p.document [("lib", q.document)] (some .stock)).document []
      none).document.references = (resolve p.document [] none).document.references ∧
    ∀ shelf : Shelf, shelf = (fun name => if name = "t" then p.document else q.document) →
      ((Run.mk "t" [("lib", "lib")] none).result
        (afterRuns shelf [⟨"t", [], some .stock⟩, ⟨"lib", [("lib", "t")], none⟩])).bindingErrors =
          ((Run.mk "t" [("lib", "lib")] none).result shelf).bindingErrors := by
  have hok : (parse unsettled.1 none).isOk ∧ (parse unsettled.2 none).isOk := by
    rw [unsettled, tokens_ofList, tokens_ofList]
    decide +kernel
  obtain ⟨p, hp⟩ := Parse.exists_of_isOk hok.1
  obtain ⟨q, hq⟩ := Parse.exists_of_isOk hok.2
  refine ⟨p, q, hp, hq, ?_, ?_⟩
  · exact (resolve_from_scratch.1 p.document p.document _ (.parsed hp) rfl
      ((FromText.parsed hp).unbound_resolve _ _) [] [] rfl none).1
  · rintro shelf rfl
    refine (resolve_from_scratch.2 _ (fun name => ?_) _ _).2.1
    by_cases hname : name = "t"
    · rw [if_pos hname]
      exact .parsed hp
    · rw [if_neg hname]
      exact .parsed hq

end Resolve

end Scad
