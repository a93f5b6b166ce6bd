import Scad.Proofs.Resolve.Imports
import Scad.Proofs.Resolve.Rename

/-! A resolved document in which a declaration was renamed, with all that is bound to it, is
resolved as before. -/
namespace Scad

namespace Resolve

variable {deps : Dependencies} {builtins : Option Builtins}

/-- A document whose references are bound as its own names and its dependencies ask for. -/
structure Settled (deps : Dependencies) (builtins : Option Builtins) (d : Document) : Prop where
  shaped : ∀ n ∈ d.statements, n.AllShaped .any ∧ n.kind.isStatement
  bound : ∀ v n, Stands d.statements v n → Bound (environment deps d builtins)
    (importAll deps d).frame v n

theorem settled_resolve {d : Document} (hd : FromText d) :
    Settled deps builtins (resolve d deps builtins).document := by
  have hunbound := (hd.unbound_resolve deps builtins).symm
  refine ⟨(FromText.resolved hd deps builtins).ordered.consistent.shaped, fun v n hn => ?_⟩
  have hb := bound_of_stands hd.ordered.consistent.shaped hn
  rw [frame_of_unbound hunbound, environment_of_unbound hunbound] at hb
  exact bound_over (callee?_of_unbound hunbound deps builtins) hb

/-- Resolving it leaves its references as they are. -/
theorem Settled.references {d : Document} (h : Settled deps builtins d) :
    (resolve d deps builtins).document.references = d.references := by
  rw [Document.references_eq, Document.references_eq]
  exact references_of_stands (fun n hn => (h.shaped n hn).1)
    (resolve_bound h.shaped deps builtins).2.1 h.bound fun v n hn => bound_of_stands h.shaped hn

/-- A name that neither a document nor its dependencies have. -/
structure Fresh (deps : Dependencies) (d : Document) (name : String) : Prop where
  /-- No identifier is empty. -/
  nonempty : name ≠ ""
  ordinary : name ∉ pseudoModules
  document : ∀ n ∈ d.walk, n.name? ≠ some name
  dependencies : ∀ e ∈ deps.map Prod.snd, ∀ n ∈ e.walk, n.name? ≠ some name

end Resolve

namespace Rename

open Resolve

/-- The document with the declaration renamed, and the references that are bound to it. -/
def document (r : Rename) (d : Document) : Document :=
  { d with
    statements := d.statements.map r.node
    arena := ⟨d.arena.entries.map fun e => (e.1, r.node e.2), d.arena.nextId⟩ }

section

variable (r : Rename) (d : Document) (deps : Dependencies)

theorem get?_document (id : Int) : (r.document d).arena.get? id = (d.arena.get? id).map r.node := by
  rw [Arena.get?, document, List.find?_map, Option.map_map, Arena.get?, Option.map_map]
  rfl

theorem references_document : (r.document d).references = d.references.map r.node := by
  have hnode : ∀ n, (r.node n).references = n.references.map r.node := by
    intro n
    rw [Node.references, show (r.node n).preorder = _ from r.relabeling.preorder_node n,
      List.filter_map, Node.references]
    refine congrArg (List.map r.node) (List.filter_congr fun m _ => ?_)
    exact congrArg Kind.isReference (r.relabeling.kind_node m)
  rw [Document.references_eq, document, List.flatMap_map, Document.references_eq, List.map_flatMap]
  exact List.flatMap_congr fun n _ => hnode n

theorem importStatement_node (x : Exports) (n : Node) :
    importStatement deps x (r.node n) = importStatement deps x n := by
  obtain ⟨g, h⟩ := r.relabeling.form_node n
  rw [importStatement, show (r.node n).form = _ from h, importStatement]
  cases n.form <;> rfl

theorem importAll_document :
    importAll deps (r.document d) =
      (brought deps d.origin d.statements).behind [(d.origin, r.document d)] := by
  rw [importAll_eq, brought, show (r.document d).statements = d.statements.map r.node from rfl,
    List.foldl_map]
  simp only [importStatement_node]
  rfl

theorem frame_document : (importAll deps (r.document d)).frame = (importAll deps d).frame := by
  rw [importAll_document, importAll_eq]
  rfl

end

/-! ### What a binding of the document leads to -/

section

variable {r : Rename} {d : Document} {deps : Dependencies} {builtins : Option Builtins}
  {b : Binding}

theorem declaration?_own (hb : b.origin = some d.origin) :
    (environment deps d builtins).declaration? b = b.target.bind d.arena.get? := by
  rw [environment, importAll_eq, Environment.declaration?, hb]
  simp [Exports.behind]

theorem declaration?_own_document (hb : b.origin = some d.origin) :
    (environment deps (r.document d) builtins).declaration? b =
      (b.target.bind d.arena.get?).map r.node := by
  rw [declaration?_own (d := r.document d) hb, Option.map_bind]
  exact congrArg b.target.bind (funext (r.get?_document d))

theorem declaration?_elsewhere (hb : b.origin ≠ some d.origin) :
    (environment deps (r.document d) builtins).declaration? b =
      (environment deps d builtins).declaration? b := by
  rw [environment, importAll_document, environment, importAll_eq, Environment.declaration?,
    Environment.declaration?]
  cases ho : b.origin with
  | none => rfl
  | some origin =>
      have hne : d.origin ≠ origin := fun he => hb (by rw [ho, he])
      simp [Exports.behind, hne]

end

/-! ### A declaration of the document -/

def declared (d : Document) (e : Declaration) (name : String) : Rename := ⟨d.origin, e.id, name⟩

section

variable {d : Document} {deps : Dependencies} {builtins : Option Builtins} {n : Node}
  {e : Declaration} {name : String} (hd : d.Ordered) (hn : n ∈ d.walk)
  (he : n.declaration? = some e) (hname : Fresh deps d name)

include hd hn he hname

theorem among_of_declared {ds : List Declaration}
    (h : ∀ f ∈ ds, ∃ m ∈ d.walk, m.declaration? = some f) :
    (declared d e name).Among e ds := by
  refine ⟨fun f hf hnew => ?_, fun f hf hid => ?_⟩
  · obtain ⟨m, hm, hdecl⟩ := h f hf
    exact hname.document m hm ((Node.declares_of_declaration? hdecl).2.1.trans (congrArg some hnew))
  · obtain ⟨m, hm, hdecl⟩ := h f hf
    have hsame : m.id = n.id := by
      rw [(Node.declares_of_declaration? hdecl).2.2, (Node.declares_of_declaration? he).2.2]
      exact hid
    obtain rfl : m = n := List.inj_on_of_nodup_map hd.distinct hm hn hsame
    exact Option.some.inj (hdecl.symm.trans he)

theorem viewRenamed_of_stands {v : View} {m : Node} (hv : Stands d.statements v m) :
    (declared d e name).ViewRenamed e v where
  vars := among_of_declared hd hn he hname fun _ hf => hv.declared_of_vars hf
  lists := fun _ hds => among_of_declared hd hn he hname fun _ hf => hv.declared_of_lists hds hf

theorem follows_of_stands {v : View} {m : Node} (hv : Stands d.statements v m) :
    ∀ b ∈ v.role.callee?, (declared d e name).Follows e (environment deps d builtins)
      (environment deps ((declared d e name).document d) builtins) b := by
  intro b hb
  have hrole : v.role = .named (some b) := by
    cases hr : v.role <;> rw [hr] at hb <;> cases hb
    rfl
  obtain ⟨callee, hcallee, hlabel⟩ := hv.named hrole
  obtain ⟨w, x, hw, hform⟩ := callee_name hd.consistent.shaped hlabel
  have href : callee ∈ d.references := by
    refine List.mem_filter.2 ⟨hw.mem_walk, ?_⟩
    rcases hform with hf | hf <;> rw [Node.kind, hf] <;> rfl
  -- What the callee is bound to in the document is a node of it.
  have hfound : b.origin = some d.origin → ∀ f ∈ (environment deps d builtins).declaration? b,
      f ∈ d.walk := by
    intro ho f hf
    obtain ⟨k, hk, ht⟩ := hd.closed callee href b hcallee ho
    rw [declaration?_own ho, ht, Option.bind_some, hd.consistent.stored k hk] at hf
    cases hf
    exact hk
  refine ⟨declaration?_elsewhere, fun ho => ?_, fun ho f hf => ?_, fun ho f hf ds hds => ?_⟩
  · rw [declaration?_own_document ho, declaration?_own ho]
  · exact (Document.allShaped hd.consistent.shaped (hfound ho f hf)).self
  · have hwalk := hfound ho f hf
    have hs := (Document.allShaped hd.consistent.shaped hwalk).self
    refine among_of_declared hd hn he hname fun g hg => ?_
    obtain ⟨q, hq, hdecl⟩ := ((parametersOf_eq hs).2 ds hds).2 g hg
    exact ⟨q, Node.child_mem_walkFrom hwalk hq, hdecl⟩

theorem settled_document (hs : Settled deps builtins d) :
    Settled deps builtins ((declared d e name).document d) := by
  have hwalk : ∀ m ∈ d.walk, ((declared d e name).node m).isPseudo = m.isPseudo := by
    intro m hm
    obtain ⟨v, hv⟩ := Stands.of_mem_walk hm
    exact isPseudo_node hname.ordinary (hs.bound v m hv)
  have hspares : (declared d e name).AvoidsRenaming (importAll deps d).frame :=
    ⟨(importAll_foreign deps d).1.elsewhere, importAll_lacks hname.nonempty hname.dependencies d⟩
  refine ⟨fun m' hm' => ?_, fun v' m' hm' => ?_⟩
  · obtain ⟨m, hm, rfl⟩ := List.mem_map.1 hm'
    obtain ⟨hshaped, hkind⟩ := hs.shaped m hm
    refine ⟨(declared d e name).relabeling.allShaped_node hshaped, ?_⟩
    rw [show ((declared d e name).node m).kind = m.kind
      from (declared d e name).relabeling.kind_node m]
    exact hkind
  · obtain ⟨v, m, hm, rfl, rfl⟩ := (declared d e name).relabeling.stands_node hwalk hm'
    rw [frame_document]
    exact bound_node rfl hspares hname.ordinary (viewRenamed_of_stands hd hn he hname hm)
      (hname.document m hm.mem_walk) (follows_of_stands hd hn he hname hm) (hs.bound v m hm)

end

end Rename

namespace Resolve

/-- If a declaration of a resolved document, and with it all references that are bound to it, takes
a name that neither the document nor its dependencies have, then resolving it leaves every reference
bound as it was. -/
theorem resolve_renamed {d : Document} (hd : FromText d) (deps : Dependencies)
    (builtins : Option Builtins) {n : Node} (hn : n ∈ (resolve d deps builtins).document.walk)
    {e : Declaration} (he : n.declaration? = some e) {name : String}
    (hname : Fresh deps (resolve d deps builtins).document name) :
    (resolve ((Rename.declared (resolve d deps builtins).document e name).document
        (resolve d deps builtins).document) deps builtins).document.references =
      (resolve d deps builtins).document.references.map
        (Rename.declared (resolve d deps builtins).document e name).node ∧
    (resolve ((Rename.declared (resolve d deps builtins).document e name).document
        (resolve d deps builtins).document) deps builtins).document.references.map Node.info =
      (resolve d deps builtins).document.references.map Node.info := by
  have hsettled :=
    Rename.settled_document (FromText.resolved hd deps builtins).ordered hn he hname
      (settled_resolve hd)
  have hreferences := hsettled.references.trans (Rename.references_document _ _)
  refine ⟨hreferences, ?_⟩
  rw [hreferences, List.map_map]
  exact List.map_congr_left fun m _ => Rename.info_node _ m

/-- A parameter between a variable and a function's parameter of its name, which is also the name of
arguments; and what the text includes. -/
def hidden : List Token × List Token :=
  ((tokenize
    ("include <lib>\nx = 1; module m(x = x, w = x) \x7b cube(x + w); m(x = 3) sphere(x); \x7d " ++
      "function f(x) = x; m(f(x), x = z);") "t").tokens,
    (tokenize "z = 4; module n(x) cube(x);" "lib").tokens)

/-- The parameter is declared, and the new name is nowhere. -/
def spare (p q : Parse.Parsed) : Bool :=
  let d := (resolve p.document [("lib", q.document)] none).document
  d.walk.any (fun n => n.declaration? = some ⟨.parameterDef, "x", 5⟩) &&
    d.walk.all (fun n => n.name? ≠ some "y") &&
    q.document.walk.all fun n => n.name? ≠ some "y"

/-- The parameter becomes `y`. -/
theorem resolve_renamed_hidden : ∃ p q, parse hidden.1 none = .ok p ∧ parse hidden.2 none = .ok q ∧
    ∀ d, d = (resolve p.document [("lib", q.document)] none).document →
      (∃ n ∈ d.walk, n.declaration? = some ⟨.parameterDef, "x", 5⟩) ∧
      Fresh [("lib", q.document)] d "y" ∧
      (resolve ((Rename.declared d ⟨.parameterDef, "x", 5⟩ "y").document d)
        [("lib", q.document)] none).document.references.map Node.info =
          d.references.map Node.info := by
  have hok : (parse hidden.1 none).isOk ∧ (parse hidden.2 none).isOk ∧
      ((parse hidden.1 none).toOption.bind fun p => (parse hidden.2 none).toOption.map (spare p)) =
      some true := by
    rw [hidden, ← String.ofList_append, tokens_ofList, tokens_ofList]
    decide +kernel
  obtain ⟨p, hp⟩ := Parse.exists_of_isOk hok.1
  obtain ⟨q, hq⟩ := Parse.exists_of_isOk hok.2.1
  have hspare := hok.2.2
  rw [hp, hq] at hspare
  have hspare := Option.some.inj hspare
  refine ⟨p, q, hp, hq, ?_⟩
  rintro d rfl
  rw [spare, Bool.and_eq_true, Bool.and_eq_true] at hspare
  obtain ⟨⟨hdecl, hd⟩, hq⟩ := hspare
  obtain ⟨n, hn, he⟩ := List.any_eq_true.1 hdecl
  have hfresh : Fresh [("lib", q.document)]
      (resolve p.document [("lib", q.document)] none).document "y" := by
    refine ⟨by decide, by decide, fun n hn => of_decide_eq_true (List.all_eq_true.1 hd n hn),
      fun e he n hn => ?_⟩
    cases List.mem_singleton.1 he
    exact of_decide_eq_true (List.all_eq_true.1 hq n hn)
  exact ⟨⟨n, hn, of_decide_eq_true he⟩, hfresh,
    (resolve_renamed (.parsed hp) _ none hn (of_decide_eq_true he) hfresh).2⟩

end Resolve

end Scad
