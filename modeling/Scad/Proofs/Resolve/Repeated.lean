import Scad.Proofs.Resolve.Targets

/-! A document stays in order however often it is resolved: its nodes keep their ids, its arena
holds what its statements reach, and its bindings into itself lead to nodes of its own. -/
namespace Scad

/-- A document that was parsed, and then resolved any number of times. The faults of its tokens may
have been noted in it. -/
inductive FromText : Document → Prop where
  | parsed {tokens : List Token} {origin : Option String} {p : Parse.Parsed}
      (h : parse tokens origin = .ok p) :
      FromText p.document
  | noted {d : Document} (h : FromText d) (faults : List Diagnostic) :
      FromText { d with lexErrors := faults }
  | resolved {d : Document} (h : FromText d) (deps : Resolve.Dependencies)
      (builtins : Option Builtins) :
      FromText (resolve d deps builtins).document

/-- Ids grow with the text, are stored with their nodes, and are what bindings lead to. -/
structure Document.Ordered (d : Document) : Prop where
  consistent : d.Consistent
  increasing : (trails d.statements).Pairwise (· < ·)
  natural : ∀ n ∈ d.walk, 0 ≤ n.id
  closed : ∀ n ∈ d.references, ∀ b, n.binding = some b → b.origin = some d.origin →
    ∃ m ∈ d.walk, b.target = some m.id

theorem Document.Ordered.distinct {d : Document} (h : d.Ordered) : (d.walk.map Node.id).Nodup :=
  (trails_perm _).nodup_iff.1 (h.increasing.imp Int.ne_of_lt)

namespace Resolve

/-! ### What comes from other documents -/

/-- Nothing that was brought in is bound to the document of an origin. -/
structure Exports.Foreign (origin : String) (x : Exports) : Prop where
  seen : origin ∈ x.seen
  elsewhere : ∀ c name b, (x.frame.table c).lookup name = some b → b.origin ≠ some origin

open Exports (Foreign Grows)

section

variable {deps : Dependencies} {origin other : String} {withVariables : Bool} {x : Exports}

theorem Exports.Foreign.define (h : Foreign origin x) (c : NameClass) (name : String) {b : Binding}
    (hb : b.origin ≠ some origin) : Foreign origin (x.define c name b) := by
  refine ⟨h.seen, fun c' name' b' hl => ?_⟩
  rw [show (x.define c name b).frame = x.frame.define c name b from rfl, Frame.lookup_define] at hl
  split at hl
  · cases hl
    exact hb
  · exact h.elsewhere c' name' b' hl

theorem exportStatement_foreign {nested : Document → Exports → Exports}
    (hnested : ∀ e x, Foreign origin x → Foreign origin (nested e x)) (ho : other ≠ origin)
    (h : Foreign origin x) (n : Node) :
    Foreign origin (exportStatement deps withVariables other nested x n) := by
  have hb : some other ≠ some origin := fun he => ho (Option.some.inj he)
  unfold exportStatement
  split
  · split
    · exact hnested _ _ h
    · exact h
  · exact h.define _ _ hb
  · exact h.define _ _ hb
  · split
    · exact h.define _ _ hb
    · exact h
  · exact h

theorem exportFrom_foreign (fuel : Nat) (e : Document) (h : Foreign origin x) :
    Foreign origin (exportFrom deps withVariables fuel e x) := by
  induction fuel generalizing e x with
  | zero => exact h
  | succ fuel ih =>
      rw [exportFrom]
      split
      · exact h
      · rename_i hnew
        have ho : e.origin ≠ origin := fun he => hnew (he ▸ h.seen)
        have henter : Foreign origin (x.enter e) := ⟨List.mem_cons_of_mem _ h.seen, h.elsewhere⟩
        exact List.foldlRecOn e.statements _ henter fun y hy n _ =>
          exportStatement_foreign (fun e' x' h' => ih e' h') ho hy n

/-- A document does not import itself, and stands before all others. -/
theorem importAll_foreign (deps : Dependencies) (d : Document) :
    Foreign d.origin (importAll deps d) ∧ [(d.origin, d)] <+: (importAll deps d).documents := by
  have hstart : Foreign d.origin ⟨Frame.empty, [d.origin], [(d.origin, d)]⟩ := by
    refine ⟨List.mem_singleton_self _, fun c name b hb => ?_⟩
    cases c <;> cases hb
  refine List.foldlRecOn (motive := fun x => Foreign d.origin x ∧ [(d.origin, d)] <+: x.documents)
    d.statements _
    ⟨hstart, List.prefix_refl _⟩ fun x hx n _ => ?_
  split
  · split
    · exact ⟨exportFrom_foreign _ _ hx.1, hx.2.trans (exportFrom_grows ..).documents⟩
    · exact hx
  · exact hx

end

/-! ### Bindings into the document -/

section

variable {d : Document} {deps : Dependencies} {builtins : Option Builtins}

/-- A binding into a document leads to one of its nodes. -/
def Own (d : Document) (b : Binding) : Prop :=
  b.origin = some d.origin → ∃ m ∈ d.walk, b.target = some m.id

theorem LeadsNowhere.own {b : Binding} (h : LeadsNowhere b) : Own d b := by
  intro ho
  rw [h.origin] at ho
  cases ho

section

variable (hd : ∀ n ∈ d.statements, n.AllShaped .any ∧ n.kind.isStatement)

include hd

variable (deps builtins)

theorem sources_own : Sources deps d builtins fun b _ => Own d b := by
  constructor
  · intro m hm e he _
    obtain ⟨m', hm', hu⟩ := Node.mem_walkFrom_of_unbound (resolve_bound hd deps builtins).2.1 hm
    refine ⟨m', hm', ?_⟩
    rw [← Node.id_unbound m', hu, Node.id_unbound, (Node.declares_of_declaration? he).2.2]
    rfl
  · intro c name b hb ho
    exact absurd ho ((importAll_foreign deps d).1.elsewhere c name b hb)

/-- The trees of a resolved document have the ids of those that they were made from. -/
theorem mem_walk_resolve {m : Node} (hm : m ∈ d.walk) :
    ∃ m' ∈ (resolve d deps builtins).document.walk, m'.unbound = m.unbound :=
  Node.mem_walkFrom_of_unbound (resolve_bound hd deps builtins).2.1.symm hm

end

variable (hd : d.Consistent)

include hd

/-- A parameter of a definition in the document is in the document. -/
theorem own_parameter {c : Binding} {f : Node} {ps : List (String × Int)} {name : String} {id : Int}
    (hc : Own d c) (hf : (environment deps d builtins).declaration? c = some f)
    (hps : parametersOf f = some ps) (hid : (name, id) ∈ ps) :
    Own d ⟨.parameterDef, some id, c.origin⟩ := by
  intro ho
  obtain ⟨m, hm, ht⟩ := hc ho
  have hfind : (importAll deps d).documents.find? (·.1 = d.origin) = some (d.origin, d) := by
    obtain ⟨more, hmore⟩ := (importAll_foreign deps d).2
    rw [← hmore]
    simp
  have hfound : d.arena.get? m.id = some f := by
    simpa [Environment.declaration?, environment, show c.origin = some d.origin from ho, ht, hfind]
      using hf
  obtain rfl : m = f := Option.some.inj ((hd.stored m hm).symm.trans hfound)
  obtain ⟨q, hq, hdq⟩ := mem_parametersOf hps (Document.allShaped hd.shaped hm).self hid
  exact ⟨q, Node.child_mem_walkFrom hm hq,
    congrArg some (Node.declares_of_declaration? hdq).2.2.symm⟩

theorem own_of_mem_references {n : Node} (hn : n ∈ (resolve d deps builtins).document.references)
    {b : Binding} (hb : n.binding = some b) : Own d b := by
  obtain ⟨hwalk, href⟩ := List.mem_filter.1 hn
  obtain ⟨v, hv⟩ := Stands.of_mem_walk hwalk
  have hs := sources_own deps builtins hd.shaped
  have hname : ∀ name, n.form = .variableRef name ∨ n.form = .moduleName name → Own d b := by
    intro name hf
    obtain ⟨b', hb', hnamed⟩ := named_name hd.shaped hs hv hf
    obtain rfl : b' = b := Option.some.inj (hb'.symm.trans hb)
    exact hnamed.elim (fun h => h) LeadsNowhere.own
  have hlabel : ∀ name, n.form = .argumentName name → Own d b := by
    intro name hf
    obtain ⟨b', hb', hcases⟩ := named_label hd.shaped hs hv hf
    obtain rfl : b' = b := Option.some.inj (hb'.symm.trans hb)
    rcases hcases with hfree | ⟨_, c, f, ps, id, -, -, ⟨other, hc⟩, hf, hps, hid, rfl⟩
    · exact hfree.own
    · exact own_parameter hd hc hf hps hid
  obtain ⟨info, form⟩ := n
  cases form with
  | variableRef name => exact hname name (.inl rfl)
  | moduleName name => exact hname name (.inr rfl)
  | argumentName name => exact hlabel name rfl
  | _ => cases href

end

/-- Resolving a document keeps it in order. -/
theorem ordered_resolve {d : Document} (h : d.Ordered) (deps : Dependencies)
    (builtins : Option Builtins) :
    (resolve d deps builtins).document.Ordered := by
  have hunbound := (resolve_bound h.consistent.shaped deps builtins).2.1
  have hincreasing : (trails (resolve d deps builtins).document.statements).Pairwise (· < ·) := by
    rw [← trails_unbound, hunbound, trails_unbound]
    exact h.increasing
  have hback : ∀ n ∈ (resolve d deps builtins).document.walk, ∃ m ∈ d.walk, m.unbound = n.unbound :=
    fun n hn => Node.mem_walkFrom_of_unbound hunbound hn
  have hdistinct : ((resolve d deps builtins).document.walk.map Node.id).Nodup :=
    (trails_perm _).nodup_iff.1 (hincreasing.imp Int.ne_of_lt)
  refine ⟨⟨shaped_of_unbound hunbound h.consistent.shaped, fun n hn => ?_⟩, hincreasing,
    fun n hn => ?_, fun n hn b hb ho => ?_⟩
  · obtain ⟨m, hm, hu⟩ := hback n hn
    have hid : m.id = n.id := by rw [← Node.id_unbound, hu, Node.id_unbound]
    have hrefresh := Arena.get?_refresh d.arena (resolve d deps builtins).document.walk n.id
    rw [← hid, h.consistent.stored m hm, hid, Option.map_some] at hrefresh
    have hlast : (resolve d deps builtins).document.walk.reverse.find? (·.id = n.id) = some n := by
      refine Node.find?_id ?_ (List.mem_reverse.2 hn)
      rw [List.map_reverse]
      exact List.nodup_reverse.2 hdistinct
    rw [hlast] at hrefresh
    exact hrefresh
  · obtain ⟨m, hm, hu⟩ := hback n hn
    rw [← Node.id_unbound, ← hu, Node.id_unbound]
    exact h.natural m hm
  · obtain ⟨m, hm, ht⟩ := own_of_mem_references h.consistent hn hb ho
    obtain ⟨m', hm', hu⟩ := mem_walk_resolve deps builtins h.consistent.shaped hm
    refine ⟨m', hm', ?_⟩
    rw [ht, ← Node.id_unbound m', hu, Node.id_unbound]

end Resolve

theorem Parse.Produced.ordered {spelling : Spelling} {tokens : List Token} {origin : Option String}
    {p : Parsed} {s : State} (h : Produced spelling tokens origin p s)
    (hp : parse tokens origin = .ok p) : p.document.Ordered := by
  refine ⟨consistent_of_ok hp, h.rising.increasing, fun n hn => ?_, fun n hn b hb _ => ?_⟩
  · obtain ⟨i, hi⟩ := List.mem_iff_getElem?.1 (h.made hn)
    rw [h.numbered i n hi]
    exact Int.natCast_nonneg i
  · rw [h.tally.free n (h.made (List.mem_filter.1 hn).1)] at hb
    cases hb

theorem FromText.ordered {d : Document} (h : FromText d) : d.Ordered := by
  induction h with
  | parsed h =>
      obtain ⟨s, hs⟩ := Parse.produced_of_ok h
      exact hs.ordered h
  | noted _ faults ih =>
      exact ⟨⟨ih.consistent.shaped, ih.consistent.stored⟩, ih.increasing, ih.natural, ih.closed⟩
  | resolved _ deps builtins ih => exact Resolve.ordered_resolve ih deps builtins

end Scad
