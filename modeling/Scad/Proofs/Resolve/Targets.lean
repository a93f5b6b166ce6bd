import Scad.Proofs.Parse.Arena
import Scad.Proofs.Resolve.Sources

/-! Every reference is bound, and every binding to a declaration leads to one of its
kind and name. -/
namespace Scad

/-! ### Nodes by their ids -/

namespace Arena

theorem get?_refresh (a : Arena) (ns : List Node) (id : Int) :
    (a.refresh ns).get? id = (a.get? id).map (ns.reverse.find? (·.id = id)).getD := by
  rw [get?, refresh, List.find?_map, Option.map_map, get?, Option.map_map]
  show (a.entries.find? (·.1 = id)).map _ = _
  cases hf : a.entries.find? (·.1 = id) with
  | none => rfl
  | some e =>
      have he : e.1 = id := by simpa using List.find?_some hf
      rw [← he]
      rfl

end Arena

namespace Parse

theorem consistent_of_ok {tokens : List Token} {origin : Option String} {p : Parsed}
    (h : parse tokens origin = .ok p) : p.document.Consistent := by
  obtain ⟨s, hs⟩ := produced_of_ok h
  refine ⟨Resolve.shaped_of_ok h, fun n hn => ?_⟩
  rw [hs.arena]
  exact Arena.get?_ofMade hs.numbered (hs.made hn)

end Parse

namespace Resolve

open Exports (Sound)

section

variable (deps : Dependencies) (d : Document) (builtins : Option Builtins)

/-- The document of an origin: the resolved one, or a dependency that was exported. -/
def documentAt (origin : String) : Option Document :=
  if origin = d.origin then some (resolve d deps builtins).document
  else ((importAll deps d).documents.find? (·.1 = origin)).map (·.2)

def declarationAt (b : Binding) : Option Node := do
  let origin ← b.origin
  let target ← b.target
  (← documentAt deps d builtins origin).arena.get? target

end

section

variable {d : Document} {deps : Dependencies} {builtins : Option Builtins} (hd : d.Consistent)
  (hdeps : ∀ e ∈ deps.map Prod.snd, e.Consistent)

include hd hdeps

theorem imported :
    Sound (fun e => e.Consistent ∧ (e = d ∨ e ∈ deps.map Prod.snd)) (importAll deps d) ∧
    Holds (importAll deps d).documents d := by
  have hown : Holds [(d.origin, d)] d := by simp [Holds]
  refine And.imp_right hown.mono (importAll_sound (fun e he => ?_) (fun _ h => h.1) ?_)
  · exact ⟨hdeps e he, .inr he⟩
  · exact ⟨hd, .inl rfl⟩

theorem sources_points : Sources deps d builtins (Points (importAll deps d).documents) := by
  constructor
  · intro m hm e he
    obtain ⟨m', hm', hu⟩ :=
      Node.mem_walkFrom_of_unbound (resolve_bound hd.shaped deps builtins).2.1 hm
    rw [← declaration?_unbound, ← hu, declaration?_unbound] at he
    exact ⟨d, m', e, (imported hd hdeps).2, hm', he, rfl, rfl⟩
  · exact (imported hd hdeps).1.points

theorem consistent_of_holds {e : Document} (he : Holds (importAll deps d).documents e) :
    e.Consistent :=
  ((imported hd hdeps).1.documents _ (List.mem_of_find?_eq_some he)).2.1

theorem declaration?_binding {e : Document} {m : Node} {b : Declaration}
    (he : Holds (importAll deps d).documents e) (hm : m ∈ e.walk) (hb : m.declaration? = some b) :
    (environment deps d builtins).declaration? (b.binding e.origin) = some m := by
  show (((importAll deps d).documents.find? (·.1 = e.origin)).map (·.2)).bind
    (·.arena.get? b.id) = some m
  rw [show (importAll deps d).documents.find? (·.1 = e.origin) = _ from he,
    ← (Node.declares_of_declaration? hb).2.2]
  exact (consistent_of_holds hd hdeps he).stored m hm

/-- A definition's parameters are declared in the document of the definition. -/
theorem points_parameter {c : Binding} {other name : String} {id : Int} {f : Node}
    {ps : List (String × Int)} (hc : Points (importAll deps d).documents c other)
    (hf : (environment deps d builtins).declaration? c = some f) (hps : parametersOf f = some ps)
    (hid : (name, id) ∈ ps) :
    Points (importAll deps d).documents ⟨.parameterDef, some id, c.origin⟩ name := by
  obtain ⟨e, m, b, he, hm, hdecl, -, rfl⟩ := hc
  obtain rfl : m = f := Option.some.inj ((declaration?_binding hd hdeps he hm hdecl).symm.trans hf)
  have hshaped := Document.allShaped (consistent_of_holds hd hdeps he).shaped hm
  obtain ⟨q, hq, hdq⟩ := mem_parametersOf hps hshaped.self hid
  exact ⟨e, q, _, he, Node.child_mem_walkFrom hm hq, hdq, rfl, rfl⟩

omit hdeps in
/-- The arena of the resolved document holds the same nodes, bound. -/
theorem get?_resolved {m : Node} (hm : m ∈ d.walk) :
    ∃ m', (resolve d deps builtins).document.arena.get? m.id = some m' ∧
      m'.unbound = m.unbound := by
  have hrefresh := Arena.get?_refresh d.arena
    (Node.walkFrom (resolve d deps builtins).document.statements) m.id
  rw [hd.stored m hm, Option.map_some] at hrefresh
  refine ⟨_, hrefresh, ?_⟩
  cases hf : (Node.walkFrom (resolve d deps builtins).document.statements).reverse.find?
    (·.id = m.id) with
  | none => rfl
  | some m' =>
      have hid : m'.id = m.id := by simpa using List.find?_some hf
      obtain ⟨m'', hm'', hu⟩ :=
        Node.mem_walkFrom_of_unbound (resolve_bound hd.shaped deps builtins).2.1
        (List.mem_reverse.1 (List.mem_of_find?_eq_some hf))
      -- Ids tell the nodes of the document apart.
      have hsame : m''.id = m.id := by rw [← Node.id_unbound, hu, Node.id_unbound, hid]
      have hstored := hd.stored m'' hm''
      rw [hsame, hd.stored m hm] at hstored
      rw [Option.getD_some, ← hu, Option.some.inj hstored]

theorem declarationAt_of_points {b : Binding} {name : String}
    (h : Points (importAll deps d).documents b name) :
    ∃ m m', (environment deps d builtins).declaration? b = some m ∧
      declarationAt deps d builtins b = some m' ∧ m'.unbound = m.unbound ∧
      b.kind.declares = some m.kind ∧ m.name? = some name := by
  obtain ⟨e, m, b, he, hm, hdecl, rfl, rfl⟩ := h
  obtain ⟨hkind, hname, hid⟩ := Node.declares_of_declaration? hdecl
  have hfound : (environment deps d builtins).declaration? (b.binding e.origin) = some m :=
    declaration?_binding hd hdeps he hm hdecl
  by_cases ho : e.origin = d.origin
  · obtain rfl : e = d := he.unique (imported hd hdeps).2 ho
    obtain ⟨m', hm', hu⟩ : ∃ m', (resolve e deps builtins).document.arena.get? m.id = some m' ∧ _ :=
      get?_resolved hd hm
    refine ⟨m, m', hfound, ?_, hu, hkind, hname⟩
    show (documentAt deps e builtins e.origin).bind (·.arena.get? b.id) = some m'
    rw [documentAt, if_pos rfl, ← hid]
    exact hm'
  · refine ⟨m, m, hfound, ?_, rfl, hkind, hname⟩
    show (documentAt deps d builtins e.origin).bind (·.arena.get? b.id) = some m
    rw [documentAt, if_neg ho]
    exact hfound

theorem documentAt_origin {origin : String} {e : Document}
    (h : documentAt deps d builtins origin = some e) :
    e.origin = origin ∧ (e = (resolve d deps builtins).document ∨ e ∈ deps.map Prod.snd) := by
  unfold documentAt at h
  split at h
  · rename_i ho
    cases h
    exact ⟨ho.symm, .inl rfl⟩
  · rename_i ho
    obtain ⟨x, hx, rfl⟩ := Option.map_eq_some_iff.1 h
    obtain ⟨hx1, -, hmem⟩ := (imported hd hdeps).1.documents x (List.mem_of_find?_eq_some hx)
    have hfound : x.1 = origin := by simpa using List.find?_some hx
    refine ⟨hx1.symm.trans hfound, .inr (hmem.resolve_left fun hown => ho ?_)⟩
    rw [← hfound, hx1, hown]

end

section

variable (deps : Dependencies) (d : Document) (builtins : Option Builtins)

/-- A binding leads nowhere, or to a declaration of its kind and of a name. -/
structure LeadsTo (b : Binding) (name : Option String) : Prop where
  free : b.kind.declares = none → b.target = none ∧ b.origin = none
  declared : ∀ k, b.kind.declares = some k →
    ∃ m, declarationAt deps d builtins b = some m ∧ m.kind = k ∧ m.name? = name

/-- The name of an argument leads to a parameter of the very definition that the callee leads to. -/
def LeadsToParameter (l : Node) (b : Binding) : Prop :=
  ∃ callee c f ps name id, IsLabelOf (resolve d deps builtins).document.statements callee l ∧
    callee.binding = some c ∧ declarationAt deps d builtins c = some f ∧ parametersOf f = some ps ∧
    l.name? = some name ∧ (name, id) ∈ ps ∧ b.target = some id ∧ b.origin = c.origin

end

section

variable {d : Document} {deps : Dependencies} {builtins : Option Builtins} (hd : d.Consistent)
  (hdeps : ∀ e ∈ deps.map Prod.snd, e.Consistent)

include hd hdeps

theorem leadsTo_of_named {b : Binding} {name : String}
    (h : Named (Points (importAll deps d).documents) b name) :
    LeadsTo deps d builtins b (some name) := by
  rcases h with hpoints | hfree
  · obtain ⟨m, m', -, hm', hu, hkind, hname⟩ := declarationAt_of_points hd hdeps hpoints
    refine ⟨fun hnone => ?_, fun k hk => ⟨m', hm', ?_, ?_⟩⟩
    · rw [hkind] at hnone
      cases hnone
    · rw [← Node.kind_unbound, hu, Node.kind_unbound]
      exact Option.some.inj (hkind.symm.trans hk)
    · rw [← Node.name?_unbound, hu, Node.name?_unbound, hname]
  · refine ⟨fun _ => ⟨hfree.target, hfree.origin⟩, fun k hk => ?_⟩
    rw [hfree.kind] at hk
    cases hk

theorem references_sound {n : Node} (hn : n ∈ (resolve d deps builtins).document.references) :
    ∃ b, n.binding = some b ∧ LeadsTo deps d builtins b n.name? ∧
      (n.kind = .argumentName → b.kind = .parameterDef → LeadsToParameter deps d builtins n b) := by
  obtain ⟨hwalk, href⟩ := List.mem_filter.1 hn
  obtain ⟨v, hv⟩ := Stands.of_mem_walk hwalk
  obtain ⟨info, form⟩ := n
  cases form <;> try cases href
  case variableRef name =>
    obtain ⟨b, hb, hnamed⟩ := named_name hd.shaped (sources_points hd hdeps) hv (.inl rfl)
    exact ⟨b, hb, leadsTo_of_named hd hdeps hnamed, nofun⟩
  case moduleName name =>
    obtain ⟨b, hb, hnamed⟩ := named_name hd.shaped (sources_points hd hdeps) hv (.inr rfl)
    exact ⟨b, hb, leadsTo_of_named hd hdeps hnamed, nofun⟩
  case argumentName name =>
    obtain ⟨b, hb, hfree | ⟨callee, c, f, ps, id, hlabel, hcb, ⟨other, hc⟩, hf, hps, hid, rfl⟩⟩ :=
      named_label hd.shaped (sources_points hd hdeps) hv rfl
    · refine ⟨b, hb, leadsTo_of_named hd hdeps (.inr hfree), fun _ hk => ?_⟩
      have hnone := hfree.kind
      rw [hk] at hnone
      cases hnone
    · refine ⟨_, hb, leadsTo_of_named hd hdeps (.inl (points_parameter hd hdeps hc hf hps hid)),
        fun _ _ => ?_⟩
      obtain ⟨m, f', hm, hf', hu, -⟩ := declarationAt_of_points hd hdeps hc
      obtain rfl : f = m := Option.some.inj (hf.symm.trans hm)
      rw [← parametersOf_unbound, ← hu, parametersOf_unbound] at hps
      exact ⟨callee, c, f', ps, name, id, hlabel, hcb, hf', hps, rfl, hid, rfl, rfl⟩

end

def IsParsed (d : Document) : Prop :=
  ∃ tokens origin p, parse tokens origin = .ok p ∧ p.document = d

theorem IsParsed.consistent {d : Document} (h : IsParsed d) : d.Consistent := by
  obtain ⟨tokens, origin, p, hp, rfl⟩ := h
  exact Parse.consistent_of_ok hp

/-- The work comes to its end, whatever documents refer to each other, and binds every reference
soundly. -/
theorem resolve_binds_soundly {d : Document} {deps : Dependencies} (hd : IsParsed d)
    (hdeps : ∀ e ∈ deps.map Prod.snd, IsParsed e) (builtins : Option Builtins) :
    (resolve d deps builtins).halted = false ∧
    (∀ e ∈ deps.map Prod.snd, ∀ withVariables x k,
      exportFrom deps withVariables (deps.length + k) e x =
        exportFrom deps withVariables deps.length e x) ∧
    (∀ origin e, documentAt deps d builtins origin = some e →
      e.origin = origin ∧ (e = (resolve d deps builtins).document ∨ e ∈ deps.map Prod.snd)) ∧
    ∀ n ∈ (resolve d deps builtins).document.references, ∃ b, n.binding = some b ∧
      LeadsTo deps d builtins b n.name? ∧
      (n.kind = .argumentName → b.kind = .parameterDef → LeadsToParameter deps d builtins n b) := by
  have hdeps' : ∀ e ∈ deps.map Prod.snd, e.Consistent := fun e he => (hdeps e he).consistent
  refine ⟨(resolve_bound hd.consistent.shaped deps builtins).1, fun e he withVariables x k => ?_,
    fun origin e h => documentAt_origin hd.consistent hdeps' h,
    fun n hn => references_sound hd.consistent hdeps' hn⟩
  exact exportFrom_add he (card_unseen_le deps x) k

/-- Two files that include each other, and a text that takes names from both. -/
def circle : List Token × List Token × List Token :=
  ((tokenize "include <q>\nuse <r>\nmodule m(w) cube(w);\nm(w = f(y = z), v = g(1));" "p").tokens,
    (tokenize "include <r>\nz = 1; function f(y) = y + z;" "q").tokens,
    (tokenize "include <q>\nfunction g(t) = t;" "r").tokens)

theorem resolve_binds_circle : ∃ p q r,
    parse circle.1 none = .ok p ∧ parse circle.2.1 none = .ok q ∧ parse circle.2.2 none = .ok r ∧
    (resolve p.document [("q", q.document), ("r", r.document)] none).halted = false ∧
    ∀ n ∈ (resolve p.document [("q", q.document), ("r", r.document)] none).document.references,
      ∃ b, n.binding = some b ∧ LeadsTo [("q", q.document), ("r", r.document)] p.document none
        b n.name? := by
  have hok : (parse circle.1 none).isOk ∧ (parse circle.2.1 none).isOk ∧
      (parse circle.2.2 none).isOk := by
    rw [circle, tokens_ofList, tokens_ofList, tokens_ofList]
    decide +kernel
  obtain ⟨p, hp⟩ := Parse.exists_of_isOk hok.1
  obtain ⟨q, hq⟩ := Parse.exists_of_isOk hok.2.1
  obtain ⟨r, hr⟩ := Parse.exists_of_isOk hok.2.2
  have hdeps : ∀ e ∈ [("q", q.document), ("r", r.document)].map Prod.snd, IsParsed e := by
    intro e he
    rcases List.mem_cons.1 he with rfl | he
    · exact ⟨_, _, q, hq, rfl⟩
    · cases List.mem_singleton.1 he
      exact ⟨_, _, r, hr, rfl⟩
  obtain ⟨hhalted, -, -, hbound⟩ := resolve_binds_soundly ⟨_, _, p, hp, rfl⟩ hdeps none
  refine ⟨p, q, r, hp, hq, hr, hhalted, fun n hn => ?_⟩
  obtain ⟨b, hb, hleads, -⟩ := hbound n hn
  exact ⟨b, hb, hleads⟩

end Resolve

end Scad
