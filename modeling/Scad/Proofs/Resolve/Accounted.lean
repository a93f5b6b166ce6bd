import Mathlib.Tactic.Abel
import Scad.Proofs.Resolve.Comparison.Statement
import Scad.Proofs.Resolve.Complaints
import Scad.Proofs.Resolve.Repeated

/-! What resolution reports: every name that stands for nothing, once, and nothing else. -/
namespace Scad.Resolve

def Environment.signature? (env : Environment) : Signatures :=
  fun b => (env.declaration? b).bind parametersOf

theorem parameters_callee? (env : Environment) (name : String) (b : Binding) :
    (callee? env name b).map (·.parameters) = env.signature? b := by
  rw [callee?_eq, Environment.signature?]
  cases (env.declaration? b).bind parametersOf <;> rfl

/-! ### Findings of a result -/

/-- Of two runs the first alone is followed: unless it is halted, it goes on, and what it
finds is noted. -/
def reporting : Tracking (Multiset Finding) where
  fair p _ := p.halted = false
  leads p _ x q _ := q.halted = false ∧ q.findings = p.findings + x
  fair_of_leads h := h.1
  leads_refl hp := ⟨hp, (add_zero _).symm⟩
  leads_trans h h' := ⟨h'.1, by rw [h'.2, h.2, add_assoc]⟩

theorem Finds.relates {α : Type} {m : Resolving α} {R : α → Multiset Finding → Prop}
    (hm : Finds m R) (m' : Resolving α) : reporting.Relates m m' fun a _ => R a := by
  intro p _ hp
  obtain ⟨hq, found, hfound, hr⟩ := hm p hp
  exact ⟨found, ⟨hq, hfound⟩, hr⟩

/-- What was found on the way to a tree is what is wrong with it, and what a callee lacks of it. A
module name is bound with its call only. -/
structure FindingsMatch (env : Environment) (callee : Option Callee) (n n' : Node)
    (found : Multiset Finding) : Prop where
  kind : n'.kind = n.kind
  free : n'.kind = .moduleName → n'.binding = none
  found : found = allComplaints env.signature? n' + ↑(stray? (callee.map (·.parameters)) n').toList

def accounting (env : Environment) : Comparison (Multiset Finding) where
  toTracking := reporting
  first := env
  second := env
  change := id
  admits := Node.Fresh
  makes callee n n' _ := FindingsMatch env callee n n'
  names b _ n' _ found := n'.binding = some b ∧ found = allComplaints env.signature? n'

section

variable {env : Environment} {callee : Option Callee} {info : Info} {f f' : Form Node} {n n' : Node}
  {ns ns' ns'' : List Node} {found : Multiset Finding}

theorem FindingsMatch.plain (hk : n'.kind = n.kind)
    (hfree : n'.kind = .moduleName → n'.binding = none)
    (hfound : found = allComplaints env.signature? n') : FindingsMatch env none n n' found := by
  refine ⟨hk, hfree, ?_⟩
  rw [hfound]
  exact (add_zero _).symm

theorem FindingsMatch.found_none (h : FindingsMatch env none n n' found) :
    found = allComplaints env.signature? n' := by
  rw [h.found]
  exact add_zero _

theorem FindingsMatch.fresh (h : n.Fresh) : FindingsMatch env none n n 0 :=
  FindingsMatch.plain rfl (fun _ => (h n n.mem_preorder_self).1) (allComplaints_fresh h).symm

theorem found_of_each (h : Each ((accounting env).makes callee) ns ns' ns'' found) :
    found = complaintsOf env.signature? ns' +
      ↑(ns'.filterMap (stray? (callee.map (·.parameters)))) := by
  induction h with
  | nil => rfl
  | @cons n n' _ _ ns' _ _ _ hn _ ih =>
      have hfilter :
        (↑((n' :: ns').filterMap (stray? (callee.map (·.parameters)))) : Multiset Finding) =
          ↑(stray? (callee.map (·.parameters)) n').toList +
          ↑(ns'.filterMap (stray? (callee.map (·.parameters)))) := by
        rw [List.filterMap_cons]
        cases stray? (callee.map (·.parameters)) n' <;> rfl
      rw [hn.found, ih, hfilter, complaintsOf_cons]
      abel

theorem complaints_of_each (h : Each ((accounting env).makes none) ns ns' ns'' found) :
    found = complaintsOf env.signature? ns' := by
  rw [found_of_each h, Option.map_none, filterMap_stray?_none]
  exact add_zero _

theorem kinds_of_each (h : Each ((accounting env).makes callee) ns ns' ns'' found) :
    ns'.map Node.kind = ns.map Node.kind := by
  induction h with
  | nil => rfl
  | cons hn _ ih => rw [List.map_cons, List.map_cons, hn.kind, ih]

/-- Nothing is wrong with a node but what is wrong with its parts. -/
theorem FindingsMatch.of_each (hk : f'.kind = f.kind) (hname : f'.kind ≠ .moduleName)
    (hc : complaints env.signature? ⟨info, f'⟩ = [])
    (h : Each ((accounting env).makes none) f.children f'.children ns'' found) :
    FindingsMatch env none ⟨info, f⟩ ⟨info, f'⟩ found := by
  refine FindingsMatch.plain hk (fun hm => absurd hm hname) ?_
  rw [allComplaints_mk, hc, complaints_of_each h]
  exact (zero_add _).symm

attribute [local simp] Node.children Form.children Form.fields Field.children complaintsOf_nil
  complaintsOf_cons

theorem isSilent_of_isPassive {k : Kind} (hk : k.isPassive) (hhead : k ≠ .moduleHead) :
    k.isSilent := by
  cases k <;> first | rfl | exact absurd rfl hhead | cases hk

theorem FindingsMatch.passive (hf : f.kind.isPassive) (hk : f'.kind = f.kind)
    (h : Each ((accounting env).makes none) f.children f'.children ns'' found) :
    FindingsMatch env none ⟨info, f⟩ ⟨info, f'⟩ found := by
  rw [← hk] at hf
  by_cases hhead : f'.kind = .moduleHead
  · refine FindingsMatch.of_each hk (fun hm => by rw [hm] at hhead; cases hhead) ?_ h
    cases f' <;> cases hhead
    cases f <;> cases hk
    simp at h
    cases h with
    | cons hm _ => exact complaints_moduleHead_free hm.free
  · refine FindingsMatch.of_each hk (fun hm => by rw [hm] at hf; cases hf) ?_ h
    exact complaints_silent (isSilent_of_isPassive hf hhead)

theorem FindingsMatch.call {t t' : Node} {ss ss' : List Node} (hi : Indirect t ss)
    (h : Each ((accounting env).makes none) (t :: ss) (t' :: ss') ns'' found) :
    FindingsMatch env none ⟨info, .call t ss⟩ ⟨info, .call t' ss'⟩ found := by
  refine FindingsMatch.of_each rfl (by rintro ⟨⟩) (complaints_call_other ?_) (by simpa using h)
  rintro ⟨hkind, hhead⟩
  have hkinds := kinds_of_each h
  rw [List.map_cons, List.map_cons, List.cons_eq_cons] at hkinds
  obtain ⟨k, hk, hne⟩ := hi (hkinds.1 ▸ hkind)
  rw [← List.head?_map, hkinds.2, hk] at hhead
  exact hne (Option.some.inj hhead)

theorem FindingsMatch.applied {b : Binding} {ti si : Info} {name : String} {t : Node} {s : Node}
    {as as' as'' ss ss' ss'' : List Node} {x y z : Multiset Finding} (hb : ti.binding = some b)
    (hx : x = allComplaints env.signature? ⟨ti, .variableRef name⟩)
    (hy : Each ((accounting env).makes (callee? env name b)) as as' as'' y)
    (hz : Each ((accounting env).makes none) ss ss' ss'' z) :
    FindingsMatch env none ⟨info, .call t (s :: ss)⟩ ⟨info,
      .call ⟨ti, .variableRef name⟩ (⟨si, .callSuffix as'⟩ :: ss')⟩ (x + (y + z)) := by
  refine FindingsMatch.plain rfl (by rintro ⟨⟩) ?_
  rw [hx, found_of_each hy, complaints_of_each hz, parameters_callee?, allComplaints_mk info]
  simp [allComplaints_silent, Form.kind, Kind.isSilent, complaints, hb, complaintsOf_cons]
  abel

theorem FindingsMatch.head {b : Binding} {mi : Info} {name : String} {m : Node}
    {as as' as'' : List Node} {x y : Multiset Finding} (hb : mi.binding = some b)
    (hx : x = allComplaints env.signature? ⟨mi, .moduleName name⟩)
    (hy : Each ((accounting env).makes (callee? env name b)) as as' as'' y) :
    FindingsMatch env none ⟨info, .moduleHead m as⟩ ⟨info, .moduleHead ⟨mi, .moduleName name⟩ as'⟩
      (x + y) := by
  refine FindingsMatch.plain rfl (by rintro ⟨⟩) ?_
  rw [hx, found_of_each hy, parameters_callee?, allComplaints_mk info]
  simp [complaints, hb, complaintsOf_cons]
  abel

theorem sound_accounting (env : Environment) : (accounting env).Sound where
  origin := rfl
  id_change _ := rfl
  child h hc := h.child hc
  same h := FindingsMatch.fresh h
  unlabelled {callee _ n' _ _} hn h := by
    refine ⟨h.kind, h.free, ?_⟩
    rw [h.found_none, stray?_other fun info ni name e heq => hn ⟨info, ni, name, e, heq⟩]
    exact (add_zero _).symm
  node hf hk _ h := FindingsMatch.passive hf hk h
  call hi h := FindingsMatch.call hi h
  label callee ni name :=
    ((Finds.bindArgument callee ni name).relates _).mono fun ni' _ y hy info e e' _ x hx => by
    refine ⟨rfl, by rintro ⟨⟩, ?_⟩
    rw [hx.found_none, hy info e', allComplaints_silent rfl]
    simp [allComplaints_mk, complaints]
  reference c scope name info :=
    ((Finds.bindReference info name c.noun _).relates _).mono fun info' _ y hy => by
    refine ⟨hy.1, ?_⟩
    rw [hy.2, allComplaints_mk]
    cases c <;> exact (add_zero _).symm
  callee _ _ _ := rfl
  builtin info name := ((Finds.assign info .builtin).relates _).mono fun info' _ y hy => by
    obtain ⟨rfl, rfl⟩ := hy
    refine ⟨rfl, ?_⟩
    have hname : unresolved { info with binding := some .builtin } name = [] :=
      if_neg (by rintro ⟨⟩)
    simp [allComplaints_mk, complaints, hname]
  variableRef h := FindingsMatch.plain rfl (by rintro ⟨⟩) h.2
  applied h hy hz := FindingsMatch.applied h.1 h.2 hy hz
  head h hy := FindingsMatch.head h.1 h.2 hy
  halt h := absurd rfl ((Node.fresh_mk.1 h).1.2 _)

end

/-! ### Documents -/

theorem fresh_of_ok {tokens : List Token} {origin : Option String} {p : Parse.Parsed}
    (h : parse tokens origin = .ok p) : ∀ n ∈ p.document.statements, n.Fresh := by
  obtain ⟨s, hs⟩ := Parse.produced_of_ok h
  intro n hn m hm
  have hwalk : m ∈ p.document.walk := by
    exact Node.mem_walkFrom.2 ⟨n, hn, hm⟩
  refine ⟨hs.tally.free m (hs.made hwalk), fun t hf => ?_⟩
  have hshaped := (Document.allShaped (shaped_of_ok h) hwalk).self
  rw [hf] at hshaped
  exact hshaped.2.1 rfl

section

variable {d : Document} (deps : Dependencies) (builtins : Option Builtins)

theorem holds_own (d : Document) : Holds (importAll deps d).documents d := by
  obtain ⟨more, hmore⟩ := (importAll_foreign deps d).2
  rw [Holds, ← hmore]
  simp

/-- The parameters of the definition that a binding of the resolved document leads to. -/
def signatureAt (d : Document) : Signatures :=
  fun b => (declarationAt deps d builtins b).bind parametersOf

/-- A node of the resolved document has the parameters that it had before. -/
theorem parametersOf_resolved (hd : d.Consistent) (id : Int) :
    ((resolve d deps builtins).document.arena.get? id).bind parametersOf =
      (d.arena.get? id).bind parametersOf := by
  refine (congrArg (·.bind parametersOf) (Arena.get?_refresh d.arena
    (Node.walkFrom (resolve d deps builtins).document.statements) id)).trans ?_
  cases hf : (Node.walkFrom (resolve d deps builtins).document.statements).reverse.find?
    (·.id = id) with
  | none => cases d.arena.get? id <;> rfl
  | some m' =>
      have hid : m'.id = id := by simpa using List.find?_some hf
      obtain ⟨m, hm, hu⟩ := Node.mem_walkFrom_of_unbound (resolve_bound hd.shaped deps builtins).2.1
        (List.mem_reverse.1 (List.mem_of_find?_eq_some hf))
      have hstored := hd.stored m hm
      rw [← Node.id_unbound, hu, Node.id_unbound, hid] at hstored
      rw [hstored, Option.map_some, Option.getD_some, Option.bind_some, Option.bind_some]
      rw [← parametersOf_unbound, ← hu, parametersOf_unbound]

theorem signatureAt_eq (hd : d.Consistent) :
    signatureAt deps builtins d = (environment deps d builtins).signature? := by
  funext b
  rw [signatureAt, declarationAt, Environment.signature?, Environment.declaration?]
  cases b.origin with
  | none => cases b.target <;> rfl
  | some origin =>
      cases b.target with
      | none => rfl
      | some target =>
          show ((documentAt deps d builtins origin).bind (·.arena.get? target)).bind parametersOf =
            ((((importAll deps d).documents.find? (·.1 = origin)).map (·.2)).bind
            (·.arena.get? target)).bind parametersOf
          rw [documentAt]
          split
          · rename_i ho
            rw [ho, show (importAll deps d).documents.find? (·.1 = d.origin) = _
              from holds_own deps d]
            exact parametersOf_resolved deps builtins hd target
          · rfl

/-- Exactly the names that stand for nothing are reported, each of them once. -/
theorem resolve_reports_unresolved (hd : IsParsed d) :
    ((resolve d deps builtins).document.bindingErrors.map fun e => (e.span, e.fault)).Perm
      ((resolve d deps builtins).document.walk.flatMap
        (complaints (signatureAt deps builtins d))) := by
  have hconsistent := hd.consistent
  obtain ⟨tokens, origin, p, hp, rfl⟩ := hd
  obtain ⟨found, ⟨-, hfound⟩, hresult⟩ :=
    (sound_accounting (environment deps p.document builtins)).compares_statements
    p.document.statements (fresh_of_ok hp) (hoistAll (environment deps p.document builtins)
      (Scope.enter [(importAll deps p.document).frame]) p.document.statements) ⟨[], false⟩
      ⟨[], false⟩ rfl
  rw [signatureAt_eq deps builtins hconsistent, ← Multiset.coe_eq_coe]
  refine hfound.trans ?_
  rw [complaints_of_each hresult.related, complaintsOf_eq]
  exact zero_add _

end

/-- Calls with arguments that their callees have, and that they do not have. -/
def strayCalls : List Token × List Token :=
  ((tokenize
    "use <q>\nmodule m(a) cube(a);\nm(a = x, b = 1, $c = 2);\nn(d = f(s = g(t = 1), u = 2));"
    "p").tokens, (tokenize "function f(s) = s;" "q").tokens)

theorem resolve_reports_strayCalls : ∃ p q,
    parse strayCalls.1 none = .ok p ∧ parse strayCalls.2 none = .ok q ∧
    (resolve p.document [("q", q.document)] none).document.bindingErrors.map Diagnostic.fault =
      [.unbound "cube", .unbound "x", .unbound "b", .unbound "n", .unbound "g", .unbound "u"] ∧
    ((resolve p.document [("q", q.document)] none).document.bindingErrors.map fun e =>
      (e.span, e.fault)).Perm ((resolve p.document [("q", q.document)] none).document.walk.flatMap
        (complaints (signatureAt [("q", q.document)] none p.document))) := by
  have hok : (parse strayCalls.1 none).isOk ∧ (parse strayCalls.2 none).isOk ∧
      ((parse strayCalls.1 none).toOption.bind fun p =>
      (parse strayCalls.2 none).toOption.map fun q =>
        (resolve p.document [("q", q.document)] none).document.bindingErrors.map Diagnostic.fault) =
      some [.unbound "cube", .unbound "x", .unbound "b", .unbound "n", .unbound "g",
      .unbound "u"] := by
    rw [strayCalls, tokens_ofList, tokens_ofList]
    decide +kernel
  obtain ⟨p, hp⟩ := Parse.exists_of_isOk hok.1
  obtain ⟨q, hq⟩ := Parse.exists_of_isOk hok.2.1
  have hfaults := hok.2.2
  rw [hp, hq] at hfaults
  exact ⟨p, q, hp, hq, Option.some.inj hfaults, resolve_reports_unresolved _ _ ⟨_, _, p, hp, rfl⟩⟩

end Scad.Resolve
