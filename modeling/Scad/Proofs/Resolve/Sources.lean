import Scad.Proofs.Resolve.Document
import Scad.Proofs.Resolve.Exports

/-! Where bindings come from: a reference is bound to a declaration of its document, to what a file
reference brought in, to a parameter of its callee, or to nothing. -/
namespace Scad

def BindingKind.declares : BindingKind → Option Kind
  | variableDef => some .variableDefinition
  | parameterDef => some .parameter
  | functionDef => some .functionDefinition
  | moduleDef => some .moduleDefinition
  | builtin | special | unresolved => none

theorem Node.declares_of_declaration? {m : Node} {e : Declaration} (h : m.declaration? = some e) :
    e.kind.declares = some m.kind ∧ m.name? = some e.name ∧ m.id = e.id := by
  obtain ⟨info, form⟩ := m
  cases form <;> cases h <;> exact ⟨rfl, rfl, rfl⟩

theorem Node.AllShaped.preorder {spelling : Spelling} {n m : Node} (h : n.AllShaped spelling)
    (hm : m ∈ n.preorder) : m.AllShaped spelling := by
  induction n using Node.ofChildren with
  | h n ih =>
      rw [Node.preorder_eq] at hm
      rcases List.mem_cons.1 hm with rfl | hm
      · exact h
      · obtain ⟨c, hc, hm⟩ := List.mem_flatMap.1 hm
        exact ih c hc (h.child hc) hm

theorem Node.allShaped_of_mem_walkFrom {spelling : Spelling} {top : List Node}
    (h : ∀ n ∈ top, n.AllShaped spelling) {n : Node} (hn : n ∈ walkFrom top) :
    n.AllShaped spelling := by
  obtain ⟨s, hs, hn⟩ := mem_walkFrom.1 hn
  exact (h s hs).preorder hn

theorem Document.allShaped {d : Document}
    (hd : ∀ n ∈ d.statements, n.AllShaped .any ∧ n.kind.isStatement) {n : Node} (hn : n ∈ d.walk) :
    n.AllShaped .any :=
  Node.allShaped_of_mem_walkFrom (fun s hs => (hd s hs).1) hn

/-- Statements that differ in bindings are shaped alike. -/
theorem shaped_of_unbound {ns ns' : List Node} (h : ns'.map Node.unbound = ns.map Node.unbound)
    (hs : ∀ n ∈ ns, n.AllShaped .any ∧ n.kind.isStatement) :
    ∀ n ∈ ns', n.AllShaped .any ∧ n.kind.isStatement := by
  intro n hn
  have hmem := List.mem_map_of_mem (f := Node.unbound) hn
  rw [h] at hmem
  obtain ⟨m, hm, hu⟩ := List.mem_map.1 hmem
  obtain ⟨hshaped, hkind⟩ := hs m hm
  rw [← Node.allShaped_unbound, hu, Node.allShaped_unbound] at hshaped
  rw [← Node.kind_unbound, hu, Node.kind_unbound] at hkind
  exact ⟨hshaped, hkind⟩

namespace Resolve

structure LeadsNowhere (b : Binding) : Prop where
  kind : b.kind.declares = none
  target : b.target = none
  origin : b.origin = none

theorem leadsNowhere_builtin : LeadsNowhere .builtin := ⟨rfl, rfl, rfl⟩

theorem leadsNowhere_special : LeadsNowhere .special := ⟨rfl, rfl, rfl⟩

theorem leadsNowhere_unresolved : LeadsNowhere .unresolved := ⟨rfl, rfl, rfl⟩

/-- The name of an argument is bound to a parameter of the definition behind the callee, or
to nothing. -/
theorem labelRule_cases (env : Environment) (callee : Option Binding) (name : String) :
    LeadsNowhere (labelRule env callee name) ∨ ∃ c f ps id, callee = some c ∧
    env.declaration? c = some f ∧
      parametersOf f = some ps ∧ (name, id) ∈ ps ∧
      labelRule env callee name = ⟨.parameterDef, some id, c.origin⟩ := by
  rw [labelRule]
  cases hx : callee.bind fun c => ((env.declaration? c).bind parametersOf).map
    (parameterRule c.origin · name) with
  | none => exact .inl leadsNowhere_unresolved
  | some b =>
      obtain ⟨c, rfl, hc⟩ := Option.bind_eq_some_iff.1 hx
      obtain ⟨ps, hps, rfl⟩ := Option.map_eq_some_iff.1 hc
      obtain ⟨f, hf, hps⟩ := Option.bind_eq_some_iff.1 hps
      rw [Option.getD_some, parameterRule]
      split
      · rename_i other id hfind
        have hname : other = name := by simpa using List.find?_some hfind
        have hmem := List.mem_reverse.1 (List.mem_of_find?_eq_some hfind)
        exact .inr ⟨c, f, ps, id, rfl, hf, hps, hname ▸ hmem, rfl⟩
      · left
        split
        · exact leadsNowhere_special
        · exact leadsNowhere_unresolved

theorem mem_parametersOf {f : Node} {ps : List (String × Int)} (h : parametersOf f = some ps)
    (hf : f.form.Shaped .any) {name : String} {id : Int} (hx : (name, id) ∈ ps) :
    ∃ q ∈ f.children, q.declaration? = some ⟨.parameterDef, name, id⟩ := by
  have hparameter : ∀ qs : List Node, (∀ q ∈ qs, q.kind = .parameter) →
      (name, id) ∈ qs.map (fun q => (q.name?.getD "", q.id)) →
      ∃ q ∈ qs, q.declaration? = some ⟨.parameterDef, name, id⟩ := by
    intro qs hqs hx
    obtain ⟨⟨info, form⟩, hq, heq⟩ := List.mem_map.1 hx
    have hk := hqs _ hq
    cases form <;> try cases hk
    cases heq
    exact ⟨_, hq, rfl⟩
  unfold parametersOf at h
  split at h
  · rename_i hform
    cases h
    rw [hform] at hf
    obtain ⟨q, hq, hd⟩ := hparameter _ hf.1 hx
    exact ⟨q, by simp [Node.children, hform, Form.children, Form.fields, Field.children, hq], hd⟩
  · rename_i hform
    cases h
    rw [hform] at hf
    obtain ⟨q, hq, hd⟩ := hparameter _ hf.1 hx
    exact ⟨q, by simp [Node.children, hform, Form.children, Form.fields, Field.children, hq], hd⟩
  · cases h

theorem parametersOf_unbound (n : Node) : parametersOf n.unbound = parametersOf n := by
  obtain ⟨info, form⟩ := n
  rw [Node.unbound_mk]
  have hlist : ∀ ps : List Node, (ps.map Node.unbound).map (fun p => (p.name?.getD "", p.id)) =
      ps.map fun p => (p.name?.getD "", p.id) := by
    intro ps
    simp [Function.comp_def, Node.name?_unbound, Node.id_unbound]
  cases form with
  | moduleDefinition name ps b => exact congrArg some (hlist ps)
  | functionDefinition name ps e => exact congrArg some (hlist ps)
  | _ => rfl

/-- Bindings of names that `P` says something of: those to declarations of the resolved document,
and those that come from other documents. -/
structure Sources (deps : Dependencies) (d : Document) (builtins : Option Builtins)
    (P : Binding → String → Prop) : Prop where
  declared : ∀ m ∈ (resolve d deps builtins).document.walk, ∀ e, m.declaration? = some e →
    P (e.binding d.origin) e.name
  imported : ∀ c name b, ((importAll deps d).frame.table c).lookup name = some b → P b name

def Named (P : Binding → String → Prop) (b : Binding) (name : String) : Prop :=
  P b name ∨ LeadsNowhere b

section

variable {P : Binding → String → Prop}

theorem named_getD {name : String} {found : Option Binding} {b : Binding}
    (h : ∀ c ∈ found, P c name) (hb : LeadsNowhere b) : Named P (found.getD b) name := by
  cases found with
  | none => exact .inr hb
  | some c => exact .inl (h c rfl)

namespace Sources

variable {d : Document} {deps : Dependencies} {builtins : Option Builtins}
  (hs : Sources deps d builtins P)

include hs

/-- What is found in the document, and then in the library. -/
theorem or {c : NameClass} {found : Option Declaration} {name : String}
    (h : ∀ e ∈ found, P (e.binding d.origin) name) :
    ∀ b ∈ (found.map (·.binding d.origin)).or (((importAll deps d).frame.table c).lookup name),
      P b name := by
  intro b hb
  cases found with
  | none => exact hs.imported c name b hb
  | some e =>
      cases hb
      exact h e rfl

theorem nearest {v : View} {n : Node}
    (hn : Stands (resolve d deps builtins).document.statements v n) (name : String) :
    ∀ e ∈ v.nearest? name, P (e.binding d.origin) name := by
  intro e he
  obtain ⟨hv, hname⟩ := List.mem_filter.1 (List.mem_of_getLast? he)
  obtain ⟨m, hm, hdecl⟩ := hn.declared_of_vars hv
  have heq : e.name = name := by simpa using hname
  exact heq ▸ hs.declared m hm e hdecl

theorem definition {v : View} {n : Node}
    (hn : Stands (resolve d deps builtins).document.statements v n) (kind : BindingKind)
    (name : String) : ∀ e ∈ v.definition? kind name, P (e.binding d.origin) name := by
  intro e he
  obtain ⟨ds, hds, he⟩ := List.exists_of_findSome?_eq_some he
  obtain ⟨hv, hname⟩ := List.mem_filter.1 (List.mem_of_getLast? he)
  obtain ⟨m, hm, hdecl⟩ := hn.declared_of_lists hds hv
  have heq : e.name = name := by simp_all
  exact heq ▸ hs.declared m hm e hdecl

end Sources

end

/-- What a call names is a reference. -/
theorem callee_name {top : List Node} (htop : ∀ n ∈ top, n.AllShaped .any ∧ n.kind.isStatement)
    {callee l : Node} (h : IsLabelOf top callee l) :
    ∃ v name, Stands top v callee ∧ (callee.form = .variableRef name ∨
      callee.form = .moduleName name) := by
  obtain ⟨a, e, ⟨c, hc, as, hcalls, -⟩, -⟩ := h
  cases hcalls with
  | function hf hs hk =>
      have hchild : callee ∈ c.children := by
        simp [Node.children, hf, Form.children, Form.fields, Field.children]
      obtain ⟨v, hv⟩ := Stands.of_mem_walk (Node.child_mem_walkFrom hc hchild)
      obtain ⟨info, form⟩ := callee
      cases form <;> try cases hk
      exact ⟨v, _, hv, .inl rfl⟩
  | module hf =>
      have hchild : callee ∈ c.children := by
        simp [Node.children, hf, Form.children, Form.fields, Field.children]
      obtain ⟨v, hv⟩ := Stands.of_mem_walk (Node.child_mem_walkFrom hc hchild)
      have hshaped := (Node.allShaped_of_mem_walkFrom (fun n hn => (htop n hn).1) hc).self
      rw [hf] at hshaped
      obtain ⟨name, _, hm, -⟩ := hshaped
      exact ⟨v, name, hv, .inr hm⟩

section

variable {P : Binding → String → Prop} {d : Document} {deps : Dependencies}
  {builtins : Option Builtins} (hd : ∀ n ∈ d.statements, n.AllShaped .any ∧ n.kind.isStatement)

include hd

variable (hs : Sources deps d builtins P)

include hs

/-- The names of variables, functions and modules. -/
theorem named_name {v : View} {n : Node}
    (hn : Stands (resolve d deps builtins).document.statements v n) {name : String}
    (hf : n.form = .variableRef name ∨ n.form = .moduleName name) :
    ∃ b, n.binding = some b ∧ Named P b name := by
  have hbound := bound_of_stands hd hn
  have hvariable := hs.or (c := .vars) (hs.nearest hn name)
  rw [Bound] at hbound
  rcases hf with hf | hf <;> rw [hf] at hbound <;> refine ⟨_, hbound, ?_⟩
  · split
    · have hfunction := hs.or (c := .functions) (hs.definition hn .functionDef name)
      refine named_getD (fun b hb => ?_) ?_
      · rcases Option.or_eq_some_iff.1 hb with hb | ⟨-, hb⟩
        · exact hfunction b hb
        · exact hvariable b hb
      · split_ifs
        · exact leadsNowhere_special
        · exact leadsNowhere_builtin
        · exact leadsNowhere_unresolved
    · refine named_getD hvariable ?_
      split_ifs
      · exact leadsNowhere_special
      · exact leadsNowhere_builtin
      · exact leadsNowhere_unresolved
  · split
    · exact .inr leadsNowhere_builtin
    · refine named_getD (hs.or (c := .modules) (hs.definition hn .moduleDef name)) ?_
      split_ifs
      · exact leadsNowhere_builtin
      · exact leadsNowhere_unresolved

/-- The names of arguments. -/
theorem named_label {v : View} {n : Node}
    (hn : Stands (resolve d deps builtins).document.statements v n) {name : String}
    (hf : n.form = .argumentName name) :
    ∃ b, n.binding = some b ∧ (LeadsNowhere b ∨ ∃ callee c f ps id,
      IsLabelOf (resolve d deps builtins).document.statements callee n ∧ callee.binding = some c ∧
      (∃ other, P c other) ∧
      (environment deps d builtins).declaration? c = some f ∧ parametersOf f = some ps ∧
      (name, id) ∈ ps ∧ b = ⟨.parameterDef, some id, c.origin⟩) := by
  have hbound := bound_of_stands hd hn
  rw [Bound, hf] at hbound
  refine ⟨_, hbound, ?_⟩
  rcases labelRule_cases (environment deps d builtins) v.role.callee? name with
    hfree | ⟨c, f, ps, id, hc, hfound, hps, hid, hb⟩
  · exact .inl hfree
  · have hrole : v.role = .named (some c) := by
      cases hr : v.role <;> rw [hr] at hc <;> cases hc
      rfl
    obtain ⟨callee, hcb, hlabel⟩ := hn.named hrole
    obtain ⟨w, other, hw, hform⟩ :=
      callee_name (shaped_of_unbound (resolve_bound hd deps builtins).2.1 hd) hlabel
    obtain ⟨c', hc', hnamed⟩ := named_name hd hs hw hform
    obtain rfl : c' = c := Option.some.inj (hc'.symm.trans hcb)
    rcases hnamed with hpoints | hfree
    · exact .inr ⟨callee, c', f, ps, id, hlabel, hcb, ⟨other, hpoints⟩, hfound, hps, hid, hb⟩
    · rw [Environment.declaration?, hfree.target] at hfound
      cases hfound

end

end Resolve

end Scad
