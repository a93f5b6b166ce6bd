import Scad.Proofs.Resolve.Scratch

/-! A declaration and all that is bound to it may take a name that nothing else has: every reference
is then bound as before. -/
namespace Scad

/-- A new name for the declaration of an id in the document of an origin. -/
structure Rename where
  origin : String
  target : Int
  name : String

namespace Rename

variable (r : Rename)

/-- Whether a binding leads to the declaration. -/
def leads (b : Binding) : Bool := b.target = some r.target ∧ b.origin = some r.origin

/-- Whether a node is the declaration, or a reference that is bound to it. -/
def concerns (n : Node) : Bool :=
  if n.kind.isReference then n.binding.any r.leads else n.id = r.target

def node (n : Node) : Node :=
  n.fold fun m form => ⟨m.info, if r.concerns m then form.mapName fun _ => r.name else form⟩

def declaration (e : Declaration) : Declaration :=
  if e.id = r.target then { e with name := r.name } else e

theorem node_mk (info : Info) (form : Form Node) : r.node ⟨info, form⟩ =
    ⟨info, if r.concerns ⟨info, form⟩ then (form.map r.node).mapName fun _ => r.name
      else form.map r.node⟩ :=
  Node.fold_mk _ info form

theorem info_node (n : Node) : (r.node n).info = n.info := by
  obtain ⟨info, form⟩ := n
  rw [node_mk]
  rfl

theorem form_node (n : Node) : (r.node n).form =
    if r.concerns n then (n.form.map r.node).mapName fun _ => r.name else n.form.map r.node := by
  obtain ⟨info, form⟩ := n
  rw [node_mk]
  rfl

theorem declaration?_node (n : Node) :
    (r.node n).declaration? = n.declaration?.map r.declaration := by
  obtain ⟨info, form⟩ := n
  have hid : form.kind.isReference = false →
      r.concerns ⟨info, form⟩ = decide (info.id = r.target) := by
    intro hk
    rw [concerns, show (Node.mk info form).kind = form.kind from rfl, hk]
    rfl
  have hname : ∀ (kind : BindingKind) (name : String),
      some (Declaration.mk kind (if info.id = r.target then r.name else name) info.id) =
        (some (Declaration.mk kind name info.id)).map r.declaration := by
    intro kind name
    rw [Option.map_some, declaration]
    split <;> rfl
  rw [Node.declaration?, form_node, Node.id, info_node]
  cases form with
  | variableDefinition name | parameter name d
  | functionDefinition name ps e | moduleDefinition name ps b =>
      rw [hid rfl]
      refine Eq.trans ?_ (hname _ name)
      by_cases h : info.id = r.target <;> simp [h, Form.mapName, Form.map, Node.form, Node.info]
  | _ =>
      generalize r.concerns _ = c
      cases c <;> rfl

def relabeling : Relabeling where
  node := r.node
  declaration := r.declaration
  binding := id
  form_node := fun n => by
    rw [form_node]
    split
    · exact ⟨_, rfl⟩
    · exact ⟨id, (Form.mapName_id _).symm⟩
  declaration?_node := r.declaration?_node
  binding_node := fun n => by
    rw [Node.binding, info_node]
    rfl

/-! ### Looking names up -/

/-- What names stand for, before and after: what leads to the declaration is found under the new
name, and all else as it was. -/
structure LooksUpRenamed (old : String) (s s' : String → Option Binding) : Prop where
  moved : ∀ x b, s x = some b → r.leads b → x = old ∧ s' r.name = some b
  kept : ∀ x, x ≠ r.name → (∀ b, s x = some b → r.leads b = false) → s' x = s x
  unused : s old = none → s' r.name = none

/-- The name that a reference has after the renaming. -/
def rename (b : Binding) (x : String) : String := if r.leads b then r.name else x

namespace LooksUpRenamed

variable {r} {old : String} {s s' t t' : String → Option Binding}

/-- One source, and then another. -/
theorem or (h : r.LooksUpRenamed old s s') (h' : r.LooksUpRenamed old t t') :
    r.LooksUpRenamed old (fun x => (s x).or (t x)) (fun x => (s' x).or (t' x)) := by
  constructor
  · intro x b hb hleads
    rcases Option.or_eq_some_iff.1 hb with hs | ⟨hs, ht⟩
    · obtain ⟨hx, hs'⟩ := h.moved x b hs hleads
      exact ⟨hx, by rw [hs', Option.some_or]⟩
    · obtain ⟨rfl, ht'⟩ := h'.moved x b ht hleads
      exact ⟨rfl, by rw [h.unused hs, ht', Option.none_or]⟩
  · intro x hx hkept
    have hs' : s' x = s x := h.kept x hx fun b hb => hkept b (by rw [hb, Option.some_or])
    cases hs : s x with
    | some c => rw [hs', hs, Option.some_or, Option.some_or]
    | none =>
        rw [hs', hs, Option.none_or, Option.none_or]
        exact h'.kept x hx fun b hb => hkept b (by rw [hs, hb, Option.none_or])
  · intro hnone
    obtain ⟨hs, ht⟩ := Option.or_eq_none_iff.1 hnone
    rw [h.unused hs, h'.unused ht, Option.none_or]

/-- What does not depend on the declaration, and does not know the new name. -/
theorem refl (hleads : ∀ x b, s x = some b → r.leads b = false) (hname : s r.name = none) :
    r.LooksUpRenamed old s s := by
  refine ⟨fun x b hb h => ?_, fun _ _ _ => rfl, fun _ => hname⟩
  rw [hleads x b hb] at h
  cases h

theorem getD (h : r.LooksUpRenamed old s s') {x : String} (hx : x ≠ r.name)
    (free : String → Binding) (hfree : ∀ x, r.leads (free x) = false) {b : Binding}
    (hb : (s x).getD (free x) = b) :
    (s' (r.rename b x)).getD (free (r.rename b x)) = b := by
  cases hs : s x with
  | none =>
      rw [hs, Option.getD_none] at hb
      have hleads : r.leads b = false := hb ▸ hfree x
      rw [rename, hleads]
      show (s' x).getD (free x) = b
      rw [h.kept x hx fun c hc => absurd hc (by simp [hs]), hs]
      exact hb
  | some c =>
      rw [hs, Option.getD_some] at hb
      subst hb
      cases hleads : r.leads c with
      | true =>
          rw [rename, if_pos hleads, (h.moved x c hs hleads).2]
          rfl
      | false =>
          rw [rename, hleads]
          show (s' x).getD (free x) = c
          rw [h.kept x hx fun b hb => ?_, hs]
          · rfl
          · rw [hs] at hb
            cases hb
            exact hleads

end LooksUpRenamed

/-- Declarations of which one, at most, is the renamed one, and none has the new name. -/
structure Among (declared : Declaration) (ds : List Declaration) : Prop where
  unused : ∀ e ∈ ds, e.name ≠ r.name
  only : ∀ e ∈ ds, e.id = r.target → e = declared

def last (p : Declaration → Bool) (ds : List Declaration) (name : String) : Option Declaration :=
  (ds.filter fun e => p e && e.name = name).getLast?

section

variable {r} {declared : Declaration} {ds : List Declaration} {p : Declaration → Bool}

theorem mem_of_last {name : String} {e : Declaration} (h : last p ds name = some e) :
    e ∈ ds ∧ p e ∧ e.name = name := by
  have hmem := List.mem_filter.1 (List.mem_of_getLast? h)
  simpa using hmem

theorem last_eq_none_iff {name : String} :
    last p ds name = none ↔ ∀ e ∈ ds, p e → e.name ≠ name := by
  rw [last, List.getLast?_eq_none_iff, List.filter_eq_nil_iff]
  simp

theorem declaration_name_eq_iff {e : Declaration} (h : e.name ≠ r.name) :
    (r.declaration e).name = r.name ↔ e.id = r.target := by
  rw [declaration]
  split <;> simp_all

theorem declaration_name_eq_iff_of_ne {e : Declaration} {name : String} (h : name ≠ r.name) :
    (r.declaration e).name = name ↔ e.id ≠ r.target ∧ e.name = name := by
  rw [declaration]
  split
  · rename_i hid
    simp [hid, h.symm]
  · rename_i hid
    simp [hid]

theorem binding_declaration (e : Declaration) (origin : String) :
    (r.declaration e).binding origin = e.binding origin := by
  rw [declaration]
  split <;> rfl

/-- Declarations are looked up among the renamed ones as before. -/
theorem Among.looksUpRenamed (h : r.Among declared ds) (hid : declared.id = r.target)
    (hp : ∀ e, p (r.declaration e) = p e) :
    r.LooksUpRenamed declared.name (fun x => (last p ds x).map (·.binding r.origin))
      (fun x => (last p (ds.map r.declaration) x).map (·.binding r.origin)) := by
  constructor
  · intro x b hb hleads
    obtain ⟨e, he, rfl⟩ := Option.map_eq_some_iff.1 hb
    obtain ⟨hmem, hpe, hname⟩ := mem_of_last he
    have htarget : e.id = r.target := by
      have hboth := of_decide_eq_true hleads
      exact Option.some.inj hboth.1
    obtain rfl := h.only e hmem htarget
    refine ⟨hname.symm, ?_⟩
    cases hlast : last p (ds.map r.declaration) r.name with
    | none =>
        have hnone := last_eq_none_iff.1 hlast (r.declaration e) (List.mem_map_of_mem hmem)
          (by rw [hp, hpe])
        exact absurd ((declaration_name_eq_iff (h.unused e hmem)).2 htarget) hnone
    | some f =>
        -- Whatever has the new name is the renamed declaration.
        obtain ⟨hf, -, hfname⟩ := mem_of_last hlast
        obtain ⟨g, hg, rfl⟩ := List.mem_map.1 hf
        have hgid := (declaration_name_eq_iff (h.unused g hg)).1 hfname
        rw [h.only g hg hgid, Option.map_some, binding_declaration]
  · intro x hx hkept
    have hfilter : (ds.map r.declaration).filter (fun e => p e && e.name = x) =
        ((ds.filter fun e => p e && e.name = x).filter fun e => e.id ≠ r.target).map
        r.declaration := by
      rw [List.filter_map, List.filter_filter]
      refine congrArg (List.map r.declaration) (List.filter_congr fun e _ => ?_)
      simp only [Function.comp, hp, declaration_name_eq_iff_of_ne hx]
      grind
    show ((List.getLast? _).map _) = (last p ds x).map _
    rw [hfilter, List.getLast?_map]
    cases hlast : last p ds x with
    | none =>
        rw [List.getLast?_eq_none_iff.1 hlast]
        rfl
    | some e =>
        have htarget : e.id ≠ r.target := by
          intro hid
          have hleads := hkept _ (congrArg (Option.map _) hlast)
          simp [leads, Declaration.binding, hid] at hleads
        obtain ⟨before, hbefore⟩ := List.getLast?_eq_some_iff.1 hlast
        rw [hbefore, List.filter_append]
        simp [htarget, binding_declaration]
  · intro hnone
    have hnone := last_eq_none_iff.1 (Option.map_eq_none_iff.1 hnone)
    refine Option.map_eq_none_iff.2 (last_eq_none_iff.2 fun f hf hpf hname => ?_)
    obtain ⟨e, he, rfl⟩ := List.mem_map.1 hf
    rw [hp] at hpf
    have htarget := (declaration_name_eq_iff (h.unused e he)).1 hname
    exact hnone e he hpf (congrArg Declaration.name (h.only e he htarget))

end

/-- What is in view at a place: among it, the renamed declaration at most, and nothing of
the new name. -/
structure ViewRenamed (declared : Declaration) (v : View) : Prop where
  vars : r.Among declared v.vars
  lists : ∀ ds ∈ v.lists, r.Among declared ds

/-- What file references brought in has nothing to do with the renaming. -/
structure AvoidsRenaming (library : Frame) : Prop where
  elsewhere : ∀ c name b, (library.table c).lookup name = some b → b.origin ≠ some r.origin
  unused : ∀ c, (library.table c).lookup r.name = none

section

variable {r} {declared : Declaration} (hid : declared.id = r.target) {v : View} {library : Frame}

theorem leads_of_origin {b : Binding} (h : b.origin ≠ some r.origin) : r.leads b = false := by
  rw [leads, decide_eq_false_iff_not]
  exact fun hboth => h hboth.2

theorem AvoidsRenaming.looksUpRenamed (h : r.AvoidsRenaming library) (c : NameClass)
    (old : String) :
    r.LooksUpRenamed old (library.table c).lookup (library.table c).lookup :=
  .refl (fun x b hb => leads_of_origin (h.elsewhere c x b hb)) (h.unused c)

include hid

theorem ViewRenamed.looksUpRenamed_nearest (h : r.ViewRenamed declared v) :
    r.LooksUpRenamed declared.name (fun x => (v.nearest? x).map (·.binding r.origin))
      (fun x => ((r.relabeling.view v).nearest? x).map (·.binding r.origin)) := by
  have hlast : ∀ (w : View) (x : String), w.nearest? x = last (fun _ => true) w.vars x := by
    intro w x
    simp [View.nearest?, last]
  simp only [hlast]
  exact h.vars.looksUpRenamed hid fun _ => rfl

theorem looksUpRenamed_definition (kind : BindingKind) {lists : List (List Declaration)}
    (h : ∀ ds ∈ lists, r.Among declared ds) :
    r.LooksUpRenamed declared.name (fun x => (lists.findSome? (lastDefinition? kind x)).map
      (·.binding r.origin))
        (fun x => ((lists.map (·.map r.declaration)).findSome? (lastDefinition? kind x)).map
          (·.binding r.origin)) := by
  have hlast : ∀ ds x, lastDefinition? kind x ds = last (fun e => e.kind = kind) ds x := by
    intro ds x
    simp [lastDefinition?, last]
  have hkind : ∀ e, (r.declaration e).kind = e.kind := by
    intro e
    rw [declaration]
    split <;> rfl
  induction lists with
  | nil => exact .refl (fun x b hb => by cases hb) rfl
  | cons ds lists ih =>
      have hhead := (h ds (List.mem_cons_self ..)).looksUpRenamed (p := fun e => e.kind = kind) hid
        fun e => by rw [hkind]
      have hcons : ∀ (ds : List Declaration) (lists : List (List Declaration)) (x : String),
          ((ds :: lists).findSome? (lastDefinition? kind x)).map (·.binding r.origin) =
            ((last (fun e => e.kind = kind) ds x).map (·.binding r.origin)).or
              ((lists.findSome? (lastDefinition? kind x)).map (·.binding r.origin)) := by
        intro ds lists x
        rw [List.findSome?_cons, ← hlast]
        cases lastDefinition? kind x ds <;> rfl
      simp only [List.map_cons, hcons]
      exact hhead.or (ih fun ds hds => h ds (List.mem_cons_of_mem _ hds))

theorem ViewRenamed.looksUpRenamed_definition (h : r.ViewRenamed declared v) (kind : BindingKind) :
    r.LooksUpRenamed declared.name (fun x => (v.definition? kind x).map (·.binding r.origin))
      (fun x => ((r.relabeling.view v).definition? kind x).map (·.binding r.origin)) :=
  Rename.looksUpRenamed_definition hid kind h.lists

end

/-! ### The rules -/

section

open Resolve

variable {r} {declared : Declaration} {v : View} {library : Frame} {builtins : Option Builtins}
  {documents documents' : List (String × Document)} {x : String}

theorem leads_of_free {b : Binding} (h : LeadsNowhere b) : r.leads b = false :=
  leads_of_origin (by rw [h.origin]; nofun)

/-- What a name stands for that nothing declares, if it may be special. -/
def undeclared (provided : String → Bool) (name : String) : Binding :=
  if isSpecial name then .special else if provided name then .builtin else .unresolved

theorem leads_undeclared (provided : String → Bool) (name : String) :
    r.leads (undeclared provided name) = false := by
  apply leads_of_free
  unfold undeclared
  split
  · exact leadsNowhere_special
  · split
    · exact leadsNowhere_builtin
    · exact leadsNowhere_unresolved

section

variable (hid : declared.id = r.target) (hv : r.ViewRenamed declared v)
  (hlibrary : r.AvoidsRenaming library) (hx : x ≠ r.name)

include hid hv hlibrary hx

theorem variableRule_rename {b : Binding}
    (hb : variableRule ⟨r.origin, builtins, documents⟩ library (v.nearest? x) x = b) :
    variableRule ⟨r.origin, builtins, documents'⟩ library
      ((r.relabeling.view v).nearest? (r.rename b x)) (r.rename b x) = b :=
  ((hv.looksUpRenamed_nearest hid).or (hlibrary.looksUpRenamed .vars _)).getD hx
    (undeclared (Environment.hasBuiltin ⟨r.origin, builtins, documents⟩ .vars))
      (leads_undeclared _) hb

theorem functionRule_rename {b : Binding}
    (hb : functionRule ⟨r.origin, builtins, documents⟩ library (v.definition? .functionDef x)
      (v.nearest? x) x = b) :
    functionRule ⟨r.origin, builtins, documents'⟩ library
      ((r.relabeling.view v).definition? .functionDef (r.rename b x))
      ((r.relabeling.view v).nearest? (r.rename b x)) (r.rename b x) = b :=
  (((hv.looksUpRenamed_definition hid .functionDef).or (hlibrary.looksUpRenamed .functions _)).or
    ((hv.looksUpRenamed_nearest hid).or (hlibrary.looksUpRenamed .vars _))).getD hx
      (undeclared (Environment.hasBuiltin ⟨r.origin, builtins, documents⟩ .functions))
        (leads_undeclared _) hb

theorem moduleRule_rename {b : Binding}
    (hb : moduleRule ⟨r.origin, builtins, documents⟩ library (v.definition? .moduleDef x) x = b) :
    moduleRule ⟨r.origin, builtins, documents'⟩ library
      ((r.relabeling.view v).definition? .moduleDef (r.rename b x)) (r.rename b x) = b := by
  refine ((hv.looksUpRenamed_definition hid .moduleDef).or
    (hlibrary.looksUpRenamed .modules _)).getD hx (fun name =>
      if Environment.hasBuiltin ⟨r.origin, builtins, documents⟩ .modules name then .builtin
        else .unresolved)
    (fun name => ?_) hb
  apply leads_of_free
  split
  · exact leadsNowhere_builtin
  · exact leadsNowhere_unresolved

end

def parameters? (n : Node) : Option (List Declaration) :=
  match n.form with
  | .moduleDefinition _ ps _ | .functionDefinition _ ps _ => some (ps.filterMap Node.declaration?)
  | _ => none

theorem parameters?_node (n : Node) :
    parameters? (r.node n) = (parameters? n).map (·.map r.declaration) := by
  obtain ⟨g, h⟩ := r.relabeling.form_node n
  rw [parameters?, show (r.node n).form = _ from h, parameters?]
  cases n.form with
  | moduleDefinition name ps b => exact congrArg some (r.relabeling.declarations_node ps)
  | functionDefinition name ps e => exact congrArg some (r.relabeling.declarations_node ps)
  | _ => rfl

theorem parameter_declaration {q : Node} (hq : q.kind = .parameter) :
    ∃ name, q.declaration? = some ⟨.parameterDef, name, q.id⟩ ∧ q.name? = some name := by
  obtain ⟨info, form⟩ := q
  cases form <;> cases hq
  exact ⟨_, rfl, rfl⟩

theorem parameters_eq {qs : List Node} (hqs : ∀ q ∈ qs, q.kind = .parameter) :
    qs.map (fun q => (q.name?.getD "", q.id)) =
        (qs.filterMap Node.declaration?).map (fun e => (e.name, e.id)) ∧
      ∀ e ∈ qs.filterMap Node.declaration?, e.kind = .parameterDef := by
  induction qs with
  | nil => exact ⟨rfl, nofun⟩
  | cons q qs ih =>
      obtain ⟨name, hdecl, hname⟩ := parameter_declaration (hqs q (List.mem_cons_self ..))
      obtain ⟨hmap, hkind⟩ := ih fun q hq => hqs q (List.mem_cons_of_mem _ hq)
      rw [List.filterMap_cons_some hdecl, List.map_cons, List.map_cons, hmap, hname]
      refine ⟨rfl, fun e he => ?_⟩
      rcases List.mem_cons.1 he with rfl | he
      · rfl
      · exact hkind e he

/-- A definition's parameters are declared by its children. -/
theorem parametersOf_eq {n : Node} (hn : n.form.Shaped .any) :
    parametersOf n = (parameters? n).map (·.map fun e => (e.name, e.id)) ∧
      ∀ ds ∈ parameters? n, (∀ e ∈ ds, e.kind = .parameterDef) ∧
        ∀ e ∈ ds, ∃ q ∈ n.children, q.declaration? = some e := by
  have hdeclared : ∀ qs : List Node, qs ⊆ n.children → ∀ e ∈ qs.filterMap Node.declaration?,
      ∃ q ∈ n.children, q.declaration? = some e := by
    intro qs hqs e he
    obtain ⟨q, hq, hd⟩ := List.mem_filterMap.1 he
    exact ⟨q, hqs hq, hd⟩
  rw [parametersOf, parameters?]
  cases hf : n.form <;> rw [hf] at hn <;> try exact ⟨rfl, nofun⟩
  case moduleDefinition name qs b =>
    refine ⟨congrArg some (parameters_eq hn.1).1, ?_⟩
    rintro ds ⟨⟩
    refine ⟨(parameters_eq hn.1).2, hdeclared qs fun q hq => ?_⟩
    simp [Node.children, hf, Form.children, Form.fields, Field.children, hq]
  case functionDefinition name qs e =>
    refine ⟨congrArg some (parameters_eq hn.1).1, ?_⟩
    rintro ds ⟨⟩
    refine ⟨(parameters_eq hn.1).2, hdeclared qs fun q hq => ?_⟩
    simp [Node.children, hf, Form.children, Form.fields, Field.children, hq]

theorem getLast?_filter_eq {α : Type} (p : α → Bool) (as : List α) :
    (as.filter p).getLast? = as.reverse.find? p := by
  rw [List.getLast?_eq_head?_reverse, ← List.filter_reverse, List.head?_filter]

theorem parameterRule_eq {origin : String} {ds : List Declaration}
    (hk : ∀ e ∈ ds, e.kind = .parameterDef) (name : String) :
    parameterRule (some origin) (ds.map fun e => (e.name, e.id)) name =
      ((last (fun _ => true) ds name).map (·.binding origin)).getD
        (undeclared (fun _ => false) name) := by
  have hfind : (ds.map fun e => (e.name, e.id)).reverse.find? (·.1 = name) =
      (last (fun _ => true) ds name).map fun e => (e.name, e.id) := by
    rw [← List.map_reverse, List.find?_map, last, getLast?_filter_eq]
    rfl
  rw [parameterRule, hfind]
  cases hlast : last (fun _ => true) ds name with
  | none => simp [undeclared]
  | some e =>
      have hke := hk e (mem_of_last hlast).1
      simp [Declaration.binding, hke]

/-- What a binding leads to, before and after: the renamed node in the document, the same
node elsewhere. -/
structure Follows (declared : Declaration) (env env' : Environment) (b : Binding) : Prop where
  elsewhere : b.origin ≠ some r.origin → env'.declaration? b = env.declaration? b
  own : b.origin = some r.origin → env'.declaration? b = (env.declaration? b).map r.node
  shaped : b.origin = some r.origin → ∀ f ∈ env.declaration? b, f.form.Shaped .any
  parameters : b.origin = some r.origin → ∀ f ∈ env.declaration? b, ∀ ds ∈ parameters? f,
    r.Among declared ds

variable {env env' : Environment}

theorem labelRule_own {c : Binding} (hc : c.origin = some r.origin) {f : Node}
    {ds : List Declaration} (hf : env.declaration? c = some f) (hs : f.form.Shaped .any)
    (hds : parameters? f = some ds) :
    labelRule env (some c) x =
      ((last (fun _ => true) ds x).map (·.binding r.origin)).getD
        (undeclared (fun _ => false) x) := by
  obtain ⟨hparameters, hkinds⟩ := parametersOf_eq hs
  rw [← parameterRule_eq (hkinds ds hds).1, labelRule, Option.bind_some, hf, Option.bind_some,
    hparameters, hds, hc]
  rfl

theorem labelRule_none {c : Binding} (h : (env.declaration? c).bind parametersOf = none) :
    labelRule env (some c) x = .unresolved := by
  rw [labelRule, Option.bind_some, h]
  rfl

/-- The name of an argument is bound to the parameter as before, when the callee's own names
are changed. -/
theorem labelRule_rename (hid : declared.id = r.target) (hx : x ≠ r.name) {callee : Option Binding}
    (h : ∀ b ∈ callee, r.Follows declared env env' b) {b : Binding}
    (hb : labelRule env callee x = b) :
    labelRule env' callee (r.rename b x) = b := by
  cases callee with
  | none =>
      subst hb
      rfl
  | some c =>
      have hc := h c rfl
      by_cases hown : c.origin = some r.origin
      · have hnode := hc.own hown
        cases hf : env.declaration? c with
        | none =>
            rw [hf] at hnode
            rw [labelRule_none (by rw [hf]; rfl)] at hb
            rw [labelRule_none (by rw [hnode]; rfl)]
            exact hb
        | some f =>
            rw [hf] at hnode
            have hs := hc.shaped hown f hf
            have hs' : (r.node f).form.Shaped .any := r.relabeling.shaped_node hs
            cases hds : parameters? f with
            | none =>
                have hds' : parameters? (r.node f) = none := by rw [parameters?_node, hds]; rfl
                rw [labelRule_none (by rw [hf, Option.bind_some, (parametersOf_eq hs).1, hds]; rfl)]
                  at hb
                rw [labelRule_none
                  (by rw [hnode, Option.map_some, Option.bind_some, (parametersOf_eq hs').1,
                  hds']; rfl)]
                exact hb
            | some ds =>
                have hds' : parameters? (r.node f) = some (ds.map r.declaration) := by
                  rw [parameters?_node, hds]
                  rfl
                rw [labelRule_own hown hf hs hds] at hb
                rw [labelRule_own hown hnode hs' hds']
                exact ((hc.parameters hown f hf ds hds).looksUpRenamed hid fun _ => rfl).getD hx _
                  (leads_undeclared _) hb
      · -- Another document's parameters keep their names.
        have hleads : r.leads b = false := by
          rcases labelRule_cases env (some c) x with hfree | ⟨c', f, ps, id, hc', -, -, -, hb'⟩
          · exact leads_of_free (hb ▸ hfree)
          · cases hc'
            rw [← hb, hb']
            exact leads_of_origin hown
        rw [rename, hleads]
        show labelRule env' (some c) x = b
        rw [← hb, labelRule, labelRule, Option.bind_some, Option.bind_some, hc.elsewhere hown]

/-- A reference takes the name that its binding asks for. -/
theorem node_reference {info : Info} {form : Form Node} {b : Binding} (hk : form.kind.isReference)
    (hb : info.binding = some b) :
    r.node ⟨info, form⟩ = ⟨info, (form.map r.node).mapName (r.rename b)⟩ := by
  have hconcerns : r.concerns ⟨info, form⟩ = r.leads b := by
    rw [concerns, show (Node.mk info form).kind = form.kind from rfl, if_pos hk,
      show (Node.mk info form).binding = _ from hb]
    rfl
  rw [node_mk, hconcerns]
  cases hleads : r.leads b with
  | true =>
      have hname : r.rename b = fun _ => r.name := funext fun _ => if_pos hleads
      rw [hname]
      rfl
  | false =>
      have hname : r.rename b = id := funext fun _ => if_neg (by simp [hleads])
      rw [hname, Form.mapName_id]
      rfl

/-- The name of a module stays pseudo, or not, by the renaming. -/
theorem node_moduleName (hpseudo : r.name ∉ pseudoModules) {env : Environment} {info : Info}
    (hb : Bound env library v ⟨info, .moduleName x⟩) :
    ∃ b, info.binding = some b ∧ r.node ⟨info, .moduleName x⟩ = ⟨info, .moduleName (r.rename b x)⟩ ∧
      (r.rename b x ∈ pseudoModules ↔ x ∈ pseudoModules) := by
  obtain ⟨b, hinfo⟩ : ∃ b, info.binding = some b := ⟨_, hb⟩
  have hrule := Option.some.inj (hb.symm.trans hinfo)
  refine ⟨b, hinfo, node_reference rfl hinfo, ?_⟩
  cases hleads : r.leads b with
  | false => rw [rename, if_neg (by simp [hleads])]
  | true =>
      rw [rename, if_pos hleads]
      refine iff_of_false hpseudo fun hp => ?_
      rw [if_pos hp] at hrule
      rw [← hrule, leads_of_free leadsNowhere_builtin] at hleads
      cases hleads

theorem isPseudo_node (hpseudo : r.name ∉ pseudoModules) {env : Environment} {n : Node}
    (hb : Bound env library v n) :
    (r.node n).isPseudo = n.isPseudo := by
  obtain ⟨info, form⟩ := n
  cases form with
  | moduleName x =>
      obtain ⟨b, -, hnode, hspecial⟩ := node_moduleName hpseudo hb
      rw [hnode]
      exact decide_eq_decide.2 hspecial
  | _ =>
      rw [Node.isPseudo, form_node]
      generalize r.concerns _ = c
      cases c <;> rfl

section

variable (hid : declared.id = r.target) (hx : x ≠ r.name)

include hid hx

theorem bound_variableRef (hlibrary : r.AvoidsRenaming library) (hv : r.ViewRenamed declared v)
    {info : Info} (hb : Bound ⟨r.origin, builtins, documents⟩ library v ⟨info, .variableRef x⟩) :
    Bound ⟨r.origin, builtins, documents'⟩ library (r.relabeling.view v)
      (r.node ⟨info, .variableRef x⟩) := by
  obtain ⟨b, hinfo⟩ : ∃ b, info.binding = some b := ⟨_, hb⟩
  have hrule := Option.some.inj (hb.symm.trans hinfo)
  have hnode : r.node ⟨info, .variableRef x⟩ = ⟨info, .variableRef (r.rename b x)⟩ :=
    node_reference rfl hinfo
  have hrole : (r.relabeling.view v).role = .called ↔ v.role = .called := by
    obtain ⟨lists, vars, role⟩ := v
    cases role <;> simp [Relabeling.view, Relabeling.role]
  rw [hnode]
  refine hinfo.trans (congrArg some ?_)
  by_cases hcalled : v.role = .called
  · rw [if_pos hcalled] at hrule
    rw [if_pos (hrole.2 hcalled)]
    exact (functionRule_rename hid hv hlibrary hx hrule).symm
  · rw [if_neg hcalled] at hrule
    rw [if_neg fun h => hcalled (hrole.1 h)]
    exact (variableRule_rename hid hv hlibrary hx hrule).symm

theorem bound_moduleName (hlibrary : r.AvoidsRenaming library) (hv : r.ViewRenamed declared v)
    (hpseudo : r.name ∉ pseudoModules) {info : Info}
    (hb : Bound ⟨r.origin, builtins, documents⟩ library v ⟨info, .moduleName x⟩) :
    Bound ⟨r.origin, builtins, documents'⟩ library (r.relabeling.view v)
      (r.node ⟨info, .moduleName x⟩) := by
  obtain ⟨b, hinfo, hnode, hspecial⟩ := node_moduleName hpseudo hb
  have hrule := Option.some.inj (hb.symm.trans hinfo)
  rw [hnode]
  refine hinfo.trans (congrArg some ?_)
  by_cases hp : x ∈ pseudoModules
  · rw [if_pos (hspecial.2 hp)]
    rw [if_pos hp] at hrule
    exact hrule.symm
  · rw [if_neg fun h => hp (hspecial.1 h)]
    rw [if_neg hp] at hrule
    exact (moduleRule_rename hid hv hlibrary hx hrule).symm

theorem bound_argumentName {info : Info}
    (hcallee : ∀ b ∈ v.role.callee?, r.Follows declared ⟨r.origin, builtins, documents⟩
      ⟨r.origin, builtins, documents'⟩ b)
    (hb : Bound ⟨r.origin, builtins, documents⟩ library v ⟨info, .argumentName x⟩) :
    Bound ⟨r.origin, builtins, documents'⟩ library (r.relabeling.view v)
      (r.node ⟨info, .argumentName x⟩) := by
  obtain ⟨b, hinfo⟩ : ∃ b, info.binding = some b := ⟨_, hb⟩
  have hrule := Option.some.inj (hb.symm.trans hinfo)
  have hnode : r.node ⟨info, .argumentName x⟩ = ⟨info, .argumentName (r.rename b x)⟩ :=
    node_reference rfl hinfo
  have hrole : (r.relabeling.view v).role.callee? = v.role.callee? := by
    obtain ⟨lists, vars, role⟩ := v
    cases role <;> rfl
  rw [hnode]
  refine hinfo.trans (congrArg some ?_)
  rw [hrole]
  exact (labelRule_rename hid hx hcallee hrule).symm

end

/-- A reference that is bound as the rules say still is, after the renaming. -/
theorem bound_node (hid : declared.id = r.target) (hlibrary : r.AvoidsRenaming library)
    (hpseudo : r.name ∉ pseudoModules) (hv : r.ViewRenamed declared v) {n : Node}
    (hn : n.name? ≠ some r.name)
    (hcallee : ∀ b ∈ v.role.callee?, r.Follows declared ⟨r.origin, builtins, documents⟩
      ⟨r.origin, builtins, documents'⟩ b)
    (hb : Bound ⟨r.origin, builtins, documents⟩ library v n) :
    Bound ⟨r.origin, builtins, documents'⟩ library (r.relabeling.view v) (r.node n) := by
  obtain ⟨info, form⟩ := n
  have hx : ∀ x, (Node.mk info form).name? = some x → x ≠ r.name := by
    intro x h he
    exact hn (he ▸ h)
  cases form with
  | variableRef x => exact bound_variableRef hid (hx x rfl) hlibrary hv hb
  | moduleName x => exact bound_moduleName hid (hx x rfl) hlibrary hv hpseudo hb
  | argumentName x => exact bound_argumentName hid (hx x rfl) hcallee hb
  | _ =>
      rw [Bound, form_node]
      generalize r.concerns _ = c
      cases c <;> trivial

end

end Rename

end Scad
