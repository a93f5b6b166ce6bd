import Mathlib.Algebra.BigOperators.Group.Multiset.Basic
import Scad.Proofs.Resolve.Comparison.Statement
import Scad.Proofs.Resolve.Repeated

/-! Provided names fill gaps. With more of them, names that stood for nothing are found, nothing
else is bound in another way, and what was reported of the names that are found now is all that is
not reported any more. -/
namespace Scad

open List (Forall₂)

/-- A reference with fewer and with more provided names: either nothing changes, or it is a name
that was not found and is now provided. -/
def Node.FilledBy (n n' : Node) : Prop :=
  n' = n ∨ ((n.kind = .variableRef ∨ n.kind = .moduleName) ∧ n.binding = some .unresolved ∧
    n' = ⟨{ n.info with binding := some .builtin }, n.form⟩)

/-- A finding that tells of a name that it stands for nothing. -/
structure Node.Blamed (n : Node) (e : Diagnostic) : Prop where
  span : e.span = n.span
  unresolved : n.binding = some .unresolved
  fault : ∃ name, n.name? = some name ∧ e.fault = .unbound name

namespace Resolve

/-- The provided names of a class; none without a table. -/
def provided (builtins : Option Builtins) (c : NameClass) : List String :=
  match builtins, c with
  | none, _ => []
  | some b, .vars => b.vars.names
  | some b, .functions => b.functions.names
  | some b, .modules => b.modules.names

def Environment.offering (env : Environment) (builtins : Option Builtins) : Environment :=
  { env with builtins }

/-! ### References beside each other -/

/-- A reference as two runs leave it, with what the first one reports of it. -/
structure Pairing where
  first : Node
  second : Node
  report : Diagnostic

namespace Pairing

def nodes (x : Pairing) : Node × Node := (x.first, x.second)

def kept (x : Pairing) : Bool := x.first.binding = x.second.binding

structure Valid (x : Pairing) : Prop where
  filled : x.first.FilledBy x.second
  blamed : x.first.Blamed x.report

end Pairing

def referencesOf (ns : List Node) : List Node := (Node.walkFrom ns).filter (·.kind.isReference)

/-- Trees that two runs made of the same: of the references that stand at the same place, these are
reported, and the others are the same in both. -/
structure Paired (ns ns' : List Node) (pairs : Multiset Pairing) : Prop where
  length : (referencesOf ns).length = (referencesOf ns').length
  balanced : ∃ same : Multiset Node, pairs.map Pairing.nodes + same.map (fun n => (n, n)) =
    ↑((referencesOf ns).zip (referencesOf ns'))

section

variable {info : Info} {f f' : Form Node} {ns ns' ms ms' : List Node} {x y : Multiset Pairing}

theorem referencesOf_append (ms ns : List Node) :
    referencesOf (ms ++ ns) = referencesOf ms ++ referencesOf ns := by
  rw [referencesOf, Node.walkFrom_eq, List.flatMap_append, List.filter_append, ← Node.walkFrom_eq,
    ← Node.walkFrom_eq]
  rfl

theorem referencesOf_mk (i : Info) (f : Form Node) :
    referencesOf [⟨i, f⟩] = if f.kind.isReference then ⟨i, f⟩ :: referencesOf f.children
      else referencesOf f.children := by
  have hwalk : Node.walkFrom [⟨i, f⟩] = ⟨i, f⟩ :: Node.walkFrom f.children := by
    rw [Node.walkFrom_eq, List.flatMap_singleton, Node.preorder_eq, ← Node.walkFrom_eq]
    rfl
  rw [referencesOf, hwalk, List.filter_cons]
  rfl

/-- No reference has parts. -/
theorem referencesOf_reference (hf : f.kind.isReference) (i : Info) :
    referencesOf [⟨i, f⟩] = [⟨i, f⟩] := by
  have hnone : f.children = [] := by cases f <;> first | rfl | cases hf
  rw [referencesOf_mk, if_pos hf, hnone, referencesOf, Node.walkFrom_eq]
  rfl

theorem Paired.refl (ns : List Node) : Paired ns ns 0 := by
  refine ⟨rfl, ↑(referencesOf ns), ?_⟩
  rw [Multiset.map_zero, zero_add, Multiset.map_coe, List.zip, List.zipWith_self]

theorem Paired.append (hm : Paired ms ms' x) (hn : Paired ns ns' y) :
    Paired (ms ++ ns) (ms' ++ ns') (x + y) := by
  obtain ⟨hmlength, s, hs⟩ := hm
  obtain ⟨hnlength, t, ht⟩ := hn
  refine ⟨?_, s + t, ?_⟩
  · rw [referencesOf_append, referencesOf_append, List.length_append, List.length_append,
      hmlength, hnlength]
  · rw [Multiset.map_add, Multiset.map_add, add_add_add_comm, hs, ht, referencesOf_append,
      referencesOf_append, List.zip_append hmlength, Multiset.coe_add]

theorem Paired.cons {n n' : Node} (hn : Paired [n] [n'] x) (hns : Paired ns ns' y) :
    Paired (n :: ns) (n' :: ns') (x + y) := hn.append hns

/-- A node that is no reference has the references of its parts. -/
theorem Paired.node (hk : f'.kind = f.kind) (hf : f.kind.isReference = false)
    (h : Paired f.children f'.children x) :
    Paired [⟨info, f⟩] [⟨info, f'⟩] x := by
  have hparts : referencesOf [⟨info, f⟩] = referencesOf f.children := by
    rw [referencesOf_mk, hf, if_neg Bool.false_ne_true]
  have hparts' : referencesOf [⟨info, f'⟩] = referencesOf f'.children := by
    rw [referencesOf_mk, hk, hf, if_neg Bool.false_ne_true]
  refine ⟨?_, ?_⟩
  · rw [hparts, hparts']
    exact h.length
  · rw [hparts, hparts']
    exact h.balanced

theorem Paired.argument {n n' e e' : Node} (hn : Paired [n] [n'] x) (he : Paired [e] [e'] y) :
    Paired [⟨info, .argument (some n) e⟩] [⟨info, .argument (some n') e'⟩] (x + y) := by
  refine .node rfl rfl ?_
  simpa [Form.children, Form.fields, Field.children] using hn.cons he

theorem paired_reported (hf : f.kind.isReference) (i i' : Info) (e : Diagnostic) :
    Paired [⟨i, f⟩] [⟨i', f⟩] ↑[(⟨⟨i, f⟩, ⟨i', f⟩, e⟩ : Pairing)] := by
  rw [Multiset.coe_singleton]
  refine ⟨?_, 0, ?_⟩
  · rw [referencesOf_reference hf, referencesOf_reference hf]
    rfl
  · rw [referencesOf_reference hf, referencesOf_reference hf]
    rfl

end

/-! ### Two runs -/

/-- What the second of two runs reports is what the first reports, without what it reports of the
references that are not kept. -/
def pairing : Tracking (Multiset Pairing) where
  fair p p' := p'.halted = p.halted
  leads p p' x q q' := q'.halted = q.halted ∧ ∃ pairs : List Pairing, ↑pairs = x ∧
    (∀ y ∈ pairs, y.Valid) ∧
    q.errors = p.errors ++ pairs.map Pairing.report ∧
    q'.errors = p'.errors ++ (pairs.filter Pairing.kept).map Pairing.report
  fair_of_leads h := h.1
  leads_refl hp := ⟨hp, [], rfl, List.forall_mem_nil _, (List.append_nil _).symm,
    (List.append_nil _).symm⟩
  leads_trans := by
    rintro p p' _ q q' _ r r' ⟨-, xs, rfl, hxs, hx, hx'⟩ ⟨hr, ys, rfl, hys, hy, hy'⟩
    refine ⟨hr, xs ++ ys, (Multiset.coe_add xs ys).symm,
      List.forall_mem_append.2 ⟨hxs, hys⟩, ?_, ?_⟩
    · rw [hy, hx, List.map_append, List.append_assoc]
    · rw [hy', hx', List.filter_append, List.map_append, List.append_assoc]

/-! ### Binding a reference -/

/-- Unless the work is halted, a reference is bound, and possibly reported. -/
def Binds (m : Resolving Info) (info : Info) (b : Binding) (r : Option Diagnostic) : Prop :=
  ∀ p, m.run p = if p.halted then (info, p) else
    ({ info with binding := some b }, { p with errors := p.errors ++ r.toList })

theorem binds_assign (info : Info) (b : Binding) : Binds (assign info b) info b none := by
  intro p
  show (if p.halted then info else _, p) = _
  rw [Option.toList_none, List.append_nil]
  split <;> rfl

theorem binds_report (info : Info) (span : Span) (identifier message : String) (b : Binding) :
    Binds (do report span identifier message; assign info b) info b
      (some ⟨.unbound identifier, span, message⟩) := by
  intro p
  obtain ⟨errors, halted⟩ := p
  cases halted <;> rfl

/-- A name that is not found is reported. -/
theorem binds_bindReference (info : Info) (name noun : String) (b : Binding) :
    ∃ e : Diagnostic, e.span = info.span ∧ e.fault = .unbound name ∧
      Binds (bindReference info name noun b) info b (if b = .unresolved then some e else none) := by
  refine ⟨⟨.unbound name, info.span, "unknown " ++ noun ++ " '" ++ name ++ "'"⟩, rfl, rfl, ?_⟩
  unfold bindReference
  split
  · exact binds_report info _ _ _ b
  · exact binds_assign info b

theorem binds_bindArgument (callee : Option Callee) (info : Info) (name : String) :
    ∃ b r, Binds (bindArgument callee info name) info b r ∧
      ∀ e ∈ r, b = .unresolved ∧ e.span = info.span ∧ e.fault = .unbound name := by
  unfold bindArgument
  split
  · exact ⟨_, none, binds_assign info _, fun _ he => nomatch he⟩
  · split
    · exact ⟨_, none, binds_assign info _, fun _ he => nomatch he⟩
    · split
      · exact ⟨_, none, binds_assign info _, fun _ he => nomatch he⟩
      · refine ⟨_, _, binds_report info _ _ _ _, ?_⟩
        rintro _ ⟨⟩
        exact ⟨rfl, rfl, rfl⟩

section

variable {m m' : Resolving Info} {info : Info} {f : Form Node} {b b' : Binding}

/-- A reference that is not reported is bound in one way. -/
theorem relates_silent (hm : Binds m info b none) (hm' : Binds m' info b none) (f : Form Node) :
    pairing.Relates m m' fun i i' => Paired [⟨i, f⟩] [⟨i', f⟩] := by
  intro p p' hp
  have hhalted : p'.halted = p.halted := hp
  refine ⟨0, ?_⟩
  rw [hm p, hm' p', hhalted, Option.toList_none, List.append_nil, List.append_nil]
  split
  · exact ⟨pairing.leads_refl hp, .refl _⟩
  · exact ⟨pairing.leads_refl rfl, .refl _⟩

/-- One that is reported by the first run is reported by the second if it is bound in
the same way. -/
theorem relates_reported {e : Diagnostic} (hf : f.kind.isReference) (hm : Binds m info b (some e))
    (hm' : Binds m' info b' (if b = b' then some e else none))
    (hlawful : Pairing.Valid ⟨⟨{ info with binding := some b }, f⟩,
      ⟨{ info with binding := some b' }, f⟩, e⟩) :
    pairing.Relates m m' fun i i' => Paired [⟨i, f⟩] [⟨i', f⟩] := by
  intro p p' hp
  have hhalted : p'.halted = p.halted := hp
  rw [hm p, hm' p', hhalted]
  split
  · exact ⟨0, pairing.leads_refl hp, .refl _⟩
  · refine ⟨_,
      ⟨rfl, [⟨⟨{ info with binding := some b }, f⟩, ⟨{ info with binding := some b' }, f⟩, e⟩], rfl,
      List.forall_mem_singleton.2 hlawful, rfl, ?_⟩, paired_reported hf ..⟩
    by_cases hb : b = b'
    · simp [Pairing.kept, hb]
    · simp [Pairing.kept, Node.binding, Node.info, hb]

/-- What a name is bound to with fewer and with more provided names. -/
def Found (b b' : Binding) : Prop := b' = b ∨ (b = .unresolved ∧ b' = .builtin)

theorem relates_bindReference {name : String} (hf : f = .variableRef name ∨ f = .moduleName name)
    (info : Info) (noun : String) (hb : Found b b') :
    pairing.Relates (bindReference info name noun b) (bindReference info name noun b') fun i i' =>
      Paired [⟨i, f⟩] [⟨i', f⟩] := by
  have hreference : f.kind.isReference := by rcases hf with rfl | rfl <;> rfl
  have hname : f.kind = .variableRef ∨ f.kind = .moduleName :=
    hf.imp (congrArg Form.kind) (congrArg Form.kind)
  obtain ⟨e, hspan, hfault, hm⟩ := binds_bindReference info name noun b
  by_cases hunresolved : b = .unresolved
  · subst hunresolved
    rw [if_pos rfl] at hm
    have hblamed : (Node.mk { info with binding := some .unresolved } f).Blamed e := by
      refine ⟨hspan, rfl, name, ?_, hfault⟩
      rcases hf with rfl | rfl <;> rfl
    rcases hb with rfl | ⟨-, rfl⟩
    · exact relates_reported hreference hm hm ⟨.inl rfl, hblamed⟩
    · obtain ⟨e', -, -, hm'⟩ := binds_bindReference info name noun .builtin
      exact relates_reported hreference hm hm' ⟨.inr ⟨hname, rfl, rfl⟩, hblamed⟩
  · obtain rfl : b' = b := hb.resolve_right fun h => hunresolved h.1
    rw [if_neg hunresolved] at hm
    exact relates_silent hm hm f

theorem relates_bindArgument (callee : Option Callee) (info : Info) (name : String) :
    pairing.Relates (bindArgument callee info name) (bindArgument callee info name) fun i i' =>
      Paired [⟨i, .argumentName name⟩] [⟨i', .argumentName name⟩] := by
  obtain ⟨b, r, hm, hr⟩ := binds_bindArgument callee info name
  cases r with
  | none => exact relates_silent hm hm _
  | some e =>
      obtain ⟨rfl, hspan, hfault⟩ := hr e rfl
      exact relates_reported rfl hm hm ⟨.inl rfl, hspan, rfl, name, rfl, hfault⟩

theorem relates_assign (f : Form Node) (info : Info) (b : Binding) :
    pairing.Relates (assign info b) (assign info b) fun i i' => Paired [⟨i, f⟩] [⟨i', f⟩] :=
  relates_silent (binds_assign info b) (binds_assign info b) f

end

/-! ### More provided names -/

section

variable (env : Environment) {builtins : Option Builtins}
  (h : ∀ c, provided env.builtins c ⊆ provided builtins c)

theorem hasBuiltin_iff (c : NameClass) (name : String) :
    env.hasBuiltin c name ↔ name ∈ provided env.builtins c := by
  unfold Environment.hasBuiltin provided
  cases env.builtins with
  | none => simp
  | some b => cases c <;> exact List.contains_iff_mem

/-- What is not found and what is provided lead to no definition. -/
theorem callee?_found {b b' : Binding} (hb : Found b b') (name : String) :
    callee? (env.offering builtins) name b' = callee? env name b := by
  rcases hb with rfl | ⟨rfl, rfl⟩ <;> rfl

include h

theorem found_undeclared (c : NameClass) (name : String) :
    Found (env.undeclared c name) ((env.offering builtins).undeclared c name) := by
  have hmore : env.hasBuiltin c name → (env.offering builtins).hasBuiltin c name := fun hname =>
    (hasBuiltin_iff (env.offering builtins) c name).2 (h c ((hasBuiltin_iff env c name).1 hname))
  unfold Environment.undeclared
  split
  · exact .inl rfl
  · by_cases hname : env.hasBuiltin c name
    · rw [if_pos hname, if_pos (hmore hname)]
      exact .inl rfl
    · rw [if_neg hname]
      split
      · exact .inr ⟨rfl, rfl⟩
      · exact .inl rfl

/-- What a scope declares does not depend on what is provided. -/
theorem found_getD (found : Option Binding) (c : NameClass) (name : String) :
    Found (found.getD (env.undeclared c name))
      (found.getD ((env.offering builtins).undeclared c name)) := by
  cases found with
  | none => exact found_undeclared env h c name
  | some b => exact .inl rfl

end

/-! ### Runs with fewer and with more provided names -/

/-- The runs without and with more provided names, and what is reported of the
references in them. -/
def filling (env : Environment) (builtins : Option Builtins) : Comparison (Multiset Pairing) where
  toTracking := pairing
  first := env
  second := env.offering builtins
  change := id
  admits _ := True
  makes _ _ n' n'' := Paired [n'] [n'']
  names _ _ n' n'' := Paired [n'] [n'']

section

variable {env : Environment} {builtins : Option Builtins}

theorem paired_of_each {callee : Option Callee} {ns ns' ns'' : List Node} {x : Multiset Pairing}
    (h : Each ((filling env builtins).makes callee) ns ns' ns'' x) : Paired ns' ns'' x := by
  induction h with
  | nil => exact .refl []
  | cons hn _ ih => exact hn.cons ih

theorem found_bindingOf (h : ∀ c, provided env.builtins c ⊆ provided builtins c) (c : NameClass)
    (scope : Scope) (name : String) :
    Found (env.bindingOf c scope name) ((env.offering builtins).bindingOf c scope name) := by
  cases c with
  | vars => exact found_getD env h _ .vars name
  | functions => exact found_getD env h _ .functions name
  | modules => exact found_getD env h _ .modules name

attribute [local simp] Node.children Form.children Form.fields Field.children

theorem sound_filling (h : ∀ c, provided env.builtins c ⊆ provided builtins c) :
    (filling env builtins).Sound where
  origin := rfl
  id_change _ := rfl
  child _ _ := trivial
  same {n} _ := by
    rw [Comparison.changed, show (filling env builtins).change = fun i => i from rfl,
      Node.mapInfo_self]
    exact .refl [n]
  unlabelled _ hn := hn
  node {info f f' f'' x} hf hk hk' heach := by
    have hreference : f'.kind.isReference = false := by
      rw [hk]
      simpa using (Bool.and_eq_true_iff.1 hf).1
    exact .node (hk'.trans hk.symm) hreference (paired_of_each heach)
  call _ heach := .node rfl rfl (by simpa using paired_of_each heach)
  label callee ni name :=
    (relates_bindArgument callee ni name).mono fun i i' y hy info e e' e'' x hx => by
    rw [add_comm]
    exact .argument hy hx
  reference c scope name info :=
    relates_bindReference (by cases c <;> simp [NameClass.reference]) info _
    (found_bindingOf h c scope name)
  callee c scope name := callee?_found env (found_bindingOf h c scope name) name
  builtin info name := relates_assign (.moduleName name) info .builtin
  variableRef hx := hx
  applied {b info ti ti' ti'' si name as as' as'' ss ss' ss'' x y z} hx hy hz := by
    have hsuffix : Paired [⟨si, .callSuffix as'⟩] [⟨si, .callSuffix as''⟩] y :=
      .node rfl rfl (by simpa using paired_of_each hy)
    change Paired _ [⟨info, .call ⟨ti'', .variableRef name⟩ (⟨si, .callSuffix as''⟩ :: ss'')⟩] _
    exact .node rfl rfl (by simpa using hx.cons (hsuffix.cons (paired_of_each hz)))
  head hx hy := .node rfl rfl (by simpa using hx.cons (paired_of_each hy))
  halt _ _ _ hp := ⟨0, ⟨rfl, (pairing.leads_refl hp).2⟩, rfl⟩

end

/-- A table that is extended provides what it did. -/
theorem provided_extend (b : Builtins) (modules functions vars : List String) (c : NameClass) :
    provided (some b) c ⊆ provided (some (b.extend modules functions vars)) c := by
  have hunion : ∀ set more : NameSet, set.names ⊆ (set.union more).names :=
    fun set more name hname =>
    List.foldlRecOn (motive := fun set => name ∈ set.names) more.names NameSet.insert
      hname fun _ h _ _ =>
      NameSet.mem_insert.2 (.inr h)
  cases c <;> exact hunion _ _

section

variable (d : Document) (deps : Dependencies)

/-- What two resolutions report, reference by reference. -/
theorem resolve_paired {builtins builtins' : Option Builtins}
    (h : ∀ c, provided builtins c ⊆ provided builtins' c) :
    ∃ pairs : List Pairing, (∀ x ∈ pairs, x.Valid) ∧
      (resolve d deps builtins).document.bindingErrors = pairs.map Pairing.report ∧
      (resolve d deps builtins').document.bindingErrors =
        (pairs.filter Pairing.kept).map Pairing.report ∧
      Paired (resolve d deps builtins).document.statements
        (resolve d deps builtins').document.statements pairs := by
  have hsound : (filling (environment deps d builtins) builtins').Sound := sound_filling h
  have hruns := hsound.compares_statements d.statements (fun n _ => trivial)
    (hoistAll (environment deps d builtins) (Scope.enter [(importAll deps d).frame]) d.statements)
  rw [show (filling (environment deps d builtins) builtins').changed = id
    from funext Node.mapInfo_self, List.map_id]
    at hruns
  obtain ⟨_, ⟨-, pairs, rfl, hlawful, herrors, herrors'⟩, hresult⟩ :=
    hruns ⟨[], false⟩ ⟨[], false⟩ rfl
  exact ⟨pairs, hlawful, herrors, herrors', paired_of_each hresult.related⟩

/-- Every name that is reported is a reference, and is reported where it stands. -/
theorem exists_reference_of_bindingErrors {builtins : Option Builtins} {e : Diagnostic}
    (he : e ∈ (resolve d deps builtins).document.bindingErrors) :
    ∃ n ∈ (resolve d deps builtins).document.references, n.span = e.span := by
  obtain ⟨pairs, hlawful, herrors, -, -, same, hbalanced⟩ :=
    resolve_paired d deps fun c => List.Subset.refl (provided builtins c)
  rw [herrors] at he
  obtain ⟨x, hx, rfl⟩ := List.mem_map.1 he
  have hzip : x.nodes ∈ (↑((resolve d deps builtins).document.references.zip
      (resolve d deps builtins).document.references) : Multiset (Node × Node)) := by
    refine hbalanced ▸ Multiset.mem_add.2 (.inl (Multiset.mem_coe.2 ?_))
    exact List.mem_map_of_mem hx
  exact ⟨x.first, (List.of_mem_zip (Multiset.mem_coe.1 hzip)).1, (hlawful x hx).blamed.span.symm⟩

end

/-- How a document that was resolved with more provided names differs from the same with fewer.
Names that were not found may be found, and all other references are bound as before. What was
reported of the names that are found now is left out of the report. -/
structure Fills (before after : Document) (blamed : List Pairing) : Prop where
  references : Forall₂ Node.FilledBy before.references after.references
  placed : (blamed.map Pairing.nodes).Subperm (before.references.zip after.references)
  tells : ∀ x ∈ blamed, x.first.Blamed x.report
  changed : ∀ x ∈ before.references.zip after.references, x.1.binding ≠ x.2.binding →
    x ∈ blamed.map Pairing.nodes
  errors : before.bindingErrors = blamed.map Pairing.report
  remaining : after.bindingErrors = (blamed.filter Pairing.kept).map Pairing.report

/-- Provided names only fill gaps. -/
theorem resolve_fills_gaps (d : Document) (deps : Dependencies)
    {builtins builtins' : Option Builtins} (h : ∀ c, provided builtins c ⊆ provided builtins' c) :
    ∃ blamed, Fills (resolve d deps builtins).document
      (resolve d deps builtins').document blamed := by
  obtain ⟨blamed, hlawful, herrors, herrors', hlength, same, hbalanced⟩ := resolve_paired d deps h
  set references := (resolve d deps builtins).document.references.zip
    (resolve d deps builtins').document.references
    with hreferences
  have hzip : ↑(blamed.map Pairing.nodes) + same.map (fun n => (n, n)) =
      (↑references : Multiset (Node × Node)) :=
    hbalanced
  have hmem : ∀ x ∈ references, x ∈ blamed.map Pairing.nodes ∨ x.2 = x.1 := by
    intro x hx
    rw [← Multiset.mem_coe, ← hzip, Multiset.mem_add] at hx
    refine hx.imp Multiset.mem_coe.1 fun hsame => ?_
    obtain ⟨n, -, rfl⟩ := Multiset.mem_map.1 hsame
    rfl
  refine ⟨blamed, List.forall₂_iff_zip.2 ⟨hlength, fun hn => ?_⟩, ?_,
    fun x hx => (hlawful x hx).blamed, fun x hx hne => ?_, herrors, herrors'⟩
  · rcases hmem _ hn with hin | hsame
    · obtain ⟨x, hx, heq⟩ := List.mem_map.1 hin
      cases heq
      exact (hlawful x hx).filled
    · exact .inl hsame
  · rw [← Multiset.coe_le, ← hreferences, ← hzip]
    exact Multiset.le_add_right _ _
  · exact (hmem x hx).resolve_right fun hsame => hne (by rw [hsame])

/-- A function that hides a provided one, calls of names that are provided later, and names
that never are. -/
def gapped : List Token :=
  (tokenize "function half(x) = x / 2;\nbox(at = twice(n = TAU) + half(y = gap)) cube($t);"
    "p").tokens

def fewProvided : Builtins := .ofLists ["cube"] ["half"] []

theorem resolve_fills_gapped : ∃ p, parse gapped none = .ok p ∧
    (resolve p.document [] (some fewProvided)).document.bindingErrors.map Diagnostic.fault =
      [.unbound "box", .unbound "twice", .unbound "TAU", .unbound "gap", .unbound "y"] ∧
    (resolve p.document []
      (some (fewProvided.extend ["box"] ["twice"] ["TAU", "$t"]))).document.bindingErrors.map
        Diagnostic.fault = [.unbound "gap", .unbound "y"] ∧
    ∃ blamed, Fills (resolve p.document [] (some fewProvided)).document
      (resolve p.document [] (some (fewProvided.extend ["box"] ["twice"] ["TAU", "$t"]))).document
        blamed := by
  have hread : (parse gapped none).toOption.map (fun p =>
      ((resolve p.document [] (some fewProvided)).document.bindingErrors.map Diagnostic.fault,
        (resolve p.document []
        (some (fewProvided.extend ["box"] ["twice"] ["TAU", "$t"]))).document.bindingErrors.map
          Diagnostic.fault)) =
      some ([.unbound "box", .unbound "twice", .unbound "TAU", .unbound "gap", .unbound "y"],
        [.unbound "gap", .unbound "y"]) := by
    rw [gapped, tokens_ofList]
    decide +kernel
  obtain ⟨p, hp, heq⟩ := Parse.exists_of_map hread
  obtain ⟨hfew, hmore⟩ := Prod.mk.inj heq
  exact ⟨p, hp, hfew, hmore, resolve_fills_gaps p.document [] (provided_extend fewProvided _ _ _)⟩

end Resolve

end Scad
