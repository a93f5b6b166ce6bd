import Mathlib.Algebra.BigOperators.Group.Multiset.Basic
import Scad.Proofs.Resolve.Work

/-! What is wrong with a resolved tree: names that stand for nothing. Work that reports is held
against what is wrong with its result. -/
namespace Scad

/-- The trees of a text that was parsed: nothing is bound, and every call has suffixes. -/
def Node.Fresh (n : Node) : Prop := ∀ m ∈ n.preorder, m.binding = none ∧ ∀ t, m.form ≠ .call t []

theorem Node.fresh_mk {info : Info} {f : Form Node} :
    (Node.mk info f).Fresh ↔ (info.binding = none ∧ ∀ t, f ≠ .call t []) ∧ ∀ c ∈ f.children,
      c.Fresh := by
  rw [Fresh, preorder_eq, List.forall_mem_cons, List.forall_mem_flatMap]
  rfl

theorem Node.Fresh.child {n c : Node} (h : n.Fresh) (hc : c ∈ n.children) : c.Fresh := by
  obtain ⟨info, f⟩ := n
  exact (fresh_mk.1 h).2 c hc

/-- A node that is never complained about itself. -/
def Kind.isSilent (k : Kind) : Bool :=
  k ≠ .variableRef && k ≠ .moduleName && k ≠ .call && k ≠ .moduleHead

namespace Resolve

/-! ### Complaints -/

/-- A place and what is wrong there. -/
abbrev Finding := Span × Fault

/-- The parameters of the definitions that bindings lead to. -/
abbrev Signatures := Binding → Option (List (String × Int))

/-- An argument by name that the definition behind the callee does not have. -/
def stray? (parameters : Option (List (String × Int))) (a : Node) : Option Finding :=
  match parameters, a.form with
  | some ps, .argument (some ⟨ni, .argumentName name⟩) _ =>
    if name ∈ ps.map Prod.fst ∨ isSpecial name then none else some (ni.span, .unbound name)
  | _, _ => none

def unresolved (info : Info) (name : String) : List Finding :=
  if info.binding = some .unresolved then [(info.span, .unbound name)] else []

/-- What is wrong at a node: a variable or module that nothing declares, or arguments that the
callee's definition does not have. -/
def complaints (signatures : Signatures) : Node → List Finding
  | ⟨info, .variableRef name⟩ | ⟨info, .moduleName name⟩ => unresolved info name
  | ⟨_, .call ⟨ti, .variableRef _⟩ (⟨_, .callSuffix as⟩ :: _)⟩ =>
    as.filterMap (stray? (ti.binding.bind signatures))
  | ⟨_, .moduleHead ⟨mi, .moduleName _⟩ as⟩ => as.filterMap (stray? (mi.binding.bind signatures))
  | _ => []

theorem stray?_label {ps : List (String × Int)} {info ni : Info} {name : String} {e : Node} :
    stray? (some ps) ⟨info, .argument (some ⟨ni, .argumentName name⟩) e⟩ =
      if name ∈ ps.map Prod.fst ∨ isSpecial name then none else some (ni.span, .unbound name) := rfl

/-- What is no argument by name. -/
theorem stray?_other {parameters : Option (List (String × Int))} {a : Node}
    (h : ∀ info ni name e, a ≠ ⟨info, .argument (some ⟨ni, .argumentName name⟩) e⟩) :
    stray? parameters a = none := by
  obtain ⟨info, f⟩ := a
  unfold stray?
  split
  · rename_i ni name e hf
    exact absurd (congrArg (Node.mk info) hf) (h info ni name e)
  · rfl

theorem filterMap_stray?_none (as : List Node) : as.filterMap (stray? none) = [] :=
  List.filterMap_eq_nil_iff.2 fun _ _ => rfl

theorem unresolved_free {info : Info} {name : String} (h : info.binding = none) :
    unresolved info name = [] :=
  if_neg fun hb => by cases hb.symm.trans h

section

variable {signatures : Signatures} {info : Info}

theorem complaints_silent {f : Form Node} (hf : f.kind.isSilent) :
    complaints signatures ⟨info, f⟩ = [] := by
  cases f <;> first | rfl | cases hf

/-- A call whose callee is no name, or that does not begin with arguments. -/
theorem complaints_call_other {t : Node} {ss : List Node}
    (h : ¬ (t.kind = .variableRef ∧ ss.head?.map Node.kind = some .callSuffix)) :
    complaints signatures ⟨info, .call t ss⟩ = [] := by
  unfold complaints
  split <;> rename_i heq <;> try cases heq
  · exact absurd ⟨rfl, rfl⟩ h
  · rfl

/-- Before a module name is bound, nothing is known of its arguments. -/
theorem complaints_moduleHead_free {m : Node} {as : List Node}
    (h : m.kind = .moduleName → m.binding = none) :
    complaints signatures ⟨info, .moduleHead m as⟩ = [] := by
  obtain ⟨mi, mf⟩ := m
  cases mf <;> try rfl
  rw [complaints, show mi.binding = none from h rfl]
  exact filterMap_stray?_none as

theorem complaints_free {n : Node} (hn : n.binding = none)
    (hc : ∀ c ∈ n.children, c.binding = none) :
    complaints signatures n = [] := by
  unfold complaints
  split
  · exact unresolved_free hn
  · exact unresolved_free hn
  · rename_i ti name si as ss
    rw [show ti.binding = none from hc ⟨ti, .variableRef name⟩ (List.mem_cons_self ..)]
    exact filterMap_stray?_none as
  · rename_i mi name as
    rw [show mi.binding = none from hc ⟨mi, .moduleName name⟩ (List.mem_cons_self ..)]
    exact filterMap_stray?_none as
  · rfl

end

/-! ### Complaints about trees -/

section

variable (signatures : Signatures)

def allComplaints (n : Node) : Multiset Finding := ↑(n.preorder.flatMap (complaints signatures))

def complaintsOf (ns : List Node) : Multiset Finding := (ns.map (allComplaints signatures)).sum

variable {signatures}

theorem complaintsOf_nil : complaintsOf signatures [] = 0 := rfl

theorem complaintsOf_cons (n : Node) (ns : List Node) :
    complaintsOf signatures (n :: ns) = allComplaints signatures n + complaintsOf signatures ns :=
  List.sum_cons

theorem complaintsOf_eq (ns : List Node) :
    complaintsOf signatures ns = ↑((Node.walkFrom ns).flatMap (complaints signatures)) := by
  rw [Node.walkFrom_eq]
  induction ns with
  | nil => rfl
  | cons n ns ih =>
      rw [complaintsOf_cons, ih, List.flatMap_cons, List.flatMap_append, ← Multiset.coe_add]
      rfl

theorem allComplaints_mk (info : Info) (f : Form Node) : allComplaints signatures ⟨info, f⟩ =
    ↑(complaints signatures ⟨info, f⟩) + complaintsOf signatures f.children := by
  rw [complaintsOf_eq, Node.walkFrom_eq, Multiset.coe_add, allComplaints, Node.preorder_eq,
    List.flatMap_cons]
  rfl

theorem allComplaints_silent {info : Info} {f : Form Node} (hf : f.kind.isSilent) :
    allComplaints signatures ⟨info, f⟩ = complaintsOf signatures f.children := by
  rw [allComplaints_mk, complaints_silent hf]
  exact zero_add _

/-- Nothing is wrong before anything is bound. -/
theorem allComplaints_fresh {n : Node} (h : n.Fresh) : allComplaints signatures n = 0 := by
  rw [allComplaints, Multiset.coe_eq_zero, List.flatMap_eq_nil_iff]
  intro m hm
  exact complaints_free (h m hm).1 fun c hc => (h c (Node.child_mem_preorder hm hc)).1

end

/-! ### What the work tells -/

def Progress.findings (p : Progress) : Multiset Finding :=
  ↑(p.errors.map fun e => (e.span, e.fault))

/-- Unless the work is halted, it goes on, and what it finds on the way fits its result. -/
def Finds {α : Type} (m : Resolving α) (R : α → Multiset Finding → Prop) : Prop :=
  ∀ p, p.halted = false → (m.run p).2.halted = false ∧
    ∃ found, (m.run p).2.findings = p.findings + found ∧ R (m.run p).1 found

namespace Finds

variable {α β : Type} {Q R : α → Multiset Finding → Prop} {S : β → Multiset Finding → Prop}

theorem bind {m : Resolving α} {f : α → Resolving β} (hm : Finds m R)
    (hf : ∀ a found, R a found → Finds (f a) fun b more => S b (found + more)) :
    Finds (m >>= f) S := by
  intro p hp
  obtain ⟨hp', found, hfound, hr⟩ := hm p hp
  obtain ⟨hp'', more, hmore, hs⟩ := hf _ _ hr _ hp'
  refine ⟨hp'', found + more, ?_, hs⟩
  rw [← add_assoc, ← hfound]
  exact hmore

theorem mono {m : Resolving α} (hm : Finds m Q) (h : ∀ a found, Q a found → R a found) :
    Finds m R := by
  intro p hp
  obtain ⟨hp', found, hfound, hq⟩ := hm p hp
  exact ⟨hp', found, hfound, h _ _ hq⟩

theorem assign (info : Info) (b : Binding) :
    Finds (assign info b) fun info' found => info' = { info with binding := some b } ∧
    found = 0 := by
  refine fun p hp => ⟨hp, 0, (add_zero _).symm, ?_, rfl⟩
  show (if p.halted then info else _) = _
  rw [hp]
  rfl

theorem report (span : Span) (identifier message : String) :
    Finds (report span identifier message) fun _ found => found =
      {(span, .unbound identifier)} := by
  intro p hp
  have hrun : ((Resolve.report span identifier message).run p).2 =
      { p with errors := p.errors ++ [⟨.unbound identifier, span, message⟩] } := by
    show (if p.halted then p else _) = _
    rw [hp]
    rfl
  rw [hrun]
  refine ⟨hp, _, ?_, rfl⟩
  rw [Progress.findings, List.map_append, ← Multiset.coe_add]
  rfl

theorem bindReference (info : Info) (name noun : String) (b : Binding) :
    Finds (bindReference info name noun b) fun info' found =>
      info'.binding = some b ∧ found = ↑(unresolved info' name) := by
  unfold Resolve.bindReference
  split
  · rename_i hb
    refine (report _ _ _).bind fun _ found hfound => (assign info b).mono ?_
    rintro _ more ⟨rfl, rfl⟩
    refine ⟨rfl, ?_⟩
    rw [unresolved, if_pos (congrArg some hb), add_zero, hfound]
    rfl
  · rename_i hb
    refine (assign info b).mono ?_
    rintro _ more ⟨rfl, rfl⟩
    refine ⟨rfl, ?_⟩
    rw [unresolved, if_neg fun h => hb (Option.some.inj h)]
    rfl

/-- The name of an argument is reported where a definition lacks it. -/
theorem bindArgument (callee : Option Callee) (ni : Info) (name : String) :
    Finds (bindArgument callee ni name) fun ni' found => ∀ info e,
      found = ↑(stray? (callee.map (·.parameters))
        ⟨info, .argument (some ⟨ni', .argumentName name⟩) e⟩).toList := by
  have hassign : ∀ (b : Binding) (ps : List (String × Int)),
      name ∈ ps.map Prod.fst ∨ isSpecial name →
      Finds (Resolve.assign ni b) fun ni' found => ∀ info e, found =
        ↑(stray? (some ps) ⟨info, .argument (some ⟨ni', .argumentName name⟩) e⟩).toList := by
    intro b ps h
    refine (assign ni b).mono ?_
    rintro _ more ⟨rfl, rfl⟩ info e
    rw [stray?_label, if_pos h]
    rfl
  unfold Resolve.bindArgument
  split
  · exact (assign ni _).mono fun _ _ h _ _ => h.2
  · rename_i c
    split
    · rename_i other id hfind
      have hname : other = name := by simpa using List.find?_some hfind
      have hmem := List.mem_reverse.1 (List.mem_of_find?_eq_some hfind)
      exact hassign _ _ (.inl (List.mem_map.2 ⟨_, hmem, hname⟩))
    · rename_i hfind
      split
      · rename_i hspecial
        exact hassign _ _ (.inr hspecial)
      · rename_i hspecial
        have hmissing : ¬ (name ∈ c.parameters.map Prod.fst ∨ isSpecial name) := by
          rintro (h | h)
          · obtain ⟨x, hx, hname⟩ := List.mem_map.1 h
            simpa [hname] using List.find?_eq_none.1 hfind x (List.mem_reverse.2 hx)
          · exact hspecial h
        refine (report _ _ _).bind fun _ found hfound => (assign ni _).mono ?_
        rintro _ more ⟨rfl, rfl⟩ info e
        rw [add_zero, hfound, Option.map_some, stray?_label, if_neg hmissing]
        rfl

end Finds

end Resolve

end Scad
