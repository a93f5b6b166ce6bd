import Scad.Proofs.Resolve.Exports

/-! What file references bring in depends on a document only through its origin and those
references, and holds no name that the dependencies do not have. -/
namespace Scad

namespace Resolve

section

variable {deps : Dependencies} {withVariables : Bool} {origin : String}
  {documents : List (String × Document)}

/-- What was brought in after some documents were visited. -/
def Exports.behind (documents : List (String × Document)) (x : Exports) : Exports :=
  { x with documents := documents ++ x.documents }

theorem exportStatement_behind {nested : Document → Exports → Exports}
    (h : ∀ d x, nested d (x.behind documents) = (nested d x).behind documents)
    (x : Exports) (n : Node) :
    exportStatement deps withVariables origin nested (x.behind documents) n =
      (exportStatement deps withVariables origin nested x n).behind documents := by
  unfold exportStatement
  split
  · split
    · exact h _ _
    · rfl
  · rfl
  · rfl
  · split <;> rfl
  · rfl

/-- What comes from a document does not depend on those visited before, except by their origins. -/
theorem exportFrom_behind (fuel : Nat) (d : Document) (x : Exports) :
    exportFrom deps withVariables fuel d (x.behind documents) =
      (exportFrom deps withVariables fuel d x).behind documents := by
  induction fuel generalizing d x with
  | zero => rfl
  | succ fuel ih =>
      have henter : (x.behind documents).enter d = (x.enter d).behind documents := by
        simp only [Exports.enter, Exports.behind, List.append_assoc]
      rw [exportFrom, exportFrom, show (x.behind documents).seen = x.seen from rfl]
      split
      · rfl
      · rw [henter]
        exact List.foldl_hom (Exports.behind documents) fun y n => exportStatement_behind ih y n

def importStatement (deps : Dependencies) (x : Exports) (n : Node) : Exports :=
  match n.form with
  | .fileReference inclusion file =>
    match deps.find? file with
    | some d => exportFrom deps (inclusion = .everything) deps.length d x
    | none => x
  | _ => x

theorem importStatement_behind (x : Exports) (n : Node) :
    importStatement deps (x.behind documents) n = (importStatement deps x n).behind documents := by
  unfold importStatement
  split
  · split
    · exact exportFrom_behind _ _ _
    · rfl
  · rfl

def brought (deps : Dependencies) (origin : String) (ns : List Node) : Exports :=
  ns.foldl (importStatement deps) ⟨Frame.empty, [origin], []⟩

theorem importAll_eq (deps : Dependencies) (d : Document) :
    importAll deps d = (brought deps d.origin d.statements).behind [(d.origin, d)] := by
  have hstart : (⟨Frame.empty, [d.origin], [(d.origin, d)]⟩ : Exports) =
      Exports.behind [(d.origin, d)] ⟨Frame.empty, [d.origin], []⟩ := rfl
  rw [importAll, hstart]
  exact List.foldl_hom (Exports.behind [(d.origin, d)]) importStatement_behind

/-! A name that nothing in the dependencies has is not brought in. -/

variable {name : String} (hname : name ≠ "")

def Exports.Lacks (name : String) (x : Exports) : Prop := ∀ c, (x.frame.table c).lookup name = none

theorem Exports.Lacks.define {x : Exports} (h : x.Lacks name) (c : NameClass) {other : String}
    (ho : other ≠ name) (b : Binding) : (x.define c other b).Lacks name := by
  intro c'
  rw [show (x.define c other b).frame = x.frame.define c other b from rfl, Frame.lookup_define,
    if_neg fun he => ho he.2]
  exact h c'

include hname

theorem exportStatement_lacks {nested : Document → Exports → Exports} {x : Exports} {n : Node}
    (hnested : ∀ e ∈ deps.map Prod.snd, (nested e x).Lacks name)
    (hn : ∀ m ∈ n.preorder, m.name? ≠ some name) (h : x.Lacks name) :
    (exportStatement deps withVariables origin nested x n).Lacks name := by
  have hself : ∀ other, n.name? = some other → other ≠ name :=
    fun other ho he => hn n n.mem_preorder_self (he ▸ ho)
  unfold exportStatement
  split
  · split
    · rename_i hfind
      exact hnested _ (mem_of_find? hfind)
    · exact h
  · rename_i other ps b hf
    exact h.define _ (hself other (by rw [Node.name?, hf])) _
  · rename_i other ps b hf
    exact h.define _ (hself other (by rw [Node.name?, hf])) _
  · rename_i t e hf
    split
    · refine h.define _ ?_ _
      have ht : t ∈ n.children := by simp [Node.children, hf, Form.children, Form.fields,
        Field.children]
      cases htn : t.name? with
      | none => exact hname.symm
      | some other =>
          intro he
          exact hn t (Node.child_mem_preorder n.mem_preorder_self ht) (by rw [htn, ← he]; rfl)
    · exact h
  · exact h

variable (hdeps : ∀ e ∈ deps.map Prod.snd, ∀ n ∈ e.walk, n.name? ≠ some name)

include hdeps

theorem exportFrom_lacks (fuel : Nat) {d : Document} (hd : d ∈ deps.map Prod.snd) {x : Exports}
    (h : x.Lacks name) :
    (exportFrom deps withVariables fuel d x).Lacks name := by
  induction fuel generalizing d x with
  | zero => exact h
  | succ fuel ih =>
      rw [exportFrom]
      split
      · exact h
      · refine List.foldlRecOn d.statements _ (show (x.enter d).Lacks name from h)
          fun y hy n hn => ?_
        refine exportStatement_lacks hname (fun e he => ih he hy) (fun m hm => hdeps d hd m ?_) hy
        exact Node.mem_walkFrom.2 ⟨n, hn, hm⟩

theorem importAll_lacks (d : Document) : (importAll deps d).Lacks name := by
  refine List.foldlRecOn (motive := Exports.Lacks name) d.statements _ (fun c => by cases c <;> rfl)
    fun x hx n _ => ?_
  split
  · split
    · rename_i hfind
      exact exportFrom_lacks hname hdeps _ (mem_of_find? hfind) hx
    · exact hx
  · exact hx

end

end Resolve

end Scad
