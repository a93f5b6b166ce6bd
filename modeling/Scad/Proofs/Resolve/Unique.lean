import Scad.Proofs.Resolve.Relabel
import Scad.Proofs.Resolve.Descent

/-! The rules leave no choice: they bind the references of a tree in one way only, whatever was
bound before. -/
namespace Scad

theorem Form.mapName_id {α : Type} (f : Form α) : f.mapName id = f := by
  cases f <;> rfl

theorem Node.binding_unbound (n : Node) : n.unbound.binding = none := by
  obtain ⟨info, form⟩ := n
  rw [Node.unbound_mk]
  rfl

theorem Node.isPseudo_unbound (n : Node) : n.unbound.isPseudo = n.isPseudo := by
  rw [isPseudo, form_unbound, isPseudo]
  cases n.form <;> rfl

def Relabeling.unbinding : Relabeling where
  node := Node.unbound
  declaration := id
  binding := fun _ => none
  form_node := fun n => ⟨id, by rw [Form.mapName_id, Node.form_unbound]⟩
  declaration?_node := fun n => by rw [Resolve.declaration?_unbound, Option.map_id, id]
  binding_node := Node.binding_unbound

namespace Node

def references (n : Node) : List Node := n.preorder.filter (·.kind.isReference)

theorem references_eq (n : Node) :
    n.references = (if n.kind.isReference then [n] else []) ++ n.children.flatMap references := by
  rw [references, preorder_eq, List.filter_cons, List.filter_flatMap]
  split <;> rfl

end Node

theorem flatMap_eq_of_map_eq {α β γ : Type} {f : α → β} {g : α → List γ} {xs ys : List α}
    (h : xs.map f = ys.map f) (hg : ∀ x ∈ xs, ∀ y ∈ ys, f x = f y → g x = g y) :
    xs.flatMap g = ys.flatMap g := by
  induction xs generalizing ys with
  | nil =>
      cases ys with
      | nil => rfl
      | cons y ys => cases h
  | cons x xs ih =>
      cases ys with
      | nil => cases h
      | cons y ys =>
          obtain ⟨hxy, hrest⟩ := List.cons.inj h
          rw [List.flatMap_cons, List.flatMap_cons,
            hg x (List.mem_cons_self ..) y (List.mem_cons_self ..) hxy, ih hrest fun x hx y hy =>
            hg x (List.mem_cons_of_mem _ hx) y (List.mem_cons_of_mem _ hy)]

namespace Role

def calleeBinding : Role → Option Binding
  | applied b | passed b | named b => b
  | _ => none

def withCallee (b : Option Binding) : Role → Role
  | applied _ => applied b
  | passed _ => passed b
  | named _ => named b
  | role => role

end Role

namespace View

open Relabeling (unbinding)

def calleeBinding (v : View) (n : Node) : Option Binding :=
  match n.form with
  | .moduleHead callee _ => callee.binding
  | .call callee (s :: _) => if callee.appliesName s then callee.binding else none
  | _ => v.role.calleeBinding

theorem RoleStep.withCallee {v : View} {n m : Node} {role : Role} (h : v.RoleStep n role m) :
    role.withCallee (v.calleeBinding n) = role := by
  cases h with
  | plain | value | called => rfl
  | applied hf happ =>
      rw [View.calleeBinding, hf]
      exact congrArg Role.applied (if_pos happ)
  | head hf _ =>
      rw [View.calleeBinding, hf]
      rfl
  | passed hv hf _ | named hv hf =>
      rw [View.calleeBinding, hf, hv]
      rfl

theorem withCallee_unbinding (b : Option Binding) (role : Role) :
    (unbinding.role role).withCallee b = role.withCallee b := by
  cases role with
  | value d => cases d <;> rfl
  | _ => rfl

/-- Views of one role are the same if they are without bindings. -/
theorem view_unique {w w' : View} (hrole : w'.role = w.role)
    (h : unbinding.view w' = unbinding.view w) : w' = w := by
  have hlists : w'.lists = w.lists := by
    have hmap := congrArg View.lists h
    simpa [Relabeling.view, unbinding] using hmap
  have hvars : w'.vars = w.vars := by
    have hmap := congrArg View.vars h
    simpa [Relabeling.view, unbinding] using hmap
  obtain ⟨lists, vars, role⟩ := w
  cases hlists
  cases hvars
  cases hrole
  rfl

/-- Parts of two nodes that are told the same see the same if they do without bindings. -/
theorem role_unique {v w w' : View} {n n' m m' : Node} (h : (w, m) ∈ v.parts n)
    (h' : (w', m') ∈ v.parts n') (htold : v.calleeBinding n' = v.calleeBinding n)
    (hw : unbinding.view w' = unbinding.view w) : w'.role = w.role := by
  calc w'.role = (unbinding.role w'.role).withCallee (v.calleeBinding n') := by
        rw [withCallee_unbinding, (role_parts h').withCallee]
    _ = (unbinding.role w.role).withCallee (v.calleeBinding n) := by
        rw [htold]
        exact congrArg (Role.withCallee (v.calleeBinding n)) (congrArg View.role hw)
    _ = w.role := by rw [withCallee_unbinding, (role_parts h).withCallee]

end View

namespace Throughout

variable {P : View → Node → Prop} {v w : View} {n m : Node}

theorem here (h : Throughout P v n) : P v n := by
  cases h with
  | mk here below => exact here

theorem part (h : Throughout P v n) (hm : (w, m) ∈ v.parts n) : Throughout P w m := by
  cases h with
  | mk here below => exact below w m hm

end Throughout

namespace Resolve

open Relabeling (unbinding)

section

variable {env : Environment} {library : Frame} {v : View} {n n' : Node}

/-- At one place, a reference is bound in one way. -/
theorem reference_unique (h : Bound env library v n) (h' : Bound env library v n')
    (hu : n'.unbound = n.unbound) (hk : n.kind.isReference) : n' = n := by
  obtain ⟨⟨id, span, b⟩, form⟩ := n
  obtain ⟨⟨id', span', b'⟩, form'⟩ := n'
  rw [Node.unbound_mk, Node.unbound_mk] at hu
  obtain ⟨hinfo, hform⟩ := Node.mk.inj hu
  obtain ⟨rfl, rfl, -⟩ := Info.mk.inj hinfo
  cases form <;> cases hk <;> cases form' <;> cases hform <;>
    exact congrArg (fun b => Node.mk ⟨id', span', b⟩ _) (h'.trans h.symm)

theorem calleeBinding_of_kind (hcall : n.kind ≠ .call) (hhead : n.kind ≠ .moduleHead) :
    v.calleeBinding n = v.role.calleeBinding := by
  obtain ⟨info, form⟩ := n
  cases form <;> first | rfl | exact absurd rfl hcall | exact absurd rfl hhead

theorem calleeBinding_call {info : Info} {t s : Node} {ss : List Node} :
    v.calleeBinding ⟨info, .call t (s :: ss)⟩ = if t.appliesName s then t.binding else none := rfl

/-- What the callee of a call is bound to, too. -/
theorem calleeBinding_call_unique {info info' : Info} {t t' : Node} {ss ss' : List Node}
    (h : Throughout (Bound env library) v ⟨info, .call t ss⟩)
    (h' : Throughout (Bound env library) v ⟨info', .call t' ss'⟩) (ht : t'.unbound = t.unbound)
    (hss : ss'.map Node.unbound = ss.map Node.unbound) :
    v.calleeBinding ⟨info', .call t' ss'⟩ = v.calleeBinding ⟨info, .call t ss⟩ := by
  cases ss with
  | nil =>
      cases List.map_eq_nil_iff.1 hss
      rfl
  | cons s ss =>
      obtain ⟨s', ss', rfl, hs, -⟩ := List.map_eq_cons_iff.1 hss
      have happ : t'.appliesName s' = t.appliesName s := by
        calc t'.appliesName s' = t'.unbound.appliesName s'.unbound :=
          (unbinding.appliesName_node t' s').symm
          _ = t.unbound.appliesName s.unbound := by rw [ht, hs]
          _ = t.appliesName s := unbinding.appliesName_node t s
      rw [calleeBinding_call, calleeBinding_call, happ]
      split
      · rename_i hname
        have hpart : (v.as .called, t) ∈ v.parts ⟨info, .call t (s :: ss)⟩ := by
          simp [View.parts, Node.form, hname]
        have hpart' : (v.as .called, t') ∈ v.parts ⟨info', .call t' (s' :: ss')⟩ := by
          simp [View.parts, Node.form, happ, hname]
        have href : t.kind.isReference := by
          rw [of_decide_eq_true (Bool.and_eq_true_iff.1 hname).1]
          rfl
        rw [reference_unique (h.part hpart).here (h'.part hpart').here ht href]
      · rfl

theorem calleeBinding_moduleHead_unique {info info' : Info} {m m' : Node} {as as' : List Node}
    (h : Throughout (Bound env library) v ⟨info, .moduleHead m as⟩)
    (h' : Throughout (Bound env library) v ⟨info', .moduleHead m' as'⟩)
    (hm : m'.unbound = m.unbound) (href : m.kind.isReference) :
    v.calleeBinding ⟨info', .moduleHead m' as'⟩ = v.calleeBinding ⟨info, .moduleHead m as⟩ := by
  have hpart := h.part (w := v.plain) (m := m) (List.mem_cons_self ..)
  have hpart' := h'.part (w := v.plain) (m := m') (List.mem_cons_self ..)
  rw [reference_unique hpart.here hpart'.here hm href]
  rfl

theorem calleeBinding_unique (hs : n.form.Shaped .any) (h : Throughout (Bound env library) v n)
    (h' : Throughout (Bound env library) v n') (hu : n'.unbound = n.unbound) :
    v.calleeBinding n' = v.calleeBinding n := by
  have hkind : n'.kind = n.kind := by rw [← Node.kind_unbound, hu, Node.kind_unbound]
  obtain ⟨info, form⟩ := n
  obtain ⟨info', form'⟩ := n'
  rw [Node.unbound_mk, Node.unbound_mk] at hu
  have hform := (Node.mk.inj hu).2
  by_cases hhead : (Node.mk info form).kind = .moduleHead
  · cases form <;> cases hhead
    cases form' <;> cases hkind
    obtain ⟨name, -, hm, -⟩ := hs
    refine calleeBinding_moduleHead_unique h h' (Form.moduleHead.inj hform).1 ?_
    rw [Node.kind, hm]
    rfl
  · by_cases hcall : (Node.mk info form).kind = .call
    · cases form <;> cases hcall
      cases form' <;> cases hkind
      obtain ⟨ht, hss⟩ := Form.call.inj hform
      exact calleeBinding_call_unique h h' ht hss
    · rw [calleeBinding_of_kind hcall hhead, calleeBinding_of_kind (hkind ▸ hcall) (hkind ▸ hhead)]

/-- Trees that are equal without bindings have the same references if both are bound throughout. -/
theorem references_unique (hs : n.AllShaped .any) (h : Throughout (Bound env library) v n)
    (h' : Throughout (Bound env library) v n') (hu : n'.unbound = n.unbound) :
    n'.references = n.references := by
  induction n using Node.ofChildren generalizing v n' with
  | h n ih =>
      have hkind : n'.kind = n.kind := by rw [← Node.kind_unbound, hu, Node.kind_unbound]
      have htold := calleeBinding_unique hs.self h h' hu
      have hplaces : (v.parts n').map unbinding.place = (v.parts n).map unbinding.place := by
        have hparts := fun n : Node => unbinding.parts_node v (n := n) fun m _ => m.isPseudo_unbound
        rw [← hparts, ← hparts]
        exact congrArg (unbinding.view v).parts hu
      have hbelow : n'.children.flatMap Node.references = n.children.flatMap Node.references := by
        rw [← v.map_snd_parts n, ← v.map_snd_parts n', List.flatMap_map, List.flatMap_map]
        refine flatMap_eq_of_map_eq hplaces fun (w', m') hm' (w, m) hm he => ?_
        obtain ⟨hview, hnode⟩ := Prod.mk.inj he
        obtain rfl := View.view_unique (View.role_unique hm hm' htold hview) hview
        have hmem : m ∈ n.children := (v.map_snd_parts n) ▸ List.mem_map_of_mem (f := Prod.snd) hm
        exact ih m hmem (hs.child hmem) (h.part hm) (h'.part hm') hnode
      rw [Node.references_eq, Node.references_eq, hbelow, hkind]
      split
      · rename_i href
        rw [reference_unique h.here h'.here hu href]
      · rfl

theorem throughout_of_stands {P : View → Node → Prop} {top : List Node}
    (h : ∀ v n, Stands top v n → P v n) (hn : Stands top v n) : Throughout P v n := by
  induction n using Node.ofChildren generalizing v with
  | h n ih =>
      refine ⟨h v n hn, fun w m hm => ih m ?_ (.part hn hm)⟩
      exact (v.map_snd_parts n) ▸ List.mem_map_of_mem (f := Prod.snd) hm

/-- Statement lists that are equal without bindings have the same references if both are bound
by the rules. -/
theorem references_of_stands {ss ss' : List Node} (hs : ∀ n ∈ ss, n.AllShaped .any)
    (hu : ss'.map Node.unbound = ss.map Node.unbound)
    (h : ∀ v n, Stands ss v n → Bound env library v n)
    (h' : ∀ v n, Stands ss' v n → Bound env library v n) :
    ss'.flatMap Node.references = ss.flatMap Node.references := by
  have hplaces : ((View.outside.within ss').inOrder ss').map unbinding.place =
      ((View.outside.within ss).inOrder ss).map unbinding.place := by
    rw [← unbinding.inOrder_node, ← unbinding.inOrder_node, unbinding.view_within,
      unbinding.view_within]
    exact congrArg (fun ns => ((unbinding.view .outside).within ns).inOrder ns) hu
  rw [← View.map_snd_inOrder (View.outside.within ss) ss,
    ← View.map_snd_inOrder (View.outside.within ss') ss', List.flatMap_map, List.flatMap_map]
  refine flatMap_eq_of_map_eq hplaces fun (w', m') hm' (w, m) hm he => ?_
  obtain ⟨hview, hnode⟩ := Prod.mk.inj he
  have hrole : w'.role = w.role := (View.role_inOrder rfl hm').trans (View.role_inOrder rfl hm).symm
  obtain rfl := View.view_unique hrole hview
  have hmem : m ∈ ss := (View.map_snd_inOrder (View.outside.within ss) ss) ▸
    List.mem_map_of_mem (f := Prod.snd) hm
  exact references_unique (hs m hmem) (throughout_of_stands h (.statement hm))
    (throughout_of_stands h' (.statement hm')) hnode

end

end Resolve

/-- The references of a document are those of its statements. -/
theorem Document.references_eq (d : Document) :
    d.references = d.statements.flatMap Node.references := by
  rw [references, walk, Node.walkFrom_eq, List.filter_flatMap]
  rfl

end Scad
