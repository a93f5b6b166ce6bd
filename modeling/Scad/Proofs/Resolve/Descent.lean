import Scad.Proofs.Resolve.View
import Scad.Proofs.Tree.Order

/-! What is known of a place from the way to it: how it stands in what is around it, and that
everything in view is declared by nodes of the text, in the order of their ids. -/
namespace Scad

/-! ### Calls and their arguments -/

/-- A call of a name with arguments. -/
inductive Node.Calls (n callee : Node) (as : List Node) : Prop where
  | module (h : n.form = .moduleHead callee as)
  | function {s : Node} {ss : List Node} (h : n.form = .call callee (s :: ss))
      (hs : s.form = .callSuffix as) (hc : callee.kind = .variableRef)

/-- What a call with arguments applies to. -/
def IsCalled (top : List Node) (n : Node) : Prop :=
  ∃ c ∈ Node.walkFrom top, ∃ s ss, c.form = .call n (s :: ss) ∧ s.kind = .callSuffix

/-- An argument of a call. -/
def IsArgumentOf (top : List Node) (callee a : Node) : Prop :=
  ∃ c ∈ Node.walkFrom top, ∃ as, c.Calls callee as ∧ a ∈ as

/-- The name of an argument of a call. -/
def IsLabelOf (top : List Node) (callee l : Node) : Prop :=
  ∃ a e, IsArgumentOf top callee a ∧ a.form = .argument (some l) e

namespace View

inductive RoleStep (v : View) (n : Node) : Role → Node → Prop where
  | plain {m : Node} : RoleStep v n .plain m
  | value {m : Node} {d : Option Declaration} : RoleStep v n (.value d) m
  | called {m s : Node} {ss : List Node} (h : n.form = .call m (s :: ss)) (hs : m.appliesName s) :
      RoleStep v n .called m
  | applied {t m : Node} {ss : List Node} (h : n.form = .call t (m :: ss)) (hm : t.appliesName m) :
      RoleStep v n (.applied t.binding) m
  | passed {m : Node} {as : List Node} {b : Option Binding} (hv : v.role = .applied b)
      (h : n.form = .callSuffix as) (hm : m ∈ as) : RoleStep v n (.passed b) m
  | head {c m : Node} {as : List Node} (h : n.form = .moduleHead c as) (hm : m ∈ as) :
      RoleStep v n (.passed c.binding) m
  | named {m e : Node} {b : Option Binding} (hv : v.role = .passed b)
      (h : n.form = .argument (some m) e) : RoleStep v n (.named b) m

section

variable {u v w : View} {m n : Node} {ns : List Node}

theorem role_inOrder (hv : v.role = .plain) (h : (w, m) ∈ v.inOrder ns) : w.role = .plain := by
  induction ns generalizing v with
  | nil => cases h
  | cons n ns ih =>
      rcases List.mem_cons.1 h with h | h
      · cases h
        exact hv
      · exact ih rfl h

/-- The roles of all of some places are those of parts of the node. -/
def AllRoles (v : View) (n : Node) (places : List (View × Node)) : Prop :=
  ∀ w m, (w, m) ∈ places → v.RoleStep n w.role m

namespace AllRoles

variable {places others : List (View × Node)}

theorem append (first : v.AllRoles n places) (second : v.AllRoles n others) :
    v.AllRoles n (places ++ others) :=
  fun w m hm => (List.mem_append.1 hm).elim (first w m) (second w m)

theorem alike (h : ∀ m ∈ ns, v.RoleStep n u.role m) : v.AllRoles n (u.alike ns) := by
  intro w m hm
  obtain ⟨rfl, hmem⟩ := mem_alike hm
  exact h m hmem

theorem one (h : v.RoleStep n u.role m) : v.AllRoles n [(u, m)] :=
  by
  show v.AllRoles n (u.alike [m])
  refine alike fun c hc => ?_
  rw [List.mem_singleton.1 hc]
  exact h

theorem plain (hu : u.role = .plain) : v.AllRoles n (u.alike ns) := alike fun _ _ => hu ▸ .plain

theorem inOrder (hu : u.role = .plain) : v.AllRoles n (u.inOrder ns) :=
  fun _ _ hm => role_inOrder hu hm ▸ .plain

end AllRoles

/-- Only calls and their arguments give other roles than a plain one and that of a value. -/
theorem allRoles_parts {info : Info} {form : Form Node} :
    v.AllRoles ⟨info, form⟩ (v.parts ⟨info, form⟩) := by
  cases form with
  | assignment t e => exact .append (.one .plain) (.one .value)
  | letIn as b => exact .append (.inOrder rfl) (.one .plain)
  | forElement as c us b => exact .append (.inOrder rfl) (.plain rfl)
  | functionLiteral ps b => exact .append (.plain rfl) (.one .plain)
  | functionDefinition name ps e => exact .append (.plain rfl) (.one .plain)
  | moduleDefinition name ps b => exact .append (.plain rfl) (.one .plain)
  | block ss => exact .inOrder rfl
  | moduleHead h as =>
      have hrest : v.AllRoles ⟨info, .moduleHead h as⟩
          (if h.isPseudo then v.plain.inOrder as else (v.as (.passed h.binding)).alike as) := by
        split
        · exact .inOrder rfl
        · exact .alike fun a ha => .head rfl ha
      exact .append (.one .plain) hrest
  | moduleCall h b => exact .append (.one .plain) (.one .plain)
  | call t ss =>
      cases ss with
      | nil => exact .plain rfl
      | cons s ss =>
          show v.AllRoles _ (if t.appliesName s then _ else _)
          split
          · rename_i happ
            exact .append (.one (.called rfl happ)) (.append (.one (.applied rfl happ)) (.plain rfl))
          · exact .plain rfl
  | callSuffix as =>
      refine .alike fun a ha => ?_
      cases hv : v.role with
      | applied b => exact .passed hv rfl ha
      | _ => exact .plain
  | argument l e =>
      refine .append (.alike fun m hm => ?_) (.one .plain)
      obtain rfl := Option.mem_toList.1 hm
      cases hv : v.role with
      | passed b => exact .named hv rfl
      | _ => exact .plain
  | _ => exact .plain rfl

theorem role_parts (h : (w, m) ∈ v.parts n) : v.RoleStep n w.role m := by
  obtain ⟨info, form⟩ := n
  exact allRoles_parts w m h

end

end View

namespace Stands

variable {top : List Node} {v : View} {n : Node} {b : Option Binding}

/-- A role other than a plain one comes from the node around. -/
theorem roleStep (h : Stands top v n) (hv : v.role ≠ .plain) :
    ∃ w c, Stands top w c ∧ w.RoleStep c v.role n := by
  cases h with
  | statement h => exact absurd (View.role_inOrder rfl h) hv
  | part h hm => exact ⟨_, _, h, View.role_parts hm⟩

theorem called (h : Stands top v n) (hv : v.role = .called) : IsCalled top n := by
  obtain ⟨w, c, hc, hstep⟩ := h.roleStep (hv ▸ nofun)
  rw [hv] at hstep
  cases hstep with
  | called hf hs =>
      exact ⟨c, hc.mem_walk, _, _, hf, of_decide_eq_true (Bool.and_eq_true_iff.1 hs).2⟩

theorem applied (h : Stands top v n) (hv : v.role = .applied b) :
    ∃ c ∈ Node.walkFrom top, ∃ callee ss, callee.binding = b ∧ c.form = .call callee (n :: ss) ∧
      callee.kind = .variableRef := by
  obtain ⟨w, c, hc, hstep⟩ := h.roleStep (hv ▸ nofun)
  rw [hv] at hstep
  cases hstep with
  | applied hf hs =>
      exact ⟨c, hc.mem_walk, _, _, rfl, hf, of_decide_eq_true (Bool.and_eq_true_iff.1 hs).1⟩

theorem passed (h : Stands top v n) (hv : v.role = .passed b) :
    ∃ callee, callee.binding = b ∧ IsArgumentOf top callee n := by
  obtain ⟨w, c, hc, hstep⟩ := h.roleStep (hv ▸ nofun)
  rw [hv] at hstep
  cases hstep with
  | head hf hm => exact ⟨_, rfl, c, hc.mem_walk, _, .module hf, hm⟩
  | passed hw hf hm =>
      obtain ⟨k, hk, callee, ss, hb, hcall, hkind⟩ := hc.applied hw
      exact ⟨callee, hb, k, hk, _, .function hcall hf hkind, hm⟩

theorem named (h : Stands top v n) (hv : v.role = .named b) :
    ∃ callee, callee.binding = b ∧ IsLabelOf top callee n := by
  obtain ⟨w, c, hc, hstep⟩ := h.roleStep (hv ▸ nofun)
  rw [hv] at hstep
  cases hstep with
  | named hw hf =>
      obtain ⟨callee, hb, ha⟩ := hc.passed hw
      exact ⟨callee, hb, c, _, ha, hf⟩

end Stands

/-! ### What is in view is declared -/

/-- The declarations in a tree, in the order of its nodes' ids. -/
def Node.declared (n : Node) : List Declaration :=
  n.fold fun m below => below.written.flatten ++ m.declaration?.toList

def declaredAll (ns : List Node) : List Declaration := ns.flatMap Node.declared

theorem Node.declared_mk (info : Info) (form : Form Node) :
    (Node.mk info form).declared = declaredAll form.written ++
      (Node.mk info form).declaration?.toList := by
  rw [declared, fold_mk, Form.written_map, declaredAll, List.flatMap_def]
  rfl

theorem declaredAll_append (ms ns : List Node) :
    declaredAll (ms ++ ns) = declaredAll ms ++ declaredAll ns :=
  List.flatMap_append

theorem declaredAll_singleton (n : Node) : declaredAll [n] = n.declared := List.append_nil _

theorem declared_sublist_of_mem {n : Node} {ns : List Node} (h : n ∈ ns) :
    n.declared.Sublist (declaredAll ns) :=
  List.sublist_flatten_of_mem (List.mem_map_of_mem h)

theorem declaredAll_sublist_trails {ns : List Node}
    (h : ∀ n ∈ ns, (n.declared.map Declaration.id).Sublist n.trail) :
    ((declaredAll ns).map Declaration.id).Sublist (trails ns) := by
  induction ns with
  | nil => exact .refl _
  | cons n ns ih =>
      rw [show n :: ns = [n] ++ ns from rfl, declaredAll_append, trails_append,
        declaredAll_singleton, trails_singleton, List.map_append]
      exact (h n (List.mem_cons_self ..)).append (ih fun m hm => h m (List.mem_cons_of_mem _ hm))

theorem declared_sublist_trail (n : Node) : (n.declared.map Declaration.id).Sublist n.trail := by
  induction n using Node.ofChildren with
  | h n ih =>
      obtain ⟨info, form⟩ := n
      rw [Node.declared_mk, Node.trail_mk, List.map_append]
      refine (declaredAll_sublist_trails fun c hc =>
        ih c (form.perm_written.mem_iff.1 hc)).append ?_
      cases form <;> first | exact .refl _ | exact List.nil_sublist _

theorem mem_declared {n : Node} {d : Declaration} (h : d ∈ n.declared) :
    ∃ m ∈ n.preorder, m.declaration? = some d := by
  induction n using Node.ofChildren with
  | h n ih =>
      obtain ⟨info, form⟩ := n
      rw [Node.declared_mk] at h
      rcases List.mem_append.1 h with h | h
      · obtain ⟨c, hc, h⟩ := List.mem_flatMap.1 h
        have hc : c ∈ (Node.mk info form).children := form.perm_written.mem_iff.1 hc
        obtain ⟨m, hm, hd⟩ := ih c hc h
        rw [Node.preorder_eq]
        exact ⟨m, List.mem_cons_of_mem _ (List.mem_flatMap.2 ⟨c, hc, hm⟩), hd⟩
      · exact ⟨_, Node.mem_preorder_self _, Option.mem_toList.1 h⟩

theorem declaration_sublist (n : Node) : n.declaration?.toList.Sublist n.declared := by
  obtain ⟨info, form⟩ := n
  rw [Node.declared_mk]
  exact List.sublist_append_right _ _

theorem introduces_sublist (n : Node) : n.introduces?.toList.Sublist n.declared := by
  obtain ⟨info, form⟩ := n
  rw [Node.declared_mk]
  refine .trans ?_ (List.sublist_append_left _ _)
  unfold Node.introduces?
  split
  · rename_i t e h
    obtain rfl : form = _ := h
    exact (declaration_sublist t).trans (declared_sublist_of_mem (List.mem_cons_self ..))
  · rename_i l e h
    obtain rfl : form = _ := h
    exact (declaration_sublist l).trans (declared_sublist_of_mem (List.mem_cons_self ..))
  · exact List.nil_sublist _

theorem filterMap_sublist {f : Node → Option Declaration}
    (hf : ∀ n, (f n).toList.Sublist n.declared) (ns : List Node) :
    (ns.filterMap f).Sublist (declaredAll ns) := by
  induction ns with
  | nil => exact List.nil_sublist _
  | cons n ns ih =>
      rw [show n :: ns = [n] ++ ns from rfl, List.filterMap_append, declaredAll_append,
        declaredAll_singleton]
      refine .append ?_ ih
      have hn := hf n
      cases h : f n with
      | none => simp [h]
      | some d => simpa [h] using hn

theorem headVariables_sublist (n : Node) : n.headVariables.Sublist n.declared := by
  obtain ⟨info, form⟩ := n
  rw [Node.declared_mk]
  refine .trans ?_ (List.sublist_append_left _ _)
  unfold Node.headVariables
  split
  · rename_i m as h
    obtain rfl : form = _ := h
    split
    · rw [Form.written_moduleHead, show m :: as = [m] ++ as from rfl, declaredAll_append]
      exact (filterMap_sublist introduces_sublist as).trans (List.sublist_append_right _ _)
    · exact List.nil_sublist _
  · exact List.nil_sublist _

namespace View

/-- The variables that are in view or may come into view by the role. -/
def all (v : View) : List Declaration := v.vars ++ v.role.assigned?.toList

/-- A view and a node, reached through trees: its variables are those of an outer view and
of the trees, in their order and before the node's own, and its lists are outer ones or made
of the trees. -/
structure Among (v : View) (ns : List Node) (w : View) (m : Node) : Prop where
  vars : (w.all ++ m.declared).Sublist (v.all ++ declaredAll ns)
  lists : ∀ ds ∈ w.lists, ds ∈ v.lists ∨ ∀ d ∈ ds, d ∈ declaredAll ns

section

variable {u v w : View} {m n : Node} {as bs ns : List Node} {ds : List Declaration}

theorem all_plain_sublist (v : View) : v.plain.all.Sublist v.all :=
  .append (.refl _) (List.nil_sublist _)

theorem all_seeing_sublist (hd : ds.Sublist (declaredAll as)) :
    (v.seeing ds).all.Sublist (v.all ++ declaredAll as) := by
  have hv : v.vars.Sublist v.all := List.sublist_append_left _ _
  simpa [all, seeing, Role.assigned?] using hv.append hd

theorem Among.left (h : v.Among as w m) : v.Among (as ++ bs) w m := by
  refine ⟨?_, fun ds hds => (h.lists ds hds).imp_right fun hd d hm => ?_⟩
  · rw [declaredAll_append, ← List.append_assoc]
    exact h.vars.trans (List.sublist_append_left _ _)
  · rw [declaredAll_append]
    exact List.mem_append_left _ (hd d hm)

/-- What comes into view in the first trees is in view in the others. -/
theorem Among.right (hu : u.all.Sublist (v.all ++ declaredAll as))
    (hl : ∀ ds ∈ u.lists, ds ∈ v.lists ∨ ∀ d ∈ ds, d ∈ declaredAll bs) (h : u.Among bs w m) :
    v.Among (as ++ bs) w m := by
  refine ⟨?_, fun ds hds => ?_⟩
  · rw [declaredAll_append, ← List.append_assoc]
    exact h.vars.trans (hu.append (.refl _))
  · rw [declaredAll_append]
    rcases h.lists ds hds with hds | hd
    · exact (hl ds hds).imp_right fun hd d hm => List.mem_append_right _ (hd d hm)
    · exact .inr fun d hm => List.mem_append_right _ (hd d hm)

/-- A role that brings nothing into view. -/
theorem Among.ofRole {role : Role} (hr : role.assigned? = none) (h : (v.as role).Among ns w m) :
    v.Among ns w m := by
  have hall : (v.as role).all = v.plain.all := by rw [all, View.as, hr]; rfl
  exact ⟨h.vars.trans (.append (hall ▸ v.all_plain_sublist) (.refl _)), h.lists⟩

theorem Among.plain (h : v.plain.Among ns w m) : v.Among ns w m := h.ofRole rfl

theorem Among.within (h : (v.within ns).Among ns w m) : v.Among ns w m := by
  show v.Among ([] ++ ns) w m
  refine .right (u := v.within ns) ?_ (fun ds hds => ?_) h
  · exact v.all_plain_sublist.trans (List.sublist_append_left _ _)
  · rcases List.mem_cons.1 hds with rfl | hds
    · exact .inr fun d hd => (filterMap_sublist declaration_sublist ns).subset hd
    · exact .inl hds

theorem among_alike (h : (w, m) ∈ v.alike ns) : v.Among ns w m := by
  obtain ⟨rfl, hm⟩ := mem_alike h
  exact ⟨.append (.refl _) (declared_sublist_of_mem hm), fun _ hds => .inl hds⟩

theorem among_inOrder (hv : v.role = .plain) (h : (w, m) ∈ v.inOrder ns) : v.Among ns w m := by
  induction ns generalizing v with
  | nil => cases h
  | cons n ns ih =>
      rcases List.mem_cons.1 h with h | h
      · cases h
        exact among_alike (List.mem_cons_self ..)
      · show v.Among ([n] ++ ns) w m
        refine .right (all_seeing_sublist ?_) (fun _ hds => .inl hds) (ih rfl h)
        rw [declaredAll_singleton]
        exact introduces_sublist n

/-- All of some places are reached through the trees. -/
def AllAmong (v : View) (ns : List Node) (places : List (View × Node)) : Prop :=
  ∀ w m, (w, m) ∈ places → v.Among ns w m

namespace AllAmong

variable {t s h l b e : Node} {ps ss us : List Node} {o : Option Node}
  {places others : List (View × Node)}

theorem alike : v.AllAmong ns (v.alike ns) := fun _ _ => among_alike

theorem one : v.AllAmong [n] [(v, n)] := alike

theorem inOrder : v.AllAmong ns (v.plain.inOrder ns) := fun _ _ h => (among_inOrder rfl h).plain

theorem ofRole {role : Role} (hr : role.assigned? = none) (h : (v.as role).AllAmong ns places) :
    v.AllAmong ns places :=
  fun w m hm => (h w m hm).ofRole hr

theorem plain (h : v.plain.AllAmong ns places) : v.AllAmong ns places := h.ofRole rfl

theorem within (h : (v.within ns).AllAmong ns places) : v.AllAmong ns places :=
  fun w m hm => (h w m hm).within

theorem append (hu : u.all.Sublist (v.all ++ declaredAll as)) (hl : u.lists = v.lists)
    (first : v.AllAmong as places) (second : u.AllAmong bs others) :
    v.AllAmong (as ++ bs) (places ++ others) := by
  intro w m hm
  rcases List.mem_append.1 hm with hm | hm
  · exact (first w m hm).left
  · exact .right hu (fun ds hds => .inl (hl ▸ hds)) (second w m hm)

/-- The second places see what is declared in the first trees. -/
theorem thenSeeing (hd : ds.Sublist (declaredAll as)) (first : v.AllAmong as places)
    (second : (v.seeing ds).AllAmong bs others) : v.AllAmong (as ++ bs) (places ++ others) :=
  .append (all_seeing_sublist hd) rfl first second

/-- The second places see nothing of the first trees. -/
theorem thenPlain (first : v.AllAmong as places) (second : v.plain.AllAmong bs others) :
    v.AllAmong (as ++ bs) (places ++ others) :=
  .append (v.all_plain_sublist.trans (List.sublist_append_left _ _)) rfl first second

/-! #### The parts of a form -/

theorem assignment : v.AllAmong [t, e] [(v.plain, t), (v.as (.value t.declaration?), e)] := by
  have hall : (v.as (.value t.declaration?)).all.Sublist (v.all ++ declaredAll [t]) := by
    rw [declaredAll_singleton]
    exact .append (List.sublist_append_left _ _) (declaration_sublist t)
  exact .append hall rfl one.plain one

/-- A binding form declares in its head what its body sees. -/
theorem binding : v.AllAmong (as ++ bs)
    (v.plain.inOrder as ++ (v.seeing (as.filterMap Node.introduces?)).alike bs) :=
  inOrder.thenSeeing (filterMap_sublist introduces_sublist as) alike

theorem functionLiteral : v.AllAmong (ps ++ [b]) (v.plain.alike ps ++
    [(v.seeing (v.role.assigned?.toList ++ ps.filterMap Node.declaration?), b)]) := by
  have hall : (v.seeing (v.role.assigned?.toList ++ ps.filterMap Node.declaration?)).all.Sublist
      (v.all ++ declaredAll ps) := by
    simpa [all, seeing, Role.assigned?] using
      (List.Sublist.refl v.all).append (filterMap_sublist declaration_sublist ps)
  exact append hall rfl alike.plain one

/-- The body of a definition sees the parameters. -/
theorem definition (h : (v.seeing (ps.filterMap Node.declaration?)).AllAmong [b] places) :
    v.AllAmong (ps ++ [b]) (v.plain.alike ps ++ places) :=
  alike.plain.thenSeeing (filterMap_sublist declaration_sublist ps) h

theorem moduleHead : v.AllAmong (h :: as) ((v.plain, h) ::
    if h.isPseudo then v.plain.inOrder as else (v.as (.passed h.binding)).alike as) := by
  have hrest : v.plain.AllAmong as
      (if h.isPseudo then v.plain.inOrder as else (v.as (.passed h.binding)).alike as) := by
    split
    · exact inOrder
    · exact alike.ofRole (v := v.plain) rfl
  exact one.plain.thenPlain hrest

theorem moduleCall : v.AllAmong [h, b] [(v.plain, h), (v.seeing h.headVariables, b)] := by
  have hd : h.headVariables.Sublist (declaredAll [h]) := by
    rw [declaredAll_singleton]
    exact headVariables_sublist h
  exact one.plain.thenSeeing hd one

theorem call : v.AllAmong (t :: s :: ss) (if t.appliesName s then
      (v.as .called, t) :: (v.as (.applied t.binding), s) :: v.plain.alike ss
    else v.plain.alike (t :: s :: ss)) := by
  split
  · have hcallee : v.AllAmong [t] [(v.as .called, t)] := one.ofRole rfl
    have hsuffix : v.plain.AllAmong [s] [(v.as (.applied t.binding), s)] := one.ofRole rfl
    exact hcallee.thenPlain (hsuffix.thenPlain alike)
  · exact alike.plain

theorem callSuffix : v.AllAmong as ((v.as v.role.ofArguments).alike as) := by
  refine alike.ofRole ?_
  cases v.role <;> rfl

theorem argument :
    v.AllAmong (o.toList ++ [e]) ((v.as v.role.ofLabel).alike o.toList ++ [(v.plain, e)]) := by
  refine .thenPlain (alike.ofRole ?_) one
  cases v.role <;> rfl

/-- The order in which parts are written does not matter where none sees another. -/
theorem ofChildren {f : Form Node} : v.AllAmong f.written (v.plain.alike f.children) := by
  intro w m h
  obtain ⟨rfl, hc⟩ := mem_alike h
  exact .plain (among_alike (List.mem_map.2 ⟨m, f.perm_written.mem_iff.2 hc, rfl⟩))

end AllAmong

/-- What comes into view in the parts of a node is declared in them. -/
theorem allAmong_parts {info : Info} {form : Form Node} :
    v.AllAmong form.written (v.parts ⟨info, form⟩) := by
  cases form with
  | assignment t e => exact .assignment
  | letIn as b => exact .binding
  | forElement as c us b =>
      rw [Form.written_forElement]
      exact .binding
  | functionLiteral ps b => exact .functionLiteral
  | functionDefinition name ps e => exact .definition .one
  | moduleDefinition name ps b => exact .definition (.within .one)
  | block ss =>
      rw [Form.written_block]
      exact .within .inOrder
  | moduleHead h as =>
      rw [Form.written_moduleHead]
      exact .moduleHead
  | moduleCall h b => exact .moduleCall
  | call t ss =>
      cases ss with
      | nil => exact .plain .alike
      | cons s ss =>
          rw [Form.written_call]
          exact .call
  | callSuffix as =>
      rw [Form.written_callSuffix]
      exact .callSuffix
  | argument o e => exact .argument
  | _ => exact .ofChildren

/-- Whatever comes into view in a part is declared between what was in view before and the part. -/
theorem among_parts (h : (w, m) ∈ v.parts n) : v.Among [n] w m := by
  obtain ⟨info, form⟩ := n
  have hs := allAmong_parts w m h
  refine ⟨?_, fun ds hds => (hs.lists ds hds).imp_right fun hd d hm => ?_⟩ <;>
    rw [declaredAll_singleton, Node.declared_mk]
  · exact hs.vars.trans (.append (.refl _) (List.sublist_append_left _ _))
  · exact List.mem_append_left _ (hd d hm)

end

end View

namespace Stands

variable {top : List Node} {v : View} {n : Node}

theorem among (h : Stands top v n) : (View.outside.within top).Among top v n := by
  induction h with
  | statement h => exact View.among_inOrder rfl h
  | @part v w n m h hm ih =>
      have hs := View.among_parts hm
      have hdeclared : ∀ d ∈ n.declared, d ∈ declaredAll top :=
        fun d hd => ih.vars.subset (List.mem_append_right _ hd)
      refine ⟨?_, fun ds hds => ?_⟩
      · refine List.Sublist.trans ?_ ih.vars
        rw [← declaredAll_singleton n]
        exact hs.vars
      · rcases hs.lists ds hds with hds | hd
        · exact ih.lists ds hds
        · exact .inr fun d hm => hdeclared d (declaredAll_singleton n ▸ hd d hm)

theorem mem_walk_of_declared {d : Declaration} (h : d ∈ declaredAll top) :
    ∃ m ∈ Node.walkFrom top, m.declaration? = some d := by
  obtain ⟨s, hs, hd⟩ := List.mem_flatMap.1 h
  obtain ⟨m, hm, hd⟩ := mem_declared hd
  exact ⟨m, Node.mem_walkFrom.2 ⟨s, hs, hm⟩, hd⟩

/-- Every variable in view is declared in the text. -/
theorem declared_of_vars (h : Stands top v n) {d : Declaration} (hd : d ∈ v.vars) :
    ∃ m ∈ Node.walkFrom top, m.declaration? = some d :=
  mem_walk_of_declared (h.among.vars.subset (List.mem_append_left _ (List.mem_append_left _ hd)))

/-- Every definition in a list around is one of the text. -/
theorem declared_of_lists (h : Stands top v n) {ds : List Declaration} {d : Declaration}
    (hds : ds ∈ v.lists) (hd : d ∈ ds) : ∃ m ∈ Node.walkFrom top, m.declaration? = some d := by
  refine mem_walk_of_declared ?_
  rcases h.among.lists ds hds with hds | hall
  · cases List.mem_singleton.1 hds
    exact (filterMap_sublist declaration_sublist top).subset hd
  · exact hall d hd

theorem increasing (h : Stands top v n) (ht : (trails top).Pairwise (· < ·)) :
    (v.vars.map Declaration.id).Pairwise (· < ·) := by
  have hall := ht.sublist (declaredAll_sublist_trails fun n _ => declared_sublist_trail n)
  have hvars : v.vars.Sublist (declaredAll top) :=
    ((List.sublist_append_left _ _).trans (List.sublist_append_left _ _)).trans h.among.vars
  exact hall.sublist (hvars.map _)

end Stands

/-- Among increasing ids the greatest is the last. -/
theorem greatest_eq_getLast? {ds : List Declaration}
    (h : (ds.map Declaration.id).Pairwise (· < ·)) :
    (ds.find? fun d => ds.all (·.id ≤ d.id)) = ds.getLast? := by
  rcases List.eq_nil_or_concat ds with rfl | ⟨es, d, rfl⟩
  · rfl
  · rw [List.concat_eq_append] at h ⊢
    rw [List.map_append, List.pairwise_append] at h
    have hless : ∀ e ∈ es, e.id < d.id := fun e he =>
      h.2.2 e.id (List.mem_map_of_mem he) d.id (List.mem_singleton_self _)
    have hnone : (es.find? fun e => (es ++ [d]).all (·.id ≤ e.id)) = none :=
      List.find?_eq_none.2 fun e he hall => by
        have hle : d.id ≤ e.id := by simpa using List.all_eq_true.1 hall d (by simp)
        exact absurd (hless e he) (by omega)
    have hlast : (es ++ [d]).all (·.id ≤ d.id) := by
      rw [List.all_eq_true]
      intro e he
      rcases List.mem_append.1 he with he | he
      · exact decide_eq_true (Int.le_of_lt (hless e he))
      · cases List.mem_singleton.1 he
        exact decide_eq_true (Int.le_refl _)
    rw [List.find?_append, hnone, List.getLast?_concat, Option.none_or, List.find?_cons, hlast]

theorem Stands.nearest_eq_latest {top : List Node} {v : View} {n : Node} (h : Stands top v n)
    (ht : (trails top).Pairwise (· < ·)) (name : String) : v.nearest? name = v.latest? name :=
  (greatest_eq_getLast? ((h.increasing ht).sublist (List.filter_sublist.map _))).symm

end Scad
