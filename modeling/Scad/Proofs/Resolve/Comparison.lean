import Mathlib.Algebra.Group.Defs
import Scad.Proofs.Resolve.Parts

/-! Two runs of name resolution beside each other: over a tree as it is and with other information
at its nodes, in one environment and in another. A comparison says what is noted of them on the way
and how their results are related. If the notes go with the binding of each reference and the making
of each node, they go with both runs over any tree. -/
namespace Scad

namespace Node

def mapInfo (change : Info → Info) (n : Node) : Node := n.fold fun m form => ⟨change m.info, form⟩

variable {change : Info → Info}

theorem mapInfo_mk (i : Info) (f : Form Node) :
    (mk i f).mapInfo change = ⟨change i, f.map (mapInfo change)⟩ :=
  fold_mk _ i f

theorem mapInfo_self (n : Node) : n.mapInfo (fun i => i) = n := by
  induction n using ofChildren with
  | h n ih =>
      obtain ⟨i, f⟩ := n
      have hmap : f.map (mapInfo fun i => i) = f.map fun c => c := Form.map_congr_of ih
      rw [mapInfo_mk, hmap]
      exact congrArg (mk i) f.map_id

theorem form_mapInfo (n : Node) : (n.mapInfo change).form = n.form.map (mapInfo change) := by
  obtain ⟨i, f⟩ := n
  rw [mapInfo_mk]
  rfl

theorem info_mapInfo (n : Node) : (n.mapInfo change).info = change n.info := by
  obtain ⟨i, f⟩ := n
  rw [mapInfo_mk]
  rfl

theorem kind_mapInfo (n : Node) : (n.mapInfo change).kind = n.kind := by
  rw [kind, form_mapInfo, Form.kind_map, kind]

theorem name?_mapInfo (n : Node) : (n.mapInfo change).name? = n.name? := by
  unfold name?
  rw [form_mapInfo]
  cases n.form <;> rfl

def IsLabelled (n : Node) : Prop :=
  ∃ info ni name e, n = ⟨info, .argument (some ⟨ni, .argumentName name⟩) e⟩

end Node

/-- Neither a reference nor a call. -/
def Kind.isPassive (k : Kind) : Bool := !k.isReference && k ≠ .call

theorem Kind.isPassive_of_isPlain {k : Kind} (hk : k.isPlain) : k.isPassive := by
  cases k <;> first | rfl | cases hk

def NameClass.reference (c : NameClass) (name : String) : Form Node :=
  match c with
  | .vars | .functions => .variableRef name
  | .modules => .moduleName name

def NameClass.noun : NameClass → String
  | .vars => "variable"
  | .functions => "function"
  | .modules => "module"

namespace Resolve

/-- How two runs are followed: which pairs of progress they may be in, and what may be noted of them
from one such pair to a later one. -/
structure Tracking (M : Type) [AddMonoid M] where
  fair : Progress → Progress → Prop
  leads : Progress → Progress → M → Progress → Progress → Prop
  fair_of_leads : ∀ {p p' x q q'}, leads p p' x q q' → fair q q'
  leads_refl : ∀ {p p'}, fair p p' → leads p p' 0 p p'
  leads_trans : ∀ {p p' x q q' y r r'}, leads p p' x q q' → leads q q' y r r' →
    leads p p' (x + y) r r'

variable {M : Type} [AddMonoid M]

/-- Trees in the same order, with what is noted of each two that were made of one. -/
inductive Each (T : Node → Node → Node → M → Prop) :
    List Node → List Node → List Node → M → Prop where
  | nil : Each T [] [] [] 0
  | cons {n n' n'' : Node} {ns ns' ns'' : List Node} {x y : M} (hn : T n n' n'' x)
      (hns : Each T ns ns' ns'' y) :
      Each T (n :: ns) (n' :: ns') (n'' :: ns'') (x + y)

namespace Each

variable {T : Node → Node → Node → M → Prop} {n n' n'' : Node} {ms ms' ms'' ns ns' ns'' : List Node}
  {x y : M}

theorem single (hn : T n n' n'' x) : Each T [n] [n'] [n''] x := by
  have h := Each.cons hn .nil
  rwa [add_zero] at h

theorem append (hm : Each T ms ms' ms'' x) (hn : Each T ns ns' ns'' y) :
    Each T (ms ++ ns) (ms' ++ ns') (ms'' ++ ns'') (x + y) := by
  induction hm with
  | nil => rwa [zero_add]
  | cons h _ ih =>
      rw [add_assoc]
      exact .cons h ih

end Each

/-- Results in front of the same scope. -/
structure Scoped {α : Type} (R : α → α → M → Prop) (r r' : α × Scope) (x : M) : Prop where
  scope : r'.2 = r.2
  related : R r.1 r'.1 x

namespace Tracking

variable (t : Tracking M) {α β : Type}

/-- Two works that are begun in a fair pair end in one, and their results go with what is noted. -/
def Relates (m m' : Resolving α) (R : α → α → M → Prop) : Prop :=
  ∀ p p', t.fair p p' → ∃ x, t.leads p p' x (m.run p).2 (m'.run p').2 ∧
    R (m.run p).1 (m'.run p').1 x

namespace Relates

variable {t} {m m' : Resolving α} {R : α → α → M → Prop} {S : β → β → M → Prop}

theorem pure {a a' : α} (h : R a a' 0) : t.Relates (Pure.pure a) (Pure.pure a') R :=
  fun _ _ hp => ⟨0, t.leads_refl hp, h⟩

theorem bind {f f' : α → Resolving β} (hm : t.Relates m m' R)
    (hf : ∀ a a' x, R a a' x → t.Relates (f a) (f' a') fun b b' y => S b b' (x + y)) :
    t.Relates (m >>= f) (m' >>= f') S := by
  intro p p' hp
  obtain ⟨x, hx, hr⟩ := hm p p' hp
  obtain ⟨y, hy, hs⟩ := hf _ _ x hr _ _ (t.fair_of_leads hx)
  exact ⟨x + y, t.leads_trans hx hy, hs⟩

theorem map {g g' : α → β} (hm : t.Relates m m' R) (h : ∀ a a' x, R a a' x → S (g a) (g' a') x) :
    t.Relates (g <$> m) (g' <$> m') S := by
  intro p p' hp
  obtain ⟨x, hx, hr⟩ := hm p p' hp
  exact ⟨x, hx, h _ _ x hr⟩

theorem mono {R' : α → α → M → Prop} (hm : t.Relates m m' R) (h : ∀ a a' x, R a a' x → R' a a' x) :
    t.Relates m m' R' := by
  intro p p' hp
  obtain ⟨x, hx, hr⟩ := hm p p' hp
  exact ⟨x, hx, h _ _ x hr⟩

theorem bindScoped {m m' : Resolving (α × Scope)} {f f' : α × Scope → Resolving β}
    (hm : t.Relates m m' (Scoped R))
    (hf : ∀ a a' scope x, R a a' x → t.Relates (f (a, scope)) (f' (a', scope)) fun b b' y =>
      S b b' (x + y)) :
    t.Relates (m >>= f) (m' >>= f') S := by
  refine hm.bind ?_
  rintro ⟨a, scope⟩ ⟨a', _⟩ x ⟨rfl, hr⟩
  exact hf a a' _ x hr

variable {T : Node → Node → Node → M → Prop} {changed : Node → Node} {ns : List Node}
  {g g' : Node → Resolving Node}

theorem inTurn {item item' : Scope → Node → Resolving Node} {next : Scope → Node → Scope}
    (next' : Scope → Node → Scope) (hnext : ∀ scope n, next' scope (changed n) = next scope n)
    (h : ∀ scope, ∀ n ∈ ns, t.Relates (item scope n) (item' scope (changed n)) (T n))
    (scope : Scope) :
    t.Relates (inTurn item next scope ns) (inTurn item' next' scope (ns.map changed))
      (Each T ns) := by
  induction ns generalizing scope with
  | nil => exact .pure .nil
  | cons n ns ih =>
      rw [List.map_cons, Resolve.inTurn, Resolve.inTurn, hnext]
      exact (h scope n (List.mem_cons_self ..)).bind fun n' n'' x hx =>
        (ih (fun scope m hm => h scope m (List.mem_cons_of_mem _ hm)) _).map fun ns' ns'' y hy =>
          .cons hx hy

theorem mapM (h : ∀ n ∈ ns, t.Relates (g n) (g' (changed n)) (T n)) :
    t.Relates (ns.mapM g) ((ns.map changed).mapM g') (Each T ns) := by
  rw [← inTurn_const g (fun scope _ => scope) ns [], ← inTurn_const g' (fun scope _ => scope)
    (ns.map changed) []]
  exact .inTurn (fun scope _ => scope) (fun _ _ => rfl) (fun _ => h) []

theorem option {o : Option Node} (h : ∀ n ∈ o, t.Relates (g n) (g' (changed n)) (T n)) :
    t.Relates (o.mapM g) ((o.map changed).mapM g') fun o' o'' =>
      Each T o.toList o'.toList o''.toList := by
  cases o with
  | none => exact .pure .nil
  | some n => exact (h n rfl).map fun n' n'' x hx => .single hx

/-- A form keeps its kind. -/
theorem traverse {f : Form Node} (h : ∀ c ∈ f.children, t.Relates (g c) (g' (changed c)) (T c)) :
    t.Relates (f.traverse g) ((f.map changed).traverse g') fun f' f'' x =>
      f'.kind = f.kind ∧ f''.kind = f.kind ∧ Each T f.children f'.children f''.children x := by
  have hall := Relates.mapM h
  rw [← Form.children_map, ← Form.children_traverse, ← Form.children_traverse] at hall
  intro p p' hp
  obtain ⟨x, hx, heach⟩ := hall p p' hp
  have hk := Form.kind_run_traverse g' (f.map changed) p'
  rw [Form.kind_map] at hk
  exact ⟨x, hx, Form.kind_run_traverse g f p, hk, heach⟩

end Relates

end Tracking

/-! ### Comparisons -/

/-- What a reference of a class is bound to. -/
def Environment.bindingOf (env : Environment) (cl : NameClass) : Scope → String → Binding :=
  match cl with
  | .vars => env.variableBinding
  | .functions => env.functionBinding
  | .modules => env.moduleBinding

/-- Two runs, what is noted of them, and what is made of a tree by them. -/
structure Comparison (M : Type) [AddMonoid M] extends Tracking M where
  first : Environment
  second : Environment
  /-- What the second run finds at a node. -/
  change : Info → Info
  /-- The trees that the runs go over. -/
  admits : Node → Prop
  /-- What the runs make of a node that is passed to a callee, if any. -/
  makes : Option Callee → Node → Node → Node → M → Prop
  /-- What they make of a name that the first of them binds. -/
  names : Binding → Node → Node → Node → M → Prop

namespace Comparison

variable (c : Comparison M)

def changed (n : Node) : Node := n.mapInfo c.change

/-! Both runs over a node make of it what the comparison says. -/

def AsExpression (n : Node) (pending : Pending) (scope : Scope) : Prop := c.admits n →
  c.Relates (expression c.first n pending scope) (expression c.second (c.changed n) pending scope)
  (c.makes none n)

def AsArgument (callee : Option Callee) (scope : Scope) (n : Node) : Prop := c.admits n →
  c.Relates (argument c.first callee scope n) (argument c.second callee scope (c.changed n))
  (c.makes callee n)

def AsSuffix (scope : Scope) (n : Node) : Prop := c.admits n →
  c.Relates (suffix c.first scope n) (suffix c.second scope (c.changed n)) (c.makes none n)

def AsUpdate (scope : Scope) (n : Node) : Prop := c.admits n →
  c.Relates (update c.first scope n) (update c.second scope (c.changed n)) (c.makes none n)

def AsParameter (scope : Scope) (n : Node) : Prop := c.admits n →
  c.Relates (parameter c.first scope n) (parameter c.second scope (c.changed n)) (c.makes none n)

def AsAssignment (scope : Scope) (n : Node) : Prop := c.admits n →
  c.Relates (assignment c.first scope n) (assignment c.second scope (c.changed n)) (c.makes none n)

def AsStatement (n : Node) : Prop := c.admits n → ∀ scope,
  c.Relates (statement c.first n scope) (statement c.second (c.changed n) scope)
  (Scoped (c.makes none n))

/-- What a comparison has to say of single nodes and references for it to hold of runs. -/
structure Sound : Prop where
  origin : c.second.origin = c.first.origin
  id_change : ∀ info, (c.change info).id = info.id
  child : ∀ {info f n}, c.admits ⟨info, f⟩ → n ∈ f.children → c.admits n
  /-- A node that the runs leave as it is. -/
  same : ∀ {n}, c.admits n → c.makes none n n (c.changed n) 0
  /-- A callee has nothing to say of what is no argument by name. -/
  unlabelled : ∀ {callee n n' n'' x}, ¬ n'.IsLabelled → c.makes none n n' n'' x →
    c.makes callee n n' n'' x
  node : ∀ {info f f' f'' x}, f.kind.isPassive → f'.kind = f.kind → f''.kind = f.kind →
    Each (c.makes none) f.children f'.children f''.children x →
      c.makes none ⟨info, f⟩ ⟨info, f'⟩ ⟨c.change info, f''⟩ x
  call : ∀ {info t t' t'' ss ss' ss'' x}, Indirect t ss →
    Each (c.makes none) (t :: ss) (t' :: ss') (t'' :: ss'') x →
      c.makes none ⟨info, .call t ss⟩ ⟨info, .call t' ss'⟩ ⟨c.change info, .call t'' ss''⟩ x
  /-- The name of an argument, with the value that was resolved before. -/
  label : ∀ callee ni name, c.Relates (bindArgument callee ni name)
    (bindArgument callee (c.change ni) name)
    fun ni' ni'' y => ∀ {info e e' e'' x}, c.makes none e e' e'' x →
      c.makes callee ⟨info, .argument (some ⟨ni, .argumentName name⟩) e⟩
        ⟨info, .argument (some ⟨ni', .argumentName name⟩) e'⟩
        ⟨c.change info, .argument (some ⟨ni'', .argumentName name⟩) e''⟩ (x + y)
  reference : ∀ cl scope name info,
    c.Relates (bindReference info name cl.noun (c.first.bindingOf cl scope name))
      (bindReference (c.change info) name cl.noun (c.second.bindingOf cl scope name)) fun i' i'' =>
        c.names (c.first.bindingOf cl scope name) ⟨info, cl.reference name⟩ ⟨i', cl.reference name⟩
          ⟨i'', cl.reference name⟩
  callee : ∀ cl scope name, callee? c.second name (c.second.bindingOf cl scope name) =
    callee? c.first name (c.first.bindingOf cl scope name)
  /-- The name of a module that is part of the language. -/
  builtin : ∀ info name, c.Relates (assign info .builtin)
    (assign (c.change info) .builtin) fun i' i'' =>
    c.names .builtin ⟨info, .moduleName name⟩ ⟨i', .moduleName name⟩ ⟨i'', .moduleName name⟩
  variableRef : ∀ {b info i' i'' name x},
    c.names b ⟨info, .variableRef name⟩ ⟨i', .variableRef name⟩ ⟨i'', .variableRef name⟩ x →
      c.makes none ⟨info, .variableRef name⟩ ⟨i', .variableRef name⟩ ⟨i'', .variableRef name⟩ x
  /-- A call of a name, with its arguments and the suffixes behind them. -/
  applied : ∀ {b info ti ti' ti'' si name as as' as'' ss ss' ss'' x y z},
    c.names b ⟨ti, .variableRef name⟩ ⟨ti', .variableRef name⟩ ⟨ti'', .variableRef name⟩ x →
    Each (c.makes (callee? c.first name b)) as as' as'' y → Each (c.makes none) ss ss' ss'' z →
      c.makes none ⟨info, .call ⟨ti, .variableRef name⟩ (⟨si, .callSuffix as⟩ :: ss)⟩
        ⟨info, .call ⟨ti', .variableRef name⟩ (⟨si, .callSuffix as'⟩ :: ss')⟩
        ⟨c.change info, .call ⟨ti'', .variableRef name⟩ (⟨c.change si, .callSuffix as''⟩ :: ss'')⟩
          (x + (y + z))
  /-- A module call before its child. -/
  head : ∀ {b hi mi mi' mi'' name as as' as'' x y},
    c.names b ⟨mi, .moduleName name⟩ ⟨mi', .moduleName name⟩ ⟨mi'', .moduleName name⟩ x →
    Each (c.makes (callee? c.first name b)) as as' as'' y →
      c.makes none ⟨hi, .moduleHead ⟨mi, .moduleName name⟩ as⟩
      ⟨hi, .moduleHead ⟨mi', .moduleName name⟩ as'⟩
        ⟨c.change hi, .moduleHead ⟨mi'', .moduleName name⟩ as''⟩ (x + y)
  /-- The call that halts the work, if it is gone over at all. -/
  halt : ∀ {info ti name}, c.admits ⟨info, .call ⟨ti, .variableRef name⟩ []⟩ →
    c.Relates halt halt fun _ _ x => x = 0

namespace Sound

variable {c} (h : c.Sound)

theorem changed_mk (info : Info) (f : Form Node) :
    c.changed ⟨info, f⟩ = ⟨c.change info, f.map c.changed⟩ :=
  Node.mapInfo_mk info f

theorem label_changed {l : Option Node} (hl : ¬ ∃ ni name, l = some ⟨ni, .argumentName name⟩)
    (ni : Info) (name : String) : l.map c.changed ≠ some ⟨ni, .argumentName name⟩ := by
  cases l with
  | none => rintro ⟨⟩
  | some l =>
      obtain ⟨li, lf⟩ := l
      rw [Option.map_some, changed_mk]
      cases lf with
      | argumentName other => exact absurd ⟨li, other, rfl⟩ hl
      | _ => rintro ⟨⟩

theorem indirect_changed {t : Node} {ss : List Node} (hi : Indirect t ss) :
    Indirect (c.changed t) (ss.map c.changed) := by
  have hkinds : (ss.map c.changed).map Node.kind = ss.map Node.kind := by
    rw [List.map_map]
    exact List.map_congr_left fun s _ => s.kind_mapInfo
  rw [Indirect, changed, Node.kind_mapInfo, hkinds]
  exact hi

theorem foldl_changed {next next' : Scope → Node → Scope}
    (hnext : ∀ scope n, next' scope (c.changed n) = next scope n) (ns : List Node) (scope : Scope) :
    (ns.map c.changed).foldl next' scope = ns.foldl next scope := by
  rw [List.foldl_map]
  exact congrArg (List.foldl · scope ns) (funext fun scope => funext fun n => hnext scope n)

include h

/-! Both runs define the same names. -/

theorem binding_changed (kind : BindingKind) (info : Info) :
    c.second.binding kind (c.change info) = c.first.binding kind info := by
  rw [Environment.binding, Environment.binding, h.origin, h.id_change]

theorem declared_changed (t : Node) : declared c.second (c.changed t) = declared c.first t := by
  rw [declared, declared, changed, Node.name?_mapInfo, Node.info_mapInfo, h.binding_changed]

theorem withVariable_changed (scope : Scope) (n : Node) :
    withVariable c.second scope (c.changed n) = withVariable c.first scope n := by
  obtain ⟨i, f⟩ := n
  rw [changed_mk]
  cases f with
  | assignment t e => simp only [withVariable, Node.form, Form.map, h.declared_changed]
  | _ => rfl

theorem withParameter_changed (scope : Scope) (n : Node) :
    withParameter c.second scope (c.changed n) = withParameter c.first scope n := by
  obtain ⟨i, f⟩ := n
  rw [changed_mk]
  cases f with
  | parameter name d => simp only [withParameter, Node.form, Node.info, Form.map, h.binding_changed]
  | _ => rfl

theorem withArgument_changed (scope : Scope) (n : Node) :
    withArgument c.second scope (c.changed n) = withArgument c.first scope n := by
  obtain ⟨i, f⟩ := n
  rw [changed_mk]
  cases f with
  | argument l e =>
      cases l with
      | none => rfl
      | some l =>
          obtain ⟨ni, lf⟩ := l
          rw [Form.map, Option.map_some, changed_mk]
          cases lf with
          | variableDefinition name =>
              simp only [withArgument, Node.form, Form.map, h.binding_changed]
          | _ => rfl
  | _ => rfl

theorem hoist_changed (scope : Scope) (n : Node) :
    hoist c.second scope (c.changed n) = hoist c.first scope n := by
  obtain ⟨i, f⟩ := n
  rw [changed_mk]
  cases f with
  | moduleDefinition name ps body =>
      simp only [hoist, Node.form, Node.info, Form.map, h.binding_changed]
  | functionDefinition name ps e =>
      simp only [hoist, Node.form, Node.info, Form.map, h.binding_changed]
  | _ => rfl

theorem hoistAll_changed (scope : Scope) (ns : List Node) :
    hoistAll c.second scope (ns.map c.changed) = hoistAll c.first scope ns :=
  foldl_changed h.hoist_changed ns scope

theorem each_same {ns : List Node} (hns : ∀ n ∈ ns, c.admits n) :
    Each (c.makes none) ns ns (ns.map c.changed) 0 := by
  induction ns with
  | nil => exact .nil
  | cons n ns ih =>
      obtain ⟨hn, hns⟩ := List.forall_mem_cons.1 hns
      have heach := Each.cons (h.same hn) (ih hns)
      rwa [add_zero] at heach

end Sound

end Comparison

end Resolve

end Scad
