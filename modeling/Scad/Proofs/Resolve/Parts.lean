import Scad.Proofs.Tree.Archive
import Scad.Resolve

/-! How name resolution goes over a tree. Lists are resolved part by part, and most expressions
child by child; what is bound, and what opens a scope, comes on its own. -/
namespace Scad

/-- What has no children and is left as it is. -/
def Kind.isLeaf : Kind → Bool
  | .number | .string | .boolean | .undefined | .memberSuffix | .variableDefinition
  | .argumentName | .empty | .moduleName | .fileReference _ => true
  | _ => false

/-- What hands its own scope on to all its children. -/
def Kind.isPlain : Kind → Bool
  | .variableRef | .call | .letIn | .functionLiteral | .remark _ | .forElement => false
  | k => !k.isLeaf

/-! ### Work on the children of a form -/

section

variable {α β : Type} {m : Type → Type} [Monad m] [LawfulMonad m]

theorem mapM_toList (g : α → m β) (o : Option α) :
    o.toList.mapM g = Option.toList <$> o.mapM g := by
  cases o <;> simp

/-- Runs an action on the nodes of a field. -/
def Field.traverse (g : α → m β) : Field α → m (Field β)
  | node c => node <$> g c
  | optional c => optional <$> c.mapM g
  | nodes cs => nodes <$> cs.mapM g
  | text v => pure (text v)
  | texts vs => pure (texts vs)
  | names vs => pure (names vs)
  | number v => pure (number v)
  | flag v => pure (flag v)

namespace Form

variable {g h : α → m β} {f : Form α}

/-- Work on a form is work on the list of its fields. -/
theorem fields_traverse : fields <$> f.traverse g = f.fields.mapM (Field.traverse g) := by
  cases f <;> simp [traverse, fields, Field.traverse]

/-- Work on a form is work on the list of its children. -/
theorem children_traverse : children <$> f.traverse g = f.children.mapM g := by
  cases f <;> simp [traverse, children, fields, Field.children, mapM_toList]

/-- It does not change what kind of form it is. -/
theorem kind_traverse : kind <$> f.traverse g = (fun _ => f.kind) <$> f.traverse g := by
  cases f <;> simp [traverse, kind]

theorem kind_run_traverse {σ : Type} (g : α → StateM σ β) (f : Form α) (s : σ) :
    ((f.traverse g).run s).1.kind = f.kind :=
  congrArg (fun m : StateM σ Kind => (m.run s).1) kind_traverse

end Form

end

namespace Resolve

/-! ### Lists -/

variable (env : Environment)

def argument (callee : Option Callee) (scope : Scope) : Node → Resolving Node
  | ⟨info, .argument (some ⟨ni, .argumentName name⟩) e⟩ => do
    let e ← expression env e none scope
    let ni ← bindArgument callee ni name
    return ⟨info, .argument (some ⟨ni, .argumentName name⟩) e⟩
  | ⟨info, .argument l e⟩ => do
    return ⟨info, .argument l (← expression env e none scope)⟩
  | n => return n

/-- Resolves a suffix that does not apply to a plain name. -/
def suffix (scope : Scope) : Node → Resolving Node
  | ⟨info, .callSuffix as⟩ => do
    return ⟨info, .callSuffix (← as.mapM (argument env none scope))⟩
  | ⟨info, .indexSuffix i⟩ => do
    return ⟨info, .indexSuffix (← expression env i none scope)⟩
  | n => return n

def update (scope : Scope) : Node → Resolving Node
  | ⟨info, .loopUpdate ⟨ti, .variableRef name⟩ e⟩ => do
    let ti ← bindReference ti name "variable" (env.variableBinding scope name)
    let e ← expression env e none scope
    return ⟨info, .loopUpdate ⟨ti, .variableRef name⟩ e⟩
  | n => return n

def parameter (outer : Scope) : Node → Resolving Node
  | ⟨info, .parameter name d⟩ => do
    return ⟨info, .parameter name (← d.mapM fun c => expression env c none outer)⟩
  | n => return n

def withParameter (inner : Scope) (n : Node) : Scope :=
  match n.form with
  | .parameter name _ => inner.define .vars name (env.binding .parameterDef n.info)
  | _ => inner

def assignment (scope : Scope) : Node → Resolving Node
  | ⟨info, .assignment t e⟩ => do
    return ⟨info, .assignment t (← expression env e (some (declared env t)) scope)⟩
  | n => return n

def withVariable (scope : Scope) (n : Node) : Scope :=
  match n.form with
  | .assignment t _ => scope.define .vars (declared env t).1 (declared env t).2
  | _ => scope

def declaringArgument (scope : Scope) : Node → Resolving Node
  | ⟨info, .argument (some ⟨ni, .argumentName name⟩) e⟩ => do
    let e ← expression env e none scope
    let ni ← assign ni .unresolved
    return ⟨info, .argument (some ⟨ni, .argumentName name⟩) e⟩
  | ⟨info, .argument l e⟩ => do
    return ⟨info, .argument l (← expression env e none scope)⟩
  | n => return n

def withArgument (scope : Scope) (n : Node) : Scope :=
  match n.form with
  | .argument (some ⟨ni, .variableDefinition name⟩) _ =>
      scope.define .vars name (env.binding .variableDef ni)
  | _ => scope

/-- Resolves a list in which each node adds to the scope of those behind it. -/
def inTurn (item : Scope → Node → Resolving Node) (next : Scope → Node → Scope) :
    Scope → List Node → Resolving (List Node)
  | _, [] => return []
  | scope, n :: rest => do
    let n' ← item scope n
    let rest' ← inTurn item next (next scope n) rest
    return n' :: rest'

/-- Where nothing depends on the scope, a list is resolved node by node. -/
theorem inTurn_const (g : Node → Resolving Node) (next : Scope → Node → Scope) (ns : List Node)
    (scope : Scope) :
    inTurn (fun _ => g) next scope ns = ns.mapM g := by
  induction ns generalizing scope with
  | nil => rfl
  | cons n ns ih => simp only [inTurn, ih, List.mapM_cons]

variable (ns : List Node) (scope : Scope)

theorem expressions_eq :
    expressions env ns scope = ns.mapM fun c => expression env c none scope := by
  induction ns with
  | nil => simp [expressions]
  | cons n ns ih => simp [expressions, ih]

theorem optional_eq (o : Option Node) :
    optional env o scope = o.mapM fun c => expression env c none scope := by
  cases o <;> simp [optional]

theorem arguments_eq (callee : Option Callee) :
    arguments env ns callee scope = ns.mapM (argument env callee scope) := by
  induction ns with
  | nil => rfl
  | cons n ns ih =>
      rw [List.mapM_cons, ← ih]
      obtain ⟨info, f⟩ := n
      cases f with
      | argument l e =>
          cases l with
          | none => rfl
          | some l =>
              obtain ⟨ni, lf⟩ := l
              cases lf <;> rfl
      | _ => rfl

theorem suffixes_eq : suffixes env ns scope = ns.mapM (suffix env scope) := by
  induction ns with
  | nil => rfl
  | cons n ns ih =>
      rw [List.mapM_cons, ← ih]
      obtain ⟨info, f⟩ := n
      cases f with
      | callSuffix as => rw [suffixes, arguments_eq]; rfl
      | _ => rfl

theorem updates_eq : updates env ns scope = ns.mapM (update env scope) := by
  induction ns with
  | nil => rfl
  | cons n ns ih =>
      rw [List.mapM_cons, ← ih]
      obtain ⟨info, f⟩ := n
      cases f with
      | loopUpdate t e =>
          obtain ⟨ti, tf⟩ := t
          cases tf <;> rfl
      | _ => rfl

theorem parameters_eq (outer inner : Scope) : parameters env ns outer inner =
    (·, ns.foldl (withParameter env) inner) <$> ns.mapM (parameter env outer) := by
  induction ns generalizing inner with
  | nil => rfl
  | cons n ns ih =>
      obtain ⟨info, f⟩ := n
      cases f with
      | parameter name d =>
          change (optional env d outer >>= fun _ =>
            parameters env ns outer (inner.define .vars name (env.binding .parameterDef info)) >>=
              _) = _
          rw [ih, optional_eq, List.mapM_cons]
          rfl
      | _ =>
          change (parameters env ns outer inner >>= _) = _
          rw [ih, List.mapM_cons]
          rfl

theorem assignments_eq : assignments env ns scope =
    (·, ns.foldl (withVariable env) scope) <$> inTurn (assignment env)
      (withVariable env) scope ns := by
  induction ns generalizing scope with
  | nil => rfl
  | cons n ns ih =>
      obtain ⟨info, f⟩ := n
      cases f with
      | assignment t e =>
          change (expression env e (some (declared env t)) scope >>= fun e' =>
            assignments env ns (scope.define .vars (declared env t).1 (declared env t).2) >>= _) = _
          rw [ih]
          rfl
      | _ =>
          change (assignments env ns scope >>= _) = _
          rw [ih]
          rfl

theorem declaringArguments_eq : declaringArguments env ns scope =
    (·, ns.foldl (withArgument env) scope) <$> inTurn (declaringArgument env)
      (withArgument env) scope ns := by
  induction ns generalizing scope with
  | nil => rfl
  | cons n ns ih =>
      obtain ⟨info, f⟩ := n
      cases f with
      | argument l e =>
          cases l with
          | none =>
              change (expression env e none scope >>= fun _ =>
                declaringArguments env ns scope >>= _) = _
              rw [ih]
              rfl
          | some l =>
              obtain ⟨ni, lf⟩ := l
              cases lf with
              | argumentName name =>
                  change (expression env e none scope >>= fun _ =>
                    assign ni .unresolved >>= fun _ =>
                    declaringArguments env ns scope >>= _) = _
                  rw [ih]
                  rfl
              | variableDefinition name =>
                  change (expression env e none scope >>= fun _ =>
                    declaringArguments env ns
                      (scope.define .vars name (env.binding .variableDef ni)) >>= _) = _
                  rw [ih]
                  rfl
              | _ =>
                  change (expression env e none scope >>= fun _ =>
                    declaringArguments env ns scope >>= _) = _
                  rw [ih]
                  rfl
      | _ =>
          change (declaringArguments env ns scope >>= _) = _
          rw [ih]
          rfl

/-! ### Expressions -/

section

variable {env} {info : Info} {f : Form Node} {pending : Pending} {scope}

theorem expression_leaf (hf : f.kind.isLeaf) :
    expression env ⟨info, f⟩ pending scope = pure ⟨info, f⟩ := by
  cases f <;> first | rfl | cases hf

theorem expression_variableRef (name : String) :
    expression env ⟨info, .variableRef name⟩ pending scope = (do
      let info' ← bindReference info name "variable" (env.variableBinding scope name)
      return ⟨info', .variableRef name⟩) := rfl

theorem expression_plain (hf : f.kind.isPlain) : expression env ⟨info, f⟩ pending scope =
    Node.mk info <$> f.traverse fun c => expression env c none scope := by
  cases f <;> first
    | cases hf; done
    | simp only [Form.traverse, ← expressions_eq, ← optional_eq, map_bind, map_pure]; rfl

/-- A call that neither applies a plain name to arguments nor leaves it alone. -/
def Indirect (t : Node) (ss : List Node) : Prop :=
  t.kind = .variableRef → ∃ k, (ss.map Node.kind).head? = some k ∧ k ≠ .callSuffix

theorem indirect_or (t : Node) (ss : List Node) :
    Indirect t ss ∨ ∃ ti name, t = ⟨ti, .variableRef name⟩ ∧
    (ss = [] ∨ ∃ si as rest, ss = ⟨si, .callSuffix as⟩ :: rest) := by
  by_cases ht : t.kind = .variableRef
  · cases ss with
    | nil =>
        obtain ⟨ti, tf⟩ := t
        cases tf <;> cases ht
        exact .inr ⟨ti, _, rfl, .inl rfl⟩
    | cons s rest =>
        by_cases hs : s.kind = .callSuffix
        · obtain ⟨ti, tf⟩ := t
          obtain ⟨si, sf⟩ := s
          cases tf <;> cases ht
          cases sf <;> cases hs
          exact .inr ⟨ti, _, rfl, .inr ⟨si, _, rest, rfl⟩⟩
        · exact .inl fun _ => ⟨s.kind, rfl, hs⟩
  · exact .inl fun h => absurd h ht

theorem expression_call {t : Node} {ss : List Node} (h : Indirect t ss) :
    expression env ⟨info, .call t ss⟩ pending scope = (do
      let t' ← expression env t none scope
      let ss' ← ss.mapM (suffix env scope)
      return ⟨info, .call t' ss'⟩) := by
  rw [← suffixes_eq]
  obtain ⟨ti, tf⟩ := t
  cases tf with
  | variableRef name =>
      obtain ⟨k, hk, hne⟩ := h rfl
      cases ss with
      | nil => cases hk
      | cons s ss =>
          obtain ⟨si, sf⟩ := s
          cases sf with
          | callSuffix as => exact absurd (Option.some.inj hk).symm hne
          | _ => rfl
  | _ => rfl

theorem expression_applied (ti si : Info) (name : String) (as ss : List Node) :
    expression env ⟨info, .call ⟨ti, .variableRef name⟩ (⟨si, .callSuffix as⟩ :: ss)⟩
      pending scope = (do
      let ti' ← bindReference ti name "function" (env.functionBinding scope name)
      let as' ← as.mapM (argument env (callee? env name (env.functionBinding scope name)) scope)
      let ss' ← ss.mapM (suffix env scope)
      return ⟨info, .call ⟨ti', .variableRef name⟩ (⟨si, .callSuffix as'⟩ :: ss')⟩) := by
  rw [← suffixes_eq]
  simp only [← arguments_eq]
  rfl

theorem expression_letIn (as : List Node) (b : Node) :
    expression env ⟨info, .letIn as b⟩ pending scope = (do
      let as' ← inTurn (assignment env) (withVariable env) scope.enter as
      let b' ← expression env b none (as.foldl (withVariable env) scope.enter)
      return ⟨info, .letIn as' b'⟩) := by
  change (assignments env as scope.enter >>= _) = _
  rw [assignments_eq, bind_map_left]

theorem expression_functionLiteral (ps : List Node) (b : Node) :
    expression env ⟨info, .functionLiteral ps b⟩ pending scope = (do
      let ps' ← ps.mapM (parameter env scope)
      let b' ← expression env b none (ps.foldl (withParameter env) (pending.open scope.enter))
      return ⟨info, .functionLiteral ps' b'⟩) := by
  change (parameters env ps scope (pending.open scope.enter) >>= _) = _
  rw [parameters_eq, bind_map_left]

theorem expression_remark (verb : Verb) (as : List Node) (b : Option Node) :
    expression env ⟨info, .remark verb as b⟩ pending scope = (do
      let as' ← as.mapM (argument env none scope)
      let b' ← b.mapM fun c => expression env c none scope
      return ⟨info, .remark verb as' b'⟩) := by
  simp only [← arguments_eq, ← optional_eq]
  rfl

theorem expression_forElement (as us : List Node) (c : Option Node) (b : Node) :
    expression env ⟨info, .forElement as c us b⟩ pending scope = (do
      let inner := as.foldl (withVariable env) scope.enter
      let as' ← inTurn (assignment env) (withVariable env) scope.enter as
      let c' ← c.mapM fun c => expression env c none inner
      let us' ← us.mapM (update env inner)
      let b' ← expression env b none inner
      return ⟨info, .forElement as' c' us' b'⟩) := by
  simp only [← updates_eq, ← optional_eq]
  change (assignments env as scope.enter >>= _) = _
  rw [assignments_eq, bind_map_left]

end

/-! ### Statements -/

/-- A statement without anything to resolve, and what is no statement. -/
def isInert : Node → Bool
  | ⟨_, .assignment _ _⟩ | ⟨_, .block _⟩
  | ⟨_, .moduleDefinition _ _ _⟩ | ⟨_, .functionDefinition _ _ _⟩
  | ⟨_, .instantiation _ ⟨_, .moduleCall ⟨_, .moduleHead ⟨_, .moduleName _⟩ _⟩ _⟩⟩
  | ⟨_, .instantiation _ ⟨_, .moduleRemark _ _ _⟩⟩
  | ⟨_, .instantiation _ ⟨_, .moduleIf _ _ _⟩⟩ => false
  | _ => true

attribute [local simp] Node.children Node.form Form.children Form.fields Field.children

theorem statement_inert {n : Node} (h : isInert n) (scope : Scope) :
    statement env n scope = pure (n, scope) := by
  fun_cases isInert n with
  | case8 => rw [statement] <;> grind
  | _ => cases h

/-- What holds of a statement if it holds of the statements in it holds of all statements. -/
theorem statement_induction {N : Node → Prop} (assignment : ∀ info t e, N ⟨info, .assignment t e⟩)
    (block : ∀ info ss, (∀ s ∈ ss, N s) → N ⟨info, .block ss⟩)
    (moduleDefinition : ∀ info name ps body, N body → N ⟨info, .moduleDefinition name ps body⟩)
    (functionDefinition : ∀ info name ps e, N ⟨info, .functionDefinition name ps e⟩)
    (moduleCall : ∀ info ms pi hi mi name as c, N c →
      N ⟨info, .instantiation ms ⟨pi, .moduleCall ⟨hi, .moduleHead ⟨mi, .moduleName name⟩ as⟩ c⟩⟩)
    (moduleRemark : ∀ info ms pi verb as c, N c →
      N ⟨info, .instantiation ms ⟨pi, .moduleRemark verb as c⟩⟩)
    (moduleIf : ∀ info ms pi c t, N t → N ⟨info, .instantiation ms ⟨pi, .moduleIf c t none⟩⟩)
    (moduleIfElse : ∀ info ms pi c t e, N t → N e →
      N ⟨info, .instantiation ms ⟨pi, .moduleIf c t (some e)⟩⟩)
    (inert : ∀ n, isInert n → N n) (n : Node) : N n := by
  -- A statement that is called stands below the statement that calls it, not directly in it.
  suffices hall : N n ∧ ∀ c ∈ n.children, N c from hall.1
  induction n using Node.ofChildren with
  | h n ih =>
      refine ⟨?_, fun c hc => (ih c hc).1⟩
      have hbelow : ∀ p ∈ n.children, ∀ c ∈ p.children, N c := fun p hp => (ih p hp).2
      fun_cases isInert n with
      | case1 info t e => exact assignment info t e
      | case2 info ss => exact block info ss fun s hs => (ih s (by simpa using hs)).1
      | case3 info name ps body => exact moduleDefinition info name ps body (ih body (by simp)).1
      | case4 info name ps e => exact functionDefinition info name ps e
      | case5 info ms pi hi mi name as c =>
          refine moduleCall info ms pi hi mi name as c
            (hbelow ⟨pi, .moduleCall _ c⟩ (List.mem_singleton_self _) c ?_)
          simp
      | case6 info ms pi verb as c =>
          exact moduleRemark info ms pi verb as c (hbelow ⟨pi, .moduleRemark verb as c⟩
            (by simp) c (by simp))
      | case7 info ms pi c t e =>
          have hbranch : ∀ s ∈ Node.children ⟨pi, .moduleIf c t e⟩, N s :=
            hbelow ⟨pi, .moduleIf c t e⟩ (by simp)
          cases e with
          | none => exact moduleIf info ms pi c t (hbranch t (by simp))
          | some e =>
              exact moduleIfElse info ms pi c t e (hbranch t (by simp)) (hbranch e (by simp))
      | case8 => exact inert n (by rw [isInert] <;> assumption)

end Resolve

end Scad
