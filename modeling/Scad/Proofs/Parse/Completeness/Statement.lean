import Scad.Proofs.Parse.Completeness.Expression

/-! Every phrase of a statement is read by the production of its name, so a program is read without
an error and its tree is the one that the grammar gives it. -/
namespace Scad.Parse

open Grammar (Level Repeated After Between nextKind)

def startsInstantiation : TokenKind → Bool
  | .identifier => true
  | .keyword .ifThen | .keyword .echo | .keyword .assert | .keyword .forLoop | .keyword .letIn
  | .keyword .each => true
  | .symbol .bang | .symbol .hash | .symbol .percent | .symbol .star => true
  | _ => false

variable {src : Source} {n : Nat}

structure CompleteStatements (src : Source) (n : Nat) (deeper : StatementRules)
    (rules : ExpressionRules) (inner : Level) :
    Prop extends CompleteExpressions src n rules inner where
  block : ∀ {l ts ss rest}, l.kind = .symbol .leftBrace → inner.statements ts ss rest →
    nextKind rest = .symbol .rightBrace → GivesAll src n deeper.block (l :: ts) ss rest
  instantiation : ∀ {ts x rest}, inner.instantiation ts x rest →
    RunsTo src n deeper.instantiation ts x rest
  startsInstantiation : ∀ {ts x rest}, inner.instantiation ts x rest →
    startsInstantiation (nextKind ts)

theorem startsInstantiation_of_modifier {k : TokenKind} {mark : String}
    (h : modifier? k = some mark) : startsInstantiation k := by
  obtain ⟨sign, hsign, -⟩ := Option.map_eq_some_iff.1 h
  have hmem := List.mem_of_find?_eq_some hsign
  have hk : k = .symbol sign := by simpa using List.find?_some hsign
  rw [hk]
  revert hmem
  cases sign <;> decide

theorem namesModule_cases {k : TokenKind} (h : Grammar.namesModule k) :
    k = .identifier ∨ k = .keyword .forLoop ∨ k = .keyword .letIn ∨ k = .keyword .each := by
  unfold Grammar.namesModule at h
  split at h <;> first | simp | cases h

variable {deeper : StatementRules} {rules : ExpressionRules} {inner : Level}

/-- A payload begins with a word. -/
theorem nextKind_of_payload {ts : List Token} {x : Node} {rest : List Token}
    (hx : Grammar.Payload inner ts x rest) :
    startsInstantiation (nextKind ts) ∧ modifier? (nextKind ts) = none := by
  cases hx with
  | ifThen hk _ _ _ | ifElse hk _ _ _ =>
      rw [nextKind_cons hk]
      exact ⟨rfl, rfl⟩
  | @remark verb _ _ _ _ _ _ _ hk _ _ =>
      rw [nextKind_cons hk]
      cases verb <;> exact ⟨rfl, rfl⟩
  | call hk _ _ =>
      rcases namesModule_cases hk with hk | hk | hk | hk <;> rw [nextKind_cons hk] <;>
        exact ⟨rfl, rfl⟩

theorem nextKind_of_instantiation {ts : List Token} {x : Node} {rest : List Token}
    (hx : Grammar.Instantiation inner ts x rest) : startsInstantiation (nextKind ts) := by
  obtain ⟨hm, hp⟩ := hx
  cases hm with
  | nil => exact (nextKind_of_payload hp).1
  | cons hm _ =>
      obtain ⟨hm⟩ := hm
      exact startsInstantiation_of_modifier hm

/-- Behind the name of an instantiation stand its arguments. -/
theorem nextKind_behind_name {ts : List Token} {x : Node} {rest : List Token}
    (hx : Grammar.Instantiation inner ts x rest) (hn : nextKind ts = .identifier) :
    nextKind ts.tail = .symbol .leftParen := by
  obtain ⟨hm, hp⟩ := hx
  cases hm with
  | nil =>
      cases hp with
      | ifThen hk _ _ _ | ifElse hk _ _ _ | remark hk _ _ =>
          rw [nextKind_cons hk] at hn
          cases hn
      | call _ ha _ => exact ha.nextKind
  | cons hm _ =>
      obtain ⟨hm⟩ := hm
      rw [show Token.kind _ = _ from hn] at hm
      cases hm

variable (h : CompleteStatements src n deeper rules inner)

include h

omit h in
theorem runs_closeBlock {t : Token} {rest : List Token} (ht : t.kind = .symbol .rightBrace)
    (opening : Nat) : Runs src n (closeBlock opening) (t :: rest) rest fun _ => True := by
  refine .place fun closing => (Runs.expect ht).bind ?_
  rintro _ rfl
  exact Runs.note rfl

theorem runs_block {ts : List Token} {x : Node} {rest : List Token}
    (hx : Grammar.Block inner ts x rest) : RunsTo src n (block deeper) ts x rest := by
  obtain ⟨hl, hs, hr⟩ := hx
  refine .see (.place fun opening => (h.block hl hs (nextKind_cons hr)).bind fun ss' hss' =>
    (runs_closeBlock hr opening).bind fun _ _ => RunsTo.make ?_)
  rw [Form.map, Form.map, hss']

theorem runs_child {ts : List Token} {x : Node} {rest : List Token}
    (hx : Grammar.Child inner ts x rest) : RunsTo src n (child deeper) ts x rest := by
  cases hx with
  | empty hk =>
      refine .see ?_
      rw [hk]
      exact .take (RunsTo.make rfl)
  | block hb =>
      have hrun := runs_block h hb
      obtain ⟨hl, -, -⟩ := hb
      refine .see ?_
      rw [hl]
      exact hrun
  | instantiation hi =>
      have hk := h.startsInstantiation hi
      refine .look fun hs => ?_
      rw [ahead_kind hs]
      split
      · rename_i hn
        rw [hn] at hk
        cases hk
      · rename_i hn
        rw [hn] at hk
        cases hk
      · exact h.instantiation hi

theorem runs_moduleCall {k : Token} {ts : List Token} {as : List Node} {mid : List Token} {c : Node}
    {rest : List Token} {i j m : Info}
    (ha : Grammar.Arguments inner (declaresVariables k) ts as mid)
    (hc : Grammar.Child inner mid c rest) : RunsTo src n (moduleCall deeper rules k) (k :: ts)
      ⟨i, .moduleCall ⟨j, .moduleHead ⟨m, .moduleName k.text⟩ as⟩ c⟩ rest := by
  refine .take ((RunsTo.make (i := m) rfl).bind fun name hname =>
    (runs_arguments h.toCompleteExpressions ha).bind fun as' has' =>
      (RunsTo.make (i := j) (g := .moduleHead ⟨m, .moduleName k.text⟩ as) ?_).bind fun head hhead =>
        (runs_child h hc).bind fun c' hc' => RunsTo.make ?_)
  · rw [Form.map, Form.map, hname, has']
  · rw [Form.map, Form.map, hhead, hc']

theorem runs_moduleRemark {verb : Verb} {start k : Token} {ts : List Token} {as : List Node}
    {mid : List Token} {c : Node} {rest : List Token} {i : Info}
    (ha : Grammar.Arguments inner false ts as mid) (hc : Grammar.Child inner mid c rest) :
    RunsTo src n (moduleRemark deeper rules verb start) (k :: ts)
      ⟨i, .moduleRemark verb as c⟩ rest := by
  refine .take ((runs_arguments h.toCompleteExpressions ha).bind fun as' has' =>
    (runs_child h hc).bind fun c' hc' => RunsTo.make ?_)
  rw [Form.map, Form.map, has', hc']

theorem runs_payload {ts : List Token} {x : Node} {rest : List Token}
    (hx : Grammar.Payload inner ts x rest) : RunsTo src n (payload deeper rules) ts x rest := by
  cases hx with
  | ifThen hk hc ht he =>
      obtain ⟨hp, hc, hq⟩ := hc
      refine .see ?_
      rw [hk]
      refine .take
        (.expectSymbol hp ((h.expression hc (by rw [nextKind_cons hq]; rfl)).bind fun c' hc' =>
        .expectSymbol hq ((runs_child h ht).bind fun t' ht' => (runs_elseBranch
          (o := none) ⟨h.ifEnd he, rfl⟩).bind fun e' he' => RunsTo.make ?_)))
      rw [Form.map, Form.map, hc', ht', he']
  | ifElse hk hc ht he =>
      obtain ⟨hp, hc, hq⟩ := hc
      obtain ⟨hk', he⟩ := he
      have helse := runs_child h he
      refine .see ?_
      rw [hk]
      refine .take
        (.expectSymbol hp ((h.expression hc (by rw [nextKind_cons hq]; rfl)).bind fun c' hc' =>
        .expectSymbol hq ((runs_child h ht).bind fun t' ht' => (runs_elseBranch
          (o := some _) ⟨_, _, rfl, hk', helse⟩).bind fun e' he' => RunsTo.make ?_)))
      rw [Form.map, Form.map, hc', ht', he']
  | @remark verb _ _ _ _ _ _ _ hk ha hc =>
      refine .see ?_
      rw [hk]
      cases verb with
      | echo => exact runs_moduleRemark h ha hc
      | assert => exact runs_moduleRemark h ha hc
  | call hk ha hc =>
      refine .see ?_
      rcases namesModule_cases hk with hk | hk | hk | hk
      · rw [hk]
        exact runs_moduleCall h ha hc
      · rw [hk]
        exact runs_moduleCall h ha hc
      · rw [hk]
        exact runs_moduleCall h ha hc
      · rw [hk]
        exact runs_moduleCall h ha hc

omit h in
theorem turns_marks {ts : List Token} {marks : List String} {rest : List Token}
    (hm : Repeated Grammar.Mark ts marks rest) (hr : modifier? (nextKind rest) = none) :
    Turns src n (do
      match modifier? (← current).kind with
      | some mark =>
        let _ ← advance
        return some mark
      | none => return none : Parser (Option String)) id ts marks rest := by
  induction hm with
  | nil =>
      refine .stop (.look fun hs => ?_)
      rw [ahead_kind hs, hr]
      exact Runs.pure _
  | cons hm _ ih =>
      obtain ⟨hm⟩ := hm
      refine .turn (.see ?_) (Nat.lt_succ_self _) (ih hr)
      rw [hm]
      exact .take ((Runs.pure _).mono fun o ho => ⟨_, ho, rfl⟩)

theorem runs_instantiation {ts : List Token} {x : Node} {rest : List Token}
    (hx : Grammar.Instantiation inner ts x rest) :
    RunsTo src n (instantiation deeper rules) ts x rest := by
  obtain ⟨hm, hp⟩ := hx
  refine .look fun _ => (Runs.many (turns_marks hm (nextKind_of_payload hp).2)).bind
    fun marks hmarks =>
    (runs_payload h hp).bind fun p' hp' => RunsTo.make ?_
  rw [List.map_id] at hmarks
  rw [Form.map, Form.map, hmarks, hp']

theorem runs_functionDefinition {k name : Token} {ts : List Token} {ps : List Node}
    {mid : List Token} {e : Node} {s : Token} {rest : List Token} {i : Info}
    (hname : name.kind = .identifier) (hp : Grammar.Parameters inner ts ps mid)
    (hv : Grammar.Value inner mid e (s :: rest)) (hs : s.kind = .symbol .semicolon) :
    RunsTo src n (functionDefinition rules) (k :: name :: ts)
      ⟨i, .functionDefinition name.text ps e⟩ rest := by
  obtain ⟨heq, he⟩ := hv
  refine .take ((Runs.identifier hname).bind fun name' hname' =>
    (runs_parameters h.toCompleteExpressions hp).bind fun ps' hps' => .expectSymbol heq
      ((h.expression he (by rw [nextKind_cons hs]; rfl)).bind fun e' he' =>
        .expectSymbol hs (RunsTo.make ?_)))
  rw [Form.map, Form.map, hname', hps', he']

omit h in
theorem runs_fileReference {inclusion : Inclusion} {k f : Token} {ts : List Token} {i : Info}
    (hf : f.kind = .file) :
    RunsToSome src n (fileReference inclusion) (k :: f :: ts)
      ⟨i, .fileReference inclusion f.text⟩ ts := by
  refine .take (.see ?_)
  rw [if_pos hf]
  exact .take (RunsTo.make rfl).offers

theorem runs_assignmentStatement {name : Token} {ts : List Token} {e : Node} {s : Token}
    {rest : List Token} {i j : Info} (hv : Grammar.Value inner ts e (s :: rest))
    (hs : s.kind = .symbol .semicolon) : RunsTo src n (assignmentStatement rules) (name :: ts)
      ⟨i, .assignment ⟨j, .variableDefinition name.text⟩ e⟩ rest := by
  refine (runs_assignmentParts h.toCompleteExpressions hv (by rw [nextKind_cons hs]; rfl)).bind ?_
  rintro ⟨start, target, e'⟩ ⟨rfl, ht, he'⟩
  refine .expectSymbol hs (RunsTo.make ?_)
  simp only [Form.map] at he' ⊢
  rw [Node.bare_eq ht rfl, he']

/-- An instantiation as a statement is not taken for an assignment. -/
theorem runs_instantiationStatement {ts : List Token} {x : Node} {rest : List Token}
    (hx : Grammar.Instantiation inner ts x rest) :
    RunsToSome src n (plainStatement deeper rules) ts x rest := by
  have hk := nextKind_of_instantiation hx
  have hrun := (runs_instantiation h hx).offers
  refine .look fun hs => ?_
  rw [ahead_kind hs]
  split
  · rename_i hn
    rw [hn] at hk
    cases hk
  · rename_i hn
    rw [hn] at hk
    cases hk
  · rename_i hn
    rw [hn] at hk
    cases hk
  · rename_i hn
    rw [hn] at hk
    cases hk
  · rename_i hn
    rw [hn] at hk
    cases hk
  · rename_i hn
    refine .peek fun _ => ?_
    rw [if_neg]
    · exact hrun
    · rw [ahead_kind hs, nextKind_behind_name hx hn]
      simp
  · exact hrun

def ModuleHeader.view (header : ModuleHeader) : String × List Node :=
  (header.name, header.parameters.map Node.bare)

/-- The definitions around a bare body, the outermost first. -/
def enclose (headers : List (String × List Node)) (body : Node) : Node :=
  headers.foldr (fun header below => ⟨Node.blank, .moduleDefinition header.1 header.2 below⟩) body

omit h in
theorem runs_wrapModules (body : Node) (headers : List ModuleHeader) {ts : List Token} :
    Runs src n (wrapModules body headers) ts ts fun n =>
      n.bare = enclose (headers.map ModuleHeader.view) body.bare := by
  induction headers with
  | nil => exact (Runs.pure _).mono fun n hn => by rw [hn]; rfl
  | cons header headers ih =>
      refine ih.bind fun below hbelow => (Runs.make _ _).mono fun n hn => ?_
      rw [Node.bare_eq (i := Node.blank) hn rfl, Node.bare_mk, Form.map, hbelow]
      rfl

theorem runs_header {k name : Token} {ts : List Token} {ps : List Node} {rest : List Token}
    (hk : k.kind = .keyword .moduleDef) (hname : name.kind = .identifier)
    (hp : Grammar.Parameters inner ts ps rest) :
    Runs src n (moduleHeader? rules) (k :: name :: ts) rest fun o =>
      ∃ header, o = some header ∧ header.view = (name.text, ps.map Node.bare) := by
  refine .yes hk (.take ((Runs.identifier hname).bind fun name' hname' =>
    (runs_parameters h.toCompleteExpressions hp).bind fun ps' hps' => (Runs.pure _).mono fun o ho =>
      ⟨_, ho, ?_⟩))
  rw [ModuleHeader.view, hname', hps']

/-- A statement is a run of headers with a plain statement behind them. -/
theorem runs_headers {ts : List Token} {x : Node} {rest : List Token}
    (hx : Grammar.Statement inner ts x rest) :
    ∃ headers mid body, Turns src n (moduleHeader? rules) ModuleHeader.view ts headers mid ∧
      RunsToSome src n (plainStatement deeper rules) mid body rest ∧
      x.bare = enclose headers body.bare := by
  have hplain : ∀ {ts x rest}, nextKind ts ≠ .keyword .moduleDef →
      RunsToSome src n (plainStatement deeper rules) ts x rest → ∃ headers mid body,
        Turns src n (moduleHeader? rules) ModuleHeader.view ts headers mid ∧
        RunsToSome src n (plainStatement deeper rules) mid body rest ∧
        x.bare = enclose headers body.bare :=
    fun hk hp => ⟨[], _, _, .stop (.no hk (Runs.pure _)), hp, rfl⟩
  induction hx with
  | empty hk =>
      refine hplain (by rw [nextKind_cons hk]; simp) (.see ?_)
      rw [hk]
      exact .take (RunsTo.make rfl).offers
  | block hb =>
      have hrun := (runs_block h hb).offers
      obtain ⟨hl, -, -⟩ := hb
      refine hplain (by rw [nextKind_cons hl]; simp) (.see ?_)
      rw [hl]
      exact hrun
  | @file inclusion _ _ _ _ hk hf =>
      refine hplain ?_ (.see ?_)
      · rw [nextKind_cons hk]
        cases inclusion <;> simp [Inclusion.keyword]
      · rw [hk]
        cases inclusion with
        | everything => exact runs_fileReference hf
        | definitions => exact runs_fileReference hf
  | assignment hk hv hs =>
      have heq := hv.nextKind
      refine hplain (by rw [nextKind_cons hk]; simp) (.see ?_)
      rw [hk]
      refine .peek fun hstop => ?_
      rw [ahead_kind hstop, List.tail_cons, if_pos heq]
      exact (runs_assignmentStatement h hv hs).offers
  | function hk hname hp hv hs =>
      refine hplain (by rw [nextKind_cons hk]; simp) (.see ?_)
      rw [hk]
      exact (runs_functionDefinition h hname hp hv hs).offers
  | module hk hname hp hb ih =>
      obtain ⟨headers, mid, body, ht, hbody, hx⟩ := ih
      have hshrink := Grammar.Parameters.shrinks h.shrinking hp
      refine ⟨_ :: headers, mid, body, .turn (runs_header h hk hname hp) ?_ ht, hbody, ?_⟩
      · simp only [List.length_cons]
        omega
      · rw [Node.bare_mk, Form.map, hx]
        rfl
  | instantiation hi =>
      refine hplain ?_ (runs_instantiationStatement h hi)
      intro hk
      have hstart := nextKind_of_instantiation hi
      rw [hk] at hstart
      cases hstart

theorem runs_statement {ts : List Token} {x : Node} {rest : List Token}
    (hx : Grammar.Statement inner ts x rest) :
    RunsToSome src n (statement deeper rules) ts x rest := by
  obtain ⟨headers, mid, body, ht, hbody, he⟩ := runs_headers h hx
  refine (Runs.many ht).bind fun headers' hheaders => hbody.bind ?_
  rintro _ ⟨body', rfl, hbody'⟩
  cases headers' with
  | nil =>
      refine (Runs.pure _).mono fun o ho => ⟨body', ho, ?_⟩
      rw [he, ← hheaders, hbody']
      rfl
  | cons first more =>
      refine (runs_wrapModules body' (first :: more)).bind fun n hn =>
        (Runs.pure _).mono fun o ho => ⟨n, ho, ?_⟩
      rw [hn, he, hheaders, hbody']

omit h in
theorem nextKind_of_statement {ts : List Token} {x : Node} {rest : List Token}
    (hx : Grammar.Statement inner ts x rest) :
    nextKind ts ≠ .eof ∧ nextKind ts ≠ .symbol .rightBrace := by
  cases hx with
  | empty hk | assignment hk _ _ | function hk _ _ _ _ | module hk _ _ _ | file hk _ =>
      rw [nextKind_cons hk]
      simp
  | block hb =>
      obtain ⟨hl, -, -⟩ := hb
      rw [nextKind_cons hl]
      simp
  | instantiation hi =>
      have hk := nextKind_of_instantiation hi
      constructor
      · intro hn
        rw [hn] at hk
        cases hk
      · intro hn
        rw [hn] at hk
        cases hk

omit h in
/-- A production that is not abandoned needs no recovery. -/
theorem runs_recovering {p : Parser (Option Node)} {ts rest : List Token} {Q : Option Node → Prop}
    (hp : Runs src n p ts rest Q) : Runs src n (recovering p) ts rest Q := by
  intro he s hs hn
  have hrun := hp he s hs hn
  unfold recovering
  cases ho : p src s with
  | done a s' =>
      rw [ho] at hrun
      exact hrun
  | abandoned s' =>
      rw [ho] at hrun
      exact hrun.elim
  | broken fault =>
      rw [ho] at hrun
      exact hrun.elim

theorem runs_statementStep {inBlock : Bool} {ts : List Token} {x : Node} {rest : List Token}
    (hx : Grammar.Statement inner ts x rest) :
    Runs src n (statementStep deeper rules inBlock) ts rest fun o =>
      ∃ found, o = some found ∧ found.map Node.bare = some x.bare := by
  obtain ⟨heof, hbrace⟩ := nextKind_of_statement hx
  refine .look fun hs => ?_
  rw [ahead_kind hs]
  split
  · rename_i hk
    exact absurd hk heof
  · rename_i hk
    exact absurd hk hbrace
  · refine (runs_recovering (runs_statement h hx)).bind fun o ho =>
      (Runs.pure _).mono fun o' ho' => ?_
    obtain ⟨y, rfl, hy⟩ := ho
    exact ⟨_, ho', congrArg some hy⟩

omit h in
theorem runs_listEnd {inBlock : Bool} {ts : List Token}
    (hend : nextKind ts = .eof ∨ inBlock = true ∧ nextKind ts = .symbol .rightBrace) :
    Runs src n (statementStep deeper rules inBlock) ts ts (· = none) := by
  refine .look fun hs => ?_
  rw [ahead_kind hs]
  rcases hend with hk | ⟨rfl, hk⟩
  · rw [hk]
    exact Runs.pure _
  · rw [hk]
    exact Runs.pure _

theorem runs_statements {inBlock : Bool} {ts : List Token} {ss : List Node} {rest : List Token}
    (hs : Repeated (Grammar.Statement inner) ts ss rest)
    (hend : nextKind rest = .eof ∨ inBlock = true ∧ nextKind rest = .symbol .rightBrace) :
    GivesAll src n (statements deeper rules inBlock) ts ss rest := by
  have hturns : Turns src n (statementStep deeper rules inBlock) (Option.map Node.bare) ts
      (ss.map fun x => some x.bare) rest := by
    induction hs with
    | nil => exact .stop (runs_listEnd hend)
    | cons hx _ ih =>
        exact .turn (runs_statementStep h hx) (Grammar.Statement.shrinks h.shrinking hx) (ih hend)
  refine (Runs.many hturns).bind fun found hfound => (Runs.pure _).mono fun ys hys => ?_
  have hflat := congrArg (List.filterMap id) hfound
  rw [List.filterMap_map, List.filterMap_map] at hflat
  rw [hys, List.map_filterMap, ← List.filterMap_eq_map]
  exact hflat

theorem runs_blockBody {l : Token} {ts : List Token} {ss : List Node} {rest : List Token}
    (hs : Repeated (Grammar.Statement inner) ts ss rest)
    (hr : nextKind rest = .symbol .rightBrace) :
    GivesAll src n (blockBody deeper rules) (l :: ts) ss rest :=
  .take (runs_statements h hs (.inr ⟨rfl, hr⟩))

omit h in
theorem complete_statementRules (n : Nat) :
    CompleteStatements src n (statementRules n) (expressionRules n)
      (Grammar.level Grammar.NearestElse n) := by
  induction n with
  | zero => exact ⟨complete_expressionRules 0, nofun, nofun, nofun⟩
  | succ n ih =>
      exact ⟨complete_expressionRules (n + 1), fun _ hs hr => (runs_blockBody ih hs hr).nested,
        fun hx => (runs_instantiation ih hx).nested, nextKind_of_instantiation⟩

omit h in
theorem runs_program {ts : List Token} {ss : List Node}
    (hp : Grammar.Program Grammar.NearestElse maxNesting ts ss) :
    GivesAll src maxNesting program ts ss [] :=
  runs_statements (complete_statementRules maxNesting) hp (.inl rfl)

end Scad.Parse
