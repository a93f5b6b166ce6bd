import Scad.Proofs.Parse.Advancing
import Scad.Proofs.Parse.Effect.Program

/-! Parsing ends with all tokens consumed: the passes of every loop consume something, and every
production comes back to the level at which it began. -/
namespace Scad

namespace Parse

/-- The productions of operator levels, from the tightest operands on, with `n` more
levels to open. -/
inductive Ladder (n : Nat) : Parser Node → Prop
  | unary : Ladder n (unary (expressionRules n))
  | chain (level : ChainLevel) {p : Parser Node} : Ladder n p → Ladder n (chain level p)

/-- The steps that are repeated. -/
inductive Loop : {α : Type} → Parser (Option α) → Prop
  | statement (n : Nat) (inBlock : Bool) :
      Loop (statementStep (statementRules n) (expressionRules n) inBlock)
  | moduleHeader (n : Nat) : Loop (moduleHeader? (expressionRules n))
  | mark : Loop mark?
  | argument (n : Nat) (declares : Bool) :
      Loop (nextItem? startsExpression (argument (expressionRules n) declares))
  | parameter (n : Nat) : Loop (nextItem? isIdentifier (parameter (expressionRules n)))
  | assignment (n : Nat) : Loop (nextItem? isIdentifier (assignment (expressionRules n)))
  | loopUpdate (n : Nat) : Loop (nextItem? isIdentifier (loopUpdate (expressionRules n)))
  | element (n : Nat) : Loop (nextElement? (expressionRules n))
  | suffix (n : Nat) : Loop (suffix? (expressionRules n))
  | operation (level : ChainLevel) {n : Nat} {p : Parser Node} : Ladder n p →
      Loop (operation? level p)
  | comma : Loop comma?

/-- The productions, with `n` more levels to open. -/
inductive Production : {α : Type} → Parser α → Prop
  -- Statements.
  | program : Production program
  | statements (n : Nat) (inBlock : Bool) :
      Production (statements (statementRules n) (expressionRules n) inBlock)
  | statementStep (n : Nat) (inBlock : Bool) :
      Production (statementStep (statementRules n) (expressionRules n) inBlock)
  | synchronize : Production synchronize
  | statement (n : Nat) : Production (statement (statementRules n) (expressionRules n))
  | moduleHeader (n : Nat) : Production (moduleHeader? (expressionRules n))
  | wrapModules (body : Node) (headers : List ModuleHeader) : Production (wrapModules body headers)
  | plainStatement (n : Nat) : Production (plainStatement (statementRules n) (expressionRules n))
  | block (n : Nat) : Production (block (statementRules n))
  | nestedBlock (n : Nat) : Production (statementRules n).block
  | fileReference (inclusion : Inclusion) : Production (fileReference inclusion)
  | functionDefinition (n : Nat) : Production (functionDefinition (expressionRules n))
  | assignmentStatement (n : Nat) : Production (assignmentStatement (expressionRules n))
  | instantiation (n : Nat) : Production (instantiation (statementRules n) (expressionRules n))
  | nestedInstantiation (n : Nat) : Production (statementRules n).instantiation
  | payload (n : Nat) : Production (payload (statementRules n) (expressionRules n))
  | child (n : Nat) : Production (child (statementRules n))
  -- Lists.
  | skipCommas : Production skipCommas
  | parameters (n : Nat) : Production (parameters (expressionRules n))
  | arguments (n : Nat) (declares : Bool) : Production (arguments (expressionRules n) declares)
  | argument (n : Nat) (declares : Bool) : Production (argument (expressionRules n) declares)
  | assignments (n : Nat) : Production (assignments (expressionRules n))
  | assignment (n : Nat) : Production (assignment (expressionRules n))
  | letAssignments (n : Nat) : Production (letAssignments (expressionRules n))
  | loopControl (n : Nat) : Production (loopControl (expressionRules n))
  -- Expressions.
  | identifier : Production identifier
  | nestedExpression (n : Nat) : Production (expressionRules n).expression
  | expression (n : Nat) : Production (expression (expressionRules n))
  | ternary (n : Nat) : Production (ternary (expressionRules n))
  | ladder {n : Nat} {p : Parser Node} : Ladder n p → Production p
  | nestedUnary (n : Nat) : Production (expressionRules n).unary
  | power (n : Nat) : Production (power (expressionRules n))
  | suffixed (n : Nat) : Production (suffixed (expressionRules n))
  | primary (n : Nat) : Production (primary (expressionRules n))
  | vectorOrRange (n : Nat) : Production (vectorOrRange (expressionRules n))
  | rangeRest (n : Nat) (start : Token) (first : Node) :
      Production (rangeRest (expressionRules n) start first)
  | checkUniform (elements : List Node) : Production (checkUniform elements)
  | nestedElement (n : Nat) : Production (expressionRules n).element
  | element (n : Nat) : Production (element (expressionRules n))
  | forElement (n : Nat) : Production (forElement (expressionRules n))

/-- Operands of a ladder build one tree. -/
theorem Ladder.builds (I : Interpretation) {n : Nat} {p : Parser Node} (h : Ladder n p) :
    ∃ k, Builds I [] p fun m => [.tree m k] := by
  induction h with
  | unary => exact ⟨_, builds_unary (builds_expressionRules n)⟩
  | chain level _ ih =>
      obtain ⟨k, hk⟩ := ih
      exact ⟨k + 1, builds_chain hk⟩

theorem Convertible.runs {src : Source} {s : State} (h : Convertible src s.rest) :
    Running False src s :=
  ⟨h.stop, h.running, fun t ht hk => .inl (h.numeral t ht hk)⟩

/-- Wherever a production begins, it does not go back, and it leaves the levels that it opens. -/
theorem Production.onward {α : Type} {p : Parser α} (h : Production p) {src : Source} {s : State}
    (hs : Running False src s) : (p src s).Ends (fun _ s' => Onward s s') (Onward s) False := by
  -- Where a production may begin does not matter here, nor what was read before.
  have hany {P : Prop} : (advancing False False).placed → P := False.elim
  have hd (n : Nat) := builds_statementRules (I := advancing False False) n
  have hr (n : Nat) := builds_expressionRules (I := advancing False False) n
  have hbegin {β : Type} {q : Parser β} {out : β → List Piece}
      (hq : ∀ t, Builds (advancing False False) [.ahead t] q out) :
      (q src s).Ends (fun _ s' => Onward s s') (Onward s) False := (Builds.begin hq).onward hs
  cases h with
  | program => exact (builds_program (I := advancing False False)).onward hs
  | statements n inBlock => exact (builds_statements (hd n) (hr n) inBlock).onward hs
  | statementStep n inBlock => exact (builds_statementStep (hd n) (hr n) inBlock).onward hs
  | synchronize => exact (onward_synchronize src s).mono (fun _ _ h => h.1) fun _ h => h.elim
  | statement n => exact (builds_statement (hd n) (hr n)).onward hs
  | moduleHeader n => exact (builds_moduleHeader (hr n)).onward hs
  | wrapModules body headers =>
      induction headers with
      | nil => exact .refl s
      | cons header headers ih =>
          exact ih.bind (fun _ _ h => h.trans (.still rfl rfl rfl)) fun _ h => h
  | plainStatement n => exact (builds_plainStatement (hd n) (hr n)).onward hs
  | block n => exact hbegin fun t => builds_block (hd n) hany
  | nestedBlock n =>
      have hblock (t : Token) : Builds (advancing False False) [.ahead t] (statementRules n).block
          fun ns => [.trees ns (12 * n + 1)] :=
        ((hd n).block t hany).mono fun ns => .gather (by simp) (by simp)
      exact hbegin hblock
  | fileReference inclusion => exact hbegin fun t => builds_fileReference (k := 0) hany
  | functionDefinition n => exact hbegin fun t => builds_functionDefinition (hr n) hany
  | assignmentStatement n => exact hbegin fun t => builds_assignmentStatement (hr n) hany
  | instantiation n => exact (builds_instantiation (hd n) (hr n)).onward hs
  | nestedInstantiation n => exact (hd n).instantiation.onward hs
  | payload n => exact (builds_payload (hd n) (hr n)).onward hs
  | child n => exact (builds_child (hd n)).onward hs
  | skipCommas => exact (builds_skipCommas (I := advancing False False)).onward hs
  | parameters n => exact (builds_parameters (hr n)).onward hs
  | arguments n declares => exact (builds_arguments (hr n) declares).onward hs
  | argument n declares => exact (builds_argument (hr n) declares).onward hs
  | assignments n => exact (builds_assignments (hr n)).onward hs
  | assignment n => exact hbegin fun t => builds_assignment (hr n) hany
  | letAssignments n => exact (builds_letAssignments (hr n)).onward hs
  | loopControl n => exact (builds_loopControl (hr n)).onward hs
  | identifier => exact (Builds.identifier (I := advancing False False)).onward hs
  | nestedExpression n => exact (hr n).expression.onward hs
  | expression n => exact (builds_expression (hr n)).onward hs
  | ternary n => exact (builds_ternary (hr n)).onward hs
  | ladder h =>
      obtain ⟨k, hk⟩ := h.builds (advancing False False)
      exact hk.onward hs
  | nestedUnary n => exact (hr n).unary.onward hs
  | power n => exact (builds_power (hr n)).onward hs
  | suffixed n => exact (builds_suffixed (hr n)).onward hs
  | primary n => exact (builds_primary (hr n)).onward hs
  | vectorOrRange n => exact hbegin fun t => builds_vectorOrRange (hr n) hany
  | rangeRest n start first => 
      exact (builds_rangeRest (t := start) (hr n) src s s hs ⟨s, ⟨.refl s, False.elim⟩, rfl⟩).mono
        (fun _ _ h => onward_of_path h) fun _ h => h
  | checkUniform elements =>
      exact (sameButErrors_checkUniform elements src s).mono (fun _ _ h => h.onward)
        fun _ h => h.elim
  | nestedElement n => exact (hr n).element.onward hs
  | element n => exact (builds_element (hr n)).onward hs
  | forElement n => exact hbegin fun t => builds_forElement (hr n) hany

/-- What a loop reads in a pass that gives something consumes a token. -/
theorem Loop.consumes {α : Type} {step : Parser (Option α)} (h : Loop step)
    {src : Source} {s : State} (hs : Running False src s) :
    (step src s).Ends (fun o s' => o.isSome → s.position < s'.position) (fun _ => True) False := by
  have hd (n : Nat) := builds_statementRules (I := advancing True False) n
  have hr (n : Nat) := builds_expressionRules (I := advancing True False) n
  cases h with
  | statement n inBlock =>
      refine (builds_statementStep (hd n) (hr n) inBlock).consumes trivial (fun found => ?_) hs
      cases found <;> rfl
  | moduleHeader n => exact (builds_moduleHeader (hr n)).consumes trivial (fun _ => rfl) hs
  | mark => exact builds_mark.consumes trivial (fun _ => rfl) hs
  | argument n declares =>
      exact (builds_nextItem fun _ _ => (builds_argument (hr n) declares).unless_looked).consumes
        trivial (fun _ => rfl) hs
  | parameter n =>
      exact (builds_nextItem fun _ hk => builds_parameter (hr n) fun _ => hk).consumes trivial
        (fun _ => rfl) hs
  | assignment n =>
      exact (builds_nextItem fun _ hk => builds_assignment (hr n) fun _ => hk).consumes trivial
        (fun _ => rfl) hs
  | loopUpdate n =>
      exact (builds_nextItem fun _ hk => builds_loopUpdate (hr n) fun _ => hk).consumes trivial
        (fun _ => rfl) hs
  | element n => exact (builds_nextElement (hr n)).consumes trivial (fun _ => rfl) hs
  | suffix n => exact (builds_suffix (hr n)).consumes trivial (fun _ => rfl) hs
  | operation level hp =>
      obtain ⟨k, hk⟩ := hp.builds (advancing True False)
      exact (builds_operation hk).consumes trivial (fun _ => rfl) hs
  | comma => exact builds_comma.consumes trivial (fun _ => rfl) hs

/-- Nothing but that the numbers among the tokens can be read. -/
def convertibleTokens (src : Source) (hstop : src.stop.kind = .eof) : Setting where
  src := src
  nodes := []
  spelling := .any
  token t := t.kind ≠ .eof ∧ (t.kind = .number → ∃ x, Numeral.read t.text = .ok x)
  breaks := False
  stop := hstop
  running h := h.1
  operator _ _ := trivial
  head _ _ := trivial
  numeral h hk := .inl (h.2 hk)

end Parse

open Parse

/-- Tokens whose numbers can be read are parsed to the end. On the way, whatever a loop repeats has
consumed a token if the loop goes on, and a production that returns or gives up has left all the
levels that it opened. -/
theorem parse_progresses {tokens : List Token} (origin : Option String)
    (hnumeral : ∀ t ∈ tokens, t.kind = .number → ∃ x, Numeral.read t.text = .ok x) :
    (∃ p s, parse tokens origin = .ok p ∧
      program (source tokens origin) (initial tokens origin) = .done p.document.statements s ∧
      (ahead (source tokens origin) s.rest).kind = .eof) ∧
    (∀ {α : Type} {step : Parser (Option α)}, Loop step → ∀ {src s a s'}, Convertible src s.rest →
      step src s = .done (some a) s' → s.position < s'.position) ∧
    ∀ {α : Type} {p : Parser α}, Production p → ∀ {src s}, Convertible src s.rest →
      (p src s).Ends (fun _ s' => s'.depth = s.depth) (fun s' => s'.depth = s.depth) False := by
  refine ⟨?_, fun hstep src s a s' hs he => ?_, fun hp src s hs => ?_⟩
  · have hproduces :=
      parse_produces (convertibleTokens (source tokens origin) (stop_source tokens origin))
      rfl fun t ht => ⟨running_body ht, hnumeral t (List.takeWhile_subset _ ht)⟩
    cases h : parse tokens origin with
    | error fault =>
        rw [h] at hproduces
        exact hproduces.elim
    | ok p =>
        rw [h] at hproduces
        obtain ⟨s, hs⟩ := hproduces
        refine ⟨p, s, rfl, hs.run, ?_⟩
        rw [hs.consumed]
        exact stop_source tokens origin
  · have h := hstep.consumes hs.runs
    rw [he] at h
    exact h rfl
  · exact (hp.onward hs.runs).mono (fun _ _ h => h.depth) fun _ h => h.depth

theorem parse_progresses_stray : (∀ t ∈ [Token.sign .rightBrace, .sign .comma, .one],
      t.kind = .number → ∃ x, Numeral.read t.text = .ok x) ∧
    ∃ p s, parse [.sign .rightBrace, .sign .comma, .one] none = .ok p ∧
      program (source [.sign .rightBrace, .sign .comma, .one] none)
        (initial [.sign .rightBrace, .sign .comma, .one] none) = .done p.document.statements s ∧
      (ahead (source [.sign .rightBrace, .sign .comma, .one] none) s.rest).kind = .eof := by
  have hnumeral : ∀ t ∈ [Token.sign .rightBrace, .sign .comma, .one],
      t.kind = .number → ∃ x, Numeral.read t.text = .ok x := by
    intro t ht hk
    simp only [List.mem_cons, List.not_mem_nil, or_false] at ht
    rcases ht with rfl | rfl | rfl
    · cases hk
    · cases hk
    · exact ⟨_, rfl⟩
  exact ⟨hnumeral, (parse_progresses none hnumeral).1⟩

end Scad
