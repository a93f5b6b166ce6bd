import Scad.Proofs.Parse.Building

/-! What the productions for expressions and vector elements build. -/
namespace Scad.Parse

variable {I : Interpretation} {c : List Piece} {k l : Nat} {t : Token}

attribute [local simp] Form.written Form.children Form.fields Field.children

/-! ### Lists -/

/-- Tokens that were passed one behind the other. -/
theorem Entails.passed {xs : List Token} (hxs : xs ≠ []) :
    Entails I (xs.flatMap fun _ => [.passed]) [.passed] := by
  intro src s s' hs h
  induction xs generalizing s with
  | nil => exact absurd rfl hxs
  | cons x xs ih =>
      obtain ⟨m, hx, hrest⟩ := h
      cases xs with
      | nil =>
          obtain rfl := hrest
          exact ⟨_, hx, rfl⟩
      | cons y ys =>
          obtain ⟨_, hpassed, rfl⟩ := ih (by simp) m (I.start_reads hs hx) hrest
          exact ⟨_, I.passed_append hs hx hpassed, rfl⟩

theorem builds_comma : Builds I [] comma? fun o => o.elim [] fun _ => [.passed] := by
  exact .branch (fun t ht => .take (fun _ => by rw [ht]; simp) (.pure .looked)) (.idle rfl)

theorem builds_skipCommas : Builds I [] skipCommas fun b => if b then [.passed] else [] := by
  refine (Builds.many (.refl []) builds_comma).bind fun commas => .pure ?_
  cases commas with
  | nil => exact .refl []
  | cons x xs =>
      rw [List.append_nil]
      exact .passed (by simp)

section Separated

variable {starts : TokenKind → Bool} {item : Parser Node}
  (h : ∀ t, starts t.kind → Builds I [.ahead t] item fun n => [.tree n k])

include h

theorem builds_item : Builds I [] (item? starts item) fun o => o.elim [] fun n => [.tree n k] := by
  refine .look fun t => ?_
  split
  · rename_i ht
    exact (h t ht).bind fun n => .idle rfl
  · exact .unless_looked (.idle rfl)

theorem builds_nextItem :
    Builds I [] (nextItem? starts item) fun o => o.elim [.trees [] 0] fun n =>
      [.passed, .tree n k] := by
  refine builds_skipCommas.bind fun b => ?_
  cases b with
  | false => exact .pure (.gather (by simp) (by simp))
  | true =>
      refine (Builds.frame [.passed] (builds_item h)).mono fun o => ?_
      cases o with
      | none => exact .gather (by simp) (by simp)
      | some n => exact .refl _

theorem builds_separated : Builds I [] (separated starts item) fun ns => [.trees ns k] := by
  refine (builds_item h).bind fun o => ?_
  cases o with
  | none => exact .pure (.gather (by simp) (by simp))
  | some first =>
      refine .next (Builds.many (.gather (by simp) (by simp)) (builds_nextItem h)) fun more =>
        .pure (.gather ?_ ?_)
      · simp
      · simp

end Separated

/-- A list between two symbols. -/
theorem builds_between {d : List Piece} {p : Parser (List Node)} {left right : Symbol}
    {out : List Node → List Piece} (hleft : Builds I c (expectSymbol left) fun _ => d)
    (h : Builds I [] p fun ns => [.trees ns k])
    (hout : ∀ ns, Entails I (d ++ [.trees ns k] ++ [.trees [] 0]) (out ns)) : Builds I c (do
      expectSymbol left
      let found ← p
      expectSymbol right
      return found) out :=
  hleft.bind fun _ => .next h fun ns => .next (.expectSymbol _) fun _ => .pure (hout ns)

structure ExpressionPieces (I : Interpretation) (rules : ExpressionRules) (k : Nat) : Prop where
  expression : Builds I [] rules.expression fun n => [.tree n k]
  unary : Builds I [] rules.unary fun n => [.tree n k]
  element : Builds I [] rules.element fun n => [.element n k]

section

variable {rules : ExpressionRules} (h : ExpressionPieces I rules (k + 1))

include h

theorem builds_argument (declares : Bool) :
    Builds I [] (argument rules declares) fun n => [.tree n (k + 2)] := by
  refine .look fun t => .peek fun u => ?_
  split
  · rename_i hk
    refine .take (fun _ => by rw [hk.1]; simp) <| .making .passed ?_ (k := 0) (by simp) fun name =>
      .skip fun _ => .next h.expression fun e => .make .tree (by simp) (by simp)
    split <;> rfl
  · exact .next h.expression fun e => .make .tree (by simp) (by simp)

theorem builds_arguments (declares : Bool) :
    Builds I [] (arguments rules declares) fun ns => [.trees ns (k + 2)] :=
  builds_between (.expectSymbol _) (builds_separated fun _ _ =>
    (builds_argument h declares).unless_looked)
    fun ns => .gather (by simp) (by simp)

/-- Arguments from the parenthesis on. -/
theorem opens_arguments (declares : Bool) (hk : t.kind = .symbol .leftParen) :
    Builds I [.ahead t] (arguments rules declares) fun ns => [.opened t ns (k + 2)] :=
  builds_between (.leading hk) (builds_separated fun _ _ =>
    (builds_argument h declares).unless_looked)
    fun ns => .opened .passed (by simp) (by simp)

omit h in
theorem ne_eof_of_isIdentifier (hk : I.placed → isIdentifier t.kind) :
    I.placed → t.kind ≠ .eof := by
  intro hp he
  have hidentifier := hk hp
  rw [he] at hidentifier
  cases hidentifier

theorem builds_parameter (hk : I.placed → isIdentifier t.kind) :
    Builds I [.ahead t] (parameter rules) fun n => [.tree n (k + 2)] :=
  .take (ne_eof_of_isIdentifier hk) <| .test
    (.skip fun _ => .next h.expression fun _ => .make .passed (by simp) (by simp))
    (.make .passed (by simp) (by simp))

theorem builds_parameters : Builds I [] (parameters rules) fun ns => [.trees ns (k + 2)] :=
  builds_between (.expectSymbol _) (builds_separated fun _ hk => builds_parameter h fun _ => hk)
    fun ns => .gather (by simp) (by simp)

/-- `name = expr`, up to where the caller makes the node. -/
theorem opens_assignmentParts (hk : I.placed → isIdentifier t.kind) :
    Builds I [.ahead t] (assignmentParts rules) fun parts =>
      [.opened parts.1 [parts.2.1, parts.2.2] (k + 1)] :=
  .take (ne_eof_of_isIdentifier hk) <| .making (k := 0) .passed rfl (by simp) fun target =>
    .next (.expectSymbol _) fun _ => .next h.expression fun e =>
      .pure (.opened .tree (by simp) (by simp))

theorem builds_assignment (hk : I.placed → isIdentifier t.kind) :
    Builds I [.ahead t] (assignment rules) fun n => [.tree n (k + 2)] :=
  (opens_assignmentParts h hk).bind fun _ => .make .opened (by simp) (by simp)

theorem builds_assignments : Builds I [] (assignments rules) fun ns => [.trees ns (k + 2)] :=
  builds_separated fun _ hk => builds_assignment h fun _ => hk

theorem builds_letAssignments : Builds I [] (letAssignments rules) fun ns => [.trees ns (k + 2)] :=
  builds_between (.expectSymbol _) (builds_assignments h) fun ns => .gather (by simp) (by simp)

theorem builds_loopUpdate (hk : I.placed → isIdentifier t.kind) :
    Builds I [.ahead t] (loopUpdate rules) fun n => [.tree n (k + 2)] :=
  .take (ne_eof_of_isIdentifier hk) <| .making (k := 0) .passed rfl (by simp) fun target =>
    .next (.expectSymbol _) fun _ => .next h.expression fun e => .make .tree (by simp) (by simp)

theorem builds_loopControl :
    Builds I [] (loopControl rules) fun control =>
      [.trees (control.1.toList ++ control.2) (k + 2)] :=
  .test (.skip fun _ => .next h.expression fun _ => .next (.expectSymbol _) fun _ =>
    .next (builds_separated fun _ hk => builds_loopUpdate h fun _ => hk) fun _ =>
      .pure (.gather (by simp) (by simp))) (.pure (.gather (by simp) (by simp)))

theorem builds_forElement (hk : I.placed → t.kind ≠ .eof) :
    Builds I [.ahead t] (forElement rules) fun n => [.tree n (k + 3)] :=
  .take hk <| .next (.expectSymbol _) fun _ => .next (builds_assignments h) fun _ =>
    .next (builds_loopControl h) fun _ => .next (.expectSymbol _) fun _ => .next h.element fun _ =>
      .make .passed (by simp) (by simp)

omit h in
theorem builds_elseBranch {branch : Parser Node} (hb : Builds I [] branch fun n => [.trees [n] k]) :
    Builds I [] (elseBranch branch) fun o => [.trees o.toList k] :=
  .test (.skip fun _ => hb.next fun _ => .pure (.gather (by simp) (by simp)))
    (.pure (.gather (by simp) (by simp)))

theorem builds_element : Builds I [] (element rules) fun n => [.element n (k + 3)] := by
  refine .look fun t => ?_
  split
  · rename_i hk
    exact (builds_forElement h fun _ => by rw [hk]; simp).mono fun n => .element (Nat.le_refl _)
  · rename_i hk
    refine .take (fun _ => by rw [hk]; simp) <| .next h.element fun _ => ?_
    exact (Builds.make (k := k + 2) .passed (by simp) (by simp)).mono fun n =>
      .element (Nat.le_refl _)
  · rename_i hk
    refine .take (fun _ => by rw [hk]; simp) <| .next (.expectSymbol _) fun _ =>
      .next h.expression fun _ =>
      .next (.expectSymbol _) fun _ => .next h.element fun _ =>
        .next (builds_elseBranch (k := k + 1) (h.element.mono fun _ => .gather (by simp) (by simp)))
          fun _ => ?_
    exact (Builds.make (k := k + 2) .passed (by simp) (by simp)).mono fun n =>
      .element (Nat.le_refl _)
  · rename_i hk
    refine .take (fun _ => by rw [hk]; simp) <| .next (builds_letAssignments h) fun _ =>
      .next h.element fun _ => ?_
    exact (Builds.make .passed (by simp) (by simp)).mono fun n => .element (Nat.le_refl _)
  · rename_i hk
    refine .peek fun u => ?_
    split
    · exact .take (fun _ => by rw [hk]; simp) <| .next h.element fun inner =>
        .next (.expectSymbol _) fun _ =>
        .pure fun src s s' hs hp => Entails.raise_element (by omega) src s s' hs
          (Entails.enclosed src s s' hs hp)
    · exact h.expression.unless_looked.mono fun n => .element (by omega)
  · exact h.expression.unless_looked.mono fun n => .element (by omega)

/-! ### Vectors -/

theorem builds_rangeRest {first : Node} :
    Builds I [.opened t [first] (k + 3)] (rangeRest rules t first) fun n => [.tree n (k + 4)] := by
  have hrest : Builds I [.opened t [first] (k + 3), .trees [] 0] (do
      let _ ← advance
      let second ← rules.expression
      if ← atKind (.symbol .colon) then
        let _ ← advance
        let stop ← rules.expression
        expectSymbol .rightBracket
        make t (.range first stop (some second))
      else
        expectSymbol .rightBracket
        make t (.range first second none)) fun n => [.tree n (k + 4)] :=
    .skip fun _ => .next h.expression fun _ => .test
      (.skip fun _ => .next h.expression fun _ => .next (.expectSymbol _) fun _ =>
        .make .opened (by simp) (by simp))
      (.next (.expectSymbol _) fun _ => .make .opened (by simp) (by simp))
  unfold rangeRest
  split
  · exact .complain (by decide) fun _ => hrest
  · exact hrest.entailed (Entails.right [.opened t [first] (k + 3)] (.gather rfl below_nil))

theorem builds_nextElement :
    Builds I [] (nextElement? rules) fun o => o.elim [.trees [] 0] fun n =>
      [.passed, .element n (k + 3)] := by
  refine builds_skipCommas.bind fun b => ?_
  cases b with
  | false => exact .pure (.gather (by simp) (by simp))
  | true =>
      exact .test (.pure (.gather (by simp) (by simp)))
        (.next (builds_element h) fun _ => .idle rfl)

theorem builds_vectorOrRange (hk : I.placed → t.kind ≠ .eof) :
    Builds I [.ahead t] (vectorOrRange rules) fun n => [.tree n (k + 4)] := by
  refine .take hk <| .test (.skip fun _ => .make .passed (by simp) (by simp)) <|
    .next (builds_element h) fun first =>
    .test ((builds_rangeRest h).entailed (.opened .passed (by simp) (by simp))) <|
    .next (.many (.gather (by simp) (by simp)) (builds_nextElement h)) fun more =>
    .next (.expectSymbol _) fun _ => ?_
  have hbehind : Entails I ([.trees [] 0] ++ [.trees [] 0]) [.trees [] 0] :=
    .gather (by simp) (by simp)
  have helements := hbehind.right (.ahead t :: elementPieces (k + 3) (first :: more))
  exact .checked (by simpa [elementPieces] using helements) (by simp)

/-! ### Operands -/

theorem builds_primary : Builds I [] (primary rules) fun n => [.tree n (k + 4)] := by
  have htaken {t : Token} {form : Form Node} (hk : t.kind ≠ .eof) (hw : form.written = []) :
      Builds I [.ahead t] (advance >>= fun _ => make t form) fun n => [.tree n (k + 4)] :=
    .take (fun _ => hk) (.make .passed hw.symm (by simp))
  refine .look fun t => ?_
  split
  · rename_i hk
    exact .take (fun _ => by rw [hk]; simp) <| .next h.expression fun _ =>
      .next (.expectSymbol _) fun _ =>
      .make .passed (by simp) (by simp)
  · rename_i hk
    exact builds_vectorOrRange h fun _ => by rw [hk]; simp
  · rename_i hk
    exact htaken (by rw [hk]; simp) rfl
  · rename_i hk
    exact htaken (by rw [hk]; simp) rfl
  · rename_i hk
    exact htaken (by rw [hk]; simp) rfl
  · rename_i hk
    exact .take (fun _ => by rw [hk]; simp) <| .number hk fun _ => .make .passed (by simp) (by simp)
  · rename_i hk
    exact htaken (by rw [hk]; simp) rfl
  · rename_i hk
    exact htaken (by rw [hk]; simp) rfl
  · exact .fail (Builds.ne_mixture (by decide))

theorem builds_suffix :
    Builds I [] (suffix? rules) fun o => o.elim [] fun n => [.tree n (k + 3)] := by
  refine .look fun t => ?_
  split
  · rename_i hk
    exact (opens_arguments h false hk).bind fun _ => (Builds.make .opened (by simp) (by simp)).bind
      fun _ => .idle rfl
  · rename_i hk
    exact .take (fun _ => by rw [hk]; simp) <| .next h.expression fun _ =>
      .next (.expectSymbol _) fun _ =>
      (Builds.make (k := k + 2) .passed (by simp) (by simp)).bind fun _ => .idle rfl
  · rename_i hk
    exact .take (fun _ => by rw [hk]; simp) <| .next .identifier fun _ =>
      (Builds.make (k := k + 2) .passed (by simp) (by simp)).bind fun _ => .idle rfl
  · exact .pure .looked

theorem builds_suffixed : Builds I [] (suffixed rules) fun n => [.tree n (k + 5)] := by
  refine .look fun start => .next (builds_primary h) fun target =>
    .next (.many (.refl []) (builds_suffix h)) fun suffixes => ?_
  cases suffixes with
  | nil => exact .pure (.tree (by omega))
  | cons first more => exact .make .tree (by simp) (by simp)

theorem builds_power : Builds I [] (power rules) fun n => [.tree n (k + 6)] :=
  .look fun _ => .next (builds_suffixed h) fun _ => .test
    (.skip fun _ => .next h.unary fun _ => .make .tree (by simp) (by simp))
    (.pure (.tree (by omega)))

theorem builds_unary : Builds I [] (unary rules) fun n => [.tree n (k + 6)] := by
  refine .look fun t => ?_
  split
  · rename_i hk
    refine .take (fun _ he => ?_) <| .next h.unary fun _ => .make .passed (by simp) (by simp)
    rw [he, isSign_eof] at hk
    cases hk
  · exact .unless_looked (builds_power h)

end

/-! ### Operators -/

section

variable {level : ChainLevel} {operand : Parser Node}

theorem builds_operation (h : Builds I [] operand fun n => [.tree n k]) :
    Builds I [] (operation? level operand) fun o => o.elim [] fun x => [.passed, .tree x.2 k] := by
  refine .look fun t => ?_
  split
  · rename_i hk
    refine .take (fun _ he => ?_) (.next h fun _ => .pure .looked)
    rw [he, isOperator_eof] at hk
    cases hk
  · exact .pure .looked

theorem builds_chain (h : Builds I [] operand fun n => [.tree n k]) :
    Builds I [] (chain level operand) fun n => [.tree n (k + 1)] := by
  refine .look fun start => .next h fun first =>
    .next (.many (.refl []) (builds_operation h)) fun more => ?_
  cases more with
  | nil => exact .pure (.tree (by omega))
  | cons x xs => exact .make .tree (by simp [List.map_eq_flatMap]) (by simp)

end

section

variable {rules : ExpressionRules} (h : ExpressionPieces I rules (k + 1))

include h

theorem builds_chains : Builds I [] (chains rules) fun n => [.tree n (k + 12)] :=
  builds_chain <| builds_chain <| builds_chain <| builds_chain <| builds_chain <| builds_chain
    <| builds_unary h

theorem builds_ternary : Builds I [] (ternary rules) fun n => [.tree n (k + 13)] :=
  .look fun _ => .next (builds_chains h) fun _ => .test
    (.skip fun _ => .next h.expression fun _ => .next (.expectSymbol _) fun _ =>
      .next h.expression fun _ =>
      .make .tree (by simp) (by simp))
    (.pure (.tree (by omega)))

theorem builds_remark {verb : Verb} (hk : I.placed → t.kind ≠ .eof) :
    Builds I [.ahead t] (remark rules verb t) fun n => [.tree n (k + 3)] := by
  refine .take hk <| .next (builds_arguments h false) fun _ => .look fun u => ?_
  split
  · exact .next h.expression fun _ => .make .passed (by simp) (by simp)
  · exact .make .passed (by simp) (by simp)

theorem builds_expression : Builds I [] (expression rules) fun n => [.tree n (k + 13)] := by
  refine .look fun t => ?_
  split
  · rename_i hk
    exact .take (fun _ => by rw [hk]; simp) <| .next (builds_letAssignments h) fun _ =>
      .next h.expression fun _ =>
      .make .passed (by simp) (by simp)
  · rename_i hk
    exact (builds_remark h fun _ => by rw [hk]; simp).mono fun _ => .raise (by omega)
  · rename_i hk
    exact (builds_remark h fun _ => by rw [hk]; simp).mono fun _ => .raise (by omega)
  · rename_i hk
    exact .take (fun _ => by rw [hk]; simp) <| .next (builds_parameters h) fun _ =>
      .next h.expression fun _ =>
      .make .passed (by simp) (by simp)
  · exact .unless_looked (builds_ternary h)

end

/-- With some levels left, expressions are at most twelve times as high. -/
theorem builds_expressionRules (budget : Nat) :
    ExpressionPieces I (expressionRules budget) (12 * budget + 1) := by
  induction budget with
  | zero => exact ⟨.fail (by decide), .fail (by decide), .fail (by decide)⟩
  | succ budget ih =>
      refine ⟨.nested ?_ (.inl rfl), .nested ?_ (.inl rfl), .nested ?_ (.inl rfl)⟩
      · exact builds_expression ih
      · exact (builds_unary ih).mono fun _ => .raise (by omega)
      · exact (builds_element ih).mono fun _ => .raise_element (by omega)

end Scad.Parse
