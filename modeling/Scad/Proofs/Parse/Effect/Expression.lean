import Scad.Proofs.Parse.Effect

/-! What the productions for expressions do. None of them consumes a brace. -/
namespace Scad.Parse

open Grammar (nextKind)

attribute [local simp] Form.children Form.fields Field.children Form.kind

variable {σ : Setting} {pre : List Token → Prop} {H : Prop}

theorem guarantees_skipCommas : Guarantees σ pre H skipCommas fun _ => True := by
  refine (Guarantees.many (P := fun _ => True) ?_).bind fun _ => .pure fun _ => trivial
  refine .test (.take (fun ts h => ?_) fun t => .pure fun _ _ _ => trivial)
    (.pure fun _ _ _ => trivial)
  rw [h.2]
  simp [Plain]

section

variable {starts : TokenKind → Bool} {item : Parser Node} {P : Node → Prop}
  (hi : ∀ {H}, Guarantees σ (fun ts => starts (nextKind ts)) H item P)

include hi

theorem guarantees_item : Guarantees σ pre H (item? starts item) fun o => ∀ n ∈ o, P n := by
  refine .look fun t => ?_
  split
  · rename_i ht
    refine (hi.starting fun ts h => ?_).giving
    rw [Guarantees.nextKind_eq σ h.2]
    exact ht
  · exact .none

theorem guarantees_nextItem : Guarantees σ pre H (nextItem? starts item) fun o => ∀ n ∈ o, P n := by
  refine guarantees_skipCommas.bind fun b => ?_
  cases b with
  | true => exact guarantees_item hi
  | false => exact .none

theorem guarantees_separated :
    Guarantees σ pre H (separated starts item) fun ns => ∀ n ∈ ns, P n := by
  refine (guarantees_item hi).bind fun o => ?_
  cases o with
  | none => exact .pure fun _ n hn => absurd hn List.not_mem_nil
  | some first =>
      refine (Guarantees.many (P := P) (guarantees_nextItem hi)).bind fun more =>
        .pure fun h n hn => ?_
      rcases List.mem_cons.1 hn with rfl | hn
      · exact h.1.2 n rfl
      · exact h.2 n hn

end

structure ExpressionsShaped (σ : Setting) (rules : ExpressionRules) : Prop where
  expression : ∀ {pre H}, Guarantees σ pre H rules.expression (σ.Keeps (·.isExpression))
  unary : ∀ {pre H}, Guarantees σ pre H rules.unary (σ.Keeps (7 ≤ ·.tightness))
  element : ∀ {pre H}, Guarantees σ pre H rules.element (σ.Keeps (·.isElement))

variable {rules : ExpressionRules} (h : ExpressionsShaped σ rules)

include h

theorem guarantees_argument (declares : Bool) :
    Guarantees σ pre H (argument rules declares) (σ.Has (·.IsArgument (labelKind declares))) := by
  have hargument : ∀ {n : Node} {name : Option Node} {e : Node}, n.form = .argument name e →
      (∀ l ∈ name, l.kind = labelKind declares) → n.IsArgument (labelKind declares) := by
    intro n name e hn hname
    unfold Node.IsArgument
    rw [hn]
    exact hname
  refine .look fun t => .peek fun u => ?_
  split
  · rename_i hk
    have hlabel : ∀ {name : Node}, name.form = (if declares then .variableDefinition t.text
        else .argumentName t.text) → ∀ l ∈ some name, l.kind = labelKind declares := by
      rintro name hname l ⟨⟩
      rw [Node.kind, hname]
      cases declares <;> rfl
    refine .take (fun ts hp => plain_ahead hp.1.2 hk.1 (by decide)) fun _ => .making (fun _ => ?_)
      fun name => .take (fun ts hp => plain_ahead hp.1.2 hk.2 (by decide)) fun _ =>
        h.expression.bind fun e => (Guarantees.make (fun hH => ?_) fun hH => ?_).mono fun n hH hn =>
          ⟨hn.1, hargument hn.2 (hlabel hH.1.2.2)⟩
    · cases declares <;> simp [Form.Shaped]
    · obtain ⟨⟨-, -, hname⟩, -, he⟩ := hH
      refine ⟨fun l hl => ?_, he⟩
      rw [hlabel hname l hl]
      cases declares <;> simp [labelKind]
    · obtain ⟨⟨-, hname, -⟩, he, -⟩ := hH
      simp [hname, he]
  · refine h.expression.bind fun e => (Guarantees.make (fun hH => ?_) fun hH =>
      ?_).mono fun n hH hn =>
      ⟨hn.1, hargument hn.2 (by simp)⟩
    · exact ⟨by simp, hH.2.2⟩
    · simp [hH.2.1]

theorem guarantees_arguments (declares : Bool) :
    Guarantees σ pre H (arguments rules declares) fun as =>
    ∀ a ∈ as, σ.Has (·.IsArgument (labelKind declares)) a :=
  (Guarantees.expectSymbol (by decide)).bind fun _ =>
    (guarantees_separated (guarantees_argument h declares)).bind
    fun as => (Guarantees.expectSymbol (by decide)).bind fun _ => .pure fun hH => hH.1.2

theorem guarantees_parameter (hpre : ∀ ts, pre ts → isIdentifier (nextKind ts)) :
    Guarantees σ pre H (parameter rules) (σ.Keeps (· = .parameter)) := by
  refine .take (fun ts hp => ?_) fun t => .test (.take (fun ts hp => ?_) fun _ =>
    h.expression.bind fun d => .kept rfl fun hH => ?_) (.kept rfl fun hH => ?_)
  · rw [of_decide_eq_true (hpre ts hp)]
    decide
  · rw [hp.2]
    decide
  · simp [Form.Shaped, hH.2.1, hH.2.2]
  · simp [Form.Shaped]

theorem guarantees_parameters : Guarantees σ pre H (parameters rules) fun ps =>
    ∀ p ∈ ps, σ.Keeps (· = .parameter) p :=
  (Guarantees.expectSymbol (by decide)).bind fun _ =>
    (guarantees_separated (guarantees_parameter h fun _ hp => hp)).bind
    fun as => (Guarantees.expectSymbol (by decide)).bind fun _ => .pure fun hH => hH.1.2

/-- The parts of an assignment are kept. -/
theorem guarantees_assignmentParts (hpre : ∀ ts, pre ts → isIdentifier (nextKind ts)) :
    Guarantees σ pre H (assignmentParts rules) fun parts =>
      σ.Keeps (· = .variableDefinition) parts.2.1 ∧ σ.Keeps (·.isExpression) parts.2.2 := by
  refine .take (fun ts hp => ?_) fun t =>
    (Guarantees.kept (K := (· = .variableDefinition)) rfl fun _ => ?_).bind
    fun target => (Guarantees.expectSymbol (by decide)).bind fun _ => h.expression.bind fun e =>
      .pure fun hH => ⟨hH.1.1.2, hH.2⟩
  · rw [of_decide_eq_true (hpre ts hp)]
    decide
  · simp [Form.Shaped]

theorem guarantees_assignment (hpre : ∀ ts, pre ts → isIdentifier (nextKind ts)) :
    Guarantees σ pre H (assignment rules) (σ.Keeps (· = .assignment)) := by
  refine (guarantees_assignmentParts h hpre).bind fun (t, target, e) => .kept rfl fun hH => ?_
  obtain ⟨-, ht, he⟩ := hH
  exact ⟨⟨ht.2, he.2⟩, by simp [ht.1, he.1]⟩

theorem guarantees_assignments : Guarantees σ pre H (assignments rules) fun as =>
    ∀ a ∈ as, σ.Keeps (· = .assignment) a :=
  guarantees_separated (guarantees_assignment h fun _ hp => hp)

theorem guarantees_letAssignments : Guarantees σ pre H (letAssignments rules) fun as =>
    ∀ a ∈ as, σ.Keeps (· = .assignment) a :=
  (Guarantees.expectSymbol (by decide)).bind fun _ => (guarantees_assignments h).bind fun as =>
    (Guarantees.expectSymbol (by decide)).bind fun _ => .pure fun hH => hH.1.2

theorem guarantees_loopUpdate (hpre : ∀ ts, pre ts → isIdentifier (nextKind ts)) :
    Guarantees σ pre H (loopUpdate rules) (σ.Keeps (· = .loopUpdate)) := by
  refine .take (fun ts hp => ?_) fun t =>
    (Guarantees.kept (K := (· = .variableRef)) rfl fun _ => ?_).bind
    fun target => (Guarantees.expectSymbol (by decide)).bind fun _ => h.expression.bind fun e =>
      .kept rfl fun hH => ?_
  · rw [of_decide_eq_true (hpre ts hp)]
    decide
  · simp [Form.Shaped]
  · obtain ⟨⟨⟨-, ht⟩, -⟩, he⟩ := hH
    exact ⟨⟨ht.2, he.2⟩, by simp [ht.1, he.1]⟩

theorem guarantees_loopControl : Guarantees σ pre H (loopControl rules) fun control =>
    (∀ e ∈ control.1, σ.Keeps (·.isExpression) e) ∧ (∀ u ∈ control.2, σ.Keeps (· = .loopUpdate) u) ∧
      (control.2 ≠ [] → control.1.isSome) := by
  refine .test (.take (fun ts hp => ?_) fun _ => h.expression.bind fun c =>
    (Guarantees.expectSymbol (by decide)).bind fun _ =>
      (guarantees_separated (guarantees_loopUpdate h fun _ hp => hp)).bind fun us => .pure fun hH =>
        ?_) (.pure fun _ => by simp)
  · rw [hp.2]
    decide
  · obtain ⟨⟨⟨-, hc⟩, -⟩, hus⟩ := hH
    exact ⟨by simpa using hc, hus, fun _ => rfl⟩

theorem guarantees_forElement (hpre : ∀ ts, pre ts → nextKind ts = .keyword .forLoop) :
    Guarantees σ pre H (forElement rules) (σ.Keeps (·.isElement)) := by
  refine .take (fun ts hp => ?_) fun t => (Guarantees.expectSymbol (by decide)).bind fun _ =>
    (guarantees_assignments h).bind fun as => (guarantees_loopControl h).bind fun (c, us) =>
      (Guarantees.expectSymbol (by decide)).bind fun _ => h.element.bind fun b =>
        .kept rfl fun hH => ?_
  · rw [hpre ts hp]
    decide
  · obtain ⟨⟨⟨⟨-, has⟩, hc, hus, hsome⟩, -⟩, hb⟩ := hH
    refine ⟨⟨fun a ha => (has a ha).2, fun e he => (hc e he).2, fun u hu => (hus u hu).2,
      hsome, hb.2⟩, ?_⟩
    intro n hn
    simp only [Form.children, Form.fields, Field.children, List.flatMap_cons, List.flatMap_nil,
      List.mem_append, Option.mem_toList, List.mem_singleton, List.append_nil] at hn
    rcases hn with hn | hn | hn | rfl
    · exact (has n hn).1
    · exact (hc n hn).1
    · exact (hus n hn).1
    · exact hb.1

omit h in
theorem guarantees_elseBranch {K : Kind → Prop} {branch : Parser Node}
    (hb : ∀ {pre H}, Guarantees σ pre H branch (σ.Keeps K)) :
    Guarantees σ pre H (elseBranch branch) fun o => ∀ n ∈ o, σ.Keeps K n := by
  refine .test (.take (fun ts hp => ?_) fun _ => hb.giving) .none
  rw [hp.2]
  decide

theorem guarantees_element : Guarantees σ pre H (element rules) (σ.Keeps (·.isElement)) := by
  refine .look fun t => ?_
  split
  · rename_i hk
    exact guarantees_forElement h fun ts hp => (Guarantees.nextKind_eq σ hp.2).trans hk
  · rename_i hk
    refine .take (fun ts hp => plain_ahead hp.2 hk (by decide)) fun _ => h.element.bind fun b =>
      .kept rfl fun hH => ⟨hH.2.2, ?_⟩
    simp [hH.2.1]
  · rename_i hk
    refine .take (fun ts hp => plain_ahead hp.2 hk (by decide)) fun _ =>
      (Guarantees.expectSymbol (by decide)).bind fun _ => h.expression.bind fun c =>
        (Guarantees.expectSymbol (by decide)).bind fun _ => h.element.bind fun x =>
          (guarantees_elseBranch h.element).bind fun e => .kept rfl fun hH => ?_
    obtain ⟨⟨⟨⟨-, hc⟩, -⟩, hx⟩, he⟩ := hH
    refine ⟨⟨hc.2, hx.2, fun n hn => (he n hn).2⟩, ?_⟩
    simpa [hc.1, hx.1] using fun n hn => (he n hn).1
  · rename_i hk
    refine .take (fun ts hp => plain_ahead hp.2 hk (by decide)) fun _ =>
      (guarantees_letAssignments h).bind fun as => h.element.bind fun b => .kept rfl fun hH => ?_
    obtain ⟨⟨-, has⟩, hb⟩ := hH
    refine ⟨⟨fun a ha => (has a ha).2, hb.2⟩, ?_⟩
    simpa [hb.1, or_imp, forall_and] using fun a ha => (has a ha).1
  · rename_i hk
    refine .peek fun u => ?_
    split
    · exact .take (fun ts hp => plain_ahead hp.1.2 hk (by decide)) fun _ => h.element.bind fun x =>
        (Guarantees.expectSymbol (by decide)).bind fun _ => .pure fun hH => hH.1.2
    · exact h.expression.mono fun n _ hn => ⟨hn.1, Kind.isElement_of_isExpression hn.2⟩
  · exact h.expression.mono fun n _ hn => ⟨hn.1, Kind.isElement_of_isExpression hn.2⟩

omit h in
theorem guarantees_checkUniform (elements : List Node) :
    Guarantees σ pre H (checkUniform elements) fun _ => True := by
  unfold checkUniform
  split
  · exact .pure fun _ => trivial
  · split
    · exact .pure fun _ => trivial
    · exact .report _ _

theorem guarantees_rangeRest {start : Token} {first : Node} (hf : H → σ.Keeps (·.isElement) first)
    (hpre : ∀ ts, pre ts → nextKind ts = .symbol .colon) :
    Guarantees σ pre H (rangeRest rules start first) (σ.Keeps (9 ≤ ·.tightness)) := by
  have hrest : ∀ {H}, (H → σ.Keeps (·.isElement) first) → Guarantees σ pre H (do
      let _ ← advance
      let second ← rules.expression
      if ← atKind (.symbol .colon) then
        let _ ← advance
        let stop ← rules.expression
        expectSymbol .rightBracket
        make start (.range first stop (some second))
      else
        expectSymbol .rightBracket
        make start (.range first second none)) (σ.Keeps (9 ≤ ·.tightness)) := by
    intro H hf
    refine .take (fun ts hp => ?_) fun _ => h.expression.bind fun second => .test
      (.take (fun ts hp => ?_) fun _ => h.expression.bind fun stop =>
        (Guarantees.expectSymbol (by decide)).bind fun _ => .kept (Nat.le_refl 9) fun hH => ?_)
      ((Guarantees.expectSymbol (by decide)).bind fun _ => .kept (Nat.le_refl 9) fun hH => ?_)
    · rw [hpre ts hp]
      decide
    · rw [hp.2]
      decide
    · obtain ⟨⟨⟨hH, hsecond⟩, hstop⟩, -⟩ := hH
      have hfirst := hf hH
      exact ⟨⟨hfirst.2, hstop.2, by simpa using hsecond.2⟩, by simp [hfirst.1, hstop.1, hsecond.1]⟩
    · obtain ⟨⟨hH, hsecond⟩, -⟩ := hH
      have hfirst := hf hH
      exact ⟨⟨hfirst.2, hsecond.2, by simp⟩, by simp [hfirst.1, hsecond.1]⟩
  unfold rangeRest
  split
  · refine .look fun t => .reporting fun _ => (hrest fun hH => hf hH.1).starting fun ts hp => hp.1
  · exact hrest hf

theorem guarantees_nextElement :
    Guarantees σ pre H (nextElement? rules) fun o => ∀ n ∈ o, σ.Keeps (·.isElement) n := by
  refine guarantees_skipCommas.bind fun b => ?_
  cases b with
  | true => exact .test .none (guarantees_element h).giving
  | false => exact .none

theorem guarantees_vectorOrRange (hpre : ∀ ts, pre ts → nextKind ts = .symbol .leftBracket) :
    Guarantees σ pre H (vectorOrRange rules) (σ.Keeps (9 ≤ ·.tightness)) := by
  refine .take (fun ts hp => ?_) fun t => .test (.take (fun ts hp => ?_) fun _ =>
    .kept ?_ fun _ => ?_)
    ((guarantees_element h).bind fun first =>
      .test (guarantees_rangeRest h (fun hH => hH.2) fun ts hp => hp.2) ?_)
  · rw [hpre ts hp]
    decide
  · rw [hp.2]
    decide
  · exact Nat.le_refl 9
  · simp [Form.Shaped]
  · refine (Guarantees.many (P := σ.Keeps (·.isElement)) (guarantees_nextElement h)).bind
      fun more =>
      (Guarantees.expectSymbol (by decide)).bind fun _ =>
        (Guarantees.kept (Nat.le_refl 9) fun hH => ?_).bind
        fun vector => (guarantees_checkUniform _).bind fun _ => .pure fun hH => hH.1.2
    obtain ⟨⟨⟨-, hf⟩, hmore⟩, -⟩ := hH
    have hall : ∀ x ∈ first :: more, σ.Keeps (·.isElement) x := by
      intro x hx
      rcases List.mem_cons.1 hx with rfl | hx
      · exact hf
      · exact hmore x hx
    exact ⟨fun x hx => (hall x hx).2, by simpa using fun x hx => (hall x hx).1⟩

omit h in
/-- A token that is known to be a number is read as one. -/
theorem guarantees_numberValue {t : Token} (ht : t.kind = .number)
    (hpre : ∀ ts, pre ts → σ.token t) : Guarantees σ pre H (numberValue t.text) fun _ => True := by
  intro s _ hp
  unfold numberValue
  split
  · exact .refl fun _ => trivial
  · rename_i fault hf
    rcases σ.numeral (hpre _ hp) ht with ⟨x, hx⟩ | hb
    · rw [hx] at hf
      cases hf
    · exact hb

theorem guarantees_primary : Guarantees σ pre H (primary rules) (σ.Keeps (9 ≤ ·.tightness)) := by
  have hleaf : ∀ {pre H} {t : Token} {form : Form Node}, form.children = [] →
      form.Shaped σ.spelling → 9 ≤ form.kind.tightness →
      Guarantees σ pre H (make t form) (σ.Keeps (9 ≤ ·.tightness)) := by
    intro pre H t form hc hs hk
    exact .kept hk fun _ => ⟨hs, by rw [hc]; simp⟩
  refine .look fun t => ?_
  split
  · rename_i hk
    refine .take (fun ts hp => plain_ahead hp.2 hk (by decide)) fun _ => h.expression.bind fun e =>
      (Guarantees.expectSymbol (by decide)).bind fun _ => .kept (Nat.le_refl 9) fun hH => ?_
    exact ⟨hH.1.2.2, by simp [hH.1.2.1]⟩
  · rename_i hk
    exact guarantees_vectorOrRange h fun ts hp => (Guarantees.nextKind_eq σ hp.2).trans hk
  · rename_i hk
    exact .take (fun ts hp => plain_ahead hp.2 hk (by decide)) fun _ =>
      hleaf rfl trivial (Nat.le_refl 9)
  · rename_i hk
    exact .take (fun ts hp => plain_ahead hp.2 hk (by decide)) fun _ =>
      hleaf rfl trivial (Nat.le_refl 9)
  · rename_i hk
    exact .take (fun ts hp => plain_ahead hp.2 hk (by decide)) fun _ =>
      hleaf rfl trivial (Nat.le_refl 9)
  · rename_i hk
    refine .take (fun ts hp => plain_ahead hp.2 hk (by decide)) fun u =>
      (guarantees_numberValue hk ?_).bind
      fun value => hleaf rfl trivial (Nat.le_refl 9)
    rintro ts ⟨⟨-, rfl⟩, hu⟩
    exact hu
  · rename_i hk
    exact .take (fun ts hp => plain_ahead hp.2 hk (by decide)) fun _ =>
      hleaf rfl trivial (Nat.le_refl 9)
  · rename_i hk
    exact .take (fun ts hp => plain_ahead hp.2 hk (by decide)) fun _ =>
      hleaf rfl trivial (Nat.le_refl 9)
  · exact .fail _

theorem guarantees_suffix : Guarantees σ pre H (suffix? rules) fun o => ∀ s ∈ o,
    σ.Keeps (·.isSuffix) s := by
  refine .look fun t => ?_
  split
  · refine (guarantees_arguments h false).bind fun as => Guarantees.giving (.kept rfl fun hH => ?_)
    exact ⟨fun a ha => (hH.2 a ha).2, by simpa using fun a ha => (hH.2 a ha).1⟩
  · rename_i hk
    refine .take (fun ts hp => plain_ahead hp.2 hk (by decide)) fun _ => h.expression.bind fun i =>
      (Guarantees.expectSymbol (by decide)).bind fun _ => Guarantees.giving (.kept rfl fun hH => ?_)
    exact ⟨hH.1.2.2, by simp [hH.1.2.1]⟩
  · rename_i hk
    refine .take (fun ts hp => plain_ahead hp.2 hk (by decide)) fun _ =>
      Guarantees.identifier.bind fun m =>
      Guarantees.giving (.kept rfl fun hH => ?_)
    simp [Form.Shaped]
  · exact .none

theorem guarantees_suffixed : Guarantees σ pre H (suffixed rules) (σ.Keeps (8 ≤ ·.tightness)) := by
  refine .look fun t => (guarantees_primary h).bind fun target =>
    (Guarantees.many (P := σ.Keeps (·.isSuffix)) (guarantees_suffix h)).bind fun ss => ?_
  split
  · exact .pure fun hH => ⟨hH.1.2.1, Nat.le_of_lt hH.1.2.2⟩
  · rename_i ss hss
    refine .kept (Nat.le_refl 8) fun hH => ?_
    obtain ⟨⟨-, ht⟩, hall⟩ := hH
    refine ⟨⟨ht.2, hss, fun s hs => (hall s hs).2⟩, ?_⟩
    simpa [ht.1] using fun s hs => (hall s hs).1

theorem guarantees_power : Guarantees σ pre H (power rules) (σ.Keeps (7 ≤ ·.tightness)) := by
  refine .look fun t => (guarantees_suffixed h).bind fun b =>
    .test (.take (fun ts hp => ?_) fun _ =>
    h.unary.bind fun e => .kept (Nat.le_refl 7) fun hH => ?_)
    (.pure fun hH => ⟨hH.2.1, Nat.le_of_lt hH.2.2⟩)
  · rw [hp.2]
    decide
  · obtain ⟨⟨-, hb⟩, he⟩ := hH
    exact ⟨⟨hb.2, he.2⟩, by simp [hb.1, he.1]⟩

theorem guarantees_unary : Guarantees σ pre H (unary rules) (σ.Keeps (7 ≤ ·.tightness)) := by
  refine .look fun t => ?_
  split
  · rename_i hk
    refine .take (fun ts hp => ?_) fun _ => h.unary.bind fun e => .kept (Nat.le_refl 7) fun hH => ?_
    · rw [Guarantees.nextKind_eq σ hp.2]
      simp only [isSign, Bool.or_eq_true, decide_eq_true_eq] at hk
      rcases hk with (hk | hk) | hk <;> rw [hk] <;> decide
    · exact ⟨hH.2.2, by simp [hH.2.1]⟩
  · exact guarantees_power h

omit h in
theorem plain_of_isOperator {level : ChainLevel} {k : TokenKind} (h : isOperator level k) :
    Plain k := by
  simp only [isOperator, List.any_eq_true, decide_eq_true_eq] at h
  obtain ⟨sign, hs, rfl⟩ := h
  revert hs
  cases level <;> cases sign <;> decide

omit h in
/-- The operands of a level bind more tightly than the level itself. -/
theorem guarantees_chain {level : ChainLevel} {operand : Parser Node} {m : Nat}
    (ho : ∀ {pre H}, Guarantees σ pre H operand (σ.Keeps (m ≤ ·.tightness)))
    (hm : level.tightness < m) :
    Guarantees σ pre H (chain level operand) (σ.Keeps (level.tightness ≤ ·.tightness)) := by
  refine .look fun t => ho.bind fun first => (Guarantees.many (P := fun x : String × Node =>
    σ.spelling.operator level x.1 ∧ σ.Keeps (m ≤ ·.tightness) x.2)
      (.look fun u => ?_)).bind fun more => ?_
  · split
    · rename_i hk
      refine .take (fun ts hp => ?_) fun sign => .knowing (F := σ.token sign ∧ sign = u)
        (fun ts hp => ⟨hp.2, hp.1.2⟩) fun hsign => ho.bind fun x => .pure fun hH y hy => ?_
      · rw [Guarantees.nextKind_eq σ hp.2]
        exact plain_of_isOperator hk
      · obtain ⟨hsign, rfl⟩ := hsign
        cases hy
        exact ⟨σ.operator hsign hk, hH.2⟩
    · exact .none
  · split
    · exact .pure fun hH => ⟨hH.1.2.1, Nat.le_trans (Nat.le_of_lt hm) hH.1.2.2⟩
    · rename_i _ hmore
      refine .kept (Nat.le_refl _) fun hH => ?_
      obtain ⟨⟨-, hf⟩, hall⟩ := hH
      have hoperands : ∀ x ∈ first :: more.map (·.2), σ.Keeps (m ≤ ·.tightness) x := by
        intro x hx
        rcases List.mem_cons.1 hx with rfl | hx
        · exact hf
        · obtain ⟨y, hy, rfl⟩ := List.mem_map.1 hx
          exact (hall y hy).2
      have hlength : 1 ≤ more.length := List.length_pos_iff.2 hmore
      refine ⟨⟨by simp, by simpa using hlength, ?_, ?_⟩, ?_⟩
      · intro op hop
        obtain ⟨y, hy, rfl⟩ := List.mem_map.1 hop
        exact (hall y hy).1
      · exact fun x hx => Nat.lt_of_lt_of_le hm (hoperands x hx).2
      · intro x hx
        refine (hoperands x ?_).1
        simpa using hx

theorem guarantees_chains : Guarantees σ pre H (chains rules) (σ.Keeps (0 < ·.tightness)) :=
  guarantees_chain
    (guarantees_chain (guarantees_chain
    (guarantees_chain (guarantees_chain (guarantees_chain (guarantees_unary h) (by decide))
    (by decide)) (by decide)) (by decide)) (by decide)) (by decide)

theorem guarantees_ternary : Guarantees σ pre H (ternary rules) (σ.Keeps (·.isExpression)) := by
  refine .look fun t => (guarantees_chains h).bind fun c => .test (.take (fun ts hp => ?_) fun _ =>
    h.expression.bind fun x => (Guarantees.expectSymbol (by decide)).bind fun _ =>
      h.expression.bind fun e =>
      .kept rfl fun hH => ?_) (.pure fun hH => ⟨hH.2.1, Kind.isExpression_of_tight hH.2.2⟩)
  · rw [hp.2]
    decide
  · obtain ⟨⟨⟨⟨-, hc⟩, hx⟩, -⟩, he⟩ := hH
    exact ⟨⟨hc.2, hx.2, he.2⟩, by simp [hc.1, hx.1, he.1]⟩

theorem guarantees_remark {verb : Verb} {start : Token} (hk : start.kind = .keyword verb.keyword)
    (hpre : ∀ ts, pre ts → ahead σ.src ts = start) :
    Guarantees σ pre H (remark rules verb start) (σ.Keeps (·.isExpression)) := by
  refine .take (fun ts hp => plain_ahead (hpre ts hp) hk (by cases verb <;> decide)) fun _ =>
    (guarantees_arguments h false).bind fun as => .look fun u => ?_
  split
  · refine h.expression.bind fun b => .kept rfl fun hH => ?_
    obtain ⟨⟨-, has⟩, hb⟩ := hH
    refine ⟨⟨fun a ha => (has a ha).2, by simpa using hb.2⟩, ?_⟩
    simpa [hb.1, or_imp, forall_and] using fun a ha => (has a ha).1
  · refine .kept rfl fun hH => ⟨⟨fun a ha => (hH.2 a ha).2, by simp⟩, ?_⟩
    simpa using fun a ha => (hH.2 a ha).1

theorem guarantees_expression :
    Guarantees σ pre H (expression rules) (σ.Keeps (·.isExpression)) := by
  refine .look fun t => ?_
  split
  · rename_i hk
    refine .take (fun ts hp => plain_ahead hp.2 hk (by decide)) fun _ =>
      (guarantees_letAssignments h).bind fun as => h.expression.bind fun b => .kept rfl fun hH => ?_
    obtain ⟨⟨-, has⟩, hb⟩ := hH
    refine ⟨⟨fun a ha => (has a ha).2, Kind.isElement_of_isExpression hb.2⟩, ?_⟩
    simpa [hb.1, or_imp, forall_and] using fun a ha => (has a ha).1
  · rename_i hk
    exact guarantees_remark h hk fun ts hp => hp.2
  · rename_i hk
    exact guarantees_remark h hk fun ts hp => hp.2
  · rename_i hk
    refine .take (fun ts hp => plain_ahead hp.2 hk (by decide)) fun _ =>
      (guarantees_parameters h).bind fun ps => h.expression.bind fun b => .kept rfl fun hH => ?_
    obtain ⟨⟨-, hps⟩, hb⟩ := hH
    refine ⟨⟨fun p hp => (hps p hp).2, hb.2⟩, ?_⟩
    simpa [hb.1, or_imp, forall_and] using fun p hp => (hps p hp).1
  · exact guarantees_ternary h

omit h in
theorem shaped_expressionRules (n : Nat) : ExpressionsShaped σ (expressionRules n) := by
  induction n with
  | zero => exact ⟨.fail _, .fail _, .fail _⟩
  | succ n ih =>
      exact ⟨(guarantees_expression ih).nested, (guarantees_unary ih).nested,
        (guarantees_element ih).nested⟩

end Scad.Parse
