import Scad.Proofs.Render.Rereading.Expression

/-! Where the nodes of a tree come from: each was made by a phrase of its own, from tokens among
those that the whole was made of. -/
namespace Scad.Grammar

attribute [local simp] Form.children Form.fields Field.children

def TextsScanned : Form Node → Prop
  | .number v => ∃ t x, IsTextOf .number t ∧ Numeral.read t = .ok x ∧ v = .real x
  | .string t => IsTextOf .string t
  | .variableRef t | .variableDefinition t | .argumentName t | .memberSuffix t | .parameter t _ =>
    IsTextOf .identifier t
  | .unary op _ => ∃ s, op = Symbol.text s ∧ Parse.isSign (.symbol s)
  | _ => True

/-- What is known of a node that was made from some of the tokens `whole`, at one of the
levels `among`. -/
structure IsMadeFrom (whole : List Token) (among : Level → Prop) (n : Node) : Prop where
  textsScanned : TextsScanned n.form
  vector : n.kind = .vector → ∃ inner ts rest, among inner ∧ ts <:+ whole ∧ Primary inner ts n rest
  ifElse : ∀ c t e, n.form = .ifElement c t (some e) →
    ∃ inner ts rest, among inner ∧ ts <:+ whole ∧ inner.element ts t rest ∧
    nextKind rest = .keyword .otherwise

def AllMadeFrom (whole : List Token) (among : Level → Prop) (n : Node) : Prop :=
  ∀ m ∈ n.preorder, IsMadeFrom whole among m

/-- What a phrase makes of tokens at the end of `whole` is of a certain sort, and leaves tokens
at its end. -/
def Makes {α : Type} (whole : List Token) (P : Phrase α) (Q : α → Prop) : Prop :=
  ∀ ⦃ts a rest⦄, P ts a rest → ts <:+ whole → rest <:+ whole ∧ Q a

section

variable {whole : List Token} {among : Level → Prop}

theorem AllMadeFrom.mk {i : Info} {f : Form Node} (h : IsMadeFrom whole among ⟨i, f⟩)
    (hc : ∀ c ∈ f.children, AllMadeFrom whole among c) : AllMadeFrom whole among ⟨i, f⟩ := by
  intro m hm
  rw [Node.preorder_eq] at hm
  rcases List.mem_cons.1 hm with rfl | hm
  · exact h
  · obtain ⟨c, hmem, hm⟩ := List.mem_flatMap.1 hm
    exact hc c hmem m hm

/-- A node whose texts are all that is to be known of it. -/
theorem AllMadeFrom.of_textsScanned {i : Info} {f : Form Node} (h : TextsScanned f)
    (hv : f.kind ≠ .vector) (hi : f.kind ≠ .ifElement)
    (hc : ∀ c ∈ f.children, AllMadeFrom whole among c) : AllMadeFrom whole among ⟨i, f⟩ := by
  refine .mk ⟨h, fun hk => absurd hk hv, fun c t e hf => ?_⟩ hc
  obtain rfl : f = .ifElement c t (some e) := hf
  exact absurd rfl hi

theorem suffix_tail {t : Token} {ts : List Token} (h : t :: ts <:+ whole) : ts <:+ whole :=
  (List.suffix_cons t ts).trans h

theorem isTextOf_head (hl : TextsMatchKinds whole) {t : Token} {ts : List Token}
    (h : t :: ts <:+ whole) {k : TokenKind} (hk : t.kind = k) : IsTextOf k t.text :=
  hk ▸ hl t (h.subset (List.mem_cons_self ..))

section Lists

variable {α : Type} {Q : α → Prop} {P : Phrase α}

theorem Repeated.makes (h : Makes whole P Q) :
    Makes whole (Repeated P) fun as => ∀ a ∈ as, Q a := by
  intro ts as rest hr hs
  induction hr with
  | nil => exact ⟨hs, List.forall_mem_nil _⟩
  | cons ha _ ih =>
      obtain ⟨hmid, hq⟩ := h ha hs
      obtain ⟨hrest, hqs⟩ := ih hmid
      exact ⟨hrest, List.forall_mem_cons.2 ⟨hq, hqs⟩⟩

theorem Commas.suffix {ts rest : List Token} (h : Commas ts rest) (hs : ts <:+ whole) :
    rest <:+ whole := by
  induction h with
  | one _ => exact suffix_tail hs
  | more _ _ ih => exact ih (suffix_tail hs)

theorem Listed.makes {P : Phrase Node} {Q : Node → Prop} (h : Makes whole P Q) :
    Makes whole (Listed P) fun as => ∀ a ∈ as, Q a := by
  intro ts as rest hl hs
  induction hl with
  | none => exact ⟨hs, List.forall_mem_nil _⟩
  | one ha =>
      obtain ⟨hrest, hq⟩ := h ha hs
      exact ⟨hrest, List.forall_mem_singleton.2 hq⟩
  | more ha hc _ ih =>
      obtain ⟨hmid, hq⟩ := h ha hs
      obtain ⟨hrest, hqs⟩ := ih (hc.suffix hmid)
      exact ⟨hrest, List.forall_mem_cons.2 ⟨hq, hqs⟩⟩

theorem After.makes {k : TokenKind} (h : Makes whole P Q) : Makes whole (After k P) Q := by
  rintro _ _ _ ⟨-, ha⟩ hs
  exact h ha (suffix_tail hs)

theorem Between.makes {left right : Symbol} (h : Makes whole P Q) :
    Makes whole (Between left right P) Q := by
  rintro _ _ _ ⟨-, ha, -⟩ hs
  obtain ⟨hrest, hq⟩ := h ha (suffix_tail hs)
  exact ⟨suffix_tail hrest, hq⟩

end Lists

structure Level.Making (whole : List Token) (among : Level → Prop) (inner : Level) : Prop where
  expression : Makes whole inner.expression (AllMadeFrom whole among)
  unary : Makes whole inner.unary (AllMadeFrom whole among)
  element : Makes whole inner.element (AllMadeFrom whole among)
  statements : Makes whole inner.statements fun ss => ∀ s ∈ ss, AllMadeFrom whole among s
  instantiation : Makes whole inner.instantiation (AllMadeFrom whole among)

/-- A name that is the text of a node without children. -/
theorem allMadeFrom_name (hl : TextsMatchKinds whole) {t : Token} {ts : List Token}
    (hs : t :: ts <:+ whole) (hk : t.kind = .identifier) {i : Info} {f : String → Form Node}
    (hf : f = .variableRef ∨ f = .variableDefinition ∨ f = .argumentName) :
    AllMadeFrom whole among ⟨i, f t.text⟩ := by
  have hname : IsTextOf .identifier t.text := isTextOf_head hl hs hk
  rcases hf with rfl | rfl | rfl <;> exact .of_textsScanned hname nofun nofun (by simp)

variable {inner : Level} (hl : TextsMatchKinds whole) (h : inner.Making whole among)

include h

theorem Value.makes : Makes whole (Value inner) (AllMadeFrom whole among) :=
  After.makes h.expression

theorem Condition.makes : Makes whole (Condition inner) (AllMadeFrom whole among) :=
  Between.makes h.expression

include hl

theorem Argument.makes (declares : Bool) :
    Makes whole (Argument inner declares) (AllMadeFrom whole among) := by
  intro ts a rest ha hs
  cases ha with
  | @named name _ _ _ _ j hk hv =>
      obtain ⟨hrest, he⟩ := Value.makes h hv (suffix_tail hs)
      have hname : IsTextOf .identifier name.text := isTextOf_head hl hs hk
      have hlabel : AllMadeFrom whole among ⟨j, argumentLabel declares name.text⟩ := by
        cases declares <;> exact .of_textsScanned hname nofun nofun (by simp [argumentLabel])
      exact ⟨hrest, .of_textsScanned trivial nofun nofun (by simp [hlabel, he])⟩
  | unnamed he =>
      obtain ⟨hrest, he⟩ := h.expression he hs
      exact ⟨hrest, .of_textsScanned trivial nofun nofun (by simp [he])⟩

theorem Arguments.makes (declares : Bool) :
    Makes whole (Arguments inner declares) fun as => ∀ a ∈ as, AllMadeFrom whole among a :=
  Between.makes (Listed.makes (Argument.makes hl h declares))

theorem Parameter.makes : Makes whole (Parameter inner) (AllMadeFrom whole among) := by
  intro ts p rest hp hs
  cases hp with
  | required hk =>
      exact ⟨suffix_tail hs, .of_textsScanned (isTextOf_head hl hs hk) nofun nofun (by simp)⟩
  | optional hk hv =>
      obtain ⟨hrest, he⟩ := Value.makes h hv (suffix_tail hs)
      exact ⟨hrest, .of_textsScanned (isTextOf_head hl hs hk) nofun nofun (by simp [he])⟩

theorem Parameters.makes : Makes whole (Parameters inner) fun ps => ∀ p ∈ ps,
    AllMadeFrom whole among p :=
  Between.makes (Listed.makes (Parameter.makes hl h))

theorem Assignment.makes : Makes whole (Assignment inner) (AllMadeFrom whole among) := by
  rintro _ _ _ ⟨hk, hv⟩ hs
  obtain ⟨hrest, he⟩ := Value.makes h hv (suffix_tail hs)
  exact ⟨hrest, .of_textsScanned trivial nofun nofun
    (by simpa [he] using allMadeFrom_name hl hs hk (by simp))⟩

theorem Update.makes : Makes whole (Update inner) (AllMadeFrom whole among) := by
  rintro _ _ _ ⟨hk, hv⟩ hs
  obtain ⟨hrest, he⟩ := Value.makes h hv (suffix_tail hs)
  exact ⟨hrest, .of_textsScanned trivial nofun nofun
    (by simpa [he] using allMadeFrom_name hl hs hk (by simp))⟩

theorem Assignments.makes : Makes whole (Between .leftParen .rightParen (Listed (Assignment inner)))
    fun as => ∀ a ∈ as, AllMadeFrom whole among a :=
  Between.makes (Listed.makes (Assignment.makes hl h))

theorem LoopHead.makes : Makes whole (LoopHead inner) fun a =>
    (∀ n ∈ a.1, AllMadeFrom whole among n) ∧ (∀ n ∈ a.2.1, AllMadeFrom whole among n) ∧ ∀ n ∈ a.2.2,
      AllMadeFrom whole among n := by
  intro ts a rest ha hs
  cases ha with
  | plain has =>
      obtain ⟨hrest, has⟩ := Listed.makes (Assignment.makes hl h) has hs
      exact ⟨hrest, has, nofun, List.forall_mem_nil _⟩
  | counted has hc _ hus =>
      obtain ⟨hmid, has⟩ := Listed.makes (Assignment.makes hl h) has hs
      obtain ⟨hnext, hc⟩ := After.makes h.expression hc hmid
      obtain ⟨hrest, hus⟩ := Listed.makes (Update.makes hl h) hus (suffix_tail hnext)
      exact ⟨hrest, has, fun n hn => Option.mem_some_iff.1 hn ▸ hc, hus⟩

theorem Suffix.makes : Makes whole (Suffix inner) (AllMadeFrom whole among) := by
  intro ts x rest hx hs
  cases hx with
  | call has =>
      obtain ⟨hrest, has⟩ := Arguments.makes hl h false has hs
      exact ⟨hrest, .of_textsScanned trivial nofun nofun (by simpa using has)⟩
  | index he =>
      obtain ⟨hrest, he⟩ := Between.makes h.expression he hs
      exact ⟨hrest, .of_textsScanned trivial nofun nofun (by simp [he])⟩
  | member _ hk =>
      exact ⟨suffix_tail (suffix_tail hs),
        .of_textsScanned (isTextOf_head hl (suffix_tail hs) hk) nofun nofun (by simp)⟩

omit hl h in
theorem Operation.makes {level : ChainLevel} {P : Phrase Node}
    (h : Makes whole P (AllMadeFrom whole among)) :
    Makes whole (Operation level P) fun m => AllMadeFrom whole among m.2 := by
  rintro _ _ _ ⟨-, hx⟩ hs
  exact h hx (suffix_tail hs)

omit hl h in
theorem Chain.makes {level : ChainLevel} {P : Phrase Node}
    (h : Makes whole P (AllMadeFrom whole among)) :
    Makes whole (Chain level P) (AllMadeFrom whole among) := by
  intro ts x rest hx hs
  cases hx with
  | single hx => exact h hx hs
  | several hx hm _ =>
      obtain ⟨hmid, hx⟩ := h hx hs
      obtain ⟨hrest, hm⟩ := Repeated.makes (Operation.makes h) hm hmid
      refine ⟨hrest, .of_textsScanned trivial nofun nofun ?_⟩
      simpa [hx] using fun n op (hn : (op, n) ∈ _) => hm _ hn

section Levels

variable (hin : among inner)

include hin

/-- What stands in the parentheses of a group is an element at the same level. -/
theorem Element.makes : Makes whole (Element inner) (AllMadeFrom whole among) := by
  intro ts x rest hx hs
  cases hx with
  | loop _ hh hb =>
      obtain ⟨hmid, has, hc, hus⟩ := Between.makes (LoopHead.makes hl h) hh (suffix_tail hs)
      obtain ⟨hrest, hb⟩ := h.element hb hmid
      exact ⟨hrest, .of_textsScanned trivial nofun nofun
        (by simpa [or_imp, forall_and, hb] using ⟨has, hc, hus⟩)⟩
  | each _ hb =>
      obtain ⟨hrest, hb⟩ := h.element hb (suffix_tail hs)
      exact ⟨hrest, .of_textsScanned trivial nofun nofun (by simp [hb])⟩
  | ifThen _ hc ht _ =>
      obtain ⟨hmid, hc⟩ := Condition.makes h hc (suffix_tail hs)
      obtain ⟨hrest, ht⟩ := h.element ht hmid
      exact ⟨hrest, .mk ⟨trivial, nofun, nofun⟩ (by simp [hc, ht])⟩
  | ifElse _ hc ht he =>
      obtain ⟨hmid, hc⟩ := Condition.makes h hc (suffix_tail hs)
      obtain ⟨hnext, ht'⟩ := h.element ht hmid
      obtain ⟨hrest, he'⟩ := After.makes h.element he hnext
      refine ⟨hrest, .mk ⟨trivial, nofun, fun c' t' e' hf => ?_⟩ (by simp [hc, ht', he'])⟩
      cases hf
      exact ⟨_, _, _, hin, hmid, ht, he.nextKind⟩
  | letIn _ has hb =>
      obtain ⟨hmid, has⟩ := Assignments.makes hl h has (suffix_tail hs)
      obtain ⟨hrest, hb⟩ := h.element hb hmid
      exact ⟨hrest, .of_textsScanned trivial nofun nofun
        (by simpa [or_imp, forall_and, hb] using has)⟩
  | group hx _ => exact Between.makes h.element hx hs
  | plain he _ => exact h.expression he hs

theorem Primary.makes : Makes whole (Primary inner) (AllMadeFrom whole among) := by
  intro ts x rest hx hs
  have helement := Element.makes hl h hin
  cases hx with
  | paren he =>
      obtain ⟨hrest, he⟩ := Between.makes h.expression he hs
      exact ⟨hrest, .of_textsScanned trivial nofun nofun (by simp [he])⟩
  | vector hes hu =>
      obtain ⟨hrest, hes'⟩ := Between.makes (Listed.makes helement) hes hs
      exact ⟨hrest, .mk ⟨trivial, fun _ => ⟨_, _, _, hin, hs, .vector hes hu⟩, nofun⟩
        (by simpa using hes')⟩
  | range hr _ =>
      obtain ⟨-, hr, -⟩ := hr
      cases hr with
      | ends ha hb =>
          obtain ⟨hmid, ha⟩ := helement ha (suffix_tail hs)
          obtain ⟨hrest, hb⟩ := After.makes h.expression hb hmid
          exact ⟨suffix_tail hrest, .of_textsScanned trivial nofun nofun (by simp [ha, hb])⟩
      | stepped ha hc hb =>
          obtain ⟨hmid, ha⟩ := helement ha (suffix_tail hs)
          obtain ⟨hnext, hc⟩ := After.makes h.expression hc hmid
          obtain ⟨hrest, hb⟩ := After.makes h.expression hb hnext
          exact ⟨suffix_tail hrest, .of_textsScanned trivial nofun nofun (by simp [ha, hc, hb])⟩
  | true _ | false _ | undef _ =>
      exact ⟨suffix_tail hs, .of_textsScanned trivial nofun nofun (by simp)⟩
  | number hk hx =>
      exact ⟨suffix_tail hs,
        .of_textsScanned ⟨_, _, isTextOf_head hl hs hk, hx, rfl⟩ nofun nofun (by simp)⟩
  | string hk | reference hk =>
      exact ⟨suffix_tail hs, .of_textsScanned (isTextOf_head hl hs hk) nofun nofun (by simp)⟩

theorem Suffixed.makes : Makes whole (Suffixed inner) (AllMadeFrom whole among) := by
  intro ts x rest hx hs
  cases hx with
  | plain hx => exact Primary.makes hl h hin hx hs
  | call hx hss _ =>
      obtain ⟨hmid, hx⟩ := Primary.makes hl h hin hx hs
      obtain ⟨hrest, hss⟩ := Repeated.makes (Suffix.makes hl h) hss hmid
      exact ⟨hrest, .of_textsScanned trivial nofun nofun (by simpa [hx] using hss)⟩

theorem Power.makes : Makes whole (Power inner) (AllMadeFrom whole among) := by
  intro ts x rest hx hs
  cases hx with
  | plain hx => exact Suffixed.makes hl h hin hx hs
  | raised hb he =>
      obtain ⟨hmid, hb⟩ := Suffixed.makes hl h hin hb hs
      obtain ⟨hrest, he⟩ := After.makes h.unary he hmid
      exact ⟨hrest, .of_textsScanned trivial nofun nofun (by simp [hb, he])⟩

theorem Unary.makes : Makes whole (Unary inner) (AllMadeFrom whole among) := by
  intro ts x rest hx hs
  cases hx with
  | plain hx => exact Power.makes hl h hin hx hs
  | sign hk he =>
      obtain ⟨s, hks⟩ := symbol_of_isSign hk
      obtain ⟨hrest, he⟩ := h.unary he (suffix_tail hs)
      exact ⟨hrest,
        .of_textsScanned ⟨s, isTextOf_head hl hs hks, hks ▸ hk⟩ nofun nofun (by simp [he])⟩

theorem Chains.makes : Makes whole (Chains inner) (AllMadeFrom whole among) :=
  Chain.makes <| Chain.makes <| Chain.makes <| Chain.makes <| Chain.makes <|
    Chain.makes <| Unary.makes hl h hin

theorem Ternary.makes : Makes whole (Ternary inner) (AllMadeFrom whole among) := by
  intro ts x rest hx hs
  cases hx with
  | plain hx => exact Chains.makes hl h hin hx hs
  | choice hc ht he =>
      obtain ⟨hmid, hc⟩ := Chains.makes hl h hin hc hs
      obtain ⟨hnext, ht⟩ := After.makes h.expression ht hmid
      obtain ⟨hrest, he⟩ := After.makes h.expression he hnext
      exact ⟨hrest, .of_textsScanned trivial nofun nofun (by simp [hc, ht, he])⟩

theorem Expression.makes : Makes whole (Expression inner) (AllMadeFrom whole among) := by
  intro ts x rest hx hs
  cases hx with
  | letIn _ has hb =>
      obtain ⟨hmid, has⟩ := Assignments.makes hl h has (suffix_tail hs)
      obtain ⟨hrest, hb⟩ := h.expression hb hmid
      exact ⟨hrest, .of_textsScanned trivial nofun nofun
        (by simpa [or_imp, forall_and, hb] using has)⟩
  | remark _ has =>
      obtain ⟨hrest, has⟩ := Arguments.makes hl h false has (suffix_tail hs)
      exact ⟨hrest, .of_textsScanned trivial nofun nofun (by simpa using has)⟩
  | remarkOn _ has hb =>
      obtain ⟨hmid, has⟩ := Arguments.makes hl h false has (suffix_tail hs)
      obtain ⟨hrest, hb⟩ := h.expression hb hmid
      exact ⟨hrest, .of_textsScanned trivial nofun nofun
        (by simpa [or_imp, forall_and, hb] using has)⟩
  | functionLiteral _ hps hb =>
      obtain ⟨hmid, hps⟩ := Parameters.makes hl h hps (suffix_tail hs)
      obtain ⟨hrest, hb⟩ := h.expression hb hmid
      exact ⟨hrest, .of_textsScanned trivial nofun nofun
        (by simpa [or_imp, forall_and, hb] using hps)⟩
  | ternary hx => exact Ternary.makes hl h hin hx hs

end Levels

/-! ### Statements -/

omit hl in
theorem Block.makes : Makes whole (Block inner) (AllMadeFrom whole among) := by
  rintro _ _ _ ⟨hss⟩ hs
  obtain ⟨hrest, hss⟩ := Between.makes h.statements hss hs
  exact ⟨hrest, .of_textsScanned trivial nofun nofun (by simpa using hss)⟩

omit hl in
theorem Child.makes : Makes whole (Child inner) (AllMadeFrom whole among) := by
  intro ts x rest hx hs
  cases hx with
  | empty _ => exact ⟨suffix_tail hs, .of_textsScanned trivial nofun nofun (by simp)⟩
  | block hb => exact Block.makes h hb hs
  | instantiation hx => exact h.instantiation hx hs

theorem Payload.makes : Makes whole (Payload inner) (AllMadeFrom whole among) := by
  intro ts x rest hx hs
  cases hx with
  | ifThen _ hc ht _ =>
      obtain ⟨hmid, hc⟩ := Condition.makes h hc (suffix_tail hs)
      obtain ⟨hrest, ht⟩ := Child.makes h ht hmid
      exact ⟨hrest, .of_textsScanned trivial nofun nofun (by simp [hc, ht])⟩
  | ifElse _ hc ht he =>
      obtain ⟨hmid, hc⟩ := Condition.makes h hc (suffix_tail hs)
      obtain ⟨hnext, ht⟩ := Child.makes h ht hmid
      obtain ⟨hrest, he⟩ := After.makes (Child.makes h) he hnext
      exact ⟨hrest, .of_textsScanned trivial nofun nofun (by simp [hc, ht, he])⟩
  | remark _ has hc =>
      obtain ⟨hmid, has⟩ := Arguments.makes hl h false has (suffix_tail hs)
      obtain ⟨hrest, hc⟩ := Child.makes h hc hmid
      exact ⟨hrest, .of_textsScanned trivial nofun nofun
        (by simpa [or_imp, forall_and, hc] using has)⟩
  | @call k _ as _ _ _ _ i j _ has hc =>
      obtain ⟨hmid, has⟩ := Arguments.makes hl h _ has (suffix_tail hs)
      obtain ⟨hrest, hc⟩ := Child.makes h hc hmid
      have hname : AllMadeFrom whole among ⟨j, .moduleName k.text⟩ :=
        .of_textsScanned trivial nofun nofun (by simp)
      have hhead : AllMadeFrom whole among ⟨i, .moduleHead ⟨j, .moduleName k.text⟩ as⟩ :=
        .of_textsScanned trivial nofun nofun (by simpa [hname] using has)
      exact ⟨hrest, .of_textsScanned trivial nofun nofun (by simp [hhead, hc])⟩

omit hl h in
theorem Mark.makes : Makes whole Mark fun _ => True := by
  rintro _ _ _ ⟨-⟩ hs
  exact ⟨suffix_tail hs, trivial⟩

theorem Instantiation.makes : Makes whole (Instantiation inner) (AllMadeFrom whole among) := by
  rintro _ _ _ ⟨hm, hp⟩ hs
  obtain ⟨hmid, -⟩ := Repeated.makes Mark.makes hm hs
  obtain ⟨hrest, hp⟩ := Payload.makes hl h hp hmid
  exact ⟨hrest, .of_textsScanned trivial nofun nofun (by simp [hp])⟩

theorem Statement.makes : Makes whole (Statement inner) (AllMadeFrom whole among) := by
  intro ts x rest hx hs
  induction hx with
  | empty _ => exact ⟨suffix_tail hs, .of_textsScanned trivial nofun nofun (by simp)⟩
  | block hb => exact Block.makes h hb hs
  | file _ _ => exact ⟨suffix_tail (suffix_tail hs), .of_textsScanned trivial nofun nofun (by simp)⟩
  | assignment hk hv _ =>
      obtain ⟨hrest, he⟩ := Value.makes h hv (suffix_tail hs)
      exact ⟨suffix_tail hrest, .of_textsScanned trivial nofun nofun
        (by simpa [he] using allMadeFrom_name hl hs hk (by simp))⟩
  | function _ _ hps hv _ =>
      obtain ⟨hmid, hps⟩ := Parameters.makes hl h hps (suffix_tail (suffix_tail hs))
      obtain ⟨hrest, he⟩ := Value.makes h hv hmid
      exact ⟨suffix_tail hrest,
        .of_textsScanned trivial nofun nofun (by simpa [or_imp, forall_and, he] using hps)⟩
  | module _ _ hps _ ih =>
      obtain ⟨hmid, hps⟩ := Parameters.makes hl h hps (suffix_tail (suffix_tail hs))
      obtain ⟨hrest, hb⟩ := ih hmid
      exact ⟨hrest, .of_textsScanned trivial nofun nofun
        (by simpa [or_imp, forall_and, hb] using hps)⟩
  | instantiation hx => exact Instantiation.makes hl h hx hs

omit h

theorem level_rooting {ifEnd : List Token → Prop} {n : Nat}
    (hall : ∀ k < n, among (level ifEnd k)) :
    (level ifEnd n).Making whole among := by
  induction n with
  | zero =>
      constructor
      all_goals
        intro ts x rest hx
        exact hx.elim
  | succ n ih =>
      have hin := hall n (Nat.lt_succ_self n)
      have h := ih fun k hk => hall k (Nat.lt_succ_of_lt hk)
      exact ⟨Expression.makes hl h hin, Unary.makes hl h hin, Element.makes hl h hin,
        Repeated.makes (Statement.makes hl h), Instantiation.makes hl h⟩

def LevelsBelow (n : Nat) (inner : Level) : Prop := ∃ k < n, inner = level NearestElse k

theorem Program.rooted {n : Nat} {ss : List Node} (h : Program NearestElse n whole ss) :
    ∀ s ∈ ss, AllMadeFrom whole (LevelsBelow n) s :=
  (Repeated.makes (Statement.makes hl (level_rooting hl fun k hk => ⟨k, hk, rfl⟩)) h
    (List.suffix_refl _)).2

end

end Scad.Grammar
