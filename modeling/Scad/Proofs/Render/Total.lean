import Scad.Proofs.Parse.Concatenation
import Scad.Proofs.Parse.WellFormed

/-! Which nodes that a parser makes have a source text: all but those with a number below that has
no finite value. -/
namespace Scad

/-- Work that comes to an end exactly if certain nodes have a text, and otherwise fails as one
of them does. -/
structure FailsWithParts {α : Type} (work : Except RenderFault α) (ns : List Node) : Prop where
  parts : ∀ a, work = .ok a → ∀ n ∈ ns, ∃ text, n.render = .ok text
  fault : ∀ f, work = .error f → ∃ n ∈ ns, n.render = .error f

namespace FailsWithParts

variable {α β : Type} {work : Except RenderFault α} {next : α → Except RenderFault β}
  {ms ns : List Node}

theorem pure (a : α) : FailsWithParts (Pure.pure a) [] :=
  ⟨fun _ _ _ h => absurd h List.not_mem_nil, fun _ h => nomatch h⟩

theorem bind (h : FailsWithParts work ms) (hnext : ∀ a, FailsWithParts (next a) ns) :
    FailsWithParts (work >>= next) (ms ++ ns) := by
  cases hw : work with
  | error f =>
      refine ⟨fun _ hb => (nomatch hb), fun g hg => ?_⟩
      obtain ⟨n, hn, hf⟩ := h.fault f hw
      cases hg
      exact ⟨n, List.mem_append_left _ hn, hf⟩
  | ok a =>
      refine ⟨fun b hb n hn => ?_, fun g hg => ?_⟩
      · rcases List.mem_append.1 hn with hn | hn
        · exact h.parts a hw n hn
        · exact (hnext a).parts b hb n hn
      · obtain ⟨n, hn, hf⟩ := (hnext a).fault g hg
        exact ⟨n, List.mem_append_right _ hn, hf⟩

/-- Only which nodes they are matters, not their order. -/
theorem congr (h : FailsWithParts work ms) (hmem : ∀ n, n ∈ ms ↔ n ∈ ns) : FailsWithParts work ns :=
  ⟨fun a ha n hn => h.parts a ha n ((hmem n).2 hn),
    fun f hf => (h.fault f hf).imp fun _ hn => hn.imp_left (hmem _).1⟩

theorem map (h : FailsWithParts work ms) (g : α → β) :
    FailsWithParts (do return g (← work)) ms := by
  have hbind : FailsWithParts (work >>= fun a => Pure.pure (g a)) (ms ++ []) :=
    h.bind fun a => pure (g a)
  rw [List.append_nil] at hbind
  exact hbind

theorem ends_iff (h : FailsWithParts work ns) :
    (∃ a, work = .ok a) ↔ ∀ n ∈ ns, ∃ text, n.render = .ok text := by
  refine ⟨fun ⟨a, ha⟩ => h.parts a ha, fun hall => ?_⟩
  cases hw : work with
  | ok a => exact ⟨a, rfl⟩
  | error f =>
      obtain ⟨n, hn, hf⟩ := h.fault f hw
      obtain ⟨text, ht⟩ := hall n hn
      rw [hf] at ht
      cases ht

theorem node (n : Node) : FailsWithParts n.render [n] :=
  ⟨fun text h _ hm => List.mem_singleton.1 hm ▸ ⟨text, h⟩,
    fun _ h => ⟨n, List.mem_singleton_self n, h⟩⟩

theorem list (ns : List Node) : FailsWithParts (renderList ns) ns := by
  induction ns with
  | nil => exact pure []
  | cons n ns ih => exact (node n).bind fun _ => ih.map _

theorem orElse (n : Option Node) : FailsWithParts (renderElse n) n.toList := by
  cases n with
  | none => exact pure ""
  | some n => exact (node n).map _

theorem condition (n : Option Node) : FailsWithParts (renderCondition n) n.toList := by
  cases n with
  | none => exact pure "None"
  | some n => exact node n

/-- A clause has a text exactly if the assignment has one. -/
theorem clause (n : Node) : FailsWithParts (renderClause n) [n] := by
  obtain ⟨i, f⟩ := n
  cases f with
  | assignment t e =>
      have hwhole : (Node.mk i (.assignment t e)).render =
          (renderClause ⟨i, .assignment t e⟩).map (· ++ ";") := by
        rw [Node.render, renderClause]
        cases t.render with
        | error => rfl
        | ok => cases e.render <;> rfl
      constructor
      · intro text h m hm
        rw [List.mem_singleton.1 hm, hwhole, h]
        exact ⟨_, rfl⟩
      · intro f h
        refine ⟨_, List.mem_singleton_self _, ?_⟩
        rw [hwhole, h]
        rfl
  | _ => exact node _

theorem clauses (ns : List Node) : FailsWithParts (renderClauses ns) ns := by
  rw [renderClauses_eq]
  induction ns with
  | nil => exact pure []
  | cons n ns ih =>
      rw [List.mapM_cons]
      exact (clause n).bind fun _ => ih.map _

/-- No operand is left out if there is an operator for each. -/
theorem operands {ops : List String} {ns : List Node} (h : ns.length = ops.length) :
    FailsWithParts (renderOperands ops ns) ns := by
  induction ns generalizing ops with
  | nil => cases ops <;> exact pure []
  | cons n ns ih =>
      cases ops with
      | nil => cases h
      | cons op ops => exact (node n).bind fun _ => (ih (Nat.succ.inj h)).map _

section

attribute [local simp] Form.children Form.fields Field.children

/-- A node that is no number draws on its children. -/
theorem children {spelling : Spelling} {i : Info} {f : Form Node} (h : f.Shaped spelling)
    (hnumber : ∀ v, f ≠ .number v) : FailsWithParts (Node.mk i f).render f.children := by
  cases f with
  | number v => exact absurd rfl (hnumber v)
  | string | boolean | undefined | variableRef | memberSuffix | variableDefinition | argumentName
  | empty | moduleName | fileReference => exact pure _
  | paren e | indexSuffix e | unary _ e | each e | instantiation _ e =>
    rw [Node.render]
    exact (node e).map _
  | vector es | callSuffix es =>
    rw [Node.render]
    refine ((list es).map _).congr (by simp)
  | block ss =>
    cases ss with
    | nil => exact pure _
    | cons s ss =>
        rw [Node.render]
        · exact ((list (s :: ss)).map _).congr (by simp)
        · exact List.cons_ne_nil _ _
  | range a b s =>
    cases s with
    | none =>
        rw [Node.render]
        exact (node a).bind fun _ => (node b).map _
    | some s =>
        rw [Node.render]
        refine ((node a).bind fun _ => (node s).bind fun _ => (node b).map _).congr fun n => ?_
        simp [or_comm]
  | ternary c t e =>
    rw [Node.render]
    exact (node c).bind fun _ => (node t).bind fun _ => (node e).map _
  | chain level xs ops =>
    cases xs with
    | nil => exact absurd h.1 (by simp)
    | cons x xs =>
        rw [Node.render]
        refine ((node x).bind fun _ => (operands (Nat.succ.inj h.1)).map _).congr (by simp)
  | power a b | loopUpdate a b | assignment a b =>
    rw [Node.render]
    exact (node a).bind fun _ => (node b).map _
  | call a bs | moduleHead a bs =>
    rw [Node.render]
    exact ((node a).bind fun _ => (list bs).map _).congr (by simp)
  | functionLiteral as b | moduleDefinition _ as b | functionDefinition _ as b
  | moduleRemark _ as b =>
    rw [Node.render]
    exact ((list as).bind fun _ => (node b).map _).congr (by simp)
  | letIn as b =>
    rw [Node.render]
    exact ((clauses as).bind fun _ => (node b).map _).congr (by simp)
  | remark verb as b =>
    cases b with
    | none =>
        rw [Node.render]
        exact ((list as).map _).congr (by simp)
    | some b =>
        rw [Node.render]
        exact ((list as).bind fun _ => (node b).map _).congr (by simp)
  | forElement as c us b =>
    by_cases hplain : c = none ∧ us = []
    · obtain ⟨rfl, rfl⟩ := hplain
      rw [Node.render]
      exact ((clauses as).bind fun _ => (node b).map _).congr (by simp)
    · rw [Node.render]
      · refine ((clauses as).bind fun _ => (condition c).bind fun _ => (list us).bind fun _ =>
          (node b).map _).congr (by simp)
      · exact fun hc hus => hplain ⟨hc, hus⟩
  | ifElement c t e | moduleIf c t e =>
    rw [Node.render]
    exact ((node c).bind fun _ => (node t).bind fun _ => (orElse e).map _).congr (by simp)
  | parameter n d =>
    cases d with
    | none => exact pure _
    | some d =>
        rw [Node.render]
        exact (node d).map _
  | argument n e =>
    cases n with
    | none =>
        rw [Node.render]
        exact node e
    | some n =>
        rw [Node.render]
        exact (node n).bind fun _ => (node e).map _
  | moduleCall a b =>
    rw [Node.render]
    exact (node a).bind fun _ => (node b).map _

end

end FailsWithParts

namespace Number

/-- Whether there is a finite value, so a text. -/
theorem render_iff (v : Number) : (∃ text, v.render = .ok text) ↔ v.dyadic?.isSome := by
  cases v with
  | int n => exact iff_of_true ⟨_, rfl⟩ rfl
  | real x =>
      cases x with
      | infinite => exact iff_of_false (fun h => nomatch h) Bool.false_ne_true
      | nan => exact iff_of_false (fun h => nomatch h) Bool.false_ne_true
      | finite negative mantissa exponent =>
          refine iff_of_true ?_ rfl
          rw [render]
          · split <;> exact ⟨_, rfl⟩
          · exact fun _ h => by cases h
          · exact fun _ h => by cases h

end Number

namespace Node

def isFinite (n : Node) : Bool :=
  match n.form with
  | .number v => v.dyadic?.isSome
  | _ => true

theorem isFinite_of_ne {n : Node} (h : ∀ v, n.form ≠ .number v) : n.isFinite := by
  rw [isFinite]
  split
  · exact absurd ‹_› (h _)
  · rfl

/-- All parts of a node are nodes of certain shapes, and so is the node. -/
def ShapedBelow (spelling : Spelling) (n : Node) : Prop := ∀ m ∈ n.preorder, m.form.Shaped spelling

/-- The failure of a number among nodes. -/
def NumberFails (ns : List Node) (f : RenderFault) : Prop :=
  ∃ n ∈ ns, ∃ v fault, n.form = .number v ∧ v.render = .error fault ∧ f = .number fault

theorem NumberFails.mono {ms ns : List Node} {f : RenderFault} (h : NumberFails ms f)
    (hsub : ms ⊆ ns) :
    NumberFails ns f := by
  obtain ⟨n, hn, hrest⟩ := h
  exact ⟨n, hsub hn, hrest⟩

/-- Of a tree only numbers can be without a text. -/
theorem render_iff {spelling : Spelling} {n : Node} (h : n.ShapedBelow spelling) :
    ((∃ text, n.render = .ok text) ↔ ∀ m ∈ n.preorder, m.isFinite) ∧
      ∀ f, n.render = .error f → NumberFails n.preorder f := by
  induction n using ofChildren with
  | h n ih =>
      obtain ⟨i, f⟩ := n
      have hself := mem_preorder_self (mk i f)
      have hbelow : ∀ c ∈ f.children, c.preorder ⊆ (mk i f).preorder := by
        intro c hc m hm
        rw [preorder_eq]
        exact List.mem_cons_of_mem _ (List.mem_flatMap.2 ⟨c, hc, hm⟩)
      by_cases hnumber : ∃ v, f = .number v
      · obtain ⟨v, rfl⟩ := hnumber
        have hpreorder : (mk i (.number v)).preorder = [mk i (.number v)] := by
          rw [preorder_eq]
          rfl
        have htext : (mk i (.number v)).render = v.render.mapError .number := rfl
        rw [htext, hpreorder, List.forall_mem_singleton]
        refine ⟨?_, fun f hf => ?_⟩
        · rw [show (mk i (.number v)).isFinite = v.dyadic?.isSome from rfl, ← v.render_iff]
          cases v.render <;> simp [Except.mapError]
        · cases hv : v.render with
          | ok => rw [hv] at hf; cases hf
          | error fault =>
              rw [hv] at hf
              cases hf
              exact ⟨_, List.mem_singleton_self _, v, fault, rfl, hv, rfl⟩
      · have hne : ∀ v, f ≠ .number v := fun v hv => hnumber ⟨v, hv⟩
        have hdraws : FailsWithParts (mk i f).render f.children :=
          FailsWithParts.children (h _ hself) hne
        have hchild : ∀ c ∈ f.children, _ := fun c hc => ih c hc fun m hm => h m (hbelow c hc hm)
        refine ⟨?_, fun fault hf => ?_⟩
        · rw [hdraws.ends_iff, preorder_eq, List.forall_mem_cons, List.forall_mem_flatMap]
          refine ⟨fun hall => ⟨isFinite_of_ne hne, fun c hc => (hchild c hc).1.1 (hall c hc)⟩,
            fun hall c hc => (hchild c hc).1.2 (hall.2 c hc)⟩
        · obtain ⟨c, hc, hfc⟩ := hdraws.fault fault hf
          exact ((hchild c hc).2 fault hfc).mono (hbelow c hc)

end Node

/-- A document has a text exactly if all its statements have one, and otherwise fails as
one of them. -/
theorem FailsWithParts.document (d : Document) : FailsWithParts d.render d.statements :=
  (list d.statements).map _

namespace Parse

theorem produced_of_text {text name : String} {origin : Option String} {p : Parsed}
    (h : parse (tokenize text name).tokens origin = .ok p) :
    ∃ s, Produced .proper (tokenize text name).tokens origin p s := by
  obtain ⟨ts, mark, htokens, hended⟩ := ended_tokenize text name
  have htoken : ∀ t ∈ body (tokenize text name).tokens, t.kind ≠ .eof ∧ IsTextOf t.kind t.text := by
    rw [htokens, hended.body]
    exact fun t ht => ⟨hended.running t ht, textsMatchKinds_of_tokens htokens t ht⟩
  have hp := parse_produces (scannedTokens (tokenize text name).tokens origin) rfl htoken
  rwa [h] at hp

theorem Produced.shapedBelow {spelling : Spelling} {tokens : List Token} {origin : Option String}
    {p : Parsed} {s : State} (h : Produced spelling tokens origin p s) {n : Node}
    (hn : n ∈ s.made.toList) : n.ShapedBelow spelling := by
  induction n using Node.ofChildren with
  | h n ih =>
      intro m hm
      rw [Node.preorder_eq] at hm
      rcases List.mem_cons.1 hm with rfl | hm
      · exact h.shaped m hn
      · obtain ⟨c, hc, hm⟩ := List.mem_flatMap.1 hm
        exact ih c hc (h.closed n hn c hc) m hm

end Parse

/-- What was parsed has a text, erroneous or not, unless a number in it has no finite value: any
node that was made on the way, and the document as a whole. No other failure is possible. -/
theorem parse_renders {text name : String} {origin : Option String} {p : Parse.Parsed}
    (h : parse (tokenize text name).tokens origin = .ok p) :
    (∀ n ∈ p.document.arena.nodes, ((∃ t, n.render = .ok t) ↔ ∀ m ∈ n.preorder, m.isFinite) ∧
      ∀ f, n.render = .error f → Node.NumberFails n.preorder f) ∧
    ((∃ t, p.document.render = .ok t) ↔ ∀ m ∈ p.document.walk, m.isFinite) ∧
    ∀ f, p.document.render = .error f → Node.NumberFails p.document.walk f := by
  obtain ⟨s, hs⟩ := Parse.produced_of_text h
  have hstatement : ∀ n ∈ p.document.statements, _ := fun n hn =>
    Node.render_iff (hs.shapedBelow (hs.statements n hn).1)
  have hdraws := FailsWithParts.document p.document
  refine ⟨fun n hn => Node.render_iff (hs.shapedBelow (hs.nodes ▸ hn)), ?_, fun f hf => ?_⟩
  · rw [hdraws.ends_iff, Document.walk, Node.walkFrom_eq, List.forall_mem_flatMap]
    exact forall₂_congr fun n hn => (hstatement n hn).1
  · obtain ⟨n, hn, hnf⟩ := hdraws.fault f hf
    refine ((hstatement n hn).2 f hnf).mono ?_
    rw [Document.walk, Node.walkFrom_eq]
    exact fun m hm => List.mem_flatMap.2 ⟨n, hn, hm⟩

/-- A text with an error in it, for which three nodes were made that no statement reaches. -/
theorem parse_renders_broken :
    ∃ p, parse (tokenize "x = [1, 2 +; y = -0x1F;" "").tokens none = .ok p ∧
    p.document.syntaxErrors.length = 1 ∧ p.document.walk.length + 3 = p.document.arena.size ∧
    (∀ n ∈ p.document.arena.nodes, ∃ t, n.render = .ok t) ∧ ∃ t, p.document.render = .ok t := by
  have hgood : (parse (tokenize "x = [1, 2 +; y = -0x1F;" "").tokens none).toOption.map (fun p =>
      (p.document.syntaxErrors.length, decide (p.document.walk.length + 3 = p.document.arena.size),
        decide (∀ n ∈ p.document.arena.nodes, ∀ m ∈ n.preorder, m.isFinite),
        decide (∀ m ∈ p.document.walk, m.isFinite))) = some (1, true, true, true) := by
    decide +kernel
  obtain ⟨p, hp, hfacts⟩ := Parse.exists_of_map hgood
  obtain ⟨herrors, hfacts⟩ := Prod.mk.inj hfacts
  obtain ⟨hsize, hfacts⟩ := Prod.mk.inj hfacts
  obtain ⟨hnodes, hwalk⟩ := Prod.mk.inj hfacts
  have hrenders := parse_renders hp
  exact ⟨p, hp, herrors, of_decide_eq_true hsize,
    fun n hn => (hrenders.1 n hn).1.2 (of_decide_eq_true hnodes n hn),
    hrenders.2.1.2 (of_decide_eq_true hwalk)⟩

/-- A decimal number beyond every finite one is infinite, and has no text. -/
theorem parse_renders_not : ¬ ∀ (text name : String) (origin : Option String) (p : Parse.Parsed),
    parse (tokenize text name).tokens origin = .ok p →
      (∃ t, p.document.render = .ok t) ∧ ∀ n ∈ p.document.arena.nodes, ∃ t, n.render = .ok t := by
  intro h
  have hfails : (parse (tokenize "x = 1e999;" "").tokens none).toOption.map
    (fun p => p.document.render.isOk) =
      some false := by
    decide +kernel
  obtain ⟨p, hp, hrender⟩ := Parse.exists_of_map hfails
  obtain ⟨t, ht⟩ := (h _ _ _ p hp).1
  rw [ht] at hrender
  cases hrender

end Scad
