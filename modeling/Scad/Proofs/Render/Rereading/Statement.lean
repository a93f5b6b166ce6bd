import Scad.Proofs.Render.Rereading.Expression
import Scad.Proofs.Render.Statement

/-! Statements are read again from their text, at the same depth or with more levels left. -/
namespace Scad

open Lexeme (Meets)
open Grammar
open Scad.Lex

attribute [local simp] Form.children Form.fields Field.children

/-- What is read with the levels `inner` left can be read again with `outer` left:
statements, too. -/
structure ConvertsAll (inner outer : Level) : Prop extends Converts inner outer where
  ofIfEnd : ∀ {ts}, inner.ifEnd ts → NearestElse ts
  block : ∀ {ts ss rest}, inner.statements ts ss rest → TextsMatchKinds ts →
    (∀ s ∈ ss, s.AllPrintable) → TextsMatchKinds rest ∧ LaysBlock outer ss
  instantiation : Rereads inner.instantiation fun x _ => LaysStatement outer.instantiation x
  /-- An `if` without an `else` at the end was not followed by one. -/
  trailing : ∀ {ts x rest}, inner.instantiation ts x rest → x.endsInIf → NearestElse rest

namespace Grammar

section Statements

variable {inner outer : Level} (h : ConvertsAll inner outer)

include h

theorem Child.trailing {ts rest : List Token} {c : Node} (hc : Child inner ts c rest)
    (he : c.endsInIf) : NearestElse rest := by
  cases hc with
  | empty _ => cases he
  | block hb =>
      cases hb
      cases he
  | instantiation hx => exact h.trailing hx he

theorem Payload.trailing {ts rest : List Token} {p : Node} (hp : Payload inner ts p rest)
    (he : p.endsInIf) : NearestElse rest := by
  cases hp with
  | ifThen _ _ _ hend => exact h.ofIfEnd hend
  | ifElse _ _ _ hb =>
      obtain ⟨-, hb⟩ := hb
      exact Child.trailing h hb he
  | remark _ _ hc | call _ _ hc => exact Child.trailing h hc he

theorem Child.rereads : Rereads (Child inner) fun c _ => LaysChild outer c := by
  intro ts c rest hc hl hg
  cases hc with
  | empty _ => exact ⟨hl.tail, laysChild_empty⟩
  | block hb =>
      obtain ⟨-, hss, -⟩ := hb
      obtain ⟨hrest, hs⟩ := h.block hss hl.tail fun s hs => hg.child (by simpa using hs)
      exact ⟨hrest.tail, laysChild_block hs⟩
  | instantiation hx =>
      obtain ⟨hrest, ls, hs⟩ := h.instantiation hx hl hg
      exact ⟨hrest, ls, hs.mono fun hx hr => .instantiation (hx.2 hr)⟩

theorem Payload.rereads : Rereads (Payload inner) fun p _ => LaysPayload outer p := by
  intro ts p rest hp hl hg
  cases hp with
  | ifThen _ hc ht _ =>
      obtain ⟨hmid, k, hsc⟩ := Condition.rereads h.toConverts hc hl.tail (hg.child (by simp))
      obtain ⟨hrest, hst⟩ := Child.rereads h ht hmid (hg.child (by simp))
      exact ⟨hrest, laysPayload_ifThen h.ifEnd hsc hst⟩
  | @ifElse _ _ c _ t _ e _ _ _ hc ht hb =>
      obtain ⟨hmid, k, hsc⟩ := Condition.rereads h.toConverts hc hl.tail (hg.child (by simp))
      obtain ⟨hnext, hst⟩ := Child.rereads h ht hmid (hg.child (by simp))
      have hopen : t.endsInIf = false := by
        cases he : t.endsInIf with
        | false => rfl
        | true => exact absurd hb.nextKind (Child.trailing h ht he)
      obtain ⟨-, hb⟩ := hb
      obtain ⟨hrest, hsb⟩ := Child.rereads h hb hnext.tail (hg.child (by simp))
      exact ⟨hrest, laysPayload_ifElse hopen hsc hst hsb⟩
  | remark _ has hc =>
      obtain ⟨hmid, hsas⟩ := Arguments.rereads h.toConverts has hl.tail fun a ha =>
        hg.child (by simp [ha])
      obtain ⟨hrest, hsc⟩ := Child.rereads h hc hmid (hg.child (by simp))
      exact ⟨hrest, laysPayload_remark hsas hsc⟩
  | call hk has hc =>
      have hhead := hg.child (List.mem_cons_self ..)
      obtain ⟨hmid, hsas⟩ := Arguments.rereads h.toConverts has hl.tail fun a ha =>
        hhead.child (by simp [ha])
      obtain ⟨hrest, hsc⟩ := Child.rereads h hc hmid (hg.child (by simp))
      exact ⟨hrest, laysPayload_call hk hl.head hsas hsc⟩

omit h in
theorem Marks.rereads {ts rest : List Token} {marks : List String}
    (hm : Repeated Mark ts marks rest) (hl : TextsMatchKinds ts) :
    TextsMatchKinds rest ∧ ∀ m ∈ marks, ∃ s ∈ Symbol.modifiers, m = s.text := by
  induction hm with
  | nil => exact ⟨hl, fun m hm => by cases hm⟩
  | cons hk _ ih =>
      obtain ⟨hk⟩ := hk
      obtain ⟨hrest, hms⟩ := ih hl.tail
      refine ⟨hrest, fun m hm => ?_⟩
      rcases List.mem_cons.1 hm with rfl | hm
      · obtain ⟨s, hs, rfl⟩ := Option.map_eq_some_iff.1 hk
        exact ⟨s, List.mem_of_find?_eq_some hs, rfl⟩
      · exact hms m hm

theorem Instantiation.rereads :
    Rereads (Instantiation inner) fun x _ => LaysStatement (Instantiation outer) x := by
  intro ts x rest hx hl hg
  obtain ⟨hm, hp⟩ := hx
  obtain ⟨hmid, hms⟩ := Marks.rereads hm hl
  obtain ⟨hrest, hs⟩ := Payload.rereads h hp hmid (hg.child (by simp))
  refine ⟨hrest, laysStatement_instantiation (fun n hn => hms n (NameSet.mem_ofList.1 hn)) ?_ hs⟩
  exact NameSet.ofList_names _

theorem Instantiation.trailing {ts rest : List Token} {x : Node}
    (hx : Instantiation inner ts x rest) (he : x.endsInIf) : NearestElse rest := by
  obtain ⟨-, hp⟩ := hx
  exact Payload.trailing h hp he

theorem Statement.rereads :
    Rereads (Statement inner) fun x _ => LaysStatement (Statement outer) x := by
  intro ts x rest hx hl hg
  induction hx with
  | empty _ => exact ⟨hl.tail, laysStatement_empty⟩
  | block hb =>
      obtain ⟨-, hss, -⟩ := hb
      obtain ⟨hrest, hs⟩ := h.block hss hl.tail fun s hs => hg.child (by simpa using hs)
      exact ⟨hrest.tail, laysStatement_block hs⟩
  | file _ hf => exact ⟨hl.tail.tail, laysStatement_file (hf ▸ hl.tail.head)⟩
  | assignment hk hv _ =>
      obtain ⟨hrest, k, hs⟩ := Value.rereads h.toConverts hv hl.tail (hg.child (by simp))
      exact ⟨hrest.tail, laysStatement_assignment (hk ▸ hl.head) hs⟩
  | function _ hk hps hv _ =>
      obtain ⟨hmid, hsps⟩ := Parameters.rereads h.toConverts hps hl.tail.tail fun p hp =>
        hg.child (by simp [hp])
      obtain ⟨hrest, k, hs⟩ := Value.rereads h.toConverts hv hmid (hg.child (by simp))
      exact ⟨hrest.tail, laysStatement_function (hk ▸ hl.tail.head) hsps hs⟩
  | module _ hk hps _ ih =>
      obtain ⟨hmid, hsps⟩ := Parameters.rereads h.toConverts hps hl.tail.tail fun p hp =>
        hg.child (by simp [hp])
      obtain ⟨hrest, hs⟩ := ih hmid (hg.child (by simp))
      exact ⟨hrest, laysStatement_module (hk ▸ hl.tail.head) hsps hs⟩
  | instantiation hx =>
      obtain ⟨hrest, hs⟩ := Instantiation.rereads h hx hl hg
      exact ⟨hrest, hs.mono .instantiation⟩

theorem Statements.rereads {ts rest : List Token} {ss : List Node}
    (hs : Repeated (Statement inner) ts ss rest) (hl : TextsMatchKinds ts)
    (hg : ∀ s ∈ ss, s.AllPrintable) :
    TextsMatchKinds rest ∧ ∀ s ∈ ss, LaysStatement (Statement outer) s := by
  induction hs with
  | nil => exact ⟨hl, fun s hs => by cases hs⟩
  | cons hs _ ih =>
      obtain ⟨hmid, hq⟩ := Statement.rereads h hs hl (hg _ (List.mem_cons_self ..))
      obtain ⟨hrest, hqs⟩ := ih hmid fun s hs => hg s (List.mem_cons_of_mem _ hs)
      refine ⟨hrest, fun s hs => ?_⟩
      rcases List.mem_cons.1 hs with rfl | hs
      · exact hq
      · exact hqs s hs

end Statements

section Levels

variable {inner outer : Level}

/-- A block is read again if its statements are. -/
theorem laysBlock_level {ifEnd : List Token → Prop} {n : Nat} {ss : List Node}
    (h : ∀ s ∈ ss, LaysStatement (Statement (level ifEnd n)) s) :
    LaysBlock (level ifEnd (n + 1)) ss := by
  intro i
  have hblank : Piece.isBlank ' ' := rfl
  obtain ⟨ls, hss⟩ := lays_statements hblank h
  obtain ⟨texts, htexts, hjoin⟩ := of_renderAll hss.text
  cases ss with
  | nil =>
      refine ⟨[sign .leftBrace, gap, sign .rightBrace], ok_text (by simp [Symbol.text]),
        fun _ => ?_, fun hs => ?_⟩
      · simp [Meets]
      · simp only [spelled_sign, spelled_gap, spelled_nil] at hs
        obtain ⟨l, us, rfl, hl, -, r, vs, rfl, hr, -, rfl⟩ := hs
        exact ⟨hl, .nil, hr⟩
  | cons s ss =>
      refine ⟨sign .leftBrace :: gap :: (ls ++ [gap, sign .rightBrace]), ?_, fun _ => ?_,
        fun hs => ?_⟩
      · rw [Node.render, renderList_eq, htexts]
        · exact ok_text (by simp [← hjoin, Symbol.text])
        · simp
      · simp [Meets, hss.spaced]
      · simp only [spelled_sign, spelled_gap, spelled_append, spelled_nil] at hs
        obtain ⟨l, us, rfl, hl, -, mid, h1, r, vs, rfl, hr, -, rfl⟩ := hs
        exact ⟨hl, (hss.reads h1 (nearestElse_cons hr)).2, hr⟩

theorem level_converts (n : Nat) : ∀ m, n ≤ m →
    ConvertsAll (level NearestElse n) (level NearestElse m) := by
  induction n with
  | zero =>
      intro m _
      refine ⟨⟨fun hend => ?_, ?_, ?_, ?_, ?_⟩, id, ?_, ?_, ?_⟩
      · cases m <;> exact hend
      all_goals
        intro ts x rest hx
        exact hx.elim
  | succ n ih =>
      intro m hm
      cases m with
      | zero => omega
      | succ m =>
          have hin := ih m (by omega)
          have hout := ih (m + 1) (by omega)
          refine ⟨⟨id, Expression.rereads hin.toConverts, Unary.rereads hin.toConverts,
            Element.rereads hin.toConverts, Element.rereads hout.toConverts⟩, id,
            fun hs hl hg => ?_, Instantiation.rereads hin, Instantiation.trailing hin⟩
          obtain ⟨hrest, hss⟩ := Statements.rereads hin hs hl hg
          exact ⟨hrest, laysBlock_level hss⟩

end Levels

end Grammar

end Scad
