import Scad.Proofs.Render.Intact
import Scad.Proofs.Tree.Same

/-! Which vectors are read back from their texts. The parentheses around an element are lost, so an
`else` whose branch before it ends in an `if` without one goes to that `if`. -/
namespace Scad

open Lexeme (Closed)
open Parse (maxNesting source)
open Grammar

/-! ### Reading an expression back -/

/-- The expression that a text stands for where it is the value of an assignment. -/
def expression? (text : String) : Option Node :=
  let scanned := tokenize ("x = " ++ text ++ ";") ""
  match scanned.faults, parse scanned.tokens none with
  | [], .ok p =>
      match p.document.syntaxErrors, p.document.statements with
      | [], [⟨_, .assignment _ e⟩] => some e
      | _, _ => none
  | _, _ => none

theorem expression?_iff {text : String} {e : Node} : expression? text = some e ↔
    (tokenize ("x = " ++ text ++ ";") "").faults = [] ∧
      ∃ p, parse (tokenize ("x = " ++ text ++ ";") "").tokens none = .ok p ∧
      p.document.syntaxErrors = [] ∧
        ∃ i t, p.document.statements = [⟨i, .assignment t e⟩] := by
  simp only [expression?]
  constructor
  · intro h
    split at h
    · rename_i p hfaults hp
      split at h
      · rename_i hc hss
        cases h
        exact ⟨hfaults, p, hp, hc, _, _, hss⟩
      · cases h
    · cases h
  · rintro ⟨hfaults, p, hp, hc, i, t, hss⟩
    simp [hfaults, hp, hc, hss]

namespace Node

/-- Whether the text of a node is read as a vector that says the same. -/
def readsBack (n : Node) : Bool :=
  n.render.toOption.any fun text => (expression? text).any fun e => e.kind = .vector && n.same e

/-- Whether no `if` before an `else` would take it. -/
def keepsElse (n : Node) : Bool :=
  match n.form with
  | .ifElement _ t (some _) => !t.endsInIf
  | _ => true

theorem readsBack_iff {n : Node} : n.readsBack ↔
    ∃ text e, n.render = .ok text ∧ expression? text = some e ∧ e.kind = .vector ∧ n.same e := by
  rw [readsBack]
  cases n.render with
  | error f => simp [Except.toOption]
  | ok text => simp [Except.toOption, Option.any_eq_true]

attribute [local simp] Form.fields Field.map sameFields sameField

theorem keepsElse_of_same {a b : Node} (h : a.same b) (hb : b.keepsElse) : a.keepsElse := by
  obtain ⟨i, f⟩ := a
  cases f with
  | ifElement c t e =>
      cases e with
      | none => rfl
      | some e =>
          obtain ⟨j, g⟩ := b
          have hk := kind_of_same h
          have hfields := fields_of_same h
          cases g <;> try cases hk
          rename_i c' t' e'
          cases e' with
          | none => simp at hfields
          | some e' =>
              have hthen : t.same t' := by
                simp at hfields
                exact hfields.2.1
              simp only [keepsElse, form, Bool.not_eq_true', ← Bool.not_eq_true] at hb ⊢
              exact fun hopen => hb (endsInIf_of_same hthen hopen)
  | _ => rfl

end Node

namespace Grammar

/-! ### Where an `else` goes -/

def Ends (P : Phrase Node) : Prop := ∀ ⦃ts x rest⦄, P ts x rest → x.endsInIf = false

section

variable {inner : Level}

theorem Primary.ends : Ends (Primary inner) := by
  intro ts x rest h
  cases h <;> rfl

theorem Suffixed.ends : Ends (Suffixed inner) := by
  intro ts x rest h
  cases h with
  | plain h => exact Primary.ends h
  | call => rfl

theorem Power.ends : Ends (Power inner) := by
  intro ts x rest h
  cases h with
  | plain h => exact Suffixed.ends h
  | raised => rfl

theorem Unary.ends : Ends (Unary inner) := by
  intro ts x rest h
  cases h with
  | plain h => exact Power.ends h
  | sign => rfl

theorem Chain.ends {level : ChainLevel} {P : Phrase Node} (h : Ends P) : Ends (Chain level P) := by
  intro ts x rest hx
  cases hx with
  | single hx => exact h hx
  | several => rfl

theorem Chains.ends : Ends (Chains inner) :=
  Chain.ends <| Chain.ends <| Chain.ends <| Chain.ends <| Chain.ends <| Chain.ends Unary.ends

theorem Ternary.ends : Ends (Ternary inner) := by
  intro ts x rest h
  cases h with
  | plain h => exact Chains.ends h
  | choice => rfl

theorem Expression.ends (h : Ends inner.expression) : Ends (Expression inner) := by
  intro ts x rest hx
  cases hx with
  | letIn _ _ hb =>
      rw [Node.endsInIf]
      exact h hb
  | remark | remarkOn | functionLiteral => rfl
  | ternary hx => exact Ternary.ends hx

theorem level_ends {ifEnd : List Token → Prop} (n : Nat) : Ends (level ifEnd n).expression := by
  induction n with
  | zero => exact fun _ _ _ h => h.elim
  | succ n ih => exact Expression.ends ih

end

section

variable {whole : List Token} {inner : Level} (hl : TextsMatchKinds whole)
  (hu : Ungrouped false (whole.map Token.spelling))

/-- An `if` without an `else` at the end is not followed by one. -/
def Nearest (whole : List Token) (P : Phrase Node) : Prop :=
  ∀ ⦃ts x rest⦄, P ts x rest → ts <:+ whole → x.endsInIf → NearestElse rest

include hl hu

theorem Element.nearest (h : inner.Making whole fun _ => True)
    (hexpression : Ends inner.expression) (helement : Nearest whole inner.element)
    (hend : ∀ {rest}, inner.ifEnd rest → NearestElse rest) :
    Nearest whole (Element inner) := by
  intro ts x rest hx hs hopen
  cases hx with
  | loop _ hh hb =>
      exact helement hb (Between.makes (LoopHead.makes hl h) hh (suffix_tail hs)).1 hopen
  | each _ hb => exact helement hb (suffix_tail hs) hopen
  | ifThen _ _ _ hr => exact hend hr
  | ifElse _ hc ht he =>
      have hmid := (Condition.makes h hc (suffix_tail hs)).1
      have hnext := (h.element ht hmid).1
      obtain ⟨-, he⟩ := he
      exact helement he (suffix_tail hnext) hopen
  | letIn _ has hb => exact helement hb (Assignments.makes hl h has (suffix_tail hs)).1 hopen
  | @group l g ts _ _ hx hg =>
      obtain ⟨front, rfl⟩ := hs
      rw [List.map_append] at hu
      have hfirst := hu.behind.2.1 (decide_eq_true hx.nextKind)
      cases hfirst.symm.trans hg
  | plain hx _ =>
      have hclosed := hexpression hx
      rw [hopen] at hclosed
      cases hclosed

theorem level_nearest (n : Nat) : Nearest whole (level NearestElse n).element := by
  induction n with
  | zero => exact fun _ _ _ h => h.elim
  | succ n ih =>
      refine Element.nearest hl hu (level_rooting hl fun _ _ => trivial)
        (level_ends n) ih fun {rest} hend => ?_
      cases n <;> exact hend

/-- What is made of tokens without such parentheses keeps every `else`. -/
theorem Program.keepsElse {n : Nat} {ss : List Node} (h : Program NearestElse n whole ss) :
    ∀ s ∈ ss, ∀ m ∈ s.preorder, m.keepsElse := by
  intro s hs m hm
  have hstems := h.rooted hl s hs m hm
  obtain ⟨i, f⟩ := m
  cases f with
  | ifElement c t e =>
      cases e with
      | none => rfl
      | some e =>
          obtain ⟨_, ts, rest, ⟨k, -, rfl⟩, hsuffix, ht, helse⟩ := hstems.ifElse c t e rfl
          refine Bool.not_eq_true' _ ▸ Bool.eq_false_iff.2 fun hopen => ?_
          exact level_nearest hl hu k ht hsuffix hopen helse
  | _ => rfl

end

end Grammar

/-! ### Vectors -/

theorem isTextOf_x : IsTextOf .identifier "x" :=
  ⟨⟨⟨['x'], .inl rfl, by simp, List.forall_mem_singleton.2 rfl⟩, by decide +kernel⟩,
    by decide +kernel⟩

/-- No generator stands behind a parenthesis in the text of an expression with an
assignment around it. -/
theorem Node.Writes.assigned {n : Node} {p : Passage} (h : n.Writes p) :
    ∃ ts mark, (tokenize ("x = " ++ p.text ++ ";") "").tokens = ts ++ [mark] ∧
    Ungrouped false (ts.map Token.spelling) := by
  let around := Passage.join [.name "x" isTextOf_x, .gap, .sign .assign, .gap, p, .sign .semicolon]
  have htext : around.text = "x = " ++ p.text ++ ";" := by
    rw [← String.toList_inj]
    simp [around, Passage.join, Symbol.text]
  have hfollow : around.follow [] := by
    simp [around, Passage.join, Lexeme.Meets, Symbol.text, h.closed, delimits_signs, ends_signs]
  have hungrouped : Ungrouped false around.found := by
    simp [around, Passage.join, h.within, Parse.startsGenerator]
  obtain ⟨-, ts, mark, htokens, hfound⟩ := tokenize_of_cuts (around.scans.cuts hfollow) ""
  rw [htext] at htokens
  exact ⟨ts, mark, htokens, hfound ▸ hungrouped⟩

theorem assignment_of_bare {ss : List Node} {i : Info} {t e : Node}
    (h : ss.map Node.bare = [⟨i, .assignment t e⟩].map Node.bare) :
    ∃ j t' e', ss = [⟨j, .assignment t' e'⟩] ∧ e'.bare = e.bare := by
  obtain ⟨s, rfl, hs⟩ := List.map_eq_singleton_iff.1 h
  obtain ⟨j, f⟩ := s
  have hform : f.map Node.bare = .assignment t.bare e.bare := by
    rw [Node.bare_mk] at hs
    exact congrArg Node.form hs
  cases f with
  | assignment t' e' => exact ⟨j, t', e', rfl, (Form.assignment.inj hform).2⟩
  | _ => cases hform

/-- A layout that is read as a program is scanned and parsed without faults, to a document that
says the same. -/
theorem Parse.parse_layout {ls : List Lex} {ss : List Node} (hspaced : Lex.Spaced ls [])
    (hreads : ∀ {us}, Lex.Spelled ls us [] → Program NearestElse maxNesting us ss) (origin : String)
    (name : Option String) : (tokenize (Lex.textAll ls) origin).faults = [] ∧
      ∃ q, parse (tokenize (Lex.textAll ls) origin).tokens name = .ok q ∧
      q.document.syntaxErrors = [] ∧
        q.document.statements.map Node.bare = ss.map Node.bare := by
  obtain ⟨hfaults, us, mark, htokens, hmark, hspelled⟩ := Lex.tokenize_layout hspaced origin
  have hrun := (textsMatchKinds_of_tokens htokens).running
  have hstop : (source (us ++ [mark]) name).stop.kind = .eof := by
    rw [Parse.stop_append hrun hmark]
    exact hmark
  rw [htokens]
  exact ⟨hfaults,
    Parse.parse_complete hstop (by rw [Parse.body_append hrun hmark]; exact hreads hspelled)⟩

/-- What was read as part of a vector at some depth is read again from its text. -/
theorem Grammar.Primary.readsBack {k : Nat} (hk : k < maxNesting) {ts rest : List Token} {v : Node}
    (h : Primary (level NearestElse k) ts v rest) (hl : TextsMatchKinds ts) (hg : v.AllPrintable) :
    ∃ text e, v.render = .ok text ∧ expression? text = some e ∧ v.same e := by
  have hconv := (level_converts k (maxNesting - 1) (Nat.le_sub_one_of_lt hk)).toConverts
  obtain ⟨-, hshows⟩ := Primary.rereads hconv h hl hg
  have hexpression : Shows Closed (level NearestElse maxNesting).expression v (nextKind ts) :=
    (hshows.weaken fun hcs => hcs.followsPrimary v).mono fun hv =>
      .ternary <| .plain <| .single <| .single <| .single <| .single <| .single <| .single <| .plain
        <| .plain <| .plain hv
  obtain ⟨ls, hls⟩ := laysStatement_assignment (i := Node.blank)
    (j := Node.blank) isTextOf_x hexpression
  obtain ⟨text, htext, hwhole⟩ : ∃ text, v.render = .ok text ∧
    Lex.textAll ls = "x = " ++ text ++ ";" := by
    have hrender := hls.text
    rw [Node.render, Node.render] at hrender
    cases hv : v.render with
    | error f => rw [hv] at hrender; cases hrender
    | ok text =>
        rw [hv] at hrender
        exact ⟨text, rfl, (Except.ok.inj hrender).symm⟩
  have hprogram : ∀ {us}, Lex.Spelled ls us [] → Program NearestElse maxNesting us _ :=
    fun hspelled =>
    .cons ((hls.reads hspelled).2 nofun) .nil
  obtain ⟨hfaults, p, hp, hc, hbare⟩ := Parse.parse_layout (hls.spaced trivial) hprogram "" none
  obtain ⟨i, t, e, hstatements, he⟩ := assignment_of_bare hbare
  rw [hwhole] at hfaults hp
  exact ⟨text, e, htext, expression?_iff.2 ⟨hfaults, p, hp, hc, i, t, hstatements⟩,
    Node.same_of_bare he.symm⟩

namespace Node

theorem isContained_of_children {n : Node} (h : ∀ c ∈ n.children, c.kind ≠ .memberSuffix) :
    n.isContained := by
  obtain ⟨i, f⟩ := n
  cases f with
  | call t ss =>
      have hnames : ∀ s ∈ ss, !s.namesFile := by
        intro s hs
        have hk : s.kind ≠ .memberSuffix :=
          h s (show s ∈ (Form.call t ss).children by simp [Form.children, Form.fields,
            Field.children, hs])
        obtain ⟨j, g⟩ := s
        cases g with
        | memberSuffix m => exact absurd rfl hk
        | _ => rfl
      exact Bool.or_eq_true_iff.2 (.inr (List.all_eq_true.2 hnames))
  | _ => rfl

theorem printable_of_parts {n : Node} (hk : n.kind ≠ .memberSuffix)
    (h : ∀ c ∈ n.children, c.kind ≠ .memberSuffix) (hfinite : n.isFinite) (helse : n.keepsElse) :
    n.Printable := by
  refine ⟨fun v hv => ?_, fun t s ss v m ht _ hs => ?_, fun m c hm _ => ?_, fun c t e ht => ?_⟩
  · rwa [isFinite, hv] at hfinite
  · have hchild : s ∈ n.children := by simp [children, ht, Form.children, Form.fields,
      Field.children]
    exact absurd (show s.kind = .memberSuffix by rw [kind, hs]; rfl) (h s hchild)
  · exact absurd (show n.kind = .memberSuffix by rw [kind, hm]; rfl) hk
  · rw [keepsElse, ht] at helse
    exact (Bool.not_eq_true' _).mp helse

end Node

/-- In a text without errors and without members, a vector is read back from its own text exactly if
every number in it is finite and no `else` in it stands behind an `if` that would take it. -/
theorem vector_readsBack {text name : String} {origin : Option String} {p : Parse.Parsed}
    (hp : parse (tokenize text name).tokens origin = .ok p) (hc : p.document.syntaxErrors = [])
    (hmembers : ∀ n ∈ p.document.walk, n.kind ≠ .memberSuffix) {v : Node} (hv : v ∈ p.document.walk)
    (hk : v.kind = .vector) : v.readsBack ↔ ∀ m ∈ v.preorder, m.isFinite ∧ m.keepsElse := by
  obtain ⟨ts, hl, hclean⟩ := Parse.clean_walk hp hc
  have hnodes := hclean v hv
  have hplain : ∀ m ∈ v.preorder, m.kind ≠ .memberSuffix := fun m hm =>
    hmembers m ((Node.sublist_walkFrom hv).subset hm)
  have hchildren : ∀ m ∈ v.preorder, ∀ c ∈ m.children, c.kind ≠ .memberSuffix := fun m hm c hc =>
    hplain c (Node.child_mem_preorder hm hc)
  rw [Node.readsBack_iff]
  constructor
  · rintro ⟨written, e, hrender, he, -, hsame⟩
    have hfinite := (Node.render_iff fun m hm => (hnodes m hm).1).1.1 ⟨written, hrender⟩
    have hintact : v.Intact := fun m hm =>
      ⟨(hnodes m hm).1, (hnodes m hm).2.textsScanned, hfinite m hm,
        Node.isContained_of_children (hchildren m hm)⟩
    obtain ⟨passage, hwrites⟩ := hintact.writes (by rw [hk]; rfl)
    obtain rfl := Except.ok.inj (hrender.symm.trans (hwrites.render (by simp [hk])))
    obtain ⟨-, q, hq, hqc, i, t, hstatements⟩ := expression?_iff.1 he
    obtain ⟨us, mark, htokens, hended⟩ := ended_tokenize ("x = " ++ passage.text ++ ";") ""
    obtain ⟨us', mark', htokens', hungrouped⟩ := hwrites.assigned
    obtain ⟨rfl, -⟩ := List.append_inj' (htokens.symm.trans htokens') rfl
    have hlawful := textsMatchKinds_of_tokens htokens
    rw [htokens] at hq
    have hkeeps := (hended.program hq hqc).keepsElse hlawful hungrouped
    rw [hstatements] at hkeeps
    intro m hm
    obtain ⟨n, hn, hmn⟩ := Node.exists_of_same hsame m hm
    refine ⟨hfinite m hm, Node.keepsElse_of_same hmn (hkeeps _ (List.mem_singleton_self _) n ?_)⟩
    exact (Node.sublist_preorder (Node.child_mem_preorder (Node.mem_preorder_self _)
      (show e ∈ (Form.assignment t e).children by
      simp [Form.children, Form.fields, Field.children]))).subset hn
  · intro hparts
    obtain ⟨_, us, rest, ⟨k, hlt, rfl⟩, hsuffix, hprimary⟩ :=
      (hnodes v v.mem_preorder_self).2.vector hk
    have hprintable : v.AllPrintable := fun m hm =>
      Node.printable_of_parts (hplain m hm) (hchildren m hm) (hparts m hm).1 (hparts m hm).2
    obtain ⟨written, e, hrender, he, hsame⟩ :=
      hprimary.readsBack hlt (fun t ht => hl t (hsuffix.subset ht)) hprintable
    exact ⟨written, e, hrender, he, (Node.kind_of_same hsame).symm.trans hk, hsame⟩

/-- Two vectors, one of them with a grouped `if` between an `if` and its `else`. -/
def groupedText : String := "x = [for (i = [0:2]) if (i) (if (j) (each k) else 1) else [if (i) 2]];"

theorem vector_readsBack_grouped : ∃ p, parse (tokenize groupedText "").tokens none = .ok p ∧
    p.document.syntaxErrors = [] ∧ (p.document.walk.filter (·.kind = .vector)).length = 2 ∧
    (∀ n ∈ p.document.walk, n.kind ≠ .memberSuffix) ∧ ∀ v ∈ p.document.walk, v.kind = .vector →
    v.readsBack := by
  have hgood : (parse (tokenize groupedText "").tokens none).toOption.map (fun p =>
      (p.document.syntaxErrors.isEmpty, (p.document.walk.filter (·.kind = .vector)).length,
        decide (∀ n ∈ p.document.walk, n.kind ≠ .memberSuffix),
        decide (∀ v ∈ p.document.walk, ∀ m ∈ v.preorder, m.isFinite ∧ m.keepsElse))) =
        some (true, 2, true, true) := by
    rw [groupedText, tokens_ofList]
    decide +kernel
  obtain ⟨p, hp, hfacts⟩ := Parse.exists_of_map hgood
  obtain ⟨herrors, hfacts⟩ := Prod.mk.inj hfacts
  obtain ⟨hvectors, hfacts⟩ := Prod.mk.inj hfacts
  obtain ⟨hmembers, hparts⟩ := Prod.mk.inj hfacts
  have hc := List.isEmpty_iff.1 herrors
  have hmembers := of_decide_eq_true hmembers
  exact ⟨p, hp, hc, hvectors, hmembers, fun v hv hk =>
    (vector_readsBack hp hc hmembers hv hk).2 (of_decide_eq_true hparts v hv)⟩

/-- A grouped `if` without an `else` takes the one behind its parentheses. -/
theorem vector_readsBack_not : ¬ ∀ (text name : String) (origin : Option String) (p : Parse.Parsed),
    parse (tokenize text name).tokens origin = .ok p → (tokenize text name).faults = [] →
      p.document.syntaxErrors = [] → (∀ n ∈ p.document.walk, n.kind ≠ .memberSuffix) →
      ∀ v ∈ p.document.walk, v.kind = .vector → v.readsBack := by
  intro h
  have hfails : (parse (tokenize "x = [if (a) (if (b) 1) else 2];" "").tokens none).toOption.map
    (fun p =>
      ((tokenize "x = [if (a) (if (b) 1) else 2];" "").faults.isEmpty &&
        p.document.syntaxErrors.isEmpty, decide (∀ n ∈ p.document.walk, n.kind ≠ .memberSuffix),
        decide (∀ v ∈ p.document.walk, v.kind = .vector → v.readsBack))) =
        some (true, true, false) := by
    decide +kernel
  obtain ⟨p, hp, hfacts⟩ := Parse.exists_of_map hfails
  obtain ⟨hclean, hfacts⟩ := Prod.mk.inj hfacts
  obtain ⟨hmembers, hreads⟩ := Prod.mk.inj hfacts
  obtain ⟨hfaults, hc⟩ := Bool.and_eq_true_iff.1 hclean
  exact absurd (h _ _ _ p hp (List.isEmpty_iff.1 hfaults) (List.isEmpty_iff.1 hc)
    (of_decide_eq_true hmembers)) (of_decide_eq_false hreads)

end Scad
