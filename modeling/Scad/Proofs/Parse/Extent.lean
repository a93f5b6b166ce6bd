import Scad.Proofs.Parse.Acceptance
import Scad.Proofs.Parse.Order
import Scad.Proofs.Tree.Extent

/-! Which tokens the nodes of a tree are made of. If nothing is reported, a node that is made spans
what was read for it. So the statements of a text stand one behind the other, each on tokens that
are a statement. -/
namespace Scad.Parse

open Grammar (Level)

/-- The tokens that a piece was read from, if nothing was reported. -/
def Piece.Covers : Piece → List Token → Prop
  | .ahead _, ts => ts = []
  | .passed, ts => ts ≠ []
  | .reported, _ | .skipped, _ => False
  | .opened t ns _, ts => ts.head? = some t ∧ Spread Node.Spans ns ts
  | .tree n _, ts => n.Spans ts
  | .element n _, ts => Spread Node.Spans [n] ts
  | .trees ns _, ts => Spread Node.Spans ns ts

/-- The state behind some tokens. If nothing was reported, the last of them was consumed last, and
they are as `P` says. -/
def StateBehind (P : List Token → Prop) (s s' : State) : Prop :=
  Follows s' s ∧ (Clean s' → Clean s ∧ ∃ ts, s.rest = ts ++ s'.rest ∧
    s'.previous = ts.getLast?.getD s.previous ∧ P ts)

namespace StateBehind

variable {P Q R : List Token → Prop} {s s' s'' : State}

theorem mono (h : StateBehind P s s') (hPQ : ∀ ts, P ts → Q ts) : StateBehind Q s s' := by
  refine ⟨h.1, fun hc => ?_⟩
  obtain ⟨hc', ts, hts, hprevious, hp⟩ := h.2 hc
  exact ⟨hc', ts, hts, hprevious, hPQ ts hp⟩

theorem append (h : StateBehind P s s') (h' : StateBehind Q s' s'')
    (hR : ∀ ts us, P ts → Q us → R (ts ++ us)) :
    StateBehind R s s'' := by
  refine ⟨h'.1.trans h.1, fun hc'' => ?_⟩
  obtain ⟨hc', us, hus, hprevious', hq⟩ := h'.2 hc''
  obtain ⟨hc, ts, hts, hprevious, hp⟩ := h.2 hc'
  refine ⟨hc, ts ++ us, by rw [hts, hus, List.append_assoc], ?_, hR ts us hp hq⟩
  rw [hprevious', hprevious, List.getLast?_append]
  cases us.getLast? <;> rfl

/-- A step that consumes nothing. -/
theorem still (hr : Recorded s') (hc : Clean s' → Clean s) (hrest : s'.rest = s.rest)
    (hprevious : s'.previous = s.previous) (hP : P []) : StateBehind P s s' :=
  ⟨⟨hrest ▸ List.suffix_refl _, hr⟩, fun hclean => ⟨hc hclean, [], by rw [hrest]; rfl,
    hprevious, hP⟩⟩

/-- The token ahead is the first of those that were read. -/
theorem first (src : Source) (h : StateBehind P s s') (hne : ∀ ts, P ts → ts ≠ []) :
    StateBehind (fun ts => ts.head? = some (ahead src s.rest) ∧ P ts) s s' := by
  refine ⟨h.1, fun hc => ?_⟩
  obtain ⟨hc', ts, hts, hprevious, hp⟩ := h.2 hc
  obtain ⟨t, us, rfl⟩ := List.exists_cons_of_ne_nil (hne ts hp)
  exact ⟨hc', _, hts, hprevious, by rw [hts]; rfl, hp⟩

/-- What was read becomes a node. -/
theorem make {src : Source} {t : Token} {form : Form Node}
    (h : StateBehind (fun ts => ts.head? = some t ∧ Spread Node.Spans form.written ts) s s') :
    StateBehind (s'.nextNode src t form).Spans s (s'.withNode (s'.nextNode src t form)) := by
  refine ⟨⟨h.1.suffix, h.1.recorded⟩, fun hc => ?_⟩
  obtain ⟨hc', ts, hts, hprevious, hfirst, hparts⟩ := h.2 hc
  refine ⟨hc', ts, hts, hprevious, ?_⟩
  cases hlast : ts.getLast? with
  | none =>
      rw [List.getLast?_eq_none_iff.1 hlast] at hfirst
      cases hfirst
  | some last =>
      refine .mk hfirst hlast ?_ hparts
      rw [hlast] at hprevious
      rw [← show s'.previous = last from hprevious]
      rfl

/-- What was reported stays reported. -/
theorem dirty (h : Follows s' s) (hc : ¬ Clean s') : StateBehind P s s' := ⟨h, fun h => absurd h hc⟩

end StateBehind

/-- A report in the text is noticed. -/
theorem follows_report {src : Source} {s : State} (message : String) (hl : Legible src True s.rest)
    (hr : Recorded s) : (report message (ahead src s.rest).span src s).Ends
      (fun _ s' => Follows s' s ∧ ¬ Clean s') (fun _ => False) True := by
  have hcalm := MakesNoNodes.report message (ahead src s.rest).span src s
  refine (hcalm.and (clean_report message _ src s)).mono (fun _ s' h => ?_) fun _ h => h.1
  refine ⟨⟨h.1.suffix, h.1.recorded hr⟩, fun hc => ?_⟩
  have hplaced := hl.ahead_placed
  have hbefore := h.2 hr hc
  omega

def covering : Interpretation where
  placed := True
  breaks := True
  start src s := Legible src True s.rest ∧ Recorded s
  reads _ p s s' := StateBehind p.Covers s s'
  lost _ s s' := Follows s' s ∧ ¬ Clean s'
  start_reads hs h := ⟨hs.1.suffix h.1.suffix, h.1.recorded⟩
  lost_behind _ h h' := ⟨h'.1.trans h.1, h'.2⟩
  start_deeper hs := hs
  reads_leave h := ⟨⟨h.1.suffix, h.1.recorded⟩, h.2⟩
  lost_leave h := ⟨⟨h.1.suffix, h.1.recorded⟩, h.2⟩
  advance {src s t rest} hs hr :=
    ⟨⟨hr ▸ List.suffix_cons t rest, hs.2⟩, fun hc => ⟨hc, [t], hr, rfl, List.cons_ne_nil t []⟩⟩
  ending hs _ hp := absurd hs.1.stopKind (hp trivial)
  passed_append _ h h' := h.append h' fun _ us hts _ => List.append_ne_nil_of_left_ne_nil hts us
  note {src s e} hs he := by
    have hcalm : KeepsNodes s { s with events := s.events.push e } :=
      .of_event he rfl rfl (List.suffix_refl _) rfl
    exact .still (hcalm.recorded hs.2) hcalm.clean rfl rfl .nil
  report hs _ := (follows_report _ hs.1 hs.2).mono (fun _ _ h => .dirty h.1 h.2) fun _ h => h
  unmatched {src s} hs hk := by
    obtain ⟨t, rest, hr, ht⟩ := cons_of_nextKind (hs.1.ahead_kind.symm.trans hk) (by simp)
    rw [dropBrace_cons hr]
    have hcalm : KeepsNodes s s.dropping := .of_event rfl rfl rfl (List.suffix_refl _) rfl
    have hbehind : Follows (s.dropping.behind t rest) s :=
      ⟨hr ▸ List.suffix_cons t rest, hcalm.recorded hs.2⟩
    have hplaced := hs.1.placed t (hr ▸ List.mem_cons_self ..)
    refine ((MakesNoNodes.report _ t.span src _).and (clean_report _ t.span src _)).mono
      (fun _ s' h => ?_) fun _ h => h.1
    refine .dirty (.trans ⟨h.1.suffix, h.1.recorded hbehind.recorded⟩ hbehind) fun hc => ?_
    have hbefore := h.2 hbehind.recorded hc
    omega
  give_up _ h := ⟨h.1, fun hc => by
    obtain ⟨_, _, _, _, hnever⟩ := h.2 hc
    exact hnever⟩
  passed_reported _ h h' := h.append h' fun _ _ _ => id
  skip {src s s'} _ h _ := by
    have hcalm : (synchronize src s').Ends (fun _ s'' => KeepsNodes s' s'') (fun _ => False) True :=
      MakesNoNodes.synchronize src s'
    exact hcalm.mono (fun _ s'' hc => .dirty ⟨hc.suffix.trans h.1.suffix, hc.recorded h.1.recorded⟩
      fun hclean => h.2 (hc.clean hclean)) fun _ h => h
  number _ _ := .inr trivial
  trees_nil hs := .still hs.2 id rfl rfl .nil
  trees_append _ h h' := h.append h' fun _ _ => Spread.append
  raise {src p k s s'} h _ := by cases p <;> exact h
  gather {src p s s'} h := h.mono fun ts hts => by
    cases p with
    | tree => exact .single hts
    | opened => exact hts.2
    | element | trees => exact hts
    | _ => exact .nil
  element h := h.mono fun _ hn => Spread.single hn
  enclosed _ h h' h'' := h.append (h'.append h'' fun _ us hn _ => Spread.behind hn us)
    fun ts _ _ hn => Spread.before ts hn
  open_passed _ h := (h.first _ fun _ => id).mono fun _ hts => ⟨hts.1, .nil⟩
  open_tree _ h := (h.first _ fun _ => Node.Spans.ne_nil).mono fun _ hts => ⟨hts.1, .single hts.2⟩
  opened_append _ h h' := h.append h' fun _ _ hts hus =>
    ⟨by rw [List.head?_append, hts.1]; rfl, hts.2.append hus⟩
  make _ h _ := h.make
  checked {src t ns k l s s'} _ h _ _ := by
    rw [← Form.written_vector ns] at h
    refine ((MakesNoNodes.checkUniform ns src _).and (sameButErrors_checkUniform ns src _)).mono
      (fun _ s'' hc => ?_) fun _ h => h.1
    have hmade : StateBehind (s'.nextNode src t (.vector ns)).Spans s
        (s'.withNode (s'.nextNode src t (.vector ns))) :=
      StateBehind.make h
    refine hmade.append (Q := (· = [])) ?_ fun ts us hts hus => ?_
    · exact .still (hc.1.recorded h.1.recorded) hc.1.clean hc.2.rest hc.2.previous rfl
    · rw [hus, List.append_nil]
      exact hts
  missing {src t s s'} _ h := by
    have hempty : StateBehind (fun ts => ts.head? = some t ∧
        Spread Node.Spans (Form.empty : Form Node).written ts) s s' :=
      h.mono fun _ => False.elim
    exact hempty.make.mono fun _ hn => Spread.single hn

/-! ### Statements -/

def MadeOf (inner : Level) (n : Node) (ts : List Token) : Prop :=
  n.Spans ts ∧ ∃ rest, Grammar.Statement inner (ts ++ rest) n rest

section

variable {src : Source} {inner : Level} {inBlock : Bool}

/-- A pass over a statement list with the tokens that the statement spans. -/
def CoveredPass (inner : Level) (inBlock : Bool) : Grammar.Phrase (Option (Option Node)) :=
  fun ts o rest =>
  Pass inner inBlock ts o rest ∧ ∀ n, o = some (some n) → ∃ us, ts = us ++ rest ∧ n.Spans us

theorem reads_coveredPass (budget : Nat) : Reads src True
    (statementStep (statementRules budget) (expressionRules budget) inBlock)
    (CoveredPass (Grammar.level Grammar.NearestElse budget) inBlock) := by
  intro s hs hr
  have hbuilds := builds_statementStep (I := covering) (builds_statementRules budget)
    (builds_expressionRules budget) inBlock src s s ⟨hs, hr⟩ rfl
  refine ((reads_statementStep (sound_statementRules budget) inBlock s hs hr).and hbuilds).mono
    (fun o s' ⟨hreads, hpieces⟩ => ⟨hreads.1, fun hc => ⟨(hreads.2 hc).1, (hreads.2 hc).2, ?_⟩⟩)
      fun _ h => h.1
  rintro n rfl
  obtain ⟨_, htree, rfl⟩ := hpieces
  obtain ⟨-, us, hus, -, hspans⟩ := htree.2 hc
  exact ⟨us, hus, hspans⟩

theorem Iterated.madeOf {ts rest : List Token} {found : List (Option Node)}
    (h : Iterated (CoveredPass inner inBlock) ts found rest) :
    ∃ us, ts = us ++ rest ∧ Spread (MadeOf inner) (found.filterMap id) us := by
  induction h with
  | stop hstop =>
      obtain ⟨⟨rfl, -⟩, -⟩ := hstop
      exact ⟨[], rfl, .nil⟩
  | step hstep _ ih =>
      obtain ⟨⟨n, rfl, hn⟩, hcovered⟩ := hstep
      obtain ⟨us, rfl, hspans⟩ := hcovered n rfl
      obtain ⟨vs, rfl, hmade⟩ := ih
      have hone : Spread (MadeOf inner) [n] us := .single ⟨hspans, _, hn⟩
      exact ⟨us ++ vs, (List.append_assoc ..).symm, hone.append hmade⟩

theorem reads_madeOf : Reads src True program fun ts ns rest => ∃ us, ts = us ++ rest ∧
    Spread (MadeOf (Grammar.level Grammar.NearestElse maxNesting)) ns us := by
  have hshrink : ∀ ts found rest,
      CoveredPass (Grammar.level Grammar.NearestElse maxNesting) false ts (some found) rest →
        rest.length < ts.length := by
    rintro ts found rest ⟨⟨n, -, hn⟩, -⟩
    exact Grammar.Statement.shrinks (Grammar.level_shrinking _ maxNesting) hn
  refine (((reads_coveredPass maxNesting).many hshrink).bind fun found =>
    Reads.pure (found.filterMap id)).mono ?_
  rintro ts ns rest - ⟨found, _, hfound, rfl, rfl⟩
  exact hfound.madeOf

end

/-- The statements of a text without errors stand one behind the other in it. -/
theorem made_of_parse {tokens : List Token} {origin : Option String} {p : Parsed}
    (hl : Legible (source tokens origin) True (body tokens)) (h : parse tokens origin = .ok p)
    (hc : p.document.syntaxErrors = []) :
    Spread (MadeOf (Grammar.level Grammar.NearestElse maxNesting)) p.document.statements
      (body tokens) := by
  have hrun := reads_madeOf (initial tokens origin) hl fun _ => rfl
  rw [parse_eq] at h
  cases ho : program (source tokens origin) (initial tokens origin) with
  | done ss s =>
      rw [ho] at h hrun
      cases h
      obtain ⟨-, ts, hts, hmade⟩ := hrun.2 hc
      have hbody : body tokens = ts ++ s.rest := hts
      rw [hbody]
      exact hmade.behind s.rest
  | abandoned s =>
      rw [ho] at h hrun
      cases h
      exact (hrun.2 hc).elim
  | broken fault =>
      rw [ho] at h
      cases h

end Scad.Parse
