import Scad.Proofs.Parse.Effect.Expression

/-! What the productions for statements do. A block consumes its two braces, a recovery the rest of
an abandoned statement, and no other production consumes a brace. -/
namespace Scad.Parse

open Grammar (nextKind)

attribute [local simp] Form.children Form.fields Field.children Form.kind

variable {σ : Setting} {pre : List Token → Prop} {H : Prop}

def AtClose (ts : List Token) : Prop := nextKind ts = .symbol .rightBrace ∨ ts = []

/-- The brace that opens a block and the statements behind it are consumed, or nothing is. -/
def Opens (σ : Setting) (p : Parser (List Node)) : Prop :=
  ∀ {H : Prop} (s : State) (l : Token) (rest : List Token), (∀ t ∈ s.rest, σ.token t) →
    s.rest = l :: rest → l.kind = .symbol .leftBrace → (p σ.src s).Ends
      (fun ns s' => Leads σ H (∀ n ∈ ns, σ.Keeps (·.isStatement) n) (s.behind l rest) s' ∧
        AtClose s'.rest)
      (Leads σ H True s) σ.breaks

structure StatementsShaped (σ : Setting) (deeper : StatementRules) : Prop where
  block : Opens σ deeper.block
  instantiation : ∀ {pre H}, Guarantees σ pre H deeper.instantiation (σ.Keeps (· = .instantiation))

/-- A token of a kind is consumed, or its absence is reported. -/
theorem ends_expect {k : TokenKind} (hk : k ≠ .eof) (s : State) : (expect k σ.src s).Ends
    (fun o s' => match o with
      | some t => ∃ rest, s.rest = t :: rest ∧ t.kind = k ∧ s' = s.behind t rest
      | none => nextKind s.rest ≠ k ∧ SameButErrors s s') (fun _ => False) False := by
  have hn := Guarantees.nextKind_eq σ (rfl : ahead σ.src s.rest = _)
  show Outcome.Ends _ _ _ ((if (ahead σ.src s.rest).kind = k then _ else _ : Parser _) σ.src s)
  by_cases h : (ahead σ.src s.rest).kind = k
  · rw [if_pos h]
    cases hr : s.rest with
    | nil =>
        rw [hr] at h
        exact absurd (h.symm.trans σ.stop) hk
    | cons t rest =>
        rw [hr] at h
        show Outcome.Ends _ _ _ (Parser.bind advance _ σ.src s)
        unfold Parser.bind advance
        rw [hr]
        exact ⟨rest, rfl, h, rfl⟩
  · rw [if_neg h]
    refine (sameButErrors_report _ _ _ s).bind (fun _ s' hs => ?_) fun _ h => h
    exact ⟨hn ▸ h, hs⟩

theorem notes_push {s s' : State} {e : Event} (he : e.error? = none)
    (h : s'.events = s.events.push e) :
    s'.notes = s.notes ++ [e] := by
  simp [State.notes, h, he]

/-- The brace that closes a block is consumed, unless it is missing at the end. -/
theorem ends_closeBlock {Q : Prop} {s s' : State} {l : Token} {rest : List Token}
    (hr : s.rest = l :: rest) (hl : l.kind = .symbol .leftBrace)
    (h : Leads σ H Q (s.behind l rest) s') (hend : AtClose s'.rest) :
    (closeBlock s.position σ.src s').Ends
      (fun _ s'' => Leads σ H Q s s'') (fun _ => False) False := by
  obtain ⟨⟨hd, hm, ts, es, left, hts, hp, hn, ha, hleft⟩, hs⟩ := h
  simp only [State.behind] at hd hm hts hp ha
  have hstocked : ∀ {s'' : State}, s''.made = s'.made → s''.made.toList <+: σ.nodes → H →
      NodesWellFormed σ s → NodesWellFormed σ s'' ∧ Q := by
    intro s'' hmade hnodes hH hst
    obtain ⟨hst', hQ⟩ := hs (hmade ▸ hnodes) hH (hst.of_made rfl)
    exact ⟨hst'.of_made hmade, hQ⟩
  refine Outcome.Ends.bind (p := place) (D := fun a s'' => a = s'.position ∧ s'' = s') ⟨rfl, rfl⟩ ?_
    fun _ h => h
  rintro closing s'' ⟨rfl, rfl⟩
  refine (ends_expect (by decide) s'').bind (fun o s₁ ho => ?_) fun _ h => h
  cases o with
  | some r =>
      obtain ⟨behind, hr', hrk, rfl⟩ := ho
      obtain rfl : left = [] := hleft.resolve_right (by rw [hr']; exact List.cons_ne_nil _ _)
      refine ⟨⟨hd, hm, l :: (ts ++ [r]), es ++ [.block s.position s''.position], [], ?_, ?_,
        ?_, ?_, .inl rfl⟩, hstocked rfl⟩
      · simp [hr, hts, hr', State.behind]
      · simp [hp, State.behind]
        omega
      · rw [notes_push (s := s'') rfl rfl, hn, List.append_assoc]
        rfl
      · rw [hp]
        exact ha.block hl hrk
  | none =>
      obtain ⟨hne, hstill⟩ := ho
      have hnil : s₁.rest = [] := hstill.rest.trans (hend.resolve_left hne)
      refine ⟨⟨?_, ?_, l :: ts, es, left ++ [s.position], ?_, ?_, ?_, ha.opened hl, .inr hnil⟩,
        hstocked hstill.made⟩
      · rw [hstill.depth, hd]
      · rw [hstill.made]
        exact hm
      · rw [hr, hts, hstill.rest]
        rfl
      · rw [hstill.position, hp, List.length_cons]
        omega
      · rw [hstill.notes, hn]
        rfl

theorem plain_of_namesModule {k : TokenKind} (h : Grammar.namesModule k) : Plain k := by
  unfold Grammar.namesModule at h
  split at h <;> first | decide | cases h

theorem plain_of_modifier {k : TokenKind} {mark : String} (h : modifier? k = some mark) :
    Plain k := by
  obtain ⟨sign, hsign, -⟩ := Option.map_eq_some_iff.1 h
  have hk : k = .symbol sign := by simpa using List.find?_some hsign
  have hmem := List.mem_of_find?_eq_some hsign
  rw [hk]
  revert hmem
  cases sign <;> decide

section

variable {deeper : StatementRules} (hd : StatementsShaped σ deeper)

include hd

theorem guarantees_block (hpre : ∀ ts, pre ts → nextKind ts = .symbol .leftBrace) :
    Guarantees σ pre H (block deeper) (σ.Keeps (· = .block)) := by
  intro s ht hp
  cases hr : s.rest with
  | nil =>
      have := hpre _ hp
      rw [hr] at this
      cases this
  | cons l rest =>
      have hl : l.kind = .symbol .leftBrace := by
        have := hpre _ hp
        rw [hr] at this
        exact this
      show Outcome.Ends _ _ _ (Parser.bind deeper.block _ σ.src s)
      refine (hd.block (H := H) s l rest ht hr hl).bind ?_ fun _ h => h
      rintro ns s₁ ⟨h₁, hend⟩
      refine ((ends_closeBlock hr hl h₁ hend).imp (fun _ _ h => h)
        (fun _ h => h) False.elim).bind ?_ fun _ h => h.elim
      intro _ s₂ h₂
      have hkept : Guarantees σ anywhere (H ∧ ∀ n ∈ ns, σ.Keeps (·.isStatement) n)
          (make (s.rest.head?.getD σ.src.stop) (.block ns)) (σ.Keeps (· = .block)) :=
        .kept rfl fun hH => ⟨fun n hn => (hH.2 n hn).2, by simpa using fun n hn => (hH.2 n hn).1⟩
      exact (hkept s₂ (h₂.tokens ht) trivial).mono (fun _ s₃ h₃ => h₂.trans h₃) fun _ h₃ =>
        h₂.trans h₃

theorem guarantees_child : Guarantees σ pre H (child deeper) (σ.Keeps (·.isChild)) := by
  refine .look fun t => ?_
  split
  · rename_i hk
    exact .take (fun ts hp => plain_ahead hp.2 hk (by decide)) fun _ => .kept rfl fun _ => by
      simp [Form.Shaped]
  · rename_i hk
    refine ((guarantees_block hd) fun ts hp => (Guarantees.nextKind_eq σ hp.2).trans hk).mono
      fun n _ hn =>
      ⟨hn.1, ?_⟩
    rw [hn.2]
    rfl
  · refine hd.instantiation.mono fun n _ hn => ⟨hn.1, ?_⟩
    rw [hn.2]
    rfl

variable {rules : ExpressionRules} (h : ExpressionsShaped σ rules)

include h

theorem guarantees_moduleCall {start : Token} (hk : Grammar.namesModule start.kind)
    (hpre : ∀ ts, pre ts → ahead σ.src ts = start) :
    Guarantees σ pre H (moduleCall deeper rules start) (σ.Keeps (·.isPayload)) := by
  refine .take (fun ts hp => ?_) fun t => .knowing (F := σ.token start)
    (fun ts hp => ?_) fun htoken =>
    .making (fun _ => by simp [Form.Shaped]) fun name => (guarantees_arguments h _).bind fun as =>
      (Guarantees.make (fun hH => ?_) fun hH => ?_).bind fun head =>
        (guarantees_child hd).bind fun below =>
        .kept rfl fun hH => ?_
  · rw [Guarantees.nextKind_eq σ (hpre ts hp)]
    exact plain_of_namesModule hk
  · rw [← hpre _ hp.1]
    exact hp.2
  · exact ⟨_, _, hH.1.2.2, σ.head htoken hk, fun a ha => (hH.2 a ha).2⟩
  · obtain ⟨⟨-, hname, -⟩, has⟩ := hH
    simpa [hname, or_imp, forall_and] using fun a ha => (has a ha).1
  · obtain ⟨⟨-, hhead⟩, hbelow⟩ := hH
    refine ⟨⟨?_, hbelow.2⟩, by simp [hhead.1, hbelow.1]⟩
    rw [Node.kind, hhead.2]
    rfl

theorem guarantees_moduleRemark {verb : Verb} {start : Token}
    (hk : start.kind = .keyword verb.keyword) (hpre : ∀ ts, pre ts → ahead σ.src ts = start) :
    Guarantees σ pre H (moduleRemark deeper rules verb start) (σ.Keeps (·.isPayload)) := by
  refine .take (fun ts hp => plain_ahead (hpre ts hp) hk (by cases verb <;> decide)) fun _ =>
    (guarantees_arguments h false).bind fun as => (guarantees_child hd).bind fun below =>
      .kept rfl fun hH => ?_
  obtain ⟨⟨-, has⟩, hb⟩ := hH
  refine ⟨⟨fun a ha => (has a ha).2, hb.2⟩, ?_⟩
  simpa [hb.1, or_imp, forall_and] using fun a ha => (has a ha).1

theorem guarantees_payload : Guarantees σ pre H (payload deeper rules) (σ.Keeps (·.isPayload)) := by
  refine .look fun t => ?_
  split
  · rename_i hk
    refine .take (fun ts hp => plain_ahead hp.2 hk (by decide)) fun _ =>
      (Guarantees.expectSymbol (by decide)).bind fun _ => h.expression.bind fun c =>
        (Guarantees.expectSymbol (by decide)).bind fun _ => (guarantees_child hd).bind fun x =>
          (guarantees_elseBranch (guarantees_child hd)).bind fun e => .kept rfl fun hH => ?_
    obtain ⟨⟨⟨⟨-, hc⟩, -⟩, hx⟩, he⟩ := hH
    refine ⟨⟨hc.2, hx.2, fun n hn => (he n hn).2⟩, ?_⟩
    simpa [hc.1, hx.1] using fun n hn => (he n hn).1
  · rename_i hk
    exact guarantees_moduleRemark hd h hk fun ts hp => hp.2
  · rename_i hk
    exact guarantees_moduleRemark hd h hk fun ts hp => hp.2
  · rename_i hk
    exact guarantees_moduleCall hd h (by rw [hk]; decide) fun ts hp => hp.2
  · rename_i hk
    exact guarantees_moduleCall hd h (by rw [hk]; decide) fun ts hp => hp.2
  · rename_i hk
    exact guarantees_moduleCall hd h (by rw [hk]; decide) fun ts hp => hp.2
  · rename_i hk
    exact guarantees_moduleCall hd h (by rw [hk]; decide) fun ts hp => hp.2
  · exact .fail _

theorem guarantees_instantiation :
    Guarantees σ pre H (instantiation deeper rules) (σ.Keeps (· = .instantiation)) := by
  refine .look fun t => (Guarantees.many (P := fun _ : String => True) (.look fun u => ?_)).bind
    fun marks =>
    (guarantees_payload hd h).bind fun below => .kept rfl fun hH => ?_
  · split
    · rename_i mark hm
      refine .take (fun ts hp => ?_) fun _ => .pure fun _ _ _ => trivial
      rw [Guarantees.nextKind_eq σ hp.2]
      exact plain_of_modifier hm
    · exact .pure fun _ _ _ => trivial
  · exact ⟨hH.2.2, by simp [hH.2.1]⟩

omit hd in
theorem guarantees_functionDefinition (hpre : ∀ ts, pre ts → nextKind ts = .keyword .function) :
    Guarantees σ pre H (functionDefinition rules) (σ.Keeps (·.isStatement)) := by
  refine .take (fun ts hp => ?_) fun t => Guarantees.identifier.bind fun name =>
    (guarantees_parameters h).bind fun ps =>
    (Guarantees.expectSymbol (by decide)).bind fun _ => h.expression.bind fun e =>
      (Guarantees.expectSymbol (by decide)).bind fun _ => .kept rfl fun hH => ?_
  · rw [hpre ts hp]
    decide
  · obtain ⟨⟨⟨⟨-, hps⟩, -⟩, he⟩, -⟩ := hH
    refine ⟨⟨fun p hp => (hps p hp).2, he.2⟩, ?_⟩
    simpa [he.1, or_imp, forall_and] using fun p hp => (hps p hp).1

omit hd h in
theorem guarantees_fileReference (inclusion : Inclusion)
    (hpre : ∀ ts, pre ts → Plain (nextKind ts)) :
    Guarantees σ pre H (fileReference inclusion) fun o => ∀ n ∈ o, σ.Keeps (·.isStatement) n := by
  refine .take hpre fun t => .look fun u => ?_
  split
  · rename_i hk
    refine .take (fun ts hp => plain_ahead hp.2 hk (by decide)) fun _ => Guarantees.giving
      (.kept rfl fun _ => ?_)
    simp [Form.Shaped]
  · exact (Guarantees.report _ _).bind fun _ => .none

omit hd in
theorem guarantees_assignmentStatement (hpre : ∀ ts, pre ts → isIdentifier (nextKind ts)) :
    Guarantees σ pre H (assignmentStatement rules) (σ.Keeps (·.isStatement)) := by
  refine (guarantees_assignmentParts h hpre).bind fun (t, target, e) =>
    (Guarantees.expectSymbol (by decide)).bind fun _ => .kept rfl fun hH => ?_
  obtain ⟨⟨-, ht, he⟩, -⟩ := hH
  exact ⟨⟨ht.2, he.2⟩, by simp [ht.1, he.1]⟩

theorem guarantees_plainStatement :
    Guarantees σ pre H (plainStatement deeper rules) fun o => ∀ n ∈ o,
      σ.Keeps (·.isStatement) n := by
  have hsome : ∀ {pre K} {p : Parser Node}, Guarantees σ pre H p (σ.Keeps K) →
      (∀ k, K k → k.isStatement) →
      Guarantees σ pre H (return some (← p)) fun o => ∀ n ∈ o, σ.Keeps (·.isStatement) n := by
    intro pre K p hp hK
    refine hp.bind fun n => .pure fun hH m hm => ?_
    cases hm
    exact ⟨hH.2.1, hK _ hH.2.2⟩
  have hinstantiation : ∀ {pre}, Guarantees σ pre H (return some (← instantiation deeper rules))
      fun o => ∀ n ∈ o, σ.Keeps (·.isStatement) n :=
    hsome (guarantees_instantiation hd h) (by rintro k rfl; rfl)
  refine .look fun t => ?_
  split
  · rename_i hk
    refine .take (fun ts hp => plain_ahead hp.2 hk (by decide)) fun _ => Guarantees.giving
      (.kept rfl fun _ => ?_)
    simp [Form.Shaped]
  · rename_i hk
    exact hsome (guarantees_block hd fun ts hp => (Guarantees.nextKind_eq σ hp.2).trans hk)
      (by rintro k rfl; rfl)
  · rename_i hk
    exact hsome (guarantees_functionDefinition h fun ts hp =>
      (Guarantees.nextKind_eq σ hp.2).trans hk) fun _ hk => hk
  · rename_i hk
    exact guarantees_fileReference _ fun ts hp => plain_ahead hp.2 hk (by decide)
  · rename_i hk
    exact guarantees_fileReference _ fun ts hp => plain_ahead hp.2 hk (by decide)
  · rename_i hk
    refine .peek fun u => ?_
    split
    · refine hsome (guarantees_assignmentStatement h fun ts hp => ?_) fun _ hk => hk
      rw [Guarantees.nextKind_eq σ hp.1.2, hk]
      rfl
    · exact hinstantiation
  · exact hinstantiation

def Setting.KeepsHeader (σ : Setting) (header : ModuleHeader) : Prop :=
  ∀ p ∈ header.parameters, σ.Keeps (· = .parameter) p

omit hd in
theorem guarantees_moduleHeader :
    Guarantees σ pre H (moduleHeader? rules) fun o => ∀ header ∈ o, σ.KeepsHeader header := by
  refine .test (.take (fun ts hp => ?_) fun t => Guarantees.identifier.bind fun name =>
    (guarantees_parameters h).bind fun ps => .pure fun hH header hh => ?_) .none
  · rw [hp.2]
    decide
  · cases hh
    exact hH.2

omit hd h in
theorem guarantees_wrapModules {body : Node} (headers : List ModuleHeader)
    (hb : H → σ.Keeps (·.isStatement) body) (hh : H → ∀ header ∈ headers, σ.KeepsHeader header) :
    Guarantees σ pre H (wrapModules body headers) (σ.Keeps (·.isStatement)) := by
  induction headers with
  | nil => exact .pure hb
  | cons header headers ih =>
      have hinner := ih fun hH x hx => hh hH x (List.mem_cons_of_mem _ hx)
      refine hinner.bind fun inner => .kept rfl fun hH => ?_
      have hparams := hh hH.1 header (List.mem_cons_self ..)
      refine ⟨⟨fun p hp => (hparams p hp).2, hH.2.2⟩, ?_⟩
      simpa [hH.2.1, or_imp, forall_and] using fun p hp => (hparams p hp).1

theorem guarantees_statement :
    Guarantees σ pre H (statement deeper rules) fun o => ∀ n ∈ o, σ.Keeps (·.isStatement) n := by
  refine (Guarantees.many (P := σ.KeepsHeader) (guarantees_moduleHeader h)).bind fun headers =>
    (guarantees_plainStatement hd h).bind fun body => ?_
  split
  · exact .pure fun hH => hH.2
  · exact (guarantees_wrapModules _ (fun hH => hH.2 _ rfl) fun hH => hH.1.2).giving
  · refine .look fun t => (Guarantees.kept (K := (·.isStatement)) rfl fun _ => ?_).bind fun empty =>
      (guarantees_wrapModules _ (fun hH => hH.2) fun hH => hH.1.1.2).giving
    simp [Form.Shaped]

end

end Scad.Parse
