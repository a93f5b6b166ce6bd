import Scad.Proofs.Parse.Acceptance
import Scad.Proofs.Parse.Advancing
import Scad.Proofs.Parse.Effect.Statement

/-! What the passes over a statement list do, and with them parsing as a whole. -/
namespace Scad.Parse

open Grammar (nextKind)

variable {σ : Setting} {H : Prop}

/-- The rest of an abandoned statement is skipped, with both braces of each block in it. -/
theorem ends_synchronize (s : State) : (synchronize σ.src s).Ends (fun _ s' => Leads σ H True s s')
    (fun _ => False) False := by
  obtain ⟨a, left, ha, hacc, hend⟩ := account_skipStatement s.previous s.rest s.position
    (s.rest.head?.getD σ.src.stop).span
    ((skipStatement 0 s.previous s.rest).2.head?.getD σ.src.stop).span
  have hlen : s.rest.length - (skipStatement 0 s.previous s.rest).2.length = a.length := by
    have hlength := congrArg List.length ha
    rw [List.length_append] at hlength
    omega
  refine .of_moves ⟨rfl, List.prefix_refl _, a, _, left, ha, ?_, ?_, hacc, hend⟩ rfl
    fun _ => trivial
  · exact congrArg (s.position + ·) hlen
  · rw [← hlen]
    exact notes_push rfl rfl

/-- A statement is read or skipped. -/
theorem guarantees_recovering {p : Parser (Option Node)} {P : Node → Prop}
    (hp : Guarantees σ anywhere H p fun o => ∀ n ∈ o, P n) {s : State}
    (ht : ∀ t ∈ s.rest, σ.token t) :
    (recovering p σ.src s).Ends (fun o s' => Leads σ H (∀ n ∈ o, P n) s s')
      (fun _ => False) σ.breaks := by
  have hs := hp s ht trivial
  unfold recovering
  split
  · rename_i next ho
    rw [ho] at hs
    refine ((ends_synchronize (H := H ∧ True) next).imp (fun _ _ h => h)
      (fun _ h => h) False.elim).bind (fun _ s' h => ?_) fun _ h => h
    exact hs.trans (h.weaken fun _ _ n hn => absurd hn (Option.not_mem_none n))
  · rename_i hother
    cases ho : p σ.src s with
    | done o s' =>
        rw [ho] at hs
        exact hs
    | abandoned s' => exact absurd ho (hother s')
    | broken fault =>
        rw [ho] at hs
        exact hs

structure Drops (s s' : State) : Prop where
  brace : ∃ t rest, t.kind = .symbol .rightBrace ∧ s.rest = t :: rest ∧ s'.rest = rest
  position : s'.position = s.position + 1
  depth : s'.depth = s.depth
  made : s'.made = s.made
  notes : s'.notes = s.notes ++ [.discarded s.position]

def Passes (σ : Setting) (H : Prop) (inBlock : Bool) (s : State) (o : Option (Option Node))
    (s' : State) : Prop :=
  match o with
  | none => s' = s ∧ (s.rest = [] ∨ inBlock = true ∧ nextKind s.rest = .symbol .rightBrace)
  | some found => Leads σ H (∀ n ∈ found, σ.Keeps (·.isStatement) n) s s' ∨
      inBlock = false ∧ found = none ∧ Drops s s'

/-- Started at tokens with `pre`, a production is a pass over a statement list. -/
def Passing (σ : Setting) (pre : List Token → Prop) (H : Prop) (inBlock : Bool)
    (p : Parser (Option (Option Node))) : Prop :=
  ∀ s, (∀ t ∈ s.rest, σ.token t) → pre s.rest →
    (p σ.src s).Ends (Passes σ H inBlock s) (fun _ => False) σ.breaks

theorem passing_drop {pre : List Token → Prop}
    (hpre : ∀ ts, pre ts → nextKind ts = .symbol .rightBrace) :
    Passing σ pre H false (do
      note (.discarded (← place))
      let brace ← advance
      report "unmatched '\x7d'" brace.span
      return some none) := by
  intro s _ hp
  have hk := hpre _ hp
  cases hr : s.rest with
  | nil =>
      rw [hr] at hk
      cases hk
  | cons t rest =>
      rw [hr] at hk
      let noted : State := { s with events := s.events.push (.discarded s.position) }
      let taken : State := noted.behind t rest
      have he : advance σ.src noted = .done t taken := by
        unfold advance
        rw [show noted.rest = t :: rest from hr]
        rfl
      have hadvance : (advance σ.src noted).Ends (fun a s' => a = t ∧ s' = taken) (fun _ => False)
          σ.breaks := by
        rw [he]
        exact ⟨rfl, rfl⟩
      have hnotes : taken.notes = s.notes ++ [.discarded s.position] := notes_push rfl rfl
      refine Outcome.Ends.bind (p := advance) hadvance ?_ fun _ h => h
      rintro brace s₁ ⟨hb, rfl⟩
      refine ((sameButErrors_report _ _ σ.src taken).imp (fun _ _ h => h)
        (fun _ h => h) False.elim).bind (fun _ s' hs => ?_) fun _ h => h
      exact .inr ⟨rfl, rfl, ⟨t, rest, hk, hr, hs.rest⟩, hs.position, hs.depth, hs.made,
        hs.notes.trans hnotes⟩

section

variable {deeper : StatementRules} (hd : StatementsShaped σ deeper) {rules : ExpressionRules}
  (h : ExpressionsShaped σ rules)

include hd h

theorem passing_statementStep (inBlock : Bool) :
    Passing σ anywhere H inBlock (statementStep deeper rules inBlock) := by
  have hlook : ∀ f : Token → Parser (Option (Option Node)),
      (∀ t, Passing σ (fun ts => ahead σ.src ts = t) H inBlock (f t)) →
      Passing σ anywhere H inBlock (current >>= f) := fun f hf s ht _ => hf _ s ht rfl
  refine hlook _ fun t => ?_
  split
  · rename_i hk
    intro s ht hp
    have hn := Guarantees.nextKind_eq σ hp
    refine ⟨rfl, .inl ?_⟩
    cases hr : s.rest with
    | nil => rfl
    | cons u rest =>
        rw [hr] at hn ht
        exact absurd (hn.trans hk) (σ.running (ht u (List.mem_cons_self ..)))
  · rename_i hk
    cases inBlock with
    | true => exact fun s _ hp => ⟨rfl, .inr ⟨rfl, (Guarantees.nextKind_eq σ hp).trans hk⟩⟩
    | false => exact passing_drop fun ts hp => (Guarantees.nextKind_eq σ hp).trans hk
  · rename_i hne hclose
    intro s ht hp
    exact (guarantees_recovering (H := H) (guarantees_statement hd h) ht).bind
      (fun o s' hs => .inl hs) fun _ h => h

omit hd h in
/-- Tokens of a setting are read up to the end marker. -/
theorem Setting.runs {s : State} (ht : ∀ t ∈ s.rest, σ.token t) : Running σ.breaks σ.src s :=
  ⟨σ.stop, fun t hm => σ.running (ht t hm), fun t hm hk => σ.numeral (ht t hm) hk⟩

variable {k : Nat} (hpieces : StatementPieces (advancing True σ.breaks) deeper (k + 1))
  (hrules : ExpressionPieces (advancing True σ.breaks) rules (k + 1))

include hpieces hrules

omit hd h in
theorem consumes_statementStep (inBlock : Bool) {s : State} (ht : ∀ t ∈ s.rest, σ.token t) :
    (statementStep deeper rules inBlock σ.src s).Ends (fun o s' => o.isSome →
      s.position < s'.position) (fun _ => True) σ.breaks := by
  refine (builds_statementStep hpieces hrules inBlock).consumes trivial (fun found => ?_)
    (Setting.runs ht)
  cases found <;> rfl

/-- The statements of a block are consumed up to its end. -/
theorem ends_blockStatements {s : State} (ht : ∀ t ∈ s.rest, σ.token t) :
    (statements deeper rules true σ.src s).Ends
      (fun ns s' => Leads σ H (∀ n ∈ ns, σ.Keeps (·.isStatement) n) s s' ∧ AtClose s'.rest)
      (fun _ => False) σ.breaks := by
  let found (os : List (Option Node)) : State → Prop :=
    Leads σ H (∀ o ∈ os, ∀ n ∈ o, σ.Keeps (·.isStatement) n) s
  have hloop : (Parser.many (statementStep deeper rules true) σ.src s).Ends
      (fun os s' => found os s' ∧ AtClose s'.rest) (fun _ => False) σ.breaks := by
    refine .many (I := found) ?_ s (.refl fun _ o ho => absurd ho List.not_mem_nil)
    intro os s₁ h₁
    have htokens := h₁.tokens ht
    have hpass := passing_statementStep (H := H ∧ ∀ o ∈ os, ∀ n ∈ o,
      σ.Keeps (·.isStatement) n) hd h true
      s₁ htokens trivial
    refine (hpass.and (consumes_statementStep hpieces hrules true htokens)).mono
      (fun o s₂ ⟨hp, hpos⟩ => ?_) fun _ h => h.1
    cases o with
    | none =>
        obtain ⟨rfl, hend⟩ := hp
        exact ⟨h₁, hend.symm.imp And.right id⟩
    | some o =>
        obtain hled | ⟨hb, -⟩ := hp
        · refine ⟨h₁.trans (hled.weaken fun hH ho o' ho' => ?_),
            hled.1.shorter (Nat.ne_of_gt (hpos rfl))⟩
          rcases List.mem_append.1 ho' with ho' | ho'
          · exact hH.2 o' ho'
          · cases List.mem_singleton.1 ho'
            exact ho
        · cases hb
  refine hloop.bind (fun os s' hs => ⟨hs.1.weaken fun _ hall n hn => ?_, hs.2⟩) fun _ h => h
  obtain ⟨o, ho, rfl⟩ := List.mem_filterMap.1 hn
  exact hall _ ho n rfl

theorem opens_blockBody : Opens σ (blockBody deeper rules) := by
  intro H s l rest ht hr hl
  have he : blockBody deeper rules σ.src s = statements deeper rules true σ.src
      (s.behind l rest) := by
    show Parser.bind advance _ σ.src s = _
    unfold Parser.bind advance
    rw [hr]
    rfl
  rw [he]
  rw [hr] at ht
  exact (ends_blockStatements hd h hpieces hrules fun t hm => ht t (List.mem_cons_of_mem _ hm)).mono
    (fun _ _ h => h) fun _ h => h.elim

end

theorem opens_fail (message : String) : Opens σ (fail message) := by
  intro H s l rest _ _ _
  refine Outcome.Ends.bind (p := report message (ahead σ.src s.rest).span) (f := fun _ => abandon)
    ((sameButErrors_report _ _ σ.src s).imp (fun _ _ h => h) (fun _ h => h) False.elim) ?_
      fun _ h => h.elim
  intro _ s' hs
  exact .of_moves hs.moves hs.made fun _ => trivial

theorem opens_nested {p : Parser (List Node)} (h : Opens σ p) : Opens σ (nested p) := by
  intro H s l rest ht hr hl
  exact ends_nested ((h { s with depth := s.depth + 1 } l rest ht hr hl).mono
    (fun ns s' hs => ⟨hs.1.leave, hs.2⟩) fun _ h => h.leave) (opens_fail _ s l rest ht hr hl)

theorem shaped_statementRules (n : Nat) : StatementsShaped σ (statementRules n) := by
  induction n with
  | zero => exact ⟨opens_fail _, .fail _⟩
  | succ n ih =>
      have hrules := shaped_expressionRules (σ := σ) n
      exact ⟨opens_nested (opens_blockBody ih hrules (builds_statementRules n)
        (builds_expressionRules n)), (guarantees_instantiation ih hrules).nested⟩

/-- A later state of a text outside of all blocks, with the braces in between settled. Closing
braces without a partner were dropped. -/
structure Ranges (s s' : State) : Prop where
  depth : s'.depth = s.depth
  made : s.made.toList <+: s'.made.toList
  braces : ∃ ts es, s.rest = ts ++ s'.rest ∧ s'.position = s.position + ts.length ∧
    s'.notes = s.notes ++ es ∧
    Settled s.position s'.position (matching s.position [] ts).pairs
      (matching s.position [] ts).unmatched es ∧
    ((matching s.position [] ts).opened = [] ∨ s'.rest = [])

namespace Ranges

variable {s s' s'' : State}

theorem refl (s : State) : Ranges s s :=
  ⟨rfl, List.prefix_refl _, [], [], rfl, rfl, (List.append_nil _).symm, .nil _, .inl rfl⟩

theorem suffix (h : Ranges s s') : s'.rest <:+ s.rest := by
  obtain ⟨ts, -, h, -⟩ := h.braces
  exact ⟨ts, h.symm⟩

theorem shorter (h : Ranges s s') (hp : s'.position ≠ s.position) :
    s'.rest.length < s.rest.length := by
  obtain ⟨ts, -, hts, hpos, -⟩ := h.braces
  rw [hts, List.length_append]
  omega

theorem trans (h : Ranges s s') (h' : Ranges s' s'') : Ranges s s'' := by
  obtain ⟨ts, es, hts, hp, hn, hset, hend⟩ := h.braces
  obtain ⟨us, fs, hus, hp', hn', hset', hend'⟩ := h'.braces
  -- Only at the end of the tokens may braces be open, and then nothing follows.
  have hopened : matching (s.position + ts.length) (matching s.position [] ts).opened us =
      { matching s'.position [] us with
        opened := (matching s'.position [] us).opened ++ (matching s.position [] ts).opened } := by
    rcases hend with hend | hend
    · rw [hend, hp, List.append_nil]
    · obtain ⟨rfl, -⟩ := List.append_eq_nil_iff.1 (hus.symm.trans hend)
      rfl
  refine ⟨h'.depth.trans h.depth, h.made.trans h'.made, ts ++ us, es ++ fs, ?_, ?_, ?_, ?_, ?_⟩
  · rw [hts, hus, List.append_assoc]
  · rw [hp', hp, List.length_append, Nat.add_assoc]
  · rw [hn', hn, List.append_assoc]
  · rw [matching_append, hopened]
    exact hset.append hset' (by omega) (by omega)
  · rw [matching_append, hopened]
    rcases hend' with hend' | hend'
    · rcases hend with hend | hend
      · exact .inl (by rw [hend, hend']; rfl)
      · refine .inr (List.suffix_nil.1 ?_)
        rw [← hend]
        exact h'.suffix
    · exact .inr hend'

end Ranges

theorem Moves.ranges {s s' : State} (h : Moves s s') : Ranges s s' := by
  obtain ⟨ts, es, left, hts, hp, hn, ⟨pairs, hm, hset⟩, hend⟩ := h.braces
  refine ⟨h.depth, h.made, ts, es, hts, hp, hn, ?_, ?_⟩
  · rw [hm, hp]
    exact hset
  · rw [hm, List.append_nil]
    exact hend

theorem Drops.ranges {s s' : State} (h : Drops s s') : Ranges s s' := by
  obtain ⟨t, rest, ht, hr, hr'⟩ := h.brace
  refine ⟨h.depth, h.made ▸ List.prefix_refl _, [t], _, by rw [hr, hr']; rfl, h.position,
    h.notes, ?_, ?_⟩
  · rw [matching_drop ht, h.position]
    refine ⟨fun p hp => absurd hp List.not_mem_nil, ?_, rfl, ?_, ?_⟩
    · intro o c hb
      cases List.mem_singleton.1 hb
    · intro e he f hf x _ _
      rw [List.mem_singleton.1 he, List.mem_singleton.1 hf]
    · intro e he x hx
      cases List.mem_singleton.1 he
      cases hx
      omega
  · rw [matching_drop ht]
    exact .inl rfl

/-- Parsing consumes all tokens, and is not abandoned. The nodes that it makes are numbered and have
the right shape. -/
theorem ends_program {s : State} (ht : ∀ t ∈ s.rest, σ.token t) : (program σ.src s).Ends
    (fun ns s' => Ranges s s' ∧ s'.rest = [] ∧ (s'.made.toList <+: σ.nodes → NodesWellFormed σ s →
      NodesWellFormed σ s' ∧ ∀ n ∈ ns, σ.Keeps (·.isStatement) n)) (fun _ => False) σ.breaks := by
  let found (os : List (Option Node)) (s' : State) : Prop :=
    Ranges s s' ∧ (s'.made.toList <+: σ.nodes → NodesWellFormed σ s →
      NodesWellFormed σ s' ∧ ∀ o ∈ os, ∀ n ∈ o, σ.Keeps (·.isStatement) n)
  have hloop :
    (Parser.many (statementStep (statementRules maxNesting) (expressionRules maxNesting) false)
      σ.src s).Ends (fun os s' => found os s' ∧ s'.rest = []) (fun _ => False) σ.breaks := by
    refine .many (I := found) ?_ s ⟨.refl s,
      fun _ hs => ⟨hs, fun o ho => absurd ho List.not_mem_nil⟩⟩
    rintro os s₁ ⟨hr, hs⟩
    have htokens : ∀ t ∈ s₁.rest, σ.token t := fun t hm => ht t (hr.suffix.mem hm)
    have hpass := passing_statementStep (H := True) (shaped_statementRules maxNesting)
      (shaped_expressionRules maxNesting) false s₁ htokens trivial
    have hconsumes := consumes_statementStep (builds_statementRules maxNesting)
      (builds_expressionRules maxNesting)
      false htokens
    refine (hpass.and hconsumes).mono (fun o s₂ ⟨hp, hpos⟩ => ?_) fun _ h => h.1
    cases o with
    | none =>
        obtain ⟨rfl, hend⟩ := hp
        exact ⟨⟨hr, hs⟩, hend.resolve_right fun hb => Bool.noConfusion hb.1⟩
    | some o =>
        have hne := Nat.ne_of_gt (hpos rfl)
        obtain hled | ⟨-, rfl, hdrop⟩ := hp
        · refine ⟨⟨hr.trans hled.1.ranges, fun hn hst => ?_⟩, hled.1.shorter hne⟩
          obtain ⟨hst', hall⟩ := hs (hled.1.made.trans hn) hst
          obtain ⟨hst'', ho⟩ := hled.2 hn trivial hst'
          refine ⟨hst'', fun o' ho' => ?_⟩
          rcases List.mem_append.1 ho' with ho' | ho'
          · exact hall o' ho'
          · cases List.mem_singleton.1 ho'
            exact ho
        · refine ⟨⟨hr.trans hdrop.ranges, fun hn hst => ?_⟩, hdrop.ranges.shorter hne⟩
          obtain ⟨hst', hall⟩ := hs (hdrop.made ▸ hn) hst
          refine ⟨hst'.of_made hdrop.made, fun o' ho' => ?_⟩
          rcases List.mem_append.1 ho' with ho' | ho'
          · exact hall o' ho'
          · cases List.mem_singleton.1 ho'
            exact fun n hn => absurd hn (Option.not_mem_none n)
  refine hloop.bind (fun os s' ⟨⟨hr, hs⟩, hend⟩ => ⟨hr, hend, fun hn hst => ⟨(hs hn hst).1, ?_⟩⟩)
    fun _ h => h
  intro n hm
  obtain ⟨o, ho, rfl⟩ := List.mem_filterMap.1 hm
  exact (hs hn hst).2 _ ho n rfl

theorem stop_source (tokens : List Token) (origin : Option String) :
    (source tokens origin).stop.kind = .eof := by
  unfold source
  cases hf : tokens.find? (·.kind = .eof) with
  | some t =>
      have ht := List.find?_some hf
      exact of_decide_eq_true ht
  | none =>
      show (endMarker tokens origin).kind = .eof
      unfold endMarker
      split <;> rfl

theorem running_body {tokens : List Token} {t : Token} (ht : t ∈ body tokens) : t.kind ≠ .eof :=
  of_decide_eq_true (List.all_eq_true.1 List.all_takeWhile t ht)

/-- How a document was parsed: the last state, the braces on the way, and the nodes. -/
structure Produced (spelling : Spelling) (tokens : List Token) (origin : Option String) (p : Parsed)
    (s : State) : Prop where
  run : program (source tokens origin) (initial tokens origin) = .done p.document.statements s
  consumed : s.rest = []
  ranges : Ranges (initial tokens origin) s
  events : p.events = s.events.toList
  name : p.document.origin = (source tokens origin).origin
  arena : p.document.arena = .ofMade s.made.toList
  numbered : ∀ (i : Nat) (n : Node), s.made.toList[i]? = some n → n.id = i
  shaped : ∀ n ∈ s.made.toList, n.form.Shaped spelling
  closed : ∀ n ∈ s.made.toList, ∀ c ∈ n.children, c ∈ s.made.toList
  statements : ∀ n ∈ p.document.statements, n ∈ s.made.toList ∧ n.kind.isStatement

theorem parse_produces (σ : Setting) {tokens : List Token} {origin : Option String}
    (hsrc : σ.src = source tokens origin) (ht : ∀ t ∈ body tokens, σ.token t) :
    match parse tokens origin with
    | .ok p => ∃ s, Produced σ.spelling tokens origin p s
    | .error _ => σ.breaks := by
  rw [parse_eq, ← hsrc]
  cases ho : program σ.src (initial tokens origin) with
  | done ns s =>
      have hends := ends_program (σ := { σ with nodes := s.made.toList })
        (s := initial tokens origin) ht
      rw [ho] at hends
      obtain ⟨hr, hend, hs⟩ := hends
      have hempty : NodesWellFormed { σ with nodes := s.made.toList } (initial tokens origin) :=
        ⟨fun i n h => (Option.some_ne_none n h.symm).elim, fun n h => absurd h List.not_mem_nil,
          fun n h => absurd h List.not_mem_nil⟩
      obtain ⟨hst, hns⟩ := hs (List.prefix_refl _) hempty
      exact ⟨s, hsrc ▸ ho, hend, hr, rfl, congrArg Source.origin hsrc, rfl, hst.numbered,
        hst.shaped, hst.closed, hns⟩
  | abandoned s =>
      have hends := ends_program (σ := σ) (s := initial tokens origin) ht
      rw [ho] at hends
      exact hends.elim
  | broken fault =>
      have hends := ends_program (σ := σ) (s := initial tokens origin) ht
      rw [ho] at hends
      exact hends

end Scad.Parse
