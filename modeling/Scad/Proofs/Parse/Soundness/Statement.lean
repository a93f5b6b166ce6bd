import Scad.Proofs.Parse.Soundness.Expression

/-! Every production for statements reads the phrase of its name, so a text without errors is a
program. -/
namespace Scad.Parse

open Grammar (Phrase Level Shrinks Repeated After Between nextKind)

variable {src : Source} {B : Prop}

/-- The productions of the next level read its phrases. -/
structure SoundStatements (src : Source) (B : Prop) (deeper : StatementRules)
    (rules : ExpressionRules) (inner : Level) :
    Prop extends SoundExpressions src B rules inner where
  block : Reads src B deeper.block fun ts ss rest => nextKind ts = .symbol .leftBrace →
    ∃ l tail, ts = l :: tail ∧ inner.statements tail ss rest
  instantiation : Reads src B deeper.instantiation inner.instantiation

/-- What a step reads that gives something whenever it ends in a clean state. -/
def ReadsAlways {α : Type} (P : Phrase α) : Phrase (Option α) := fun ts o rest =>
  ∃ a, o = some a ∧ P ts a rest

theorem reads_some {α : Type} {p : Parser α} {P : Phrase α} (hp : Reads src B p P) :
    Reads src B (return some (← p)) (ReadsAlways P) := by
  refine (hp.bind fun a => Reads.pure (some a)).mono ?_
  rintro ts o rest - ⟨a, _, ha, rfl, rfl⟩
  exact ⟨a, rfl, ha⟩

variable {deeper : StatementRules} {rules : ExpressionRules} {inner : Level}
  (h : SoundStatements src B deeper rules inner)

include h

omit h in
theorem reads_closeBlock (opening : Nat) : Reads src B (closeBlock opening) fun ts _ rest =>
    ∃ t, ts = t :: rest ∧ t.kind = .symbol .rightBrace := by
  refine (Reads.place.bind fun closing => Reads.bind (Q := fun _ ts _ rest => rest = ts)
    (Reads.expect (.symbol .rightBrace)) fun o => ?_).mono ?_
  · cases o with
    | some t => exact Reads.note rfl
    | none => exact (Reads.pure ()).mono fun ts _ rest _ h => h.2
  · rintro ts _ rest - ⟨closing, _, rfl, o, mid, ho, rfl⟩
    obtain ⟨t, -, ht⟩ := ho (by simp)
    exact ⟨t, ht⟩

theorem reads_block : Reads src B (block deeper) fun ts n rest =>
    nextKind ts = .symbol .leftBrace → Grammar.Block inner ts n rest := by
  refine Reads.look fun t _ _ => (Reads.place.bind fun opening => h.block.bind fun ss =>
    (reads_closeBlock opening).bind fun _ => Reads.make t (.block ss)).mono ?_
  rintro ts ⟨i, f⟩ rest - ⟨_, _, rfl, ss, mid, hs, _, _, ⟨r, rfl, hr⟩, rfl, -, rfl⟩ - - hk
  obtain ⟨l, tail, rfl, hss⟩ := hs hk
  exact ⟨hk, hss, hr⟩

theorem reads_child : Reads src B (child deeper) (Grammar.Child inner) := by
  refine Reads.look fun t _ _ => ?_
  split
  · rename_i hk
    refine (Reads.take fun _ _ => Reads.make t .empty).mono ?_
    rintro ts ⟨i, f⟩ rest - hr - hn
    obtain ⟨k, tail, rfl, rfl, -, rfl⟩ := hr (by rw [hn, hk]; simp)
    exact .empty (hn.trans hk)
  · rename_i hk
    exact (reads_block h).mono fun ts n rest _ hr _ hn => .block (hr (hn.trans hk))
  · exact h.instantiation.mono fun ts n rest _ hr _ _ => .instantiation hr

theorem reads_moduleCall {start : Token} (hk : Grammar.namesModule start.kind) :
    Reads src B (moduleCall deeper rules start) fun ts n rest => ahead src ts = start →
      nextKind ts = start.kind → Grammar.Payload inner ts n rest := by
  refine (Reads.take fun _ _ => (Reads.make start _).bind fun name =>
    (reads_arguments h.toSoundExpressions _).bind fun as => (Reads.make start _).bind fun head =>
      (reads_child h).bind fun c => Reads.make start (.moduleCall head c)).mono ?_
  rintro ts ⟨i, f⟩ rest - hr ha hn
  obtain ⟨k, _, rfl, ⟨m, f'⟩, tail, ⟨rfl, -, rfl⟩, as, _, has, ⟨h', f'⟩, mid,
    ⟨rfl, -, rfl⟩, c, _, hc, rfl, -, rfl⟩ := hr (by
      rintro he
      rw [← hn, he] at hk
      cases hk)
  obtain rfl : k = start := ha
  exact .call hk has hc

theorem reads_moduleRemark {verb : Verb} (start : Token) :
    Reads src B (moduleRemark deeper rules verb start) fun ts n rest =>
      nextKind ts = .keyword verb.keyword → Grammar.Payload inner ts n rest := by
  refine (Reads.take fun _ _ => (reads_arguments h.toSoundExpressions false).bind fun as =>
    (reads_child h).bind fun c => Reads.make start (.moduleRemark verb as c)).mono ?_
  rintro ts ⟨i, f⟩ rest - hr hk
  obtain ⟨k, tail, rfl, as, mid, ha, c, _, hc, rfl, -, rfl⟩ := hr (by rw [hk]; simp)
  exact .remark hk ha hc

theorem reads_payload : Reads src B (payload deeper rules) (Grammar.Payload inner) := by
  refine Reads.look fun t _ _ => ?_
  split
  · rename_i hk
    refine (Reads.take fun _ _ => (Reads.expectSymbol .leftParen).bind fun _ =>
      h.expression.bind fun c => (Reads.expectSymbol .rightParen).bind fun _ =>
        (reads_child h).bind fun a => (reads_elseBranch (reads_child h)).bind fun b =>
          Reads.make t (.moduleIf c a b)).mono ?_
    rintro ts ⟨i, f⟩ rest - hr - hn
    obtain ⟨k, _, rfl, _, tail, ⟨l, rfl, hl⟩, c, _, ⟨hc, -⟩, _, mid, ⟨r, rfl, hp⟩,
      a, next, ha, b, _, hb, rfl, -, rfl⟩ := hr (by rw [hn, hk]; simp)
    cases b with
    | none =>
        obtain ⟨he, rfl⟩ := hb
        exact .ifThen (hn.trans hk) ⟨hl, hc, hp⟩ ha (h.ifEnd _ he)
    | some b => exact .ifElse (hn.trans hk) ⟨hl, hc, hp⟩ ha hb
  · rename_i hk
    exact (reads_moduleRemark h t).mono fun ts n rest _ hr _ hn => hr (hn.trans hk)
  · rename_i hk
    exact (reads_moduleRemark h t).mono fun ts n rest _ hr _ hn => hr (hn.trans hk)
  iterate 4
    rename_i hk
    exact (reads_moduleCall h (by rw [hk]; rfl)).mono fun ts n rest _ hr ha hn => hr ha hn
  · exact Reads.fail _

omit h in
theorem reads_mark : Reads src B (do
    match modifier? (← current).kind with
    | some mark =>
      let _ ← advance
      return some mark
    | none => return none : Parser (Option String)) (ReadsIfAny Grammar.Mark) := by
  refine Reads.look fun t _ _ => ?_
  cases hm : modifier? t.kind with
  | none =>
      refine (Reads.pure none).mono ?_
      rintro ts o rest - ⟨rfl, rfl⟩ - -
      rfl
  | some mark =>
      refine (Reads.take fun _ _ => Reads.pure (some mark)).mono ?_
      rintro ts o rest - hr - hn
      obtain ⟨k, tail, rfl, rfl, rfl⟩ := hr (by
        rintro he
        rw [← hn, he] at hm
        cases hm)
      exact ⟨by rw [show k.kind = t.kind from hn]; exact hm⟩

theorem reads_instantiation :
    Reads src B (instantiation deeper rules) (Grammar.Instantiation inner) := by
  refine Reads.look fun t _ _ => ((reads_mark.many fun ts a rest hm => Grammar.Mark.shrinks hm).bind
    fun marks => (reads_payload h).bind fun p =>
      Reads.make t (.instantiation (.ofList marks) p)).mono ?_
  rintro ts ⟨i, f⟩ rest - ⟨marks, mid, hm, p, _, hp, rfl, -, rfl⟩ - -
  exact ⟨hm.repeated, hp⟩

theorem reads_functionDefinition : Reads src B (functionDefinition rules) fun ts n rest =>
    nextKind ts = .keyword .function → Grammar.Statement inner ts n rest := by
  refine (Reads.take fun t _ => reads_identifier.bind fun name =>
    (reads_parameters h.toSoundExpressions).bind fun ps =>
      (Reads.expectSymbol .assign).bind fun _ =>
      h.expression.bind fun e => (Reads.expectSymbol .semicolon).bind fun _ =>
        Reads.make t (.functionDefinition name ps e)).mono ?_
  rintro ts ⟨i, f⟩ rest - hr hk
  obtain ⟨k, _, rfl, _, tail, ⟨name, rfl, hname, rfl⟩, ps, _, hps, _, mid, ⟨eq, rfl, heq⟩,
    e, _, ⟨he, -⟩, _, _, ⟨s, rfl, hs⟩, rfl, -, rfl⟩ := hr (by rw [hk]; simp)
  exact .function hk hname hps ⟨heq, he⟩ hs

omit h in
theorem reads_fileReference (inclusion : Inclusion) :
    Reads src B (fileReference inclusion) fun ts o rest =>
      nextKind ts = .keyword inclusion.keyword →
      ReadsAlways (Grammar.Statement inner) ts o rest := by
  refine (Reads.take fun start _ => Reads.look (P := fun ts o rest => ∃ f i, ts = f :: rest ∧
    f.kind = .file ∧ o = some (Node.mk i (.fileReference inclusion f.text))) fun t ht _ =>
    ?_).mono ?_
  · by_cases hk : t.kind = .file
    · rw [if_pos hk]
      refine (Reads.take fun _ _ => (Reads.make start _).bind fun n => Reads.pure (some n)).mono ?_
      rintro ts o rest - hr ha hn
      obtain ⟨f, tail, rfl, ⟨i, _⟩, _, ⟨rfl, -, rfl⟩, rfl, rfl⟩ := hr (by rw [hn, hk]; simp)
      obtain rfl : f = t := ha
      exact ⟨f, i, rfl, hk, rfl⟩
    · rw [if_neg hk]
      refine ((Reads.report _ _).bind fun _ => Reads.pure none).mono ?_
      rintro ts o rest - ⟨_, _, ⟨hf, -⟩, -⟩
      omega
  · rintro ts o rest - hr hk
    obtain ⟨k, _, rfl, f, i, rfl, hf, rfl⟩ := hr (by rw [hk]; simp)
    exact ⟨_, rfl, .file hk hf⟩

theorem reads_assignmentStatement : Reads src B (assignmentStatement rules) fun ts n rest =>
    nextKind ts = .identifier → Grammar.Statement inner ts n rest := by
  refine ((reads_assignmentParts h.toSoundExpressions).bind fun a =>
    (Reads.expectSymbol .semicolon).bind fun _ =>
    Reads.make a.1 (.assignment a.2.1 a.2.2)).mono ?_
  rintro ts ⟨i, f⟩ rest - ⟨⟨t, target, e⟩, mid, ha, _, _, ⟨s, rfl, hs⟩, rfl, -, rfl⟩ hk
  obtain ⟨tail, j, rfl, -, ht, he⟩ := ha hk
  dsimp only at ht
  rw [ht]
  exact .assignment hk he hs

theorem reads_plainStatement :
    Reads src B (plainStatement deeper rules) (ReadsAlways (Grammar.Statement inner)) := by
  have hinstantiation : Reads src B (instantiation deeper rules) (Grammar.Statement inner) :=
    (reads_instantiation h).mono fun ts n rest _ hn => .instantiation hn
  refine Reads.look fun t _ _ => ?_
  split
  · rename_i hk
    refine (Reads.take fun _ _ => reads_some (Reads.make t .empty)).mono ?_
    rintro ts o rest - hr - hn
    obtain ⟨k, tail, rfl, ⟨i, f⟩, rfl, rfl, -, rfl⟩ := hr (by rw [hn, hk]; simp)
    exact ⟨_, rfl, .empty (hn.trans hk)⟩
  · rename_i hk
    refine (reads_some (reads_block h)).mono ?_
    rintro ts o rest - ⟨n, rfl, hb⟩ - hn
    exact ⟨n, rfl, .block (hb (hn.trans hk))⟩
  · rename_i hk
    refine (reads_some (reads_functionDefinition h)).mono ?_
    rintro ts o rest - ⟨n, rfl, hf⟩ - hn
    exact ⟨n, rfl, hf (hn.trans hk)⟩
  · rename_i hk
    exact (reads_fileReference .everything).mono fun ts o rest _ hr _ hn => hr (hn.trans hk)
  · rename_i hk
    exact (reads_fileReference .definitions).mono fun ts o rest _ hr _ hn => hr (hn.trans hk)
  · rename_i hk
    have hbranch : ∀ u : Token, Reads src B (if u.kind = .symbol .assign then do
        return some (← assignmentStatement rules)
      else do
        return some (← instantiation deeper rules) : Parser (Option Node)) fun ts o rest =>
          nextKind ts = .identifier → ReadsAlways (Grammar.Statement inner) ts o rest := by
      intro u
      split
      · refine (reads_some (reads_assignmentStatement h)).mono ?_
        rintro ts o rest - ⟨n, rfl, ha⟩ hn
        exact ⟨n, rfl, ha hn⟩
      · exact (reads_some hinstantiation).mono fun ts o rest _ hr _ => hr
    refine (Reads.peek.bind hbranch).mono ?_
    rintro ts o rest - ⟨u, _, ⟨-, rfl⟩, hr⟩ - hn
    exact hr (hn.trans hk)
  · exact (reads_some hinstantiation).mono fun ts o rest _ hr _ _ => hr

def Header (inner : Level) : Phrase ModuleHeader := fun ts header rest =>
  ∃ k name tail, ts = k :: name :: tail ∧ k.kind = .keyword .moduleDef ∧
    name.kind = .identifier ∧ header.name = name.text ∧
    Grammar.Parameters inner tail header.parameters rest

theorem reads_moduleHeader : Reads src B (moduleHeader? rules) (ReadsIfAny (Header inner)) := by
  refine Reads.test ?_ ?_
  · refine (Reads.take fun start _ => reads_identifier.bind fun name =>
      (reads_parameters h.toSoundExpressions).bind fun ps =>
        Reads.pure (some (ModuleHeader.mk start name ps))).mono ?_
    rintro ts o rest - hr hk
    obtain ⟨k, _, rfl, _, tail, ⟨name, rfl, hname, rfl⟩, ps, _, hps, rfl, rfl⟩ :=
      hr (by rw [hk]; simp)
    exact ⟨k, name, tail, rfl, hk, hname, rfl, hps⟩
  · refine (Reads.pure none).mono ?_
    rintro ts o rest - ⟨rfl, rfl⟩ -
    rfl

omit h in
theorem Header.shrinks (hi : inner.Shrinking) : Shrinks (Header inner) := by
  rintro ts header rest ⟨k, name, tail, rfl, -, -, -, hp⟩
  have := Grammar.Parameters.shrinks hi hp
  simp only [List.length_cons]
  omega

omit h in
/-- The definitions around a body are made after it, the outermost last. -/
theorem reads_wrapModules (inner : Level) (body : Node) (headers : List ModuleHeader) :
    Reads src B (wrapModules body headers) fun ts n rest => rest = ts ∧
      ∀ {start mid stop}, Repeated (Header inner) start headers mid →
        Grammar.Statement inner mid body stop → Grammar.Statement inner start n stop := by
  induction headers with
  | nil =>
      refine (Reads.pure body).mono ?_
      rintro ts n rest - ⟨rfl, rfl⟩
      refine ⟨rfl, fun hh hb => ?_⟩
      cases hh
      exact hb
  | cons header headers ih =>
      refine (ih.bind fun below => Reads.make header.start
        (.moduleDefinition header.name header.parameters below)).mono ?_
      rintro ts ⟨i, f⟩ rest - ⟨n, _, ⟨rfl, hn⟩, rfl, -, rfl⟩
      refine ⟨rfl, fun hh hb => ?_⟩
      cases hh with
      | cons hd hh =>
          obtain ⟨k, name, tail, rfl, hk, hname, hd, hp⟩ := hd
          rw [hd]
          exact .module hk hname hp (hn hh hb)

theorem reads_statement :
    Reads src B (statement deeper rules) (ReadsAlways (Grammar.Statement inner)) := by
  refine (((reads_moduleHeader h).many fun ts a rest hh => Header.shrinks h.shrinking hh).bind
    fun headers => Reads.bind (Q := fun body ts o rest => ∀ start mid,
      Repeated (Header inner) start headers mid →
      ReadsAlways (Grammar.Statement inner) mid body ts →
      ReadsAlways (Grammar.Statement inner) start o rest) (reads_plainStatement h) fun body =>
      ?_).mono ?_
  · split
    · refine (Reads.pure _).mono ?_
      rintro ts o rest - ⟨rfl, rfl⟩ start mid hh hb
      cases hh
      exact hb
    · refine (reads_some (reads_wrapModules inner _ _)).mono ?_
      rintro ts o rest - ⟨n, rfl, rfl, hn⟩ start mid hh ⟨b, hb, hs⟩
      cases hb
      exact ⟨n, rfl, hn hh hs⟩
    · refine (Reads.look (P := fun _ _ _ => True) fun t _ _ => ?_).mono ?_
      · refine ((Reads.make t .empty).bind fun empty =>
          reads_some (reads_wrapModules inner empty _)).mono ?_
        intros
        trivial
      · rintro ts o rest - - start mid - ⟨b, hb, -⟩
        cases hb
  · rintro ts o rest - ⟨headers, mid, hh, body, _, hb, hr⟩
    exact hr ts mid hh.repeated hb

omit h in
/-- A statement that was skipped leaves a trace. -/
theorem reads_recovering {p : Parser (Option Node)} {P : Phrase (Option Node)}
    (hp : Reads src B p P) : Reads src B (recovering p) P := by
  intro s hs hr
  have hps := hp s hs hr
  unfold recovering
  cases ho : p src s with
  | done o next =>
      rw [ho] at hps
      exact hps
  | abandoned next =>
      rw [ho] at hps
      have hc : ∀ (rest : List Token) (position : Nat) (previous : Token) (start stop : Span),
          ¬ Clean { next with
            rest := rest, position := position, previous := previous
            events := next.events.push (.recovered start stop next.position position) } := by
        intro rest position previous start stop hc
        exact hps.2 (by simpa [Clean, State.errors, Event.error?] using hc)
      exact ⟨⟨(skipStatement_suffix _ _ _).trans hps.1.suffix, fun h => absurd h (hc _ _ _ _ _)⟩,
        fun h => absurd h (hc _ _ _ _ _)⟩
  | broken fault =>
      rw [ho] at hps
      exact hps

/-- What one pass over a statement list reads: a statement, or nothing at the end of the list. -/
def Pass (inner : Level) (inBlock : Bool) : Phrase (Option (Option Node)) := fun ts o rest =>
  match o with
  | some found => ReadsAlways (Grammar.Statement inner) ts found rest
  | none => rest = ts ∧
      (nextKind ts = .eof ∨ inBlock = true ∧ nextKind ts = .symbol .rightBrace)

theorem reads_statementStep (inBlock : Bool) :
    Reads src B (statementStep deeper rules inBlock) (Pass inner inBlock) := by
  refine Reads.look fun t ht _ => ?_
  split
  · rename_i hk
    refine (Reads.pure none).mono ?_
    rintro ts o rest - ⟨rfl, rfl⟩ - hn
    exact ⟨rfl, .inl (hn.trans hk)⟩
  · rename_i hk
    cases inBlock with
    | true =>
        refine (Reads.pure none).mono ?_
        rintro ts o rest - ⟨rfl, rfl⟩ - hn
        exact ⟨rfl, .inr ⟨rfl, hn.trans hk⟩⟩
    | false =>
        have hreport : ∀ brace : Token, 0 ≤ brace.span.start.offset → Reads src B (do
            report "unmatched '\x7d'" brace.span
            return some none : Parser (Option (Option Node))) fun _ _ _ => False := by
          intro brace hb
          refine ((Reads.report _ _).bind fun _ => Reads.pure _).mono ?_
          rintro ts o rest - ⟨_, _, ⟨hf, -⟩, -⟩
          omega
        refine (Reads.place.bind fun i => (Reads.note (e := .discarded i) rfl).bind fun _ =>
          Reads.take hreport).mono ?_
        rintro ts o rest - ⟨_, _, rfl, _, _, rfl, hr⟩ - hn
        obtain ⟨_, _, _, hf⟩ := hr (by rw [hn, hk]; simp)
        exact hf.elim
  · refine (reads_some (reads_recovering (reads_statement h))).mono ?_
    rintro ts o rest - ⟨found, rfl, hf⟩ - -
    exact hf

omit h in
/-- A list of passes is a list of statements with its end behind it. -/
theorem Iterated.statements {inBlock : Bool} {ts rest : List Token} {found : List (Option Node)}
    (hi : Iterated (Pass inner inBlock) ts found rest) :
    Repeated (Grammar.Statement inner) ts (found.filterMap id) rest ∧
      (nextKind rest = .eof ∨ inBlock = true ∧ nextKind rest = .symbol .rightBrace) := by
  induction hi with
  | stop h =>
      obtain ⟨rfl, he⟩ := h
      exact ⟨.nil, he⟩
  | step h _ ih =>
      obtain ⟨n, rfl, hn⟩ := h
      exact ⟨.cons hn ih.1, ih.2⟩

theorem reads_statements (inBlock : Bool) :
    Reads src B (statements deeper rules inBlock) fun ts ss rest =>
      Repeated (Grammar.Statement inner) ts ss rest ∧
        (nextKind rest = .eof ∨ inBlock = true ∧ nextKind rest = .symbol .rightBrace) := by
  have hshrink : ∀ ts found rest, Pass inner inBlock ts (some found) rest →
      rest.length < ts.length := by
    rintro ts found rest ⟨n, -, hn⟩
    exact Grammar.Statement.shrinks h.shrinking hn
  refine (((reads_statementStep h inBlock).many hshrink).bind fun found =>
    Reads.pure (found.filterMap id)).mono ?_
  rintro ts ss rest - ⟨found, _, hf, rfl, rfl⟩
  exact hf.statements

theorem reads_blockBody : Reads src B (blockBody deeper rules) fun ts ss rest =>
    nextKind ts = .symbol .leftBrace →
      ∃ l tail, ts = l :: tail ∧ Repeated (Grammar.Statement inner) tail ss rest := by
  refine (Reads.take fun _ _ => reads_statements h true).mono ?_
  rintro ts ss rest - hr hk
  obtain ⟨l, tail, rfl, hs, -⟩ := hr (by rw [hk]; simp)
  exact ⟨l, tail, rfl, hs⟩

omit h in
theorem sound_statementRules (n : Nat) :
    SoundStatements src B (statementRules n) (expressionRules n)
      (Grammar.level Grammar.NearestElse n) := by
  induction n with
  | zero => exact ⟨sound_expressionRules 0, Reads.fail _, Reads.fail _⟩
  | succ n ih =>
      exact ⟨sound_expressionRules (n + 1), (reads_blockBody ih).nested,
        (reads_instantiation ih).nested⟩

omit h in
/-- A program that is read without an error is one of the grammar, up to its end. -/
theorem reads_program : Reads src B program fun ts ss rest =>
    Repeated (Grammar.Statement (Grammar.level Grammar.NearestElse maxNesting)) ts ss rest ∧
      nextKind rest = .eof := by
  refine (reads_statements (sound_statementRules maxNesting) false).mono ?_
  rintro ts ss rest - ⟨hs, he⟩
  exact ⟨hs, he.resolve_right fun hb => Bool.noConfusion hb.1⟩

end Scad.Parse
