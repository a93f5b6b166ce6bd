import Scad.Proofs.Grammar.Heads
import Scad.Proofs.Grammar.Progress
import Scad.Proofs.Parse.Running
import Scad.Proofs.Tree.Bare

/-! Every phrase of an expression is read by the production of its name, if what stands behind it
cannot continue it. -/
namespace Scad.Parse

open Grammar (Level Headed Shrinks Commas Listed After Between nextKind)

/-- The kinds that may stand behind an expression. -/
def closes : TokenKind → Bool
  | .symbol .comma | .symbol .rightParen | .symbol .rightBracket | .symbol .semicolon
  | .symbol .colon | .keyword .otherwise => true
  | _ => false

def startsSuffix : TokenKind → Bool
  | .symbol .leftParen | .symbol .leftBracket | .symbol .dot => true
  | _ => false

/-- The kinds that continue an operand of a level, when these are the tighter levels. -/
def continues (tighter : List ChainLevel) (k : TokenKind) : Bool :=
  startsSuffix k || k = .symbol .caret || tighter.any (isOperator · k)

variable {src : Source} {n : Nat}

/-- A run to a node that says the same as `x`. -/
def RunsTo (src : Source) (n : Nat) (p : Parser Node) (ts : List Token) (x : Node)
    (rest : List Token) : Prop :=
  Runs src n p ts rest fun y => y.bare = x.bare

def GivesAll (src : Source) (n : Nat) (p : Parser (List Node)) (ts : List Token) (xs : List Node)
    (rest : List Token) : Prop :=
  Runs src n p ts rest fun ys => ys.map Node.bare = xs.map Node.bare

def RunsToSome (src : Source) (n : Nat) (p : Parser (Option Node)) (ts : List Token) (x : Node)
    (rest : List Token) : Prop :=
  Runs src n p ts rest fun o => ∃ y, o = some y ∧ y.bare = x.bare

theorem RunsTo.offers {p : Parser Node} {ts : List Token} {x : Node} {rest : List Token}
    (h : RunsTo src n p ts x rest) : RunsToSome src n (return some (← p)) ts x rest :=
  h.bind fun y hy => (Runs.pure _).mono fun _ ho => ⟨y, ho, hy⟩

/-- The last step of a production. -/
theorem RunsTo.make {start : Token} {f g : Form Node} {i : Info} {ts : List Token}
    (h : f.map Node.bare = g.map Node.bare) : RunsTo src n (make start f) ts ⟨i, g⟩ ts :=
  (Runs.make start f).mono fun _ hn => Node.bare_eq hn h

theorem nextKind_of_commas {ts rest : List Token} (h : Commas ts rest) :
    nextKind ts = .symbol .comma := by
  cases h with
  | one hk | more hk _ => exact hk

theorem runs_skipCommas {ts rest : List Token} (h : Commas ts rest)
    (hn : nextKind rest ≠ .symbol .comma) : Runs src n skipCommas ts rest (· = true) := by
  have hturns : ∀ {ts rest}, Commas ts rest → nextKind rest ≠ .symbol .comma →
      ∃ m, Turns src n (do
        if ← atKind (.symbol .comma) then
          return some (← advance)
        else return none : Parser (Option Token)) (fun _ => ()) ts
        (() :: List.replicate m ()) rest := by
    intro ts rest h hn
    induction h with
    | one hk =>
        refine ⟨0, .turn (.yes hk (.take ((Runs.pure _).mono ?_))) (by simp)
          (.stop (.no hn (Runs.pure _)))⟩
        rintro _ rfl
        exact ⟨_, rfl, rfl⟩
    | more hk hc ih =>
        obtain ⟨m, ht⟩ := ih hn
        refine ⟨m + 1, .turn (.yes hk (.take ((Runs.pure _).mono ?_))) (by simp) ht⟩
        rintro _ rfl
        exact ⟨_, rfl, rfl⟩
  obtain ⟨m, ht⟩ := hturns h hn
  refine (Runs.many ht).bind fun as has => (Runs.pure _).mono ?_
  rintro _ rfl
  cases as with
  | nil => cases has
  | cons _ _ => rfl

theorem runs_noCommas {ts : List Token} (hn : nextKind ts ≠ .symbol .comma) :
    Runs src n skipCommas ts ts (· = false) := by
  refine (Runs.many (v := fun _ => ()) (.stop (.no hn (Runs.pure _)))).bind fun as has =>
    (Runs.pure _).mono ?_
  rintro _ rfl
  cases as with
  | nil => rfl
  | cons _ _ => cases has

/-- The rest of a list, from the commas behind an item on. -/
theorem turns_further {next : Parser (Option Node)} {P : Grammar.Phrase Node}
    (hP : Shrinks P) (hcomma : ∀ {ts a rest}, P ts a rest → nextKind ts ≠ .symbol .comma)
    (hitem : ∀ {ts a rest}, P ts a rest → closes (nextKind rest) → RunsToSome src n next ts a rest)
    {ts rest : List Token} {as : List Node} (h : Listed P ts as rest)
    (hstop : Runs src n next rest rest (· = none)) (hclose : closes (nextKind rest))
    (hend : nextKind rest ≠ .symbol .comma) {before : List Token} (hb : Commas before ts) :
    Turns src n (do if ← skipCommas then next else return none) Node.bare before
      (as.map Node.bare) rest := by
  have hlast : Turns src n (do if ← skipCommas then next else return none) Node.bare
      rest [] rest := by
    refine .stop ((runs_noCommas hend).bind ?_)
    rintro _ rfl
    exact Runs.pure _
  induction h generalizing before with
  | none =>
      refine .stop ((runs_skipCommas hb hend).bind ?_)
      rintro _ rfl
      exact hstop
  | one ha =>
      refine .turn ((runs_skipCommas hb (hcomma ha)).bind ?_) ?_ hlast
      · rintro _ rfl
        exact hitem ha hclose
      · exact Nat.lt_trans (hP ha) hb.shrinks
  | more ha hc _ ih =>
      refine .turn ((runs_skipCommas hb (hcomma ha)).bind ?_) ?_
        (ih hstop hclose hend hc hlast)
      · rintro _ rfl
        exact hitem ha (by rw [nextKind_of_commas hc]; rfl)
      · exact Nat.lt_trans (hP ha) hb.shrinks

/-- The rest of a list, from behind its first item on. -/
theorem turns_listed {next : Parser (Option Node)} {P : Grammar.Phrase Node}
    (hP : Shrinks P) (hcomma : ∀ {ts a rest}, P ts a rest → nextKind ts ≠ .symbol .comma)
    (hitem : ∀ {ts a rest}, P ts a rest → closes (nextKind rest) → RunsToSome src n next ts a rest)
    {ts rest : List Token} {a : Node} {as : List Node} (h : Listed P ts (a :: as) rest)
    (hstop : Runs src n next rest rest (· = none)) (hclose : closes (nextKind rest))
    (hend : nextKind rest ≠ .symbol .comma) :
    ∃ mid, P ts a mid ∧ (mid = rest ∨ nextKind mid = .symbol .comma) ∧
      Turns src n (do if ← skipCommas then next else return none) Node.bare mid
        (as.map Node.bare) rest := by
  cases h with
  | one ha =>
      refine ⟨rest, ha, .inl rfl, .stop ((runs_noCommas hend).bind ?_)⟩
      rintro _ rfl
      exact Runs.pure _
  | more ha hc hl =>
      exact ⟨_, ha, .inr (nextKind_of_commas hc),
        turns_further hP hcomma hitem hl hstop hclose hend hc⟩

theorem runs_separated {starts : TokenKind → Bool} {item : Parser Node} {P : Grammar.Phrase Node}
    (hclosed : ∀ k, closes k → starts k = false) (hP : Shrinks P)
    (hstart : ∀ {ts a rest}, P ts a rest → starts (nextKind ts))
    (hitem : ∀ {ts a rest}, P ts a rest → closes (nextKind rest) → RunsTo src n item ts a rest)
    {ts rest : List Token} {as : List Node} (h : Listed P ts as rest)
    (hclose : closes (nextKind rest)) (hend : nextKind rest ≠ .symbol .comma) :
    GivesAll src n (separated starts item) ts as rest := by
  have hoffer : ∀ {ts a rest}, P ts a rest → closes (nextKind rest) → RunsToSome src n (do
      if starts (← current).kind then
        return some (← item)
      else return none : Parser (Option Node)) ts a rest := by
    intro ts a rest ha hr
    refine .look fun he => ?_
    rw [ahead_kind he, if_pos (hstart ha)]
    exact (hitem ha hr).offers
  have hstop : Runs src n (do
      if starts (← current).kind then
        return some (← item)
      else return none : Parser (Option Node)) rest rest (· = none) := by
    refine .look fun he => ?_
    rw [ahead_kind he, hclosed _ hclose, if_neg (by simp)]
    exact Runs.pure _
  cases as with
  | nil =>
      cases h
      refine hstop.bind ?_
      rintro _ rfl
      exact (Runs.pure _).mono fun _ h => h ▸ rfl
  | cons a as =>
      have hcomma : ∀ {ts a rest}, P ts a rest → nextKind ts ≠ .symbol .comma := by
        intro ts a rest ha hk
        have hs := hstart ha
        rw [hk, hclosed _ rfl] at hs
        cases hs
      obtain ⟨mid, ha, hm, ht⟩ := turns_listed hP hcomma hoffer h hstop hclose hend
      have hm : closes (nextKind mid) := by
        rcases hm with rfl | hk
        · exact hclose
        · rw [hk]
          rfl
      refine (hoffer ha hm).bind ?_
      rintro _ ⟨b, rfl, hb⟩
      refine (Runs.many ht).bind fun bs hbs => (Runs.pure _).mono ?_
      rintro _ rfl
      rw [List.map_cons, List.map_cons, hb, hbs]

/-- A list in parentheses. -/
theorem runs_parenthesized {starts : TokenKind → Bool} {item : Parser Node}
    {P : Grammar.Phrase Node} (hclosed : ∀ k, closes k → starts k = false) (hP : Shrinks P)
    (hstart : ∀ {ts a rest}, P ts a rest → starts (nextKind ts))
    (hitem : ∀ {ts a rest}, P ts a rest → closes (nextKind rest) → RunsTo src n item ts a rest)
    {ts rest : List Token} {as : List Node}
    (h : Between .leftParen .rightParen (Listed P) ts as rest) :
    GivesAll src n (do
      expectSymbol .leftParen
      let found ← separated starts item
      expectSymbol .rightParen
      return found) ts as rest := by
  obtain ⟨hl, ha, hr⟩ := h
  have hfound := runs_separated hclosed hP hstart hitem ha (by rw [nextKind_cons hr]; rfl)
    (by rw [nextKind_cons hr]; simp)
  exact .expectSymbol hl (hfound.bind fun found hf =>
    .expectSymbol hr ((Runs.pure _).mono fun _ h => h ▸ hf))

/-- The productions of the next level read all of its phrases, and an `else` belongs to the `if`
that could take it. -/
structure CompleteExpressions (src : Source) (n : Nat) (rules : ExpressionRules) (inner : Level) :
    Prop where
  expression : ∀ {ts x rest}, inner.expression ts x rest → closes (nextKind rest) →
    RunsTo src n rules.expression ts x rest
  unary : ∀ {ts x rest}, inner.unary ts x rest → continues [] (nextKind rest) = false →
    RunsTo src n rules.unary ts x rest
  element : ∀ {ts x rest}, inner.element ts x rest → closes (nextKind rest) →
    RunsTo src n rules.element ts x rest
  headed : Headed startsExpression inner.expression
  shrinking : inner.Shrinking
  ifEnd : ∀ {rest}, inner.ifEnd rest → nextKind rest ≠ .keyword .otherwise

theorem startsExpression_of_closes (k : TokenKind) (h : closes k) : startsExpression k = false := by
  unfold closes at h
  split at h <;> first | rfl | cases h

theorem isIdentifier_of_closes (k : TokenKind) (h : closes k) : isIdentifier k = false := by
  unfold closes at h
  split at h <;> first | rfl | cases h

variable {rules : ExpressionRules} {inner : Level} (h : CompleteExpressions src n rules inner)

include h

theorem runs_argument {declares : Bool} {ts : List Token} {x : Node} {rest : List Token}
    (ha : Grammar.Argument inner declares ts x rest) (hr : closes (nextKind rest)) :
    RunsTo src n (argument rules declares) ts x rest := by
  cases ha with
  | named hk hv =>
      obtain ⟨heq, he⟩ := hv
      refine .see (.peek fun _ => ?_)
      rw [if_pos ⟨hk, heq⟩]
      refine .take ((Runs.make _ _).bind fun name hname =>
        .take ((h.expression he hr).bind fun e' he' =>
        RunsTo.make ?_))
      simp only [Form.map, Option.map_some, he']
      rw [Node.bare_eq hname rfl]
      rfl
  | unnamed he =>
      refine .look fun hs => .peek fun _ => ?_
      rw [if_neg]
      · refine (h.expression he hr).bind fun e' he' => RunsTo.make ?_
        simp only [Form.map, Option.map_none, he']
      · -- A name before an equals sign would be all of the expression.
        rintro ⟨hk, hu⟩
        rw [ahead_kind hs] at hk hu
        obtain ⟨t, _, rfl, hk⟩ := cons_of_nextKind hk (by simp)
        obtain ⟨u, tail, rfl, hu⟩ := cons_of_nextKind hu (by simp)
        rw [h.headed.name he hk hu, nextKind_cons hu] at hr
        cases hr

theorem runs_arguments {declares : Bool} {ts : List Token} {as : List Node} {rest : List Token}
    (ha : Grammar.Arguments inner declares ts as rest) :
    GivesAll src n (arguments rules declares) ts as rest := by
  refine runs_parenthesized startsExpression_of_closes
    (Grammar.Argument.shrinks h.shrinking declares) ?_ (runs_argument h) ha
  intro ts a rest ha
  cases ha with
  | named hk _ =>
      rw [nextKind_cons hk]
      rfl
  | unnamed he => exact h.headed.starts he

theorem runs_parameter {ts : List Token} {x : Node} {rest : List Token}
    (hp : Grammar.Parameter inner ts x rest) (hr : closes (nextKind rest)) :
    RunsTo src n (parameter rules) ts x rest := by
  cases hp with
  | required hk =>
      refine .take (.no ?_ (RunsTo.make rfl))
      intro ha
      rw [ha] at hr
      cases hr
  | optional hk hv =>
      obtain ⟨heq, he⟩ := hv
      refine .take (.yes heq (.take ((h.expression he hr).bind fun e' he' => RunsTo.make ?_)))
      simp only [Form.map, Option.map_some, he']

theorem runs_parameters {ts : List Token} {ps : List Node} {rest : List Token}
    (hp : Grammar.Parameters inner ts ps rest) : GivesAll src n (parameters rules) ts ps rest := by
  refine runs_parenthesized isIdentifier_of_closes (Grammar.Parameter.shrinks h.shrinking) ?_
    (runs_parameter h) hp
  intro ts a rest ha
  cases ha with
  | required hk | optional hk _ =>
      rw [nextKind_cons hk]
      rfl

/-- A name and a value, up to where the caller makes the node. -/
theorem runs_assignmentParts {name : Token} {ts : List Token} {e : Node} {rest : List Token}
    (he : Grammar.Value inner ts e rest) (hr : closes (nextKind rest)) :
    Runs src n (assignmentParts rules) (name :: ts) rest fun a => a.1 = name ∧
      a.2.1.form = .variableDefinition name.text ∧ a.2.2.bare = e.bare := by
  obtain ⟨heq, he⟩ := he
  refine .take ((Runs.make _ _).bind fun target ht => .expectSymbol heq
    ((h.expression he hr).bind fun e' he' => (Runs.pure _).mono ?_))
  rintro _ rfl
  exact ⟨rfl, ht, he'⟩

theorem runs_assignment {ts : List Token} {x : Node} {rest : List Token}
    (ha : Grammar.Assignment inner ts x rest) (hr : closes (nextKind rest)) :
    RunsTo src n (assignment rules) ts x rest := by
  obtain ⟨hk, he⟩ := ha
  refine (runs_assignmentParts h he hr).bind ?_
  rintro ⟨start, target, e'⟩ ⟨rfl, ht, he'⟩
  refine RunsTo.make ?_
  simp only [Form.map] at he' ⊢
  rw [Node.bare_eq ht rfl, he']

theorem runs_assignments {ts : List Token} {as : List Node} {rest : List Token}
    (ha : Listed (Grammar.Assignment inner) ts as rest) (hclose : closes (nextKind rest))
    (hend : nextKind rest ≠ .symbol .comma) : GivesAll src n (assignments rules) ts as rest := by
  refine runs_separated isIdentifier_of_closes (Grammar.Assignment.shrinks h.shrinking) ?_
    (runs_assignment h) ha hclose hend
  rintro ts a rest ⟨hk, -⟩
  rw [nextKind_cons hk]
  rfl

theorem runs_letAssignments {ts : List Token} {as : List Node} {rest : List Token}
    (ha : Between .leftParen .rightParen (Listed (Grammar.Assignment inner)) ts as rest) :
    GivesAll src n (letAssignments rules) ts as rest := by
  obtain ⟨hl, ha, hr⟩ := ha
  have hfound := runs_assignments h ha (by rw [nextKind_cons hr]; rfl)
    (by rw [nextKind_cons hr]; simp)
  exact .expectSymbol hl (hfound.bind fun found hf =>
    .expectSymbol hr ((Runs.pure _).mono fun _ h => h ▸ hf))

theorem runs_loopUpdate {ts : List Token} {x : Node} {rest : List Token}
    (hu : Grammar.Update inner ts x rest) (hr : closes (nextKind rest)) :
    RunsTo src n (loopUpdate rules) ts x rest := by
  obtain ⟨hk, heq, he⟩ := hu
  refine .take ((Runs.make _ _).bind fun target ht => .expectSymbol heq
    ((h.expression he hr).bind fun e' he' => RunsTo.make ?_))
  simp only [Form.map, he']
  rw [Node.bare_eq ht rfl]

theorem runs_loopUpdates {ts : List Token} {us : List Node} {rest : List Token}
    (hu : Listed (Grammar.Update inner) ts us rest) (hr : nextKind rest = .symbol .rightParen) :
    GivesAll src n (separated isIdentifier (loopUpdate rules)) ts us rest := by
  refine runs_separated isIdentifier_of_closes (Grammar.Update.shrinks h.shrinking) ?_
    (runs_loopUpdate h) hu (by rw [hr]; rfl) (by rw [hr]; simp)
  intro ts a rest hu
  obtain ⟨hk, -⟩ := hu
  rw [nextKind_cons hk]
  rfl

theorem runs_loopControl {ts : List Token} {c : Node} {t : Token} {next : List Token}
    {us : List Node} {rest : List Token}
    (hc : After (.symbol .semicolon) inner.expression ts c (t :: next))
    (ht : t.kind = .symbol .semicolon) (hu : Listed (Grammar.Update inner) next us rest)
    (hr : nextKind rest = .symbol .rightParen) :
    Runs src n (loopControl rules) ts rest fun control =>
      control.1.map Node.bare = some c.bare ∧ control.2.map Node.bare = us.map Node.bare := by
  obtain ⟨hk, hc⟩ := hc
  refine .yes hk (.take ((h.expression hc (by rw [nextKind_cons ht]; rfl)).bind fun c' hc' =>
    .expectSymbol ht ((runs_loopUpdates h hu hr).bind fun us' hus' => (Runs.pure _).mono ?_)))
  intro control hcontrol
  rw [hcontrol]
  exact ⟨congrArg some hc', hus'⟩

/-- The head of a loop, between its parentheses. -/
theorem runs_loopHead {ts : List Token} {as : List Node} {c : Option Node} {us : List Node}
    {rest : List Token} (hl : Grammar.LoopHead inner ts (as, c, us) rest)
    (hr : nextKind rest = .symbol .rightParen) :
    ∃ mid, GivesAll src n (assignments rules) ts as mid ∧
      Runs src n (loopControl rules) mid rest fun control =>
        control.1.map Node.bare = c.map Node.bare ∧
          control.2.map Node.bare = us.map Node.bare := by
  cases hl with
  | plain ha =>
      refine ⟨rest, runs_assignments h ha (by rw [hr]; rfl) (by rw [hr]; simp),
        .no (by rw [hr]; simp) ((Runs.pure _).mono fun control hc => ?_)⟩
      rw [hc]
      exact ⟨rfl, rfl⟩
  | counted ha hw hs hu =>
      have hk := hw.nextKind
      exact ⟨_, runs_assignments h ha (by rw [hk]; rfl) (by rw [hk]; simp),
        runs_loopControl h hw hs hu hr⟩

omit h in
theorem runs_elseBranch {branch : Parser Node} {ts : List Token} {o : Option Node}
    {rest : List Token} (ho : match o with
      | some e => ∃ t tail, ts = t :: tail ∧ t.kind = .keyword .otherwise ∧
          RunsTo src n branch tail e rest
      | none => nextKind ts ≠ .keyword .otherwise ∧ rest = ts) :
    Runs src n (elseBranch branch) ts rest fun found => found.map Node.bare = o.map Node.bare := by
  cases o with
  | none =>
      obtain ⟨hk, rfl⟩ := ho
      exact .no hk ((Runs.pure _).mono fun found hf => by rw [hf])
  | some e =>
      obtain ⟨t, tail, rfl, hk, he⟩ := ho
      refine .yes hk (.take (he.bind fun e' he' => (Runs.pure _).mono fun found hf => ?_))
      rw [hf]
      exact congrArg some he'

omit h in
theorem startsGenerator_of_startsExpression {k : TokenKind} (h : startsExpression k) :
    startsGenerator k = false := by
  unfold startsExpression at h
  split at h <;> first | rfl | cases h

/-- An expression as a vector element. -/
theorem runs_plainElement {ts : List Token} {x : Node} {rest : List Token}
    (he : inner.expression ts x rest) (hlet : nextKind ts ≠ .keyword .letIn)
    (hr : closes (nextKind rest)) : RunsTo src n (element rules) ts x rest := by
  have hs := h.headed.starts he
  refine .look fun hstop => ?_
  rw [ahead_kind hstop]
  split
  · rename_i hk
    rw [hk] at hs
    cases hs
  · rename_i hk
    rw [hk] at hs
    cases hs
  · rename_i hk
    rw [hk] at hs
    cases hs
  · rename_i hk
    exact absurd hk hlet
  · rename_i hk
    obtain ⟨t, tail, rfl, hk⟩ := cons_of_nextKind hk (by simp)
    refine .peek fun _ => ?_
    have hg := startsGenerator_of_startsExpression (h.headed.paren he hk)
    rw [ahead_kind hstop, List.tail_cons, hg, if_neg (by simp)]
    exact h.expression he hr
  · exact h.expression he hr

theorem runs_element {ts : List Token} {x : Node} {rest : List Token}
    (hx : Grammar.Element inner ts x rest) (hr : closes (nextKind rest)) :
    RunsTo src n (element rules) ts x rest := by
  cases hx with
  | loop hk hl hb =>
      obtain ⟨hp, hl, hc⟩ := hl
      obtain ⟨mid, ha, hw⟩ := runs_loopHead h hl (nextKind_cons hc)
      refine .see ?_
      rw [hk]
      refine .take (.expectSymbol hp (ha.bind fun as' has' => hw.bind ?_))
      intro control hcontrol
      obtain ⟨c', us'⟩ := control
      refine .expectSymbol hc ((h.element hb hr).bind fun b' hb' => RunsTo.make ?_)
      simp only [Form.map, has', hb']
      rw [hcontrol.1, hcontrol.2]
  | each hk hb =>
      refine .see ?_
      rw [hk]
      refine .take ((h.element hb hr).bind fun b' hb' => RunsTo.make ?_)
      simp only [Form.map, hb']
  | ifThen hk hc ht he =>
      obtain ⟨hp, hc, hq⟩ := hc
      refine .see ?_
      rw [hk]
      refine .take
        (.expectSymbol hp ((h.expression hc (by rw [nextKind_cons hq]; rfl)).bind fun c' hc' =>
        .expectSymbol hq ((h.element ht hr).bind fun t' ht' => (runs_elseBranch
          (o := none) ⟨h.ifEnd he, rfl⟩).bind fun e' he' => RunsTo.make ?_)))
      simp only [Form.map, hc', ht', he']
  | ifElse hk hc ht he =>
      obtain ⟨hp, hc, hq⟩ := hc
      obtain ⟨hk', he⟩ := he
      have hthen := h.element ht (by rw [nextKind_cons hk']; rfl)
      have helse := h.element he hr
      refine .see ?_
      rw [hk]
      refine .take
        (.expectSymbol hp ((h.expression hc (by rw [nextKind_cons hq]; rfl)).bind fun c' hc' =>
        .expectSymbol hq (hthen.bind fun t' ht' => (runs_elseBranch
          (o := some _) ⟨_, _, rfl, hk', helse⟩).bind fun e' he' => RunsTo.make ?_)))
      simp only [Form.map, hc', ht', he']
  | letIn hk ha hb =>
      refine .see ?_
      rw [hk]
      refine .take ((runs_letAssignments h ha).bind fun as' has' =>
        (h.element hb hr).bind fun b' hb' =>
        RunsTo.make ?_)
      simp only [Form.map, has', hb']
  | group hg hgen =>
      obtain ⟨hl, hx, hq⟩ := hg
      refine .see ?_
      rw [hl]
      refine .peek fun _ => ?_
      refine (if_pos hgen).symm ▸
        .take ((h.element hx (by rw [nextKind_cons hq]; rfl)).bind fun x' hx' =>
        .expectSymbol hq ((Runs.pure _).mono fun y hy => ?_))
      rw [hy]
      exact hx'
  | plain he hlet => exact runs_plainElement h he hlet hr

/-- The kinds that an element of a vector begins with. -/
theorem nextKind_of_element {ts : List Token} {x : Node} {rest : List Token}
    (hx : Grammar.Element inner ts x rest) :
    startsExpression (nextKind ts) ∨ startsGenerator (nextKind ts) := by
  cases hx with
  | loop hk _ _ | each hk _ | ifThen hk _ _ _ | ifElse hk _ _ _ =>
      rw [nextKind_cons hk]
      exact .inr rfl
  | letIn hk _ _ =>
      rw [nextKind_cons hk]
      exact .inl rfl
  | group hg _ =>
      rw [hg.nextKind]
      exact .inl rfl
  | plain he _ => exact .inl (h.headed.starts he)

theorem element_not_closed {ts : List Token} {x : Node} {rest : List Token}
    (hx : Grammar.Element inner ts x rest) {sign : Symbol}
    (hs : startsExpression (.symbol sign) = false) : nextKind ts ≠ .symbol sign := by
  intro hk
  rcases nextKind_of_element h hx with he | hg
  · rw [hk, hs] at he
    cases he
  · rw [hk] at hg
    cases hg

omit h in
/-- Elements of one sort are not reported. -/
theorem runs_checkUniform {xs ys : List Node} (hu : Grammar.Uniform xs)
    (he : ys.map Node.bare = xs.map Node.bare) {ts : List Token} :
    Runs src n (checkUniform ys) ts ts fun _ => True := by
  have hmem : ∀ y ∈ ys, ∃ x ∈ xs, y.isGenerator = x.isGenerator := by
    intro y hy
    have hb : y.bare ∈ xs.map Node.bare := he ▸ List.mem_map_of_mem hy
    obtain ⟨x, hx, hxy⟩ := List.mem_map.1 hb
    exact ⟨x, hx, by rw [← y.isGenerator_bare, ← hxy, x.isGenerator_bare]⟩
  cases ys with
  | nil => exact (Runs.pure ()).mono fun _ _ => trivial
  | cons first more =>
      have hnone : more.find? (·.isGenerator ≠ first.isGenerator) = none := by
        refine List.find?_eq_none.2 fun y hy => ?_
        obtain ⟨x, hx, hxy⟩ := hmem y (List.mem_cons_of_mem _ hy)
        obtain ⟨x', hx', hxy'⟩ := hmem first (List.mem_cons_self ..)
        simp [hxy, hxy', hu x hx x' hx']
      unfold checkUniform
      simp only [hnone]
      exact (Runs.pure ()).mono fun _ _ => trivial

theorem runs_vector {ts : List Token} {es : List Node} {rest : List Token} {i : Info}
    (hv : Between .leftBracket .rightBracket (Listed (Grammar.Element inner)) ts es rest)
    (hu : Grammar.Uniform es) : RunsTo src n (vectorOrRange rules) ts ⟨i, .vector es⟩ rest := by
  obtain ⟨hl, he, hr⟩ := hv
  cases es with
  | nil =>
      cases he
      exact .take (.yes hr (.take (RunsTo.make rfl)))
  | cons first more =>
      have hitem : ∀ {ts a rest}, Grammar.Element inner ts a rest → closes (nextKind rest) →
          RunsToSome src n (do
            if ← atKind (.symbol .rightBracket) then
              return none
            else
              return some (← element rules) : Parser (Option Node)) ts a rest :=
        fun ha hc => .no (element_not_closed h ha rfl) (runs_element h ha hc).offers
      obtain ⟨mid, hf, hm, ht⟩ := turns_listed (Grammar.Element.shrinks h.shrinking)
        (fun ha => element_not_closed h ha rfl) hitem he (.yes hr (Runs.pure _))
        (by rw [nextKind_cons hr]; rfl) (by rw [nextKind_cons hr]; simp)
      have hk : closes (nextKind mid) ∧ nextKind mid ≠ .symbol .colon := by
        rcases hm with rfl | hk
        · rw [nextKind_cons hr]
          exact ⟨rfl, by simp⟩
        · rw [hk]
          exact ⟨rfl, by simp⟩
      refine .take (.no (element_not_closed h hf rfl) ((runs_element h hf hk.1).bind fun a ha =>
        .no hk.2 ((Runs.many ht).bind fun as has => .expectSymbol hr
          ((Runs.make _ _).bind fun v hv =>
          (runs_checkUniform hu ?_).bind fun _ _ => (Runs.pure _).mono fun w hw => ?_))))
      · rw [List.map_cons, List.map_cons, ha, has]
      · rw [hw]
        refine Node.bare_eq hv ?_
        simp only [Form.map, List.map_cons, ha, has]

theorem runs_range {ts : List Token} {a b : Node} {s : Option Node} {rest : List Token} {i : Info}
    (hv : Between .leftBracket .rightBracket (Grammar.Range inner) ts (a, b, s) rest)
    (hg : a.isGenerator = false) :
    RunsTo src n (vectorOrRange rules) ts ⟨i, .range a b s⟩ rest := by
  obtain ⟨hl, he, hr⟩ := hv
  have hplain : ∀ {a' : Node}, a'.bare = a.bare → ¬ a'.isGenerator = true := by
    intro a' ha'
    rw [← a'.isGenerator_bare, ha', a.isGenerator_bare, hg]
    simp
  have hrb : ∀ {ts}, closes (nextKind (_ :: ts)) := fun {ts} => by rw [nextKind_cons hr]; rfl
  cases he with
  | ends ha hb =>
      have hk := hb.nextKind
      obtain ⟨hc, hb⟩ := hb
      refine .take (.no (element_not_closed h ha rfl) ((runs_element h ha (by rw [hk]; rfl)).bind
        fun a' ha' => .yes hk ?_))
      unfold rangeRest
      dsimp only
      rw [if_neg (hplain ha')]
      refine .take ((h.expression hb hrb).bind fun b' hb' => .no (by rw [nextKind_cons hr]; simp)
        (.expectSymbol hr (RunsTo.make ?_)))
      simp only [Form.map, ha', hb', Option.map_none]
  | stepped ha hs hb =>
      have hk := hs.nextKind
      have hk' := hb.nextKind
      obtain ⟨hc, hs⟩ := hs
      obtain ⟨hc', hb⟩ := hb
      refine .take (.no (element_not_closed h ha rfl) ((runs_element h ha (by rw [hk]; rfl)).bind
        fun a' ha' => .yes hk ?_))
      unfold rangeRest
      dsimp only
      rw [if_neg (hplain ha')]
      refine .take ((h.expression hs (by rw [hk']; rfl)).bind fun s' hs' => .yes hk' (.take
        ((h.expression hb hrb).bind fun b' hb' => .expectSymbol hr (RunsTo.make ?_))))
      simp only [Form.map, ha', hb', hs', Option.map_some]

omit h in
theorem runs_numberValue {text : String} {x : Binary64} (hx : Numeral.read text = .ok x)
    {ts : List Token} : Runs src n (numberValue text) ts ts (· = .real x) := by
  intro _ s hs _
  unfold numberValue
  rw [hx]
  exact ⟨hs, rfl, rfl, rfl⟩

theorem runs_primary {ts : List Token} {x : Node} {rest : List Token}
    (hx : Grammar.Primary inner ts x rest) : RunsTo src n (primary rules) ts x rest := by
  cases hx with
  | paren he =>
      obtain ⟨hl, he, hr⟩ := he
      refine .see ?_
      rw [hl]
      refine .take ((h.expression he (by rw [nextKind_cons hr]; rfl)).bind fun e' he' =>
        .expectSymbol hr (RunsTo.make ?_))
      simp only [Form.map, he']
  | vector hv hu =>
      obtain ⟨hl, hes, hr⟩ := hv
      refine .see ?_
      rw [hl]
      exact runs_vector h ⟨hl, hes, hr⟩ hu
  | range hv hg =>
      obtain ⟨hl, hab, hr⟩ := hv
      refine .see ?_
      rw [hl]
      exact runs_range h ⟨hl, hab, hr⟩ hg
  | true hk | false hk | undef hk | string hk | reference hk =>
      refine .see ?_
      rw [hk]
      exact .take (RunsTo.make rfl)
  | number hk hx =>
      refine .see ?_
      rw [hk]
      refine .take ((runs_numberValue hx).bind fun v hv => RunsTo.make ?_)
      rw [hv]

theorem runs_suffix {ts : List Token} {x : Node} {rest : List Token}
    (hx : Grammar.Suffix inner ts x rest) : RunsToSome src n (suffix? rules) ts x rest := by
  cases hx with
  | call ha =>
      have hrun := runs_arguments h ha
      obtain ⟨hl, -, -⟩ := ha
      refine .see ?_
      rw [hl]
      refine hrun.bind fun as' has' => (RunsTo.make ?_).offers
      simp only [Form.map, has']
  | index he =>
      obtain ⟨hl, he, hr⟩ := he
      refine .see ?_
      rw [hl]
      refine .take ((h.expression he (by rw [nextKind_cons hr]; rfl)).bind fun e' he' =>
        .expectSymbol hr (RunsTo.make ?_).offers)
      simp only [Form.map, he']
  | member hd hm =>
      refine .see ?_
      rw [hd]
      refine .take ((Runs.identifier hm).bind fun m hm => (RunsTo.make ?_).offers)
      rw [hm]

omit h in
theorem runs_noSuffix {ts : List Token} (hk : startsSuffix (nextKind ts) = false) :
    Runs src n (suffix? rules) ts ts (· = none) := by
  refine .look fun hs => ?_
  rw [ahead_kind hs]
  split
  · rename_i h
    rw [h] at hk
    cases hk
  · rename_i h
    rw [h] at hk
    cases hk
  · rename_i h
    rw [h] at hk
    cases hk
  · exact Runs.pure _

theorem turns_suffixes {ts : List Token} {ss : List Node} {rest : List Token}
    (hs : Grammar.Repeated (Grammar.Suffix inner) ts ss rest)
    (hr : startsSuffix (nextKind rest) = false) :
    Turns src n (suffix? rules) Node.bare ts (ss.map Node.bare) rest := by
  induction hs with
  | nil => exact .stop (runs_noSuffix hr)
  | cons hx _ ih => exact .turn (runs_suffix h hx) (Grammar.Suffix.shrinks h.shrinking hx) (ih hr)

theorem runs_suffixed {ts : List Token} {x : Node} {rest : List Token}
    (hx : Grammar.Suffixed inner ts x rest) (hr : startsSuffix (nextKind rest) = false) :
    RunsTo src n (suffixed rules) ts x rest := by
  refine .look fun _ => ?_
  cases hx with
  | plain hp =>
      refine (runs_primary h hp).bind fun p' hp' => (Runs.many (v := Node.bare)
        (.stop (runs_noSuffix hr))).bind fun ss hss => ?_
      cases List.map_eq_nil_iff.1 hss
      exact (Runs.pure _).mono fun y hy => hy ▸ hp'
  | call hp hs hne =>
      refine (runs_primary h hp).bind fun p' hp' => (Runs.many (turns_suffixes h hs hr)).bind
        fun ss hss => ?_
      cases ss with
      | nil => exact absurd (List.map_eq_nil_iff.1 hss.symm) hne
      | cons s ss =>
          refine RunsTo.make ?_
          rw [Form.map, Form.map, hp', hss]

theorem runs_power {ts : List Token} {x : Node} {rest : List Token}
    (hx : Grammar.Power inner ts x rest) (hr : continues [] (nextKind rest) = false) :
    RunsTo src n (power rules) ts x rest := by
  have hr' : startsSuffix (nextKind rest) = false ∧ nextKind rest ≠ .symbol .caret := by
    simpa [continues] using hr
  refine .look fun _ => ?_
  cases hx with
  | plain hs =>
      exact (runs_suffixed h hs hr'.1).bind fun b' hb' => .no hr'.2
        ((Runs.pure _).mono fun y hy => hy ▸ hb')
  | raised hb he =>
      have hk := he.nextKind
      obtain ⟨-, he⟩ := he
      refine (runs_suffixed h hb (by rw [hk]; rfl)).bind fun b' hb' => .yes hk (.take
        ((h.unary he hr).bind fun e' he' => RunsTo.make ?_))
      rw [Form.map, Form.map, hb', he']

omit h in
theorem not_isSign_of_startsPrimary {k : TokenKind} (hk : Grammar.startsPrimary k) :
    ¬ isSign k := by
  unfold Grammar.startsPrimary at hk
  split at hk <;> first | decide | cases hk

theorem runs_unary {ts : List Token} {x : Node} {rest : List Token}
    (hx : Grammar.Unary inner ts x rest) (hr : continues [] (nextKind rest) = false) :
    RunsTo src n (unary rules) ts x rest := by
  cases hx with
  | plain hp =>
      refine .look fun hs => ?_
      rw [ahead_kind hs, if_neg]
      · exact runs_power h hp hr
      · intro hsign
        exact absurd hsign (not_isSign_of_startsPrimary ((Grammar.Power.headed h.headed).starts hp))
  | sign hk he =>
      refine .see ?_
      rw [if_pos hk]
      refine .take ((h.unary he hr).bind fun e' he' => RunsTo.make ?_)
      rw [Form.map, Form.map, he']

omit h in
theorem runs_operation {level : ChainLevel} {operand : Parser Node} {k : Token} {ts : List Token}
    {x : Node} {rest : List Token} (hk : isOperator level k.kind)
    (hx : RunsTo src n operand ts x rest) :
    Runs src n (do
      if isOperator level (← current).kind then
        let sign ← advance
        let x ← operand
        return some (sign.text, x)
      else return none : Parser (Option (String × Node))) (k :: ts) rest fun o =>
        ∃ a, o = some a ∧ (a.1, a.2.bare) = (k.text, x.bare) := by
  refine .see ?_
  rw [if_pos hk]
  refine .take (hx.bind fun x' hx' => (Runs.pure _).mono fun o ho => ⟨_, ho, ?_⟩)
  rw [hx']

omit h in
theorem turns_operations {level : ChainLevel} {operand : Parser Node} {P : Grammar.Phrase Node}
    {F : TokenKind → Prop} (hP : Shrinks P)
    (hoperand : ∀ {ts x rest}, P ts x rest → F (nextKind rest) → RunsTo src n operand ts x rest)
    (hlevel : ∀ k, isOperator level k → F k) {ts : List Token} {more : List (String × Node)}
    {rest : List Token} (hm : Grammar.Repeated (Grammar.Operation level P) ts more rest)
    (hr : F (nextKind rest)) (hend : isOperator level (nextKind rest) = false) :
    Turns src n (do
      if isOperator level (← current).kind then
        let sign ← advance
        let x ← operand
        return some (sign.text, x)
      else return none : Parser (Option (String × Node))) (fun a => (a.1, a.2.bare)) ts
      (more.map fun a => (a.1, a.2.bare)) rest ∧ F (nextKind ts) := by
  induction hm with
  | nil =>
      refine ⟨.stop (.look fun hs => ?_), hr⟩
      rw [ahead_kind hs, hend, if_neg (by simp)]
      exact Runs.pure _
  | cons ho _ ih =>
      have hshrink := Grammar.Operation.shrinks hP ho
      obtain ⟨ht, hs⟩ := ih hr hend
      obtain ⟨hk, hx⟩ := ho
      exact ⟨.turn (runs_operation hk (hoperand hx hs)) hshrink ht, hlevel _ hk⟩

omit h in
theorem operations_bare {as bs : List (String × Node)}
    (h : as.map (fun a => (a.1, a.2.bare)) = bs.map fun b => (b.1, b.2.bare)) :
    as.map (·.1) = bs.map (·.1) ∧ (as.map (·.2)).map Node.bare = (bs.map (·.2)).map Node.bare := by
  have hfst := congrArg (List.map Prod.fst) h
  have hsnd := congrArg (List.map Prod.snd) h
  rw [List.map_map, List.map_map] at hfst hsnd
  rw [List.map_map, List.map_map]
  exact ⟨hfst, hsnd⟩

omit h in
theorem runs_chain {level : ChainLevel} {operand : Parser Node} {P : Grammar.Phrase Node}
    {F : TokenKind → Prop} (hP : Shrinks P)
    (hoperand : ∀ {ts x rest}, P ts x rest → F (nextKind rest) → RunsTo src n operand ts x rest)
    (hlevel : ∀ k, isOperator level k → F k) {ts : List Token} {x : Node}
    {rest : List Token} (hx : Grammar.Chain level P ts x rest) (hr : F (nextKind rest))
    (hend : isOperator level (nextKind rest) = false) :
    RunsTo src n (chain level operand) ts x rest := by
  refine .look fun _ => ?_
  cases hx with
  | single hx =>
      have hturns := turns_operations hP hoperand hlevel .nil hr hend
      refine (hoperand hx hr).bind fun x' hx' => (Runs.many hturns.1).bind fun more hmore => ?_
      cases List.map_eq_nil_iff.1 hmore
      exact (Runs.pure _).mono fun y hy => hy ▸ hx'
  | several hx hm hne =>
      have hturns := turns_operations hP hoperand hlevel hm hr hend
      refine (hoperand hx hturns.2).bind fun x' hx' =>
        (Runs.many hturns.1).bind fun more hmore => ?_
      obtain ⟨hsigns, hnodes⟩ := operations_bare hmore
      cases more with
      | nil => exact absurd (List.map_eq_nil_iff.1 hmore.symm) hne
      | cons a more =>
          refine RunsTo.make ?_
          rw [Form.map, Form.map, hsigns, List.map_cons, hnodes, hx', List.map_cons]

omit h in
theorem operators_detached (level : ChainLevel) :
    ∀ sign ∈ operators level, startsSuffix (.symbol sign) = false ∧ sign ≠ .caret := by
  cases level <;> decide

omit h in
/-- An operator of a level does not continue an operand of that level. -/
theorem not_continues_of_isOperator {level : ChainLevel} {tighter : List ChainLevel}
    (ht : ∀ l ∈ tighter, ∀ sign ∈ operators level, sign ∉ operators l) (k : TokenKind)
    (hk : isOperator level k) : continues tighter k = false := by
  obtain ⟨sign, hsign, hk⟩ := List.any_eq_true.1 hk
  obtain rfl := of_decide_eq_true hk
  obtain ⟨hsuffix, hcaret⟩ := operators_detached level sign hsign
  have hany : tighter.any (isOperator · (.symbol sign)) = false := by
    rw [List.any_eq_false]
    intro l hl ho
    obtain ⟨sign', hmem, hs⟩ := List.any_eq_true.1 ho
    cases of_decide_eq_true hs
    exact ht l hl sign hsign hmem
  rw [continues, hsuffix, hany]
  simpa using hcaret

/-- A production for an operand, which runs when what stands behind it belongs to no
tighter level. -/
structure Operand (src : Source) (n : Nat) (p : Parser Node) (P : Grammar.Phrase Node)
    (tighter : List ChainLevel) : Prop where
  shrinks : Shrinks P
  runs : ∀ {ts x rest}, P ts x rest → continues tighter (nextKind rest) = false →
    RunsTo src n p ts x rest

omit h in
theorem Operand.chain {p : Parser Node} {P : Grammar.Phrase Node} {tighter : List ChainLevel}
    (hp : Operand src n p P tighter) (level : ChainLevel)
    (ht : ∀ l ∈ tighter, ∀ sign ∈ operators level, sign ∉ operators l) :
    Operand src n (chain level p) (Grammar.Chain level P) (level :: tighter) where
  shrinks := Grammar.Chain.shrinks hp.shrinks
  runs hx hr := by
    simp only [continues, List.any_cons, Bool.or_eq_false_iff] at hr
    refine runs_chain (F := fun k => continues tighter k = false) hp.shrinks hp.runs
      (not_continues_of_isOperator ht) hx ?_ hr.2.1
    simp only [continues, Bool.or_eq_false_iff]
    exact ⟨hr.1, hr.2.2⟩

def chainLevels : List ChainLevel :=
  [.disjunction, .conjunction, .equality, .comparison, .additive, .multiplicative]

theorem operand_chains : Operand src n (chains rules) (Grammar.Chains inner) chainLevels := by
  have hunary : Operand src n (unary rules) (Grammar.Unary inner) [] :=
    ⟨Grammar.Unary.shrinks h.shrinking, runs_unary h⟩
  have hproduct := hunary.chain .multiplicative (by decide)
  have hsum := hproduct.chain .additive (by decide)
  have hcomparison := hsum.chain .comparison (by decide)
  have hequality := hcomparison.chain .equality (by decide)
  have hconjunction := hequality.chain .conjunction (by decide)
  exact hconjunction.chain .disjunction (by decide)

omit h in
theorem not_continues_of_closes {k : TokenKind} (hk : closes k) :
    continues chainLevels k = false ∧ k ≠ .symbol .question := by
  unfold closes at hk
  split at hk
  · decide
  · decide
  · decide
  · decide
  · decide
  · decide
  · cases hk

theorem runs_ternary {ts : List Token} {x : Node} {rest : List Token}
    (hx : Grammar.Ternary inner ts x rest) (hr : closes (nextKind rest)) :
    RunsTo src n (ternary rules) ts x rest := by
  refine .look fun _ => ?_
  cases hx with
  | plain hc =>
      obtain ⟨hk, hq⟩ := not_continues_of_closes hr
      exact ((operand_chains h).runs hc hk).bind fun c' hc' => .no hq
        ((Runs.pure _).mono fun y hy => hy ▸ hc')
  | choice hc ha hb =>
      have hq := ha.nextKind
      have hcolon := hb.nextKind
      obtain ⟨-, ha⟩ := ha
      obtain ⟨hcolon', hb⟩ := hb
      refine ((operand_chains h).runs hc (by rw [hq]; decide)).bind fun c' hc' => .yes hq (.take
        ((h.expression ha (by rw [hcolon]; rfl)).bind fun a' ha' => .expectSymbol hcolon'
          ((h.expression hb hr).bind fun b' hb' => RunsTo.make ?_)))
      rw [Form.map, Form.map, hc', ha', hb']

theorem runs_remark {verb : Verb} {start k : Token} {ts : List Token} {as : List Node}
    {b : Option Node} {mid rest : List Token} {i : Info}
    (ha : Grammar.Arguments inner false ts as mid) (hb : match b with
      | some b => inner.expression mid b rest
      | none => rest = mid) (hr : closes (nextKind rest)) :
    RunsTo src n (remark rules verb start) (k :: ts) ⟨i, .remark verb as b⟩ rest := by
  refine .take ((runs_arguments h ha).bind fun as' has' => .look fun hs => ?_)
  rw [ahead_kind hs]
  cases b with
  | none =>
      subst hb
      rw [startsExpression_of_closes _ hr, if_neg (by simp)]
      refine RunsTo.make ?_
      simp only [Form.map, has', Option.map_none]
  | some b =>
      rw [if_pos (h.headed.starts hb)]
      refine (h.expression hb hr).bind fun b' hb' => RunsTo.make ?_
      simp only [Form.map, has', hb', Option.map_some]

theorem runs_expression {ts : List Token} {x : Node} {rest : List Token}
    (hx : Grammar.Expression inner ts x rest) (hr : closes (nextKind rest)) :
    RunsTo src n (expression rules) ts x rest := by
  cases hx with
  | letIn hk ha hb =>
      refine .see ?_
      rw [hk]
      refine .take ((runs_letAssignments h ha).bind fun as' has' => (h.expression hb hr).bind
        fun b' hb' => RunsTo.make ?_)
      rw [Form.map, Form.map, has', hb']
  | @remark verb _ _ _ _ _ hk ha =>
      refine .see ?_
      rw [hk]
      cases verb with
      | echo => exact runs_remark h (b := none) ha rfl hr
      | assert => exact runs_remark h (b := none) ha rfl hr
  | @remarkOn verb _ _ _ _ _ _ _ hk ha hb =>
      refine .see ?_
      rw [hk]
      cases verb with
      | echo => exact runs_remark h (b := some _) ha hb hr
      | assert => exact runs_remark h (b := some _) ha hb hr
  | functionLiteral hk hp hb =>
      refine .see ?_
      rw [hk]
      refine .take ((runs_parameters h hp).bind fun ps' hps' => (h.expression hb hr).bind
        fun b' hb' => RunsTo.make ?_)
      rw [Form.map, Form.map, hps', hb']
  | ternary ht =>
      have hk := (Grammar.Ternary.headed h.headed).starts ht
      refine .look fun hs => ?_
      rw [ahead_kind hs]
      split
      · rename_i hn
        rw [hn] at hk
        cases hk
      · rename_i hn
        rw [hn] at hk
        cases hk
      · rename_i hn
        rw [hn] at hk
        cases hk
      · rename_i hn
        rw [hn] at hk
        cases hk
      · exact runs_ternary h ht hr

omit h in
theorem complete_expressionRules (n : Nat) :
    CompleteExpressions src n (expressionRules n) (Grammar.level Grammar.NearestElse n) := by
  induction n with
  | zero =>
      exact ⟨nofun, nofun, nofun, Grammar.level_headed _ 0, Grammar.level_shrinking _ 0, id⟩
  | succ n ih =>
      exact ⟨fun hx hr => (runs_expression ih hx hr).nested,
        fun hx hr => (runs_unary ih hx hr).nested, fun hx hr => (runs_element ih hx hr).nested,
        Grammar.level_headed _ (n + 1), Grammar.level_shrinking _ (n + 1), id⟩

end Scad.Parse
