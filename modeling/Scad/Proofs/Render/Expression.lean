import Scad.Proofs.Grammar.Heads
import Scad.Proofs.Number.Reading
import Scad.Proofs.Render.Laid
import Scad.Proofs.Render.Printable

/-! The text of an expression reads as the expression, at any depth that its own tokens could be
read at. -/
namespace Scad

open Lexeme (Delimited Closed Meets IsWord)
open Grammar
open Scad.Lex

attribute [local simp] Node.render

/-- What may stand behind a primary: behind a number, no point. -/
def FollowsPrimary (x : Node) (cs : List Char) : Prop :=
  Delimited cs ∧ ((∃ v, x.form = .number v) → cs.head? ≠ some '.')

theorem Lexeme.Closed.followsPrimary {cs : List Char} (h : Closed cs) (x : Node) :
    FollowsPrimary x cs := ⟨h.delimited, fun _ => h.point⟩

theorem Lex.Fits.head {k : TokenKind} {t : String} {cs : List Char}
    (hk : k ≠ .symbol .assign ∧ k ≠ .symbol .equal) (h : (Lex.token k t).Fits cs) :
    ∃ c ds, (Lex.token k t).text.toList = c :: ds ∧ c ≠ '=' := by
  cases k with
  | keyword w =>
      obtain ⟨rfl, -⟩ := h
      cases w <;> exact ⟨_, _, rfl, by decide⟩
  | identifier =>
      obtain ⟨ds, hds, hne, hword⟩ := h.1.shape
      rcases hds with hds | hds
      · cases ds with
        | nil => exact absurd rfl hne
        | cons d ds =>
            refine ⟨d, ds, hds, ?_⟩
            rintro rfl
            exact absurd (hword '=' (List.mem_cons_self ..)) (by decide)
      · exact ⟨_, _, hds, by decide⟩
  | number =>
      obtain ⟨c, ds, hc, hd⟩ := h.1.head
      refine ⟨c, ds, hc, ?_⟩
      rintro rfl
      exact absurd hd (by decide)
  | string =>
      obtain ⟨q, hq, -, htext⟩ := Quotable.quoteString h
      refine ⟨q, _, htext, ?_⟩
      rcases hq with rfl | rfl <;> decide
  | symbol s =>
      obtain ⟨rfl, -⟩ := h
      cases s with
      | assign => exact absurd rfl hk.1
      | equal => exact absurd rfl hk.2
      | _ => exact ⟨_, _, rfl, by decide⟩
  | file => exact h.elim
  | eof => exact h.elim

theorem Lex.Starts.not_assign {k : TokenKind} {ls : List Lex} (h : Starts k ls)
    (hk : k ≠ .symbol .assign ∧ k ≠ .symbol .equal) {cs : List Char} (hs : Spaced ls cs)
    (ds : List Char) : ((textAll ls).toList ++ ds).head? ≠ some '=' := by
  obtain ⟨t, ms, rfl⟩ := h
  obtain ⟨c, es, hes, hc⟩ := hs.1.head hk
  rw [textAll_cons, String.toList_append, hes]
  intro heq
  exact hc (Option.some.inj heq)

/-- An expression does not begin like `=`. -/
theorem Heads.not_assign {k : TokenKind} {ls : List Lex} (h : Heads k ls) {cs : List Char}
    (hs : Spaced ls cs) (ds : List Char) : ((textAll ls).toList ++ ds).head? ≠ some '=' := by
  refine h.2.not_assign ⟨?_, ?_⟩ hs ds
  · rintro rfl
    cases h.1
  · rintro rfl
    cases h.1

/-- A phrase whose `else` branches are all its own. -/
def OwnsElses (P : Phrase Node) : Phrase Node := fun ts x rest =>
  (x.endsInIf → NearestElse rest) → P ts x rest

theorem nearestElse_cons {t : Token} {ts : List Token} {s : Symbol} (h : t.kind = .symbol s) :
    NearestElse (t :: ts) := by
  show t.kind ≠ _
  rw [h]
  intro hk
  cases hk

theorem of_guarded_listed {P : Phrase Node} {ts rest : List Token} {as : List Node}
    (h : Listed (OwnsElses P) ts as rest) (hr : NearestElse rest) : Listed P ts as rest := by
  induction h with
  | none => exact .none
  | one ha => exact .one (ha fun _ => hr)
  | more ha hc _ ih =>
      refine .more (ha fun _ => ?_) hc (ih hr)
      cases hc with
      | one hk | more hk _ => exact nearestElse_cons hk

/-- One token that is all of a node's text. -/
theorem shows_token {follow : List Char → Prop} {P : Phrase Node} {x : Node} {k : TokenKind}
    {t : String} (hk : Parse.startsExpression k) (htext : x.render = .ok (Lex.token k t).text)
    (hfits : ∀ {cs}, follow cs → (Lex.token k t).Fits cs)
    (hreads : ∀ {u us}, u.kind = k → u.text = t → P (u :: us) x us) : Shows follow P x k := by
  refine ⟨[.token k t], ⟨hk, t, [], rfl⟩, ?_, ?_, ?_⟩
  · rw [htext]
    exact ok_text (by simp)
  · intro cs hcs
    exact ⟨hfits hcs, trivial⟩
  · intro ts rest hs
    simp only [spelled_token, spelled_nil] at hs
    obtain ⟨u, us, rfl, huk, hut, rfl⟩ := hs
    exact hreads huk hut

section Layouts

variable {outer : Level} {i : Info}

theorem shows_reference {name : String} (h : IsTextOf .identifier name) :
    Shows Delimited (Primary outer) ⟨i, .variableRef name⟩ .identifier := by
  refine shows_token rfl rfl (fun hcs => ⟨h.1, h.2, hcs⟩) fun hk ht => ?_
  subst ht
  exact .reference hk

theorem shows_string {t : String} (h : IsTextOf .string t) :
    Shows Delimited (Primary outer) ⟨i, .string t⟩ .string := by
  refine shows_token rfl rfl (fun _ => h) fun hk ht => ?_
  subst ht
  exact .string hk

theorem shows_true : Shows Delimited (Primary outer) ⟨i, .boolean true⟩ (.keyword .true) :=
  shows_token rfl rfl (fun hcs => ⟨rfl, rfl, hcs⟩) fun hk _ => .true hk

theorem shows_false : Shows Delimited (Primary outer) ⟨i, .boolean false⟩ (.keyword .false) :=
  shows_token rfl rfl (fun hcs => ⟨rfl, rfl, hcs⟩) fun hk _ => .false hk

theorem shows_undef : Shows Delimited (Primary outer) ⟨i, .undefined⟩ (.keyword .undef) :=
  shows_token rfl rfl (fun hcs => ⟨rfl, rfl, hcs⟩) fun hk _ => .undef hk

theorem shows_number {t : String} (ht : IsTextOf .number t) {x : Binary64}
    (hx : Numeral.read t = .ok x) (hfinite : (Number.real x).dyadic?.isSome) :
    Shows (FollowsPrimary ⟨i, .number (.real x)⟩) (Primary outer)
      ⟨i, .number (.real x)⟩ .number := by
  obtain ⟨s, hs, hnum, hread⟩ := Number.render_read ht hx hfinite
  refine shows_token (t := s) rfl ?_ (fun hcs => ⟨hnum, hcs.1, hcs.2 ⟨_, rfl⟩⟩) fun hk hu => ?_
  · rw [Node.render, renderNumber, hs]
    rfl
  · subst hu
    exact .number hk hread

theorem shows_paren {e : Node} {k : TokenKind} (h : Shows Closed outer.expression e k) :
    Shows Delimited (Primary outer) ⟨i, .paren e⟩ (.symbol .leftParen) := by
  obtain ⟨ls, -, h⟩ := h
  refine ⟨_, heads_sign rfl _, ?_, fun _ => h.parens.spaced trivial, fun hs => ?_⟩
  · rw [Node.render]
    exact h.parens.text
  · exact .paren (h.parens.reads hs)

theorem shows_vector {es : List Node}
    (h : ∀ e ∈ es, Lays Closed e.render fun ts rest => OwnsElses (Element outer) ts e rest)
    (hu : Uniform es) : Shows Delimited (Primary outer) ⟨i, .vector es⟩ (.symbol .leftBracket) := by
  obtain ⟨ls, hes⟩ := lays_listed h
  obtain ⟨texts, htexts, hjoin⟩ := of_renderAll hes.text
  refine ⟨_, heads_sign rfl _, ?_, fun _ => hes.brackets.spaced trivial, fun hs => ?_⟩
  · rw [Node.render, renderList_eq, htexts]
    exact ok_text (by simp [hjoin, Symbol.text])
  · obtain ⟨hl, hin, hr⟩ := hes.brackets.reads hs
    exact .vector ⟨hl, of_guarded_listed hin (nearestElse_cons hr), hr⟩ hu

theorem shows_ends {a b : Node} {k : TokenKind} (hgen : a.isGenerator = false)
    (ha : Lays Closed a.render fun ts rest => OwnsElses (Element outer) ts a rest)
    (hb : Shows Closed outer.expression b k) :
    Shows Delimited (Primary outer) ⟨i, .range a b none⟩ (.symbol .leftBracket) := by
  obtain ⟨ls, ha⟩ := ha
  obtain ⟨ms, -, hb⟩ := hb
  refine ⟨sign .leftBracket :: (ls ++ (sign .colon :: ms ++ [sign .rightBracket])),
    heads_sign rfl _, ?_, fun _ => ?_, fun hs => ?_⟩
  · rw [Node.render, ha.text, hb.text]
    exact ok_text (by simp [Symbol.text])
  · simp [Meets, Symbol.text, ha.spaced, hb.spaced, ends_signs]
  · simp only [spelled_sign, spelled_append, spelled_nil, List.cons_append] at hs
    obtain ⟨l, us, rfl, hl, -, mid, hls, c, vs, rfl, hc, -, next, hms, r, ws, rfl, hr, -, rfl⟩ := hs
    exact .range ⟨hl, .ends (ha.reads hls fun _ => nearestElse_cons hc) ⟨hc, hb.reads hms⟩, hr⟩ hgen

theorem shows_stepped {a s b : Node} {k k' : TokenKind} (hgen : a.isGenerator = false)
    (ha : Lays Closed a.render fun ts rest => OwnsElses (Element outer) ts a rest)
    (hs : Shows Closed outer.expression s k) (hb : Shows Closed outer.expression b k') :
    Shows Delimited (Primary outer) ⟨i, .range a b (some s)⟩ (.symbol .leftBracket) := by
  obtain ⟨ls, ha⟩ := ha
  obtain ⟨ns, -, hs⟩ := hs
  obtain ⟨ms, -, hb⟩ := hb
  refine ⟨sign .leftBracket ::
    (ls ++ (sign .colon :: ns ++ (sign .colon :: ms ++ [sign .rightBracket]))), heads_sign rfl _,
    ?_, fun _ => ?_, fun hsp => ?_⟩
  · rw [Node.render, ha.text, hs.text, hb.text]
    exact ok_text (by simp [Symbol.text])
  · simp [Meets, Symbol.text, ha.spaced, hs.spaced, hb.spaced, ends_signs]
  · simp only [spelled_sign, spelled_append, spelled_nil, List.cons_append] at hsp
    obtain ⟨l, us, rfl, hl, -, mid, hls, c, vs, rfl, hc, -, next, hns, d, ws, rfl, hd, -, last, hms,
      r, xs, rfl, hr, -, rfl⟩ := hsp
    exact .range ⟨hl, .stepped (ha.reads hls fun _ => nearestElse_cons hc) ⟨hc, hs.reads hns⟩
      ⟨hd, hb.reads hms⟩, hr⟩ hgen

/-! ### Arguments, parameters and assignments -/

def Named (outer : Level) (name : String) (e : Node) (ts rest : List Token) : Prop :=
  ∃ u us, ts = u :: us ∧ u.kind = .identifier ∧ u.text = name ∧ Value outer us e rest

theorem laid_named {name : String} (hn : IsTextOf .identifier name) {e : Node} {k : TokenKind}
    (h : Shows Closed outer.expression e k) :
    Lays Closed (do return name ++ " = " ++ (← e.render)) (Named outer name e) := by
  obtain ⟨ls, hk, h⟩ := h
  refine ⟨Lex.name name :: gap :: sign .assign :: gap :: ls, ?_, fun hcs => ?_, fun hs => ?_⟩
  · rw [h.text]
    exact ok_text (by simp [Symbol.text])
  · simp [Meets, hn, h.spaced hcs, delimits_signs]
  · simp only [spelled_name, spelled_gap, spelled_sign] at hs
    obtain ⟨u, us, rfl, hu, ht, v, vs, rfl, hv, -, hls⟩ := hs
    exact ⟨u, _, rfl, hu, ht, hv, h.reads hls⟩

theorem lays_parameter_optional {name : String} (hn : IsTextOf .identifier name) {e : Node}
    {k : TokenKind} (h : Shows Closed outer.expression e k) :
    Lays Closed (Node.render ⟨i, .parameter name (some e)⟩) fun ts rest =>
      Parameter outer ts ⟨i, .parameter name (some e)⟩ rest := by
  obtain ⟨ls, h⟩ := laid_named hn h
  refine ⟨ls, ?_, h.spaced, fun hs => ?_⟩
  · rw [Node.render]
    exact h.text
  · obtain ⟨u, us, rfl, hu, rfl, hv⟩ := h.reads hs
    exact .optional hu hv

theorem lays_parameter_required {name : String} (hn : IsTextOf .identifier name) :
    Lays Closed (Node.render ⟨i, .parameter name none⟩) fun ts rest =>
      Parameter outer ts ⟨i, .parameter name none⟩ rest := by
  refine ⟨[Lex.name name], ok_text (by simp), fun hcs => ?_, fun hs => ?_⟩
  · simp [hn, hcs.delimited]
  · simp only [spelled_name, spelled_nil] at hs
    obtain ⟨u, us, rfl, hu, rfl, rfl⟩ := hs
    exact .required hu

/-- An assignment inside of parentheses has no semicolon. -/
def renderClause : Node → Rendered
  | ⟨_, .assignment t e⟩ => do
    let t ← t.render
    let e ← e.render
    return t ++ " = " ++ e
  | n => n.render

theorem renderClauses_eq (ns : List Node) : renderClauses ns = ns.mapM renderClause := by
  induction ns with
  | nil => rfl
  | cons n rest ih =>
      rw [List.mapM_cons, ← ih]
      obtain ⟨j, f⟩ := n
      cases f with
      | assignment t e =>
          rw [renderClauses, renderClause]
          cases t.render with
          | error => rfl
          | ok => cases e.render <;> rfl
      | _ => rfl

theorem lays_assignment {name : String} (hn : IsTextOf .identifier name) {e : Node} {j : Info}
    {k : TokenKind} (h : Shows Closed outer.expression e k) :
    Lays Closed (renderClause ⟨i, .assignment ⟨j, .variableDefinition name⟩ e⟩) fun ts rest =>
      Assignment outer ts ⟨i, .assignment ⟨j, .variableDefinition name⟩ e⟩ rest := by
  obtain ⟨ls, h⟩ := laid_named hn h
  refine ⟨ls, h.text, h.spaced, fun hs => ?_⟩
  obtain ⟨u, us, rfl, hu, rfl, hv⟩ := h.reads hs
  exact ⟨hu, hv⟩

theorem lays_update {name : String} (hn : IsTextOf .identifier name) {e : Node} {j : Info}
    {k : TokenKind} (h : Shows Closed outer.expression e k) :
    Lays Closed (Node.render ⟨i, .loopUpdate ⟨j, .variableRef name⟩ e⟩) fun ts rest =>
      Update outer ts ⟨i, .loopUpdate ⟨j, .variableRef name⟩ e⟩ rest := by
  obtain ⟨ls, h⟩ := laid_named hn h
  refine ⟨ls, ?_, h.spaced, fun hs => ?_⟩
  · rw [Node.render]
    exact h.text
  · obtain ⟨u, us, rfl, hu, rfl, hv⟩ := h.reads hs
    exact ⟨hu, hv⟩

theorem render_argumentLabel (declares : Bool) (name : String) (j : Info) :
    Node.render ⟨j, argumentLabel declares name⟩ = .ok name := by
  cases declares <;> rfl

theorem lays_argument_named {declares : Bool} {name : String} (hn : IsTextOf .identifier name)
    {e : Node} {j : Info} {k : TokenKind} (h : Shows Closed outer.expression e k) :
    Lays Closed (Node.render ⟨i, .argument (some ⟨j, argumentLabel declares name⟩) e⟩)
      fun ts rest => Argument outer declares ts
        ⟨i, .argument (some ⟨j, argumentLabel declares name⟩) e⟩ rest := by
  obtain ⟨ls, hk, h⟩ := h
  refine ⟨Lex.name name :: sign .assign :: ls, ?_, fun {cs} hcs => ?_, fun hs => ?_⟩
  · rw [Node.render, render_argumentLabel, h.text]
    exact ok_text (by simp [Symbol.text])
  · have hmeets : Meets .assign ((textAll ls).toList ++ cs) := hk.not_assign (h.spaced hcs) cs
    simp [hn, hmeets, h.spaced hcs, Symbol.text, delimits_signs]
  · simp only [spelled_name, spelled_sign] at hs
    obtain ⟨u, us, rfl, hu, rfl, v, vs, rfl, hv, -, hls⟩ := hs
    exact .named hu ⟨hv, h.reads hls⟩

theorem lays_argument_unnamed {declares : Bool} {e : Node} {k : TokenKind}
    (h : Shows Closed outer.expression e k) :
    Lays Closed (Node.render ⟨i, .argument none e⟩) fun ts rest =>
      Argument outer declares ts ⟨i, .argument none e⟩ rest := by
  obtain ⟨ls, -, h⟩ := h
  refine ⟨ls, ?_, h.spaced, fun hs => .unnamed (h.reads hs)⟩
  rw [Node.render]
  exact h.text

/-! ### Operands -/

/-- A suffix's text, whatever stands behind it that ends a word. Only a member's begins with a
point. -/
def ShowsSuffix (outer : Level) (s : Node) : Prop :=
  ∃ ls, Laid Delimited s.render (fun ts rest => Suffix outer ts s rest) ls ∧
    ∃ c cs, (textAll ls).toList = c :: cs ∧ Lexeme.delimits c ∧
      (c = '.' → ∃ m, s.form = .memberSuffix m)

theorem showsSuffix_call {as : List Node}
    (h : ∀ a ∈ as, Lays Closed a.render fun ts rest => Argument outer false ts a rest) :
    ShowsSuffix outer ⟨i, .callSuffix as⟩ := by
  obtain ⟨texts, htexts, ls, has⟩ := lays_parens h
  have htext := Except.ok.inj has.text
  refine ⟨ls, ⟨?_, fun _ => has.spaced trivial, fun hs => .call (has.reads hs)⟩, '(',
    (commaSeparated texts ++ ")").toList, ?_,
    delimits_signs.2.2.1, fun hc => absurd hc (by decide)⟩
  · rw [Node.render, renderList_eq, htexts, ← htext]
    rfl
  · rw [← htext]
    simp

theorem showsSuffix_index {e : Node} {k : TokenKind} (h : Shows Closed outer.expression e k) :
    ShowsSuffix outer ⟨i, .indexSuffix e⟩ := by
  obtain ⟨ls, -, h⟩ := h
  refine ⟨_, ⟨?_, fun _ => h.brackets.spaced trivial, fun hs => .index (h.brackets.reads hs)⟩,
    '[', _, by simp [Symbol.text]; rfl, by decide, fun hc => absurd hc (by decide)⟩
  rw [Node.render]
  exact h.brackets.text

/-- A point before a name that no digit begins is a sign. -/
theorem meets_name {m : String} (hm : IsTextOf .identifier m)
    (hd : ∀ c, m.toList.head? = some c → Text.isDecimalDigit c = false) (cs : List Char) :
    Meets .dot (m.toList ++ cs) := by
  obtain ⟨ds, hds, hne, -⟩ := hm.1.shape
  intro c hc
  refine hd c ?_
  cases hml : m.toList with
  | nil => rcases hds with hds | hds <;> simp_all
  | cons d ds =>
      rw [hml] at hc
      exact hc

theorem showsSuffix_member {m : String} (hm : IsTextOf .identifier m)
    (hd : ∀ c, m.toList.head? = some c → Text.isDecimalDigit c = false) :
    ShowsSuffix outer ⟨i, .memberSuffix m⟩ := by
  have hmeets := meets_name hm hd
  refine ⟨[sign .dot, Lex.name m], ⟨?_, fun hcs => ?_, fun hs => ?_⟩, '.', m.toList, ?_, by decide,
    fun _ => ⟨m, rfl⟩⟩
  · exact ok_text (by simp [Symbol.text])
  · simp [hm, hmeets, hcs]
  · simp only [spelled_sign, spelled_name, spelled_nil] at hs
    obtain ⟨d, us, rfl, hk, -, u, vs, rfl, hu, rfl, rfl⟩ := hs
    exact .member hk hu
  · simp [Symbol.text]

/-- Suffixes one behind the other. -/
theorem lays_suffixes {ss : List Node} (h : ∀ s ∈ ss, ShowsSuffix outer s) :
    ∃ texts ls, ss.mapM Node.render = .ok texts ∧
      Laid Delimited (.ok (String.join texts))
        (fun ts rest => Repeated (Suffix outer) ts ss rest) ls ∧
      ∀ s rest, ss = s :: rest → ∃ c cs, (textAll ls).toList = c :: cs ∧ Lexeme.delimits c ∧
        (c = '.' → ∃ m, s.form = .memberSuffix m) := by
  induction ss with
  | nil =>
      refine ⟨[], [], rfl, ⟨rfl, fun _ => trivial, fun hs => ?_⟩, by simp⟩
      cases spelled_nil.1 hs
      exact .nil
  | cons s ss ih =>
      obtain ⟨ls, hs, c, cs, hcs, hc, hdot⟩ := h s (List.mem_cons_self ..)
      obtain ⟨texts, ms, htexts, hms, hhead⟩ := ih fun t ht => h t (List.mem_cons_of_mem _ ht)
      refine ⟨textAll ls :: texts, ls ++ ms, ?_, ⟨?_, fun {ds} hds => ?_, fun hsp => ?_⟩, ?_⟩
      · rw [List.mapM_cons, hs.text, htexts]
        rfl
      · rw [String.join_cons, Except.ok.inj hms.text]
        exact ok_text (by simp)
      · have hrest : Delimited ((textAll ms).toList ++ ds) := by
          cases ss with
          | nil =>
              cases htexts
              rw [← Except.ok.inj hms.text]
              exact hds
          | cons t ss =>
              obtain ⟨d, es, hes, hd, -⟩ := hhead t ss rfl
              rw [hes]
              exact delimited_cons.2 hd
        simp [hs.spaced hrest, hms.spaced hds]
      · rw [spelled_append] at hsp
        obtain ⟨mid, h1, h2⟩ := hsp
        exact .cons (hs.reads h1) (hms.reads h2)
      · intro t rest heq
        cases heq
        exact ⟨c, _, by rw [textAll_append, String.toList_append, hcs]; rfl, hc, hdot⟩

theorem shows_call {x : Node} {ss : List Node} {k : TokenKind}
    (hx : Shows (FollowsPrimary x) (Primary outer) x k) (hss : ∀ s ∈ ss, ShowsSuffix outer s)
    (hne : ss ≠ []) (hp : Node.Printable ⟨i, .call x ss⟩) :
    Shows Closed (Suffixed outer) ⟨i, .call x ss⟩ k := by
  obtain ⟨ls, hk, hx⟩ := hx
  obtain ⟨texts, ms, htexts, hms, hhead⟩ := lays_suffixes hss
  have htext := Except.ok.inj hms.text
  refine ⟨ls ++ ms, hk.append ms, ?_, fun {cs} hcs => ?_, fun hs => ?_⟩
  · rw [Node.render, hx.text, renderList_eq, htexts]
    exact ok_text (by simp [htext])
  · cases ss with
    | nil => exact absurd rfl hne
    | cons s ss =>
        obtain ⟨c, ds, hds, hc, hdot⟩ := hhead s ss rfl
        have hfollow : FollowsPrimary x ((textAll ms).toList ++ cs) := by
          rw [hds]
          refine ⟨delimited_cons.2 hc, fun hnum hcd => ?_⟩
          obtain ⟨v, hv⟩ := hnum
          obtain ⟨m, hm⟩ := hdot (Option.some.inj hcd)
          exact hp.target _ _ _ v m rfl hv hm
        simp [hx.spaced hfollow, hms.spaced hcs.delimited]
  · rw [spelled_append] at hs
    obtain ⟨mid, h1, h2⟩ := hs
    exact .call (hx.reads h1) (hms.reads h2) hne

theorem shows_power {b e : Node} {k k' : TokenKind} (hb : Shows Closed (Suffixed outer) b k)
    (he : Shows Closed outer.unary e k') : Shows Closed (Power outer) ⟨i, .power b e⟩ k := by
  obtain ⟨ls, hk, hb⟩ := hb
  obtain ⟨ms, -, he⟩ := he
  refine ⟨ls ++ gap :: sign .caret :: gap :: ms, hk.append _, ?_, fun hcs => ?_, fun hs => ?_⟩
  · rw [Node.render, hb.text, he.text]
    exact ok_text (by simp [Symbol.text])
  · simp [Meets, hb.spaced, he.spaced hcs, ends_signs]
  · simp only [spelled_append, spelled_gap, spelled_sign] at hs
    obtain ⟨mid, hls, u, us, rfl, hu, -, hms⟩ := hs
    exact .raised (hb.reads hls) ⟨hu, he.reads hms⟩

theorem shows_sign {s : Symbol} (hs : Parse.isSign (.symbol s)) {e : Node} {k : TokenKind}
    (he : Shows Closed outer.unary e k) :
    Shows Closed (Unary outer) ⟨i, .unary s.text e⟩ (.symbol s) := by
  obtain ⟨ls, hk, he⟩ := he
  have hstart : Parse.startsExpression (.symbol s) :=
    startsExpression_of_startsOperand (by rw [startsOperand, hs, Bool.or_true])
  refine ⟨sign s :: ls, heads_sign hstart _, ?_, fun {cs} hcs => ?_, fun hsp => ?_⟩
  · rw [Node.render, he.text]
    exact ok_text (by simp)
  · have hmeets : Meets s ((textAll ls).toList ++ cs) := by
      have hassign := hk.not_assign (he.spaced hcs) cs
      cases s with
      | plus | minus => trivial
      | bang => exact hassign
      | _ => cases hs
    simp [hmeets, he.spaced hcs]
  · rw [spelled_sign] at hsp
    obtain ⟨u, us, rfl, hu, ht, hls⟩ := hsp
    rw [← ht]
    exact .sign (by rw [hu]; exact hs) (he.reads hls)

/-- Operators of a level with their operands. -/
theorem lays_operations {level : ChainLevel} {P : Phrase Node} {more : List (String × Node)}
    (h : ∀ m ∈ more, (∃ s, m.1 = Symbol.text s ∧ Parse.isOperator level (.symbol s)) ∧
      Lays Closed m.2.render fun ts rest => P ts m.2 rest) :
    ∃ texts ls, renderOperands (more.map (·.1)) (more.map (·.2)) = .ok texts ∧
      (∀ t, " ".intercalate (t :: texts) = t ++ textAll ls) ∧
      ∀ {cs}, Closed cs → Closed ((textAll ls).toList ++ cs) ∧ Spaced ls cs ∧
        ∀ {ts rest}, Spelled ls ts rest → Repeated (Operation level P) ts more rest := by
  induction more with
  | nil =>
      refine ⟨[], [], rfl, by simp, fun hcs => ⟨hcs, trivial, fun hs => ?_⟩⟩
      cases spelled_nil.1 hs
      exact .nil
  | cons m more ih =>
      obtain ⟨op, y⟩ := m
      obtain ⟨⟨s, hop, hs⟩, ls, hy⟩ := h _ (List.mem_cons_self ..)
      change op = s.text at hop
      subst hop
      obtain ⟨texts, ms, htexts, hjoin, hms⟩ := ih fun n hn => h n (List.mem_cons_of_mem _ hn)
      refine ⟨(s.text ++ " " ++ textAll ls) :: texts, gap :: sign s :: gap :: (ls ++ ms),
        ?_, fun t => ?_, fun {cs} hcs => ?_⟩
      · rw [List.map_cons, List.map_cons, renderOperands, hy.text, htexts]
        rfl
      · rw [String.intercalate_cons_cons, hjoin, ← String.toList_inj]
        simp
      · obtain ⟨hclosed, hspaced, hreads⟩ := hms hcs
        refine ⟨by simp [ends_signs], ?_, fun hsp => ?_⟩
        · simp [meets_blank, hspaced, hy.spaced hclosed]
        · simp only [spelled_gap, spelled_sign, spelled_append] at hsp
          obtain ⟨u, us, rfl, hu, ht, mid, h1, h2⟩ := hsp
          rw [← ht]
          exact .cons ⟨by rw [hu]; exact hs, hy.reads h1⟩ (hreads h2)

theorem shows_chain {level : ChainLevel} {P : Phrase Node} {x : Node} {k : TokenKind}
    {more : List (String × Node)} (hx : Shows Closed P x k)
    (h : ∀ m ∈ more, (∃ s, m.1 = Symbol.text s ∧ Parse.isOperator level (.symbol s)) ∧
      Lays Closed m.2.render fun ts rest => P ts m.2 rest) (hne : more ≠ []) :
    Shows Closed (Chain level P) ⟨i, .chain level (x :: more.map (·.2)) (more.map (·.1))⟩ k := by
  obtain ⟨ls, hk, hx⟩ := hx
  obtain ⟨texts, ms, htexts, hjoin, hms⟩ := lays_operations h
  refine ⟨ls ++ ms, hk.append ms, ?_, fun hcs => ?_, fun hs => ?_⟩
  · rw [Node.render, hx.text, htexts]
    exact ok_text (by simp [hjoin])
  · obtain ⟨hclosed, hspaced, -⟩ := hms hcs
    simp [hx.spaced hclosed, hspaced]
  · rw [spelled_append] at hs
    obtain ⟨mid, h1, h2⟩ := hs
    exact .several (hx.reads h1) ((hms closed_nil).2.2 h2) hne

theorem shows_ternary {c t e : Node} {k k' k'' : TokenKind} (hc : Shows Closed (Chains outer) c k)
    (ht : Shows Closed outer.expression t k') (he : Shows Closed outer.expression e k'') :
    Shows Closed (Ternary outer) ⟨i, .ternary c t e⟩ k := by
  obtain ⟨ls, hk, hc⟩ := hc
  obtain ⟨ms, -, ht⟩ := ht
  obtain ⟨ns, -, he⟩ := he
  refine ⟨ls ++ gap :: sign .question :: gap :: (ms ++ gap :: sign .colon :: gap :: ns),
    hk.append _, ?_, fun hcs => ?_, fun hs => ?_⟩
  · rw [Node.render, hc.text, ht.text, he.text]
    exact ok_text (by simp [Symbol.text])
  · simp [Meets, hc.spaced, ht.spaced, he.spaced hcs, ends_signs]
  · simp only [spelled_append, spelled_gap, spelled_sign] at hs
    obtain ⟨mid, hls, u, us, rfl, hu, -, next, hms, v, vs, rfl, hv, -, hns⟩ := hs
    exact .choice (hc.reads hls) ⟨hu, ht.reads hms⟩ ⟨hv, he.reads hns⟩

/-! ### Words with parentheses behind them -/

/-- A word, something in parentheses and a body. -/
theorem laid_headed {follow : List Char → Prop} {w : Keyword}
    (hw : (TokenKind.keyword w).expectsFile = false) {blanks : List Lex}
    (hblanks : blanks = [] ∨ blanks = [gap]) {α : Type} {P : Phrase α} {a : α}
    {inner body : Rendered} {Q R : List Token → List Token → Prop}
    (hin : Lays Closed inner fun ts rest => P ts a rest) (hbody : Lays follow body Q) {r : Rendered}
    (htext : ∀ {s t}, inner = .ok s → body = .ok t →
      r = .ok (w.text ++ textAll blanks ++ "(" ++ s ++ ") " ++ t))
    (hreads : ∀ {u us mid rest}, u.kind = .keyword w → Between .leftParen .rightParen P us a mid →
      Q mid rest → R (u :: us) rest) :
    ∃ ls, Laid follow r R (word w :: ls) := by
  obtain ⟨ls, hin⟩ := hin
  obtain ⟨ms, hbody⟩ := hbody
  refine ⟨blanks ++ sign .leftParen :: (ls ++ sign .rightParen :: gap :: ms), ?_, fun hcs => ?_,
    fun {_ rest} hs => ?_⟩
  · rw [htext hin.text hbody.text]
    exact ok_text (by simp [Symbol.text])
  · rcases hblanks with rfl | rfl <;>
      simp [Meets, Symbol.text, hw, hin.spaced, hbody.spaced hcs, delimits_signs, ends_signs]
  · obtain ⟨u, us, rfl, hu, -, hs⟩ := spelled_word.1 hs
    have hs : Spelled (sign .leftParen :: (ls ++ sign .rightParen :: gap :: ms)) us rest := by
      rcases hblanks with rfl | rfl
      · exact hs
      · exact spelled_gap.1 hs
    simp only [spelled_sign, spelled_append, spelled_gap] at hs
    obtain ⟨l, vs, rfl, hl, -, mid, h1, t, ws, rfl, ht, -, h2⟩ := hs
    exact hreads hu ⟨hl, hin.reads h1, ht⟩ (hbody.reads h2)

/-- Two branches with an `else` between them. -/
theorem lays_branches {follow : List Char → Prop} (hblank : ∀ cs, follow (' ' :: cs))
    {P : Phrase Node} {t e : Node} (ht : Lays follow t.render fun ts rest => P ts t rest)
    (he : Lays follow e.render fun ts rest => P ts e rest) :
    ∃ s u, t.render = .ok s ∧ e.render = .ok u ∧ Lays follow (.ok (s ++ " else " ++ u))
      fun ts rest => ∃ mid, P ts t mid ∧ After (.keyword .otherwise) P mid e rest := by
  obtain ⟨ms, ht⟩ := ht
  obtain ⟨ns, he⟩ := he
  refine ⟨_, _, ht.text, he.text, ms ++ gap :: word .otherwise :: gap :: ns, ?_, fun hcs => ?_,
    fun hs => ?_⟩
  · exact ok_text (by simp [Keyword.text])
  · simp [ht.spaced (hblank _), he.spaced hcs, delimits_signs]
    rfl
  · simp only [spelled_word, spelled_append, spelled_gap] at hs
    obtain ⟨mid, h1, o, ys, rfl, ho, -, h2⟩ := hs
    exact ⟨_, ht.reads h1, ho, he.reads h2⟩

/-- The texts of clauses, with commas between them. -/
theorem of_renderClauses {as : List Node} {s : String}
    (h : renderAll renderClause commaSeparated as = .ok s) :
    ∃ texts, renderClauses as = .ok texts ∧ commaSeparated texts = s := by
  obtain ⟨texts, htexts, hs⟩ := of_renderAll h
  exact ⟨texts, (renderClauses_eq as).trans htexts, hs⟩

theorem of_renderList {as : List Node} {s : String}
    (h : renderAll Node.render commaSeparated as = .ok s) :
    ∃ texts, renderList as = .ok texts ∧ commaSeparated texts = s := by
  obtain ⟨texts, htexts, hs⟩ := of_renderAll h
  exact ⟨texts, (renderList_eq as).trans htexts, hs⟩

/-! ### Expressions -/

theorem shows_let {as : List Node} {b : Node} {k : TokenKind}
    (has : ∀ a ∈ as, Lays Closed (renderClause a) fun ts rest => Assignment outer ts a rest)
    (hb : Shows Closed outer.expression b k) :
    Shows Closed (Expression outer) ⟨i, .letIn as b⟩ (.keyword .letIn) := by
  obtain ⟨ls, h⟩ : ∃ ls, Laid Closed (Node.render ⟨i, .letIn as b⟩)
      (fun ts rest => Expression outer ts ⟨i, .letIn as b⟩ rest) (word .letIn :: ls) := by
    refine laid_headed rfl (.inl rfl) (lays_listed has) hb.lays (fun hs ht => ?_) .letIn
    obtain ⟨texts, htexts, rfl⟩ := of_renderClauses hs
    rw [Node.render, htexts, ht]
    exact ok_text (by simp [Keyword.text])
  exact ⟨_, heads_word rfl ls, h⟩

theorem Verb.text_keyword (v : Verb) : v.keyword.text = v.text := by cases v <;> rfl

theorem Verb.startsExpression (v : Verb) : Parse.startsExpression (.keyword v.keyword) := by
  cases v <;> rfl

theorem Verb.expectsFile (v : Verb) : (TokenKind.keyword v.keyword).expectsFile = false := by
  cases v <;> rfl

theorem shows_remark {verb : Verb} {as : List Node}
    (has : ∀ a ∈ as, Lays Closed a.render fun ts rest => Argument outer false ts a rest) :
    Shows Closed (Expression outer) ⟨i, .remark verb as none⟩ (.keyword verb.keyword) := by
  obtain ⟨texts, htexts, ls, has⟩ := lays_parens has
  have htext := Except.ok.inj has.text
  refine ⟨word verb.keyword :: ls, heads_word verb.startsExpression _, ?_, fun hcs => ?_,
    fun hs => ?_⟩
  · rw [Node.render, renderList_eq, htexts]
    exact ok_text (by simp [← htext, Verb.text_keyword])
  · simp [has.spaced, ← htext, delimits_signs, Verb.expectsFile]
  · simp only [spelled_word] at hs
    obtain ⟨u, us, rfl, hu, -, h1⟩ := hs
    exact .remark hu (has.reads h1)

theorem shows_remarkOn {verb : Verb} {as : List Node} {b : Node} {k : TokenKind}
    (has : ∀ a ∈ as, Lays Closed a.render fun ts rest => Argument outer false ts a rest)
    (hb : Shows Closed outer.expression b k) :
    Shows Closed (Expression outer) ⟨i, .remark verb as (some b)⟩ (.keyword verb.keyword) := by
  obtain ⟨ls, h⟩ : ∃ ls, Laid Closed (Node.render ⟨i, .remark verb as (some b)⟩)
      (fun ts rest => Expression outer ts ⟨i, .remark verb as (some b)⟩ rest)
        (word verb.keyword :: ls) := by
    refine laid_headed verb.expectsFile (.inl rfl) (lays_listed has) hb.lays
      (fun hs ht => ?_) .remarkOn
    obtain ⟨texts, htexts, rfl⟩ := of_renderList hs
    rw [Node.render, htexts, ht]
    exact ok_text (by simp [Verb.text_keyword])
  exact ⟨_, heads_word verb.startsExpression ls, h⟩

theorem shows_functionLiteral {ps : List Node} {b : Node} {k : TokenKind}
    (hps : ∀ p ∈ ps, Lays Closed p.render fun ts rest => Parameter outer ts p rest)
    (hb : Shows Closed outer.expression b k) :
    Shows Closed (Expression outer) ⟨i, .functionLiteral ps b⟩ (.keyword .function) := by
  obtain ⟨ls, h⟩ : ∃ ls, Laid Closed (Node.render ⟨i, .functionLiteral ps b⟩)
      (fun ts rest => Expression outer ts ⟨i, .functionLiteral ps b⟩ rest)
        (word .function :: ls) := by
    refine laid_headed rfl (.inl rfl) (lays_listed hps) hb.lays (fun hs ht => ?_) .functionLiteral
    obtain ⟨texts, htexts, rfl⟩ := of_renderList hs
    rw [Node.render, htexts, ht]
    exact ok_text (by simp [Keyword.text])
  exact ⟨_, heads_word rfl ls, h⟩

/-! ### Vector elements -/

theorem Lex.Starts.nextKind {k : TokenKind} {ls : List Lex} (h : Starts k ls)
    {ts rest : List Token} (hs : Spelled ls ts rest) : nextKind ts = k := by
  obtain ⟨t, ms, rfl⟩ := h
  obtain ⟨u, us, rfl, hu, -⟩ := spelled_token.1 hs
  exact hu

theorem lays_plain {x : Node} {k : TokenKind} (h : Shows Closed outer.expression x k)
    (hk : k ≠ .keyword .letIn) :
    Lays Closed x.render fun ts rest => OwnsElses (Element outer) ts x rest := by
  obtain ⟨ls, hh, h⟩ := h
  refine ⟨ls, h.text, h.spaced, fun hs _ => .plain (h.reads hs) ?_⟩
  rw [hh.2.nextKind hs]
  exact hk

theorem lays_each {b : Node}
    (h : Lays Closed b.render fun ts rest => OwnsElses outer.element ts b rest) :
    Lays Closed (Node.render ⟨i, .each b⟩) fun ts rest => OwnsElses (Element outer) ts
      ⟨i, .each b⟩ rest := by
  obtain ⟨ls, h⟩ := h
  refine ⟨word .each :: gap :: ls, ?_, fun hcs => ?_, fun hs hr => ?_⟩
  · rw [Node.render, h.text]
    exact ok_text (by simp [Keyword.text])
  · simp [h.spaced hcs, delimits_signs]
    rfl
  · simp only [spelled_word, spelled_gap] at hs
    obtain ⟨u, us, rfl, hu, -, h1⟩ := hs
    exact .each hu (h.reads h1 hr)

theorem lays_let {as : List Node} {b : Node}
    (has : ∀ a ∈ as, Lays Closed (renderClause a) fun ts rest => Assignment outer ts a rest)
    (hb : Lays Closed b.render fun ts rest => OwnsElses outer.element ts b rest) :
    Lays Closed (Node.render ⟨i, .letIn as b⟩) fun ts rest =>
      OwnsElses (Element outer) ts ⟨i, .letIn as b⟩ rest := by
  obtain ⟨ls, h⟩ : ∃ ls, Laid Closed (Node.render ⟨i, .letIn as b⟩)
      (fun ts rest => OwnsElses (Element outer) ts ⟨i, .letIn as b⟩ rest) (word .letIn :: ls) := by
    refine laid_headed rfl (.inl rfl) (lays_listed has) hb (fun hs ht => ?_)
      fun hu h1 h2 hr => .letIn hu h1 (h2 hr)
    obtain ⟨texts, htexts, rfl⟩ := of_renderClauses hs
    rw [Node.render, htexts, ht]
    exact ok_text (by simp [Keyword.text])
  exact ⟨_, h⟩

theorem lays_loop {as : List Node} {b : Node}
    (has : ∀ a ∈ as, Lays Closed (renderClause a) fun ts rest => Assignment outer ts a rest)
    (hb : Lays Closed b.render fun ts rest => OwnsElses outer.element ts b rest) :
    Lays Closed (Node.render ⟨i, .forElement as none [] b⟩) fun ts rest =>
      OwnsElses (Element outer) ts ⟨i, .forElement as none [] b⟩ rest := by
  obtain ⟨ls, h⟩ : ∃ ls, Laid Closed (Node.render ⟨i, .forElement as none [] b⟩)
      (fun ts rest => OwnsElses (Element outer) ts ⟨i, .forElement as none [] b⟩ rest)
      (word .forLoop :: ls) := by
    refine laid_headed rfl (.inr rfl) (lays_listed has) hb (fun hs ht => ?_)
      fun hu ⟨hl, h1, hp⟩ h2 hr => .loop hu ⟨hl, .plain h1, hp⟩ (h2 hr)
    obtain ⟨texts, htexts, rfl⟩ := of_renderClauses hs
    rw [Node.render, htexts, ht]
    exact ok_text (by simp [Keyword.text])
  exact ⟨_, h⟩

/-- The head of a loop that counts. -/
theorem lays_counted {as us : List Node} {c : Node} {k : TokenKind}
    (has : ∀ a ∈ as, Lays Closed (renderClause a) fun ts rest => Assignment outer ts a rest)
    (hc : Shows Closed outer.expression c k)
    (hus : ∀ u ∈ us, Lays Closed u.render fun ts rest => Update outer ts u rest) :
    ∃ clauses condition updates, renderClauses as = .ok clauses ∧ c.render = .ok condition ∧
      renderList us = .ok updates ∧
      Lays Closed
        (.ok (commaSeparated clauses ++ "; " ++ condition ++ "; " ++ commaSeparated updates))
          fun ts rest => LoopHead outer ts (as, some c, us) rest := by
  obtain ⟨ls, has⟩ := lays_listed has
  obtain ⟨texts, htexts, hjoin⟩ := of_renderClauses has.text
  obtain ⟨ms, -, hc⟩ := hc
  obtain ⟨ns, hus⟩ := lays_listed hus
  obtain ⟨texts', htexts', hjoin'⟩ := of_renderList hus.text
  refine ⟨texts, _, texts', htexts, hc.text, htexts',
    ls ++ sign .semicolon :: gap :: (ms ++ sign .semicolon :: gap :: ns), ?_, fun hcs => ?_,
    fun hs => ?_⟩
  · exact ok_text (by simp [hjoin, hjoin', Symbol.text])
  · simp [Meets, Symbol.text, has.spaced, hc.spaced, hus.spaced hcs, ends_signs]
  · simp only [spelled_sign, spelled_append, spelled_gap] at hs
    obtain ⟨mid, h1, s, xs, rfl, hs, -, next, h2, s', ys, rfl, hs', -, h3⟩ := hs
    exact .counted (has.reads h1) ⟨hs, hc.reads h2⟩ hs' (hus.reads h3)

theorem lays_countedLoop {as us : List Node} {c b : Node} {k : TokenKind}
    (has : ∀ a ∈ as, Lays Closed (renderClause a) fun ts rest => Assignment outer ts a rest)
    (hc : Shows Closed outer.expression c k)
    (hus : ∀ u ∈ us, Lays Closed u.render fun ts rest => Update outer ts u rest)
    (hb : Lays Closed b.render fun ts rest => OwnsElses outer.element ts b rest) :
    Lays Closed (Node.render ⟨i, .forElement as (some c) us b⟩) fun ts rest =>
      OwnsElses (Element outer) ts ⟨i, .forElement as (some c) us b⟩ rest := by
  obtain ⟨clauses, condition, updates, hclauses, hcondition, hupdates, hhead⟩ :=
    lays_counted has hc hus
  obtain ⟨ls, h⟩ : ∃ ls, Laid Closed (Node.render ⟨i, .forElement as (some c) us b⟩)
      (fun ts rest => OwnsElses (Element outer) ts ⟨i, .forElement as (some c) us b⟩ rest)
      (word .forLoop :: ls) := by
    refine laid_headed rfl (.inr rfl) hhead hb (fun hs ht => ?_)
      fun hu h1 h2 hr => .loop hu h1 (h2 hr)
    obtain rfl := Except.ok.inj hs
    rw [Node.render, hclauses, renderCondition, hcondition, hupdates, ht]
    · exact ok_text (by simp [Keyword.text])
    · simp
  exact ⟨_, h⟩

theorem lays_ifThen {c t : Node} {k : TokenKind} (hend : ∀ {ts}, NearestElse ts → outer.ifEnd ts)
    (hc : Shows Closed outer.expression c k)
    (ht : Lays Closed t.render fun ts rest => OwnsElses outer.element ts t rest) :
    Lays Closed (Node.render ⟨i, .ifElement c t none⟩) fun ts rest =>
      OwnsElses (Element outer) ts ⟨i, .ifElement c t none⟩ rest := by
  obtain ⟨ls, h⟩ : ∃ ls, Laid Closed (Node.render ⟨i, .ifElement c t none⟩)
      (fun ts rest => OwnsElses (Element outer) ts ⟨i, .ifElement c t none⟩ rest)
      (word .ifThen :: ls) := by
    refine laid_headed rfl (.inr rfl) hc.lays ht (fun hs ht => ?_)
      fun hu h1 h2 hr => .ifThen hu h1 (h2 fun _ => hr rfl) (hend (hr rfl))
    rw [Node.render, hs, ht, renderElse]
    exact ok_text (by simp [Keyword.text])
  exact ⟨_, h⟩

theorem lays_ifElse {c t e : Node} {k : TokenKind}
    (hp : Node.Printable ⟨i, .ifElement c t (some e)⟩) (hc : Shows Closed outer.expression c k)
    (ht : Lays Closed t.render fun ts rest => OwnsElses outer.element ts t rest)
    (he : Lays Closed e.render fun ts rest => OwnsElses outer.element ts e rest) :
    Lays Closed (Node.render ⟨i, .ifElement c t (some e)⟩) fun ts rest =>
      OwnsElses (Element outer) ts ⟨i, .ifElement c t (some e)⟩ rest := by
  obtain ⟨s, u, hst, hsu, hbranches⟩ := lays_branches (fun _ => closed_cons.2 rfl) ht he
  obtain ⟨ls, h⟩ : ∃ ls, Laid Closed (Node.render ⟨i, .ifElement c t (some e)⟩)
      (fun ts rest => OwnsElses (Element outer) ts ⟨i, .ifElement c t (some e)⟩ rest)
      (word .ifThen :: ls) := by
    refine laid_headed rfl (.inr rfl) hc.lays hbranches (fun hs hb => ?_) fun hu h1 h2 hr => ?_
    · obtain rfl := Except.ok.inj hb
      rw [Node.render, hs, hst, renderElse, hsu]
      exact ok_text (by simp [Keyword.text])
    · obtain ⟨next, hthen, ho, helse⟩ := h2
      refine .ifElse hu h1 (hthen fun hopen => ?_) ⟨ho, helse hr⟩
      rw [hp.ifElse c t e rfl] at hopen
      cases hopen
  exact ⟨_, h⟩

end Layouts

end Scad
