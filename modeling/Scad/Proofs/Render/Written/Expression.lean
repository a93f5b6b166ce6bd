import Scad.Proofs.Render.Written

/-! The forms of expressions, of vector elements and of their parts: the text of each is a passage
if those of its parts are. -/
namespace Scad

open List (Forall₂)
open Grammar (TextsScanned)
open Lexeme (Delimited Closed Meets)
open Passage

/-! ### Texts of one token -/

section Forms

variable {i : Info}

theorem writes_number {t : String} (ht : IsTextOf .number t) {x : Binary64}
    (hx : Numeral.read t = .ok x) (hfinite : (Number.real x).dyadic?.isSome) :
    ∃ p, Node.Writes ⟨i, .number (.real x)⟩ p := by
  obtain ⟨s, hs, hnumeral, -⟩ := Number.render_read ht hx hfinite
  refine ⟨numeral s hnumeral, ?_, fun {cs} hcs hp => ⟨hcs, fun hdigits hpoint => ?_⟩, ?_,
    fun hmore => ⟨fun _ => rfl, hmore⟩⟩
  · change Node.render ⟨i, .number (.real x)⟩ = _
    rw [Node.render, renderNumber, hs]
    rfl
  · have hbare : (Number.real x).isBare := by
      rw [Number.isBare, hs]
      exact List.all_eq_true.2 hdigits
    have hmeets := hp hpoint
    simp [Node.meetsPoint, Node.form, hbare] at hmeets
  · exact .of_fits (t := s) (k := .number) (by decide) ⟨hnumeral, closed_nil⟩

theorem writes_string {t : String} (ht : IsTextOf .string t) :
    Node.Writes ⟨i, .string t⟩ (quoted t ht) :=
  ⟨rfl, fun _ _ => trivial, .of_fits (t := t) (k := .string) (by decide) ht,
    fun hmore => ⟨fun _ => rfl, hmore⟩⟩

/-- The text of the node is a name. -/
theorem writes_name {t : String} (ht : IsTextOf .identifier t) {f : Form Node}
    (hf : f = .variableRef t ∨ f = .variableDefinition t ∨ f = .argumentName t ∨
      f = .parameter t none) :
    Node.Writes ⟨i, f⟩ (name t ht) := by
  have hbegins : Begins t := .of_fits (t := t) (k := .identifier) (by decide)
    ⟨ht.1, ht.2, by simp [Delimited]⟩
  rcases hf with rfl | rfl | rfl | rfl <;>
    exact ⟨rfl, fun hcs _ => hcs, hbegins, fun hmore => ⟨fun _ => rfl, hmore⟩⟩

/-- The text of the node is a keyword. -/
theorem writes_word {w : Keyword} {f : Form Node}
    (hf : (w = .true ∧ f = .boolean true) ∨ (w = .false ∧ f = .boolean false) ∨
      (w = .undef ∧ f = .undefined)) :
    Node.Writes ⟨i, f⟩ (word w) := by
  rcases hf with ⟨rfl, rfl⟩ | ⟨rfl, rfl⟩ | ⟨rfl, rfl⟩ <;>
    exact ⟨rfl, fun hcs _ => ⟨rfl, hcs⟩, Begins.word _, fun hmore => ⟨fun _ => rfl, hmore⟩⟩

attribute [local simp] Form.children Form.fields Field.children

theorem writes_boolean (v : Bool) : ∃ p, Node.Writes ⟨i, .boolean v⟩ p := by
  cases v with
  | true => exact ⟨_, writes_word (.inl ⟨rfl, rfl⟩)⟩
  | false => exact ⟨_, writes_word (.inr (.inl ⟨rfl, rfl⟩))⟩

/-! ### Brackets and parentheses -/

/-- An expression alone between signs. -/
theorem writes_enclosed {left right : Symbol} {opened : Bool}
    (hbrackets : Brackets left right opened) {e : Node} {p : Passage} (h : e.Writes p)
    (hk : e.kind.isExpression) {f : Form Node} (hf : f.kind ≠ .assignment)
    (htext : Node.render ⟨i, f⟩ = (do return left.text ++ (← e.render) ++ right.text)) :
    Node.Writes ⟨i, f⟩ (join [sign left, p, sign right]) := by
  apply Node.Writes.of_enclosed hbrackets (h.stands fun _ => Kind.generates_of_isExpression hk)
  rw [renderClause_of_ne (n := ⟨i, f⟩) hf, htext, h.expression hk]
  exact ok_text (by simp)

theorem written_paren {e : Node} (hshape : (Form.paren e).Shaped .proper)
    (h : (Form.paren e).PartsWritten) : ∃ p, Node.Writes ⟨i, .paren e⟩ p := by
  obtain ⟨p, hp⟩ := h.expression (by simp) hshape
  exact ⟨_, writes_enclosed .round hp hshape nofun (by rw [Node.render]; rfl)⟩

theorem writes_index {e : Node} {p : Passage} (h : e.Writes p) (hk : e.kind.isExpression) :
    Node.Writes ⟨i, .indexSuffix e⟩ (join [sign .leftBracket, p, sign .rightBracket]) :=
  writes_enclosed .square h hk nofun (by rw [Node.render]; rfl)

theorem written_index {e : Node} (hshape : (Form.indexSuffix e).Shaped .proper)
    (h : (Form.indexSuffix e).PartsWritten) : ∃ p, Node.Writes ⟨i, .indexSuffix e⟩ p := by
  obtain ⟨p, hp⟩ := h.expression (by simp) hshape
  exact ⟨_, writes_index hp hshape⟩

theorem writes_arguments {as : List Node} {ps : List Passage} (h : WritesList as ps)
    (hk : ∀ a ∈ as, a.kind = .argument) :
    Node.Writes ⟨i, .callSuffix as⟩
      (join (sign .leftParen :: (commas ps ++ [sign .rightParen]))) := by
  apply Node.Writes.of_enclosed .round h.stands
  change Node.render _ = _
  rw [Node.render, list_text h.items fun a ha => by simp [hk a ha]]
  exact ok_text (by simp [text_commas, Symbol.text])

theorem written_arguments {as : List Node} (hshape : (Form.callSuffix as).Shaped .proper)
    (h : (Form.callSuffix as).PartsWritten) : ∃ p, Node.Writes ⟨i, .callSuffix as⟩ p := by
  have hk : ∀ a ∈ as, a.kind = .argument := fun a ha => (hshape a ha).kind
  obtain ⟨ps, hps⟩ := h.list (by simp) rfl rfl hk
  exact ⟨_, writes_arguments hps hk⟩

theorem written_vector {es : List Node} (hshape : (Form.vector es).Shaped .proper)
    (h : (Form.vector es).PartsWritten) : ∃ p, Node.Writes ⟨i, .vector es⟩ p := by
  obtain ⟨ps, hps⟩ := exists_forall₂ fun e he => h.element (by simpa using he) (hshape e he)
  refine ⟨_, .of_enclosed .square (items_stand hps nofun) ?_⟩
  change Node.render _ = _
  rw [Node.render, list_text hps fun e he => Kind.ne_assignment_of_isElement (hshape e he)]
  exact ok_text (by simp [text_commas, Symbol.text])

theorem written_range {a b : Node} {s : Option Node} (hshape : (Form.range a b s).Shaped .proper)
    (h : (Form.range a b s).PartsWritten) : ∃ p, Node.Writes ⟨i, .range a b s⟩ p := by
  obtain ⟨hka, hkb, hks⟩ := hshape
  obtain ⟨p, hp⟩ := h.element (by simp) hka
  obtain ⟨q, hq⟩ := h.expression (by simp) hkb
  have hstart : Adjacent false [p] := hp.stands nofun
  have hstop : Adjacent false [q] := hq.stands nofun
  cases s with
  | none =>
      refine ⟨_, .of_enclosed .square (hstart.append (s := .colon) (by simp) hstop) ?_⟩
      change Node.render _ = _
      rw [Node.render, hp.element hka, hq.expression hkb]
      exact ok_text (by simp [Symbol.text])
  | some s =>
      have hkstep : s.kind.isExpression := hks s rfl
      obtain ⟨r, hr⟩ := h.expression (by simp) hkstep
      have hstep : Adjacent false [r] := hr.stands nofun
      have hrest : Adjacent false ([r] ++ sign .colon :: [q]) := hstep.append (by simp) hstop
      refine ⟨_, .of_enclosed .square (hstart.append (s := .colon) (by simp) hrest) ?_⟩
      change Node.render _ = _
      rw [Node.render, hp.element hka, hr.expression hkstep, hq.expression hkb]
      exact ok_text (by simp [Symbol.text])

/-! ### Operands -/

theorem written_unary {op : String} {e : Node} (hletters : TextsScanned (.unary op e))
    (hshape : (Form.unary op e).Shaped .proper) (h : (Form.unary op e).PartsWritten) :
    ∃ p, Node.Writes ⟨i, .unary op e⟩ p := by
  obtain ⟨s, rfl, hs⟩ := hletters
  have hk : e.kind.isExpression :=
    Kind.isExpression_of_tight (Nat.lt_of_lt_of_le (by decide) hshape)
  obtain ⟨p, hp⟩ := h.expression (by simp) hk
  have hsign : s ≠ .assign ∧ s ≠ .equal ∧ s ≠ .leftParen := by cases s <;> first | decide | cases hs
  refine ⟨_, .of_cons (p := sign s) rfl (.sign ⟨hsign.1, hsign.2.1⟩) (fun {cs} hcs => ?_)
    (fun hmore => ?_) (hp.stands nofun) ?_⟩
  · have hbegins : (p.text.toList ++ cs).head? ≠ some '=' := hp.begins.meets cs
    rw [follow_sign, textAll_cons, textAll_nil, String.append_empty]
    cases s with
    | plus | minus => trivial
    | bang => exact hbegins
    | _ => cases hs
  · simpa [hsign.2.2, Parse.startsGenerator] using hmore
  · change Node.render ⟨i, .unary s.text e⟩ = _
    rw [Node.render, hp.expression hk]
    exact ok_text (by simp)

/-- An expression with more behind it that begins with a blank. -/
theorem Node.Writes.before {n a : Node} {p : Passage} {ps : List Passage}
    (hpoint : n.meetsPoint = false) (ha : a.Writes p) (hk : a.kind.isExpression)
    (h : Adjacent false (gap :: ps)) (htext : renderClause n = .ok (textAll (p :: gap :: ps))) :
    n.Writes (join (p :: gap :: ps)) := by
  refine .of_cons hpoint ha.begins (fun hcs => ?_) (fun hmore => ?_) h htext
  · exact ha.closed (by simp [ends_signs])
  · have hplain := (ha.enclosed (Kind.generates_of_isExpression hk)).2 hmore
    cases n.kind.generates with
    | true => exact hplain.mono
    | false => exact hplain

/-- Two expressions with a sign between them. -/
theorem writes_binary {s : Symbol} {f : Form Node} {a b : Node} {p q : Passage} (ha : a.Writes p)
    (hb : b.Writes q) (hka : a.kind.isExpression) (hkb : b.kind.isExpression)
    (hf : (s = .caret ∧ f = .power a b) ∨ (s = .assign ∧ f = .loopUpdate a b)) :
    Node.Writes ⟨i, f⟩ (join [p, gap, sign s, gap, q]) := by
  have hoperand : Adjacent false [q] := hb.stands nofun
  rcases hf with ⟨rfl, rfl⟩ | ⟨rfl, rfl⟩
  all_goals
    refine .before rfl ha hka (Adjacent.nil.spaced (by decide) hoperand) ?_
    change Node.render _ = _
    rw [Node.render, ha.expression hka, hb.expression hkb]
    exact ok_text (by simp [Symbol.text])

theorem written_power {b e : Node} (hshape : (Form.power b e).Shaped .proper)
    (h : (Form.power b e).PartsWritten) : ∃ p, Node.Writes ⟨i, .power b e⟩ p := by
  have hkb : b.kind.isExpression :=
    Kind.isExpression_of_tight (Nat.lt_of_lt_of_le (by decide) hshape.1)
  have hke : e.kind.isExpression :=
    Kind.isExpression_of_tight (Nat.lt_of_lt_of_le (by decide) hshape.2)
  obtain ⟨p, hp⟩ := h.expression (by simp) hkb
  obtain ⟨q, hq⟩ := h.expression (by simp) hke
  exact ⟨_, writes_binary hp hq hkb hke (.inl ⟨rfl, rfl⟩)⟩

theorem written_update {t e : Node} (hshape : (Form.loopUpdate t e).Shaped .proper)
    (h : (Form.loopUpdate t e).PartsWritten) : ∃ p, Node.Writes ⟨i, .loopUpdate t e⟩ p := by
  obtain ⟨hkt, hke⟩ := hshape
  have hkt : t.kind.isExpression := by rw [hkt]; rfl
  obtain ⟨p, hp⟩ := h.expression (by simp) hkt
  obtain ⟨q, hq⟩ := h.expression (by simp) hke
  exact ⟨_, writes_binary hp hq hkt hke (.inr ⟨rfl, rfl⟩)⟩

theorem written_ternary {c t e : Node} (hshape : (Form.ternary c t e).Shaped .proper)
    (h : (Form.ternary c t e).PartsWritten) : ∃ p, Node.Writes ⟨i, .ternary c t e⟩ p := by
  obtain ⟨hkc, hkt, hke⟩ := hshape
  have hkc := Kind.isExpression_of_tight hkc
  obtain ⟨p, hp⟩ := h.expression (by simp) hkc
  obtain ⟨q, hq⟩ := h.expression (by simp) hkt
  obtain ⟨r, hr⟩ := h.expression (by simp) hke
  have hthen : Adjacent false [q] := hq.stands nofun
  have helse : Adjacent false [r] := hr.stands nofun
  have hbranches : Adjacent false ([q] ++ gap :: sign .colon :: gap :: [r]) :=
    hthen.spaced (by decide) helse
  have hbehind : Adjacent false ([] ++ gap :: sign .question :: gap ::
      ([q] ++ gap :: sign .colon :: gap :: [r])) :=
    Adjacent.nil.spaced (by decide) hbranches
  refine ⟨_, .before rfl hp hkc hbehind ?_⟩
  change Node.render _ = _
  rw [Node.render, hp.expression hkc, hq.expression hkt, hr.expression hke]
  exact ok_text (by simp [Symbol.text])

def operations : List (Symbol × Passage) → List Passage
  | [] => []
  | (s, p) :: more => gap :: sign s :: gap :: p :: operations more

theorem written_operations {level : ChainLevel} {ops : List String} {xs : List Node}
    {ps : List Passage} (hlength : xs.length = ops.length)
    (hops : ∀ op ∈ ops, op ∈ (Parse.operators level).map Symbol.text)
    (h : Forall₂ Node.Writes xs ps) (hk : ∀ x ∈ xs, x.kind.isExpression) :
    ∃ more texts, renderOperands ops xs = .ok texts ∧
      (∀ t, " ".intercalate (t :: texts) = t ++ textAll (operations more)) ∧
      (∀ {cs}, Closed cs → Closed ((textAll (operations more)).toList ++ cs)) ∧
      Adjacent false (operations more) := by
  induction h generalizing ops with
  | nil =>
      cases ops with
      | nil => exact ⟨[], [], rfl, by simp [operations], id, .nil⟩
      | cons => cases hlength
  | @cons x p xs ps hx _ ih =>
      cases ops with
      | nil => cases hlength
      | cons op ops =>
          obtain ⟨hop, hrest⟩ := List.forall_mem_cons.1 hops
          obtain ⟨hkx, hk⟩ := List.forall_mem_cons.1 hk
          obtain ⟨s, hs, rfl⟩ := List.mem_map.1 hop
          obtain ⟨more, texts, htexts, hjoin, hclosed, hstands⟩ :=
            ih (Nat.succ.inj hlength) hrest hk
          have hopens : s ≠ .leftParen := by
            rintro rfl
            cases level <;> simp [Parse.operators] at hs
          refine ⟨(s, p) :: more, (s.text ++ " " ++ p.text) :: texts, ?_, fun t => ?_, fun _ => ?_,
            ⟨fun {cs} hcs => ?_, fun {rest} hmore _ => ?_⟩⟩
          · rw [renderOperands, hx.expression hkx, htexts]
            rfl
          · rw [String.intercalate_cons_cons, hjoin, ← String.toList_inj]
            simp [operations]
          · simp [operations, ends_signs]
          · simp [operations, meets_blank, hx.closed (hclosed hcs), hstands.fit hcs]
          · have hbehind := hstands.alone hmore
            simp [operations, hopens, hx.within, hbehind, Parse.startsGenerator]

theorem written_chain {level : ChainLevel} {xs : List Node} {ops : List String}
    (hshape : (Form.chain level xs ops).Shaped .proper)
    (h : (Form.chain level xs ops).PartsWritten) :
    ∃ q, Node.Writes ⟨i, .chain level xs ops⟩ q := by
  obtain ⟨hlength, -, hops, hks⟩ := hshape
  have hk : ∀ x ∈ xs, x.kind.isExpression := fun x hx =>
    Kind.isExpression_of_tight (Nat.zero_lt_of_lt (hks x hx))
  cases xs with
  | nil => cases hlength
  | cons x xs =>
      obtain ⟨hkx, hk⟩ := List.forall_mem_cons.1 hk
      obtain ⟨p, hp⟩ := h.expression (e := x) (by simp) hkx
      obtain ⟨ps, hps⟩ := exists_forall₂ fun y (hy : y ∈ xs) =>
        h.expression (by simp [hy]) (hk y hy)
      obtain ⟨more, texts, htexts, hjoin, hclosed, hstands⟩ :=
        written_operations (Nat.succ.inj hlength) hops hps hk
      refine ⟨join (p :: operations more), .of_cons (by cases level <;> rfl) hp.begins
        (fun hcs => hp.closed (hclosed hcs)) (fun hmore => ?_) hstands ?_⟩
      · exact (hp.enclosed (Kind.generates_of_isExpression hkx)).2 hmore
      · change Node.render _ = _
        rw [Node.render, hp.expression hkx, htexts]
        exact ok_text (by simp [hjoin])

/-! ### Names with values -/

/-- A name, an equals sign and a value. -/
theorem writes_clause {x : String} (hx : IsTextOf .identifier x) {e : Node} {p : Passage}
    (h : e.Writes p) (hk : e.kind.isExpression) {f : Form Node}
    (hf : (∃ j, f = .assignment ⟨j, .variableDefinition x⟩ e) ∨ f = .parameter x (some e)) :
    Node.Writes ⟨i, f⟩ (join [name x hx, gap, sign .assign, gap, p]) := by
  have hname : Node.Writes ⟨i, .variableRef x⟩ (name x hx) := writes_name hx (.inl rfl)
  have hvalue : Adjacent false [p] := h.stands nofun
  rcases hf with ⟨j, rfl⟩ | rfl
  · refine .before rfl hname rfl (Adjacent.nil.spaced (by decide) hvalue) ?_
    rw [renderClause, h.expression hk]
    exact ok_text (by simp [Symbol.text])
  · refine .before rfl hname rfl (Adjacent.nil.spaced (by decide) hvalue) ?_
    change Node.render _ = _
    rw [Node.render, h.expression hk]
    exact ok_text (by simp [Symbol.text])

theorem written_assignment {t e : Node} (hletters : TextsScanned t.form)
    (hshape : (Form.assignment t e).Shaped .proper) (h : (Form.assignment t e).PartsWritten) :
    ∃ p, Node.Writes ⟨i, .assignment t e⟩ p := by
  obtain ⟨hkt, hke⟩ := hshape
  obtain ⟨p, hp⟩ := h.expression (by simp) hke
  obtain ⟨j, g⟩ := t
  cases g with
  | variableDefinition x => exact ⟨_, writes_clause hletters hp hke (.inl ⟨j, rfl⟩)⟩
  | _ => cases hkt

theorem written_parameter {x : String} {d : Option Node} (hletters : TextsScanned (.parameter x d))
    (hshape : (Form.parameter x d).Shaped .proper) (h : (Form.parameter x d).PartsWritten) :
    ∃ p, Node.Writes ⟨i, .parameter x d⟩ p := by
  cases d with
  | none => exact ⟨_, writes_name hletters (.inr (.inr (.inr rfl)))⟩
  | some d =>
      obtain ⟨p, hp⟩ := h.expression (by simp) (hshape d rfl)
      exact ⟨_, writes_clause hletters hp (hshape d rfl) (.inr rfl)⟩

theorem written_argument {l : Option Node} {e : Node} (hshape : (Form.argument l e).Shaped .proper)
    (h : (Form.argument l e).PartsWritten) : ∃ p, Node.Writes ⟨i, .argument l e⟩ p := by
  obtain ⟨hkl, hke⟩ := hshape
  obtain ⟨p, hp⟩ := h.expression (by simp) hke
  cases l with
  | none =>
      refine ⟨p, ?_, fun hcs hmeets => ?_, hp.begins, fun hmore => ?_⟩
      · change Node.render _ = _
        rw [Node.render, hp.expression hke]
      · exact hp.closed ⟨hcs, fun hpoint => by cases hmeets hpoint⟩
      · exact (hp.enclosed (Kind.generates_of_isExpression hke)).2 hmore
  | some l =>
      have hlabel : l.kind.isPart ∧ l.kind ≠ .assignment ∧ l.kind.generates = false := by
        rcases hkl l rfl with hl | hl <;> simp [hl, Kind.isPart, Kind.generates]
      obtain ⟨q, hq⟩ := h l (by simp) hlabel.1
      have hvalue : Adjacent false (sign .assign :: [p]) := by
        refine ⟨fun {cs} hcs => ?_, fun {more} hmore _ => ?_⟩
        · have hmeets : Meets .assign (p.text.toList ++ cs) := hp.begins.meets cs
          simp [hp.closed hcs, hmeets]
        · simp [hmore, hp.within, Parse.startsGenerator]
      refine ⟨_, .of_cons rfl hq.begins (fun hcs => ?_) (fun hmore => ?_) hvalue ?_⟩
      · exact hq.closed (by simp [Symbol.text, ends_signs])
      · exact (hq.enclosed hlabel.2.2).2 hmore
      · change Node.render _ = _
        rw [Node.render, hq.render hlabel.2.1, hp.expression hke]
        exact ok_text (by simp [Symbol.text])

/-! ### Words with parentheses behind them -/

theorem Node.Writes.tail {b : Node} {p : Passage} (h : b.Writes p) : Adjacent false [gap, p] :=
  Adjacent.gap (h.stands nofun)

theorem written_let {as : List Node} {b : Node} (hshape : (Form.letIn as b).Shaped .proper)
    (h : (Form.letIn as b).PartsWritten) : ∃ p, Node.Writes ⟨i, .letIn as b⟩ p := by
  obtain ⟨hka, hkb⟩ := hshape
  obtain ⟨ps, hps⟩ := h.list (fun a ha => by simp [ha]) rfl rfl hka
  obtain ⟨p, hp⟩ := h.element (by simp) hkb
  refine ⟨_, .of_headed (w := .letIn) rfl rfl nofun (.inl rfl) hps.stands hp.tail ?_⟩
  change Node.render _ = _
  rw [Node.render, clauses_text hps.items, hp.element hkb]
  exact ok_text (by simp [text_commas, Keyword.text])

theorem written_functionLiteral {as : List Node} {b : Node}
    (hshape : (Form.functionLiteral as b).Shaped .proper)
    (h : (Form.functionLiteral as b).PartsWritten) :
    ∃ p, Node.Writes ⟨i, .functionLiteral as b⟩ p := by
  obtain ⟨hka, hkb⟩ := hshape
  obtain ⟨ps, hps⟩ := h.list (fun a ha => by simp [ha]) rfl rfl hka
  obtain ⟨p, hp⟩ := h.expression (by simp) hkb
  refine ⟨_, .of_headed (w := .function) rfl rfl nofun (.inl rfl) hps.stands hp.tail ?_⟩
  change Node.render _ = _
  rw [Node.render, list_text hps.items fun a ha => by simp [hka a ha], hp.expression hkb]
  exact ok_text (by simp [text_commas, Keyword.text])

theorem written_remark {verb : Verb} {as : List Node} {b : Option Node}
    (hshape : (Form.remark verb as b).Shaped .proper) (h : (Form.remark verb as b).PartsWritten) :
    ∃ p, Node.Writes ⟨i, .remark verb as b⟩ p := by
  have hka : ∀ a ∈ as, a.kind = .argument := fun a ha => (hshape.1 a ha).kind
  obtain ⟨ps, hps⟩ := h.list (fun a ha => by simp [ha]) rfl rfl hka
  have hplain : Parse.startsGenerator (.keyword verb.keyword) = false := by cases verb <;> rfl
  have htexts : renderList as = .ok (ps.map text) := list_text hps.items fun a ha =>
    by simp [hka a ha]
  cases b with
  | none =>
      refine ⟨_, .of_headed rfl verb.expectsFile (by simp [hplain]) (.inl rfl) hps.stands .nil ?_⟩
      change Node.render _ = _
      rw [Node.render, htexts]
      exact ok_text (by simp [text_commas, Verb.text_keyword])
  | some b =>
      have hkb := hshape.2 b rfl
      obtain ⟨p, hp⟩ := h.expression (by simp) hkb
      refine ⟨_, .of_headed rfl verb.expectsFile (by simp [hplain])
        (.inl rfl) hps.stands hp.tail ?_⟩
      change Node.render _ = _
      rw [Node.render, htexts, hp.expression hkb]
      exact ok_text (by simp [text_commas, Verb.text_keyword])

/-! ### Generators -/

theorem written_each {b : Node} (hshape : (Form.each b).Shaped .proper)
    (h : (Form.each b).PartsWritten) : ∃ p, Node.Writes ⟨i, .each b⟩ p := by
  obtain ⟨p, hp⟩ := h.element (by simp) hshape
  refine ⟨_, .of_cons (p := word .each) rfl (.word _) (fun hcs => ?_) (fun hmore => ?_) hp.tail ?_⟩
  · simp [delimits_signs, TokenKind.expectsFile]
  · simpa [Node.kind, Node.form, Form.kind, Kind.generates] using hmore
  · change Node.render _ = _
    rw [Node.render, hp.element hshape]
    exact ok_text (by simp [Keyword.text])

theorem written_loop {as us : List Node} {c : Option Node} {b : Node}
    (hshape : (Form.forElement as c us b).Shaped .proper)
    (h : (Form.forElement as c us b).PartsWritten) :
    ∃ p, Node.Writes ⟨i, .forElement as c us b⟩ p := by
  obtain ⟨hka, hkc, hku, hcounted, hkb⟩ := hshape
  obtain ⟨ps, hps⟩ := h.list (fun a ha => by simp [ha]) rfl rfl hka
  obtain ⟨p, hp⟩ := h.element (by simp) hkb
  cases c with
  | none =>
      cases us with
      | cons u us => cases hcounted (List.cons_ne_nil u us)
      | nil =>
          refine ⟨_, .of_headed (w := .forLoop) rfl rfl (fun _ => rfl)
            (.inr rfl) hps.stands hp.tail ?_⟩
          change Node.render _ = _
          rw [Node.render, clauses_text hps.items, hp.element hkb]
          exact ok_text (by simp [text_commas, Keyword.text])
  | some c =>
      have hkc := hkc c rfl
      obtain ⟨q, hq⟩ := h.expression (e := c) (by simp) hkc
      obtain ⟨qs, hqs⟩ := h.list (fun u hu => by simp [hu]) rfl rfl hku
      have hcondition : Adjacent false [gap, q] := hq.tail
      have hupdates : Adjacent false ([gap, q] ++ sign .semicolon :: gap :: commas qs) :=
        hcondition.append (by simp) hqs.stands.gap
      refine ⟨_, .of_headed (w := .forLoop) rfl rfl (fun _ => rfl) (.inr rfl)
        (hps.stands.append (s := .semicolon) (by simp) hupdates) hp.tail ?_⟩
      change Node.render _ = _
      rw [Node.render, clauses_text hps.items, renderCondition, hq.expression hkc,
        list_text hqs.items fun u hu => by simp [hku u hu], hp.element hkb]
      · exact ok_text (by simp [text_commas, Keyword.text, Symbol.text])
      · simp

theorem written_if {c t : Node} {e : Option Node} (hshape : (Form.ifElement c t e).Shaped .proper)
    (h : (Form.ifElement c t e).PartsWritten) : ∃ p, Node.Writes ⟨i, .ifElement c t e⟩ p := by
  obtain ⟨hkc, hkt, hke⟩ := hshape
  obtain ⟨p, hp⟩ := h.expression (by simp) hkc
  obtain ⟨q, hq⟩ := h.element (by simp) hkt
  have hcondition : Adjacent true [p] := hp.stands fun _ => Kind.generates_of_isExpression hkc
  cases e with
  | none =>
      refine ⟨_, .of_headed (w := .ifThen) rfl rfl (fun _ => rfl) (.inr rfl) hcondition hq.tail ?_⟩
      change Node.render _ = _
      rw [Node.render, hp.expression hkc, hq.element hkt, renderElse]
      exact ok_text (by simp [Keyword.text])
  | some e =>
      have hke := hke e rfl
      obtain ⟨r, hr⟩ := h.element (e := e) (by simp) hke
      have helse : Adjacent false [gap, q, gap, word .otherwise, gap, r] := by
        refine ⟨fun {cs} hcs => ?_, fun {more} hmore _ => ?_⟩
        · simp [hq.closed, hr.closed hcs, delimits_signs, ends_signs, TokenKind.expectsFile]
        · simp [hmore, hq.within, hr.within]
      refine ⟨_, .of_headed (w := .ifThen) rfl rfl (fun _ => rfl) (.inr rfl) hcondition helse ?_⟩
      change Node.render _ = _
      rw [Node.render, hp.expression hkc, hq.element hkt, renderElse, hr.element hke]
      exact ok_text (by simp [Keyword.text])

end Forms

end Scad
