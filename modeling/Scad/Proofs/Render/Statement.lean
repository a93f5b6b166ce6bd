import Scad.Proofs.Render.Expression

/-! The text of a statement reads as the statement, whatever stands behind it. -/
namespace Scad

open Lexeme (Closed Meets)
open Grammar
open Scad.Lex

attribute [local simp] Node.render

/-- Behind a statement, anything may stand. -/
def Anything (_ : List Char) : Prop := True

@[simp] theorem anything (cs : List Char) : Anything cs := trivial

section Layouts

variable {outer : Level} {i : Info}

/-! ### Children -/

def LaysChild (outer : Level) (c : Node) : Prop :=
  Lays Anything c.render fun ts rest => OwnsElses (Child outer) ts c rest

theorem laysChild_empty : LaysChild outer ⟨i, .empty⟩ := by
  refine ⟨[sign .semicolon], ok_text (by simp [Symbol.text]), fun _ => ?_, fun hs _ => ?_⟩
  · simp [Meets]
  · simp only [spelled_sign, spelled_nil] at hs
    obtain ⟨u, us, rfl, hu, -, rfl⟩ := hs
    exact .empty hu

def LaysBlock (outer : Level) (ss : List Node) : Prop :=
  ∀ i, Lays Anything (Node.render ⟨i, .block ss⟩) fun ts rest =>
    Between .leftBrace .rightBrace outer.statements ts ss rest

theorem laysChild_block {ss : List Node} (h : LaysBlock outer ss) :
    LaysChild outer ⟨i, .block ss⟩ := by
  obtain ⟨ls, h⟩ := h i
  exact ⟨ls, h.text, h.spaced, fun hs _ => .block ⟨h.reads hs⟩⟩

/-- A child's text as it stands behind the head of an instantiation. -/
theorem LaysChild.afterHead {c : Node} (h : LaysChild outer c) : ∃ t, c.render = .ok t ∧
    Lays Anything (.ok (c.afterHead t)) fun ts rest => OwnsElses (Child outer) ts c rest := by
  obtain ⟨ls, h⟩ := h
  refine ⟨textAll ls, h.text, ?_⟩
  obtain ⟨j, f⟩ := c
  have hgap : Lays Anything (.ok (" " ++ textAll ls)) fun ts rest =>
      OwnsElses (Child outer) ts ⟨j, f⟩ rest :=
    ⟨gap :: ls, rfl, fun hcs => by simp [h.spaced hcs], fun hs => h.reads (spelled_gap.1 hs)⟩
  cases f with
  | empty => exact ⟨ls, rfl, h.spaced, h.reads⟩
  | _ => exact hgap

/-! ### Instantiations -/

def startsPayload : TokenKind → Bool
  | .identifier | .keyword .forLoop | .keyword .letIn | .keyword .each => true
  | .keyword .ifThen | .keyword .echo | .keyword .assert => true
  | _ => false

def LaysPayload (outer : Level) (p : Node) : Prop :=
  ∃ ls k, startsPayload k ∧ Starts k ls ∧
    Laid Anything p.render (fun ts rest => OwnsElses (Payload outer) ts p rest) ls

theorem laysPayload_ifThen {c t : Node} {k : TokenKind}
    (hend : ∀ {ts}, NearestElse ts → outer.ifEnd ts) (hc : Shows Closed outer.expression c k)
    (ht : LaysChild outer t) : LaysPayload outer ⟨i, .moduleIf c t none⟩ := by
  obtain ⟨ls, h⟩ : ∃ ls, Laid Anything (Node.render ⟨i, .moduleIf c t none⟩)
      (fun ts rest => OwnsElses (Payload outer) ts ⟨i, .moduleIf c t none⟩ rest)
        (word .ifThen :: ls) := by
    refine laid_headed rfl (.inr rfl) hc.lays ht (fun hs ht => ?_)
      fun hu h1 h2 hr => .ifThen hu h1 (h2 fun _ => hr rfl) (hend (hr rfl))
    rw [Node.render, hs, ht, renderElse]
    exact ok_text (by simp [Keyword.text])
  exact ⟨_, _, rfl, ⟨_, _, rfl⟩, h⟩

theorem laysPayload_ifElse {c t e : Node} {k : TokenKind} (hopen : t.endsInIf = false)
    (hc : Shows Closed outer.expression c k) (ht : LaysChild outer t) (he : LaysChild outer e) :
    LaysPayload outer ⟨i, .moduleIf c t (some e)⟩ := by
  obtain ⟨s, u, hst, hsu, hbranches⟩ := lays_branches anything ht he
  obtain ⟨ls, h⟩ : ∃ ls, Laid Anything (Node.render ⟨i, .moduleIf c t (some e)⟩)
      (fun ts rest => OwnsElses (Payload outer) ts ⟨i, .moduleIf c t (some e)⟩ rest)
      (word .ifThen :: ls) := by
    refine laid_headed rfl (.inr rfl) hc.lays hbranches (fun hs hb => ?_) fun hu h1 h2 hr => ?_
    · obtain rfl := Except.ok.inj hb
      rw [Node.render, hs, hst, renderElse, hsu]
      exact ok_text (by simp [Keyword.text])
    · obtain ⟨next, hthen, ho, helse⟩ := h2
      refine .ifElse hu h1 (hthen fun hends => ?_) ⟨ho, helse hr⟩
      rw [hopen] at hends
      cases hends
  exact ⟨_, _, rfl, ⟨_, _, rfl⟩, h⟩

theorem Verb.startsPayload (v : Verb) : startsPayload (.keyword v.keyword) := by
  cases v <;> rfl

theorem laysPayload_remark {verb : Verb} {as : List Node} {c : Node}
    (has : ∀ a ∈ as, Lays Closed a.render fun ts rest => Argument outer false ts a rest)
    (hc : LaysChild outer c) : LaysPayload outer ⟨i, .moduleRemark verb as c⟩ := by
  obtain ⟨texts, htexts, ls, has⟩ := lays_parens has
  obtain ⟨t, ht, ms, hc⟩ := hc.afterHead
  have htext := Except.ok.inj has.text
  have hafter := Except.ok.inj hc.text
  refine ⟨word verb.keyword :: (ls ++ ms), _, verb.startsPayload, ⟨_, _, rfl⟩, ?_, fun hcs => ?_,
    fun hs hr => ?_⟩
  · rw [Node.render, renderList_eq, htexts, ht]
    exact ok_text (by simp [← htext, hafter, Verb.text_keyword])
  · simp [has.spaced, hc.spaced hcs, ← htext, delimits_signs, Verb.expectsFile]
  · simp only [spelled_word, spelled_append] at hs
    obtain ⟨u, us, rfl, hu, -, mid, h1, h2⟩ := hs
    exact .remark hu (has.reads h1) (hc.reads h2 hr)

theorem fits_moduleName {name : Token} (hk : namesModule name.kind)
    (hn : IsTextOf name.kind name.text) {cs : List Char} (hc : Lexeme.Delimited cs) :
    (Lex.token name.kind name.text).Fits cs := by
  cases hkind : name.kind with
  | identifier =>
      rw [hkind] at hn
      exact ⟨hn.1, hn.2, hc⟩
  | keyword w =>
      rw [hkind] at hk hn
      refine ⟨hn, ?_, hc⟩
      cases w <;> first | rfl | cases hk
  | _ =>
      rw [hkind] at hk
      cases hk

theorem laysPayload_call {name : Token} (hk : namesModule name.kind)
    (hn : IsTextOf name.kind name.text) {as : List Node} {c : Node} {h m : Info}
    (has : ∀ a ∈ as, Lays Closed a.render fun ts rest =>
      Argument outer (Parse.declaresVariables name) ts a rest) (hc : LaysChild outer c) :
    LaysPayload outer ⟨i, .moduleCall ⟨h, .moduleHead ⟨m, .moduleName name.text⟩ as⟩ c⟩ := by
  obtain ⟨texts, htexts, ls, has⟩ := lays_parens has
  obtain ⟨t, ht, ms, hc⟩ := hc.afterHead
  have htext := Except.ok.inj has.text
  have hafter := Except.ok.inj hc.text
  have hwritten : (Lex.token name.kind name.text).text = name.text := by
    cases hkind : name.kind <;> rw [hkind] at hk <;> first | rfl | cases hk
  have hstarts : startsPayload name.kind := by
    revert hk
    unfold namesModule
    split <;> simp_all [startsPayload]
  refine ⟨.token name.kind name.text :: (ls ++ ms), _, hstarts, ⟨_, _, rfl⟩, ?_, fun {cs} hcs => ?_,
    fun hs hr => ?_⟩
  · simp only [Node.render, renderList_eq, htexts, ht]
    exact ok_text (by simp [← htext, hafter, hwritten])
  · have hfits : (Lex.token name.kind name.text).Fits ((textAll (ls ++ ms)).toList ++ cs) :=
      fits_moduleName hk hn (by simp [← htext, delimits_signs])
    exact ⟨hfits, by simp [has.spaced, hc.spaced hcs]⟩
  · simp only [spelled_token, spelled_append] at hs
    obtain ⟨u, us, rfl, hu, hut, mid, h1, h2⟩ := hs
    have hdeclares : Parse.declaresVariables name = Parse.declaresVariables u := by
      rw [Parse.declaresVariables, Parse.declaresVariables, hu, hut]
    rw [← hut]
    exact .call (by rw [hu]; exact hk) (hdeclares ▸ has.reads h1) (hc.reads h2 hr)

/-- Marks, in front of what does not begin like `=`. -/
theorem lays_marks {names : List String} (h : ∀ n ∈ names, ∃ s ∈ Symbol.modifiers, n = s.text) :
    ∃ ls, textAll ls = String.join names ∧
      (∀ {cs : List Char}, cs.head? ≠ some '=' →
        Spaced ls cs ∧ ((textAll ls).toList ++ cs).head? ≠ some '=') ∧
      ∀ {ts rest}, Spelled ls ts rest →
        Repeated Mark ts names rest ∧ (NearestElse rest → NearestElse ts) := by
  induction names with
  | nil =>
      refine ⟨[], rfl, fun hcs => ⟨trivial, hcs⟩, fun hs => ?_⟩
      cases spelled_nil.1 hs
      exact ⟨.nil, id⟩
  | cons n names ih =>
      obtain ⟨s, hs, rfl⟩ := h _ (List.mem_cons_self ..)
      obtain ⟨ls, htext, hspaced, hreads⟩ := ih fun m hm => h m (List.mem_cons_of_mem _ hm)
      refine ⟨sign s :: ls, ?_, fun hcs => ?_, fun hsp => ?_⟩
      · rw [String.join_cons, textAll_cons, htext]
        rfl
      · obtain ⟨hls, hhead⟩ := hspaced hcs
        rw [spaced_sign]
        simp only [Symbol.modifiers, List.mem_cons, List.not_mem_nil, or_false] at hs
        rcases hs with rfl | rfl | rfl | rfl
        · exact ⟨⟨hhead, hls⟩, by simp [Symbol.text]⟩
        · exact ⟨⟨trivial, hls⟩, by simp [Symbol.text]⟩
        · exact ⟨⟨trivial, hls⟩, by simp [Symbol.text]⟩
        · exact ⟨⟨trivial, hls⟩, by simp [Symbol.text]⟩
      · obtain ⟨u, us, rfl, hu, -, hus⟩ := spelled_sign.1 hsp
        refine ⟨.cons ⟨?_⟩ (hreads hus).1, fun _ => nearestElse_cons hu⟩
        rw [hu]
        simp only [Symbol.modifiers, List.mem_cons, List.not_mem_nil, or_false] at hs
        rcases hs with rfl | rfl | rfl | rfl <;> rfl

/-- A statement's text begins with no `else`. -/
def LaysStatement (P : Phrase Node) (x : Node) : Prop :=
  Lays Anything x.render fun ts rest => NearestElse ts ∧ OwnsElses P ts x rest

theorem laysStatement_instantiation {marks : NameSet} {p : Node}
    (hm : ∀ n ∈ marks.names, ∃ s ∈ Symbol.modifiers, n = s.text)
    (hset : NameSet.ofList marks.names = marks) (hp : LaysPayload outer p) :
    LaysStatement (Instantiation outer) ⟨i, .instantiation marks p⟩ := by
  obtain ⟨ls, htext, hspaced, hreads⟩ := lays_marks hm
  obtain ⟨ms, k, hk, hstarts, hp⟩ := hp
  refine ⟨ls ++ ms, ?_, fun {cs} hcs => ?_, fun hs => ?_⟩
  · rw [Node.render, hp.text]
    exact ok_text (by simp [htext])
  · have hkind : k ≠ .symbol .assign ∧ k ≠ .symbol .equal := by
      constructor
      · rintro rfl
        cases hk
      · rintro rfl
        cases hk
    have hassign := hstarts.not_assign hkind (hp.spaced hcs) cs
    simp [(hspaced hassign).1, hp.spaced hcs]
  · rw [spelled_append] at hs
    obtain ⟨mid, h1, h2⟩ := hs
    obtain ⟨hmarks, helse⟩ := hreads h1
    have hmid : NearestElse mid := by
      rw [NearestElse, hstarts.nextKind h2]
      rintro rfl
      cases hk
    refine ⟨helse hmid, fun hr => ?_⟩
    have hinst : Instantiation outer _ ⟨i, .instantiation (NameSet.ofList marks.names) p⟩ _ :=
      .mk hmarks (hp.reads h2 hr)
    rw [hset] at hinst
    exact hinst

/-! ### Statements -/

theorem LaysStatement.mono {P Q : Phrase Node} {x : Node} (h : LaysStatement P x)
    (hPQ : ∀ {ts rest}, P ts x rest → Q ts x rest) : LaysStatement Q x := by
  obtain ⟨ls, h⟩ := h
  exact ⟨ls, h.mono fun hx => ⟨hx.1, fun hr => hPQ (hx.2 hr)⟩⟩

theorem laysStatement_empty : LaysStatement (Statement outer) ⟨i, .empty⟩ := by
  refine ⟨[sign .semicolon], ok_text (by simp [Symbol.text]), fun _ => ?_, fun hs => ?_⟩
  · simp [Meets]
  · simp only [spelled_sign, spelled_nil] at hs
    obtain ⟨u, us, rfl, hu, -, rfl⟩ := hs
    exact ⟨nearestElse_cons hu, fun _ => .empty hu⟩

theorem laysStatement_block {ss : List Node} (h : LaysBlock outer ss) :
    LaysStatement (Statement outer) ⟨i, .block ss⟩ := by
  obtain ⟨ls, h⟩ := h i
  refine ⟨ls, h.mono fun hb => ?_⟩
  obtain ⟨hl, hss, hr⟩ := hb
  exact ⟨nearestElse_cons hl, fun _ => .block ⟨⟨hl, hss, hr⟩⟩⟩

theorem nearestElse_of_kind {t : Token} {ts : List Token} (h : t.kind ≠ .keyword .otherwise) :
    NearestElse (t :: ts) := h

theorem laysStatement_file {inclusion : Inclusion} {f : String} (hf : IsTextOf .file f) :
    LaysStatement (Statement outer) ⟨i, .fileReference inclusion f⟩ := by
  refine ⟨[.reference inclusion f], ok_text (by simp [Lex.text]), fun _ => ⟨hf, trivial⟩,
    fun hs => ?_⟩
  simp only [spelled_reference, spelled_nil] at hs
  obtain ⟨u, v, us, rfl, hu, -, hv, rfl, rfl⟩ := hs
  refine ⟨nearestElse_of_kind ?_, fun _ => .file hu hv⟩
  rw [hu]
  cases inclusion <;> decide

theorem laysStatement_assignment {name : String} (hn : IsTextOf .identifier name) {e : Node}
    {j : Info} {k : TokenKind} (h : Shows Closed outer.expression e k) :
    LaysStatement (Statement outer) ⟨i, .assignment ⟨j, .variableDefinition name⟩ e⟩ := by
  obtain ⟨es, hk, he⟩ := h
  obtain ⟨ls, h⟩ := laid_named hn ⟨es, hk, he⟩
  have htext := h.text
  rw [he.text] at htext
  refine ⟨ls ++ [sign .semicolon], ?_, fun _ => ?_, fun hs => ?_⟩
  · rw [Node.render, Node.render, he.text]
    exact ok_text (by simp [← Except.ok.inj htext, Symbol.text])
  · simp [Meets, Symbol.text, h.spaced, ends_signs]
  · simp only [spelled_append, spelled_sign, spelled_nil] at hs
    obtain ⟨mid, h1, s, us, rfl, hs, -, rfl⟩ := hs
    obtain ⟨u, vs, rfl, hu, rfl, hv⟩ := h.reads h1
    refine ⟨nearestElse_of_kind (by rw [hu]; decide), fun _ => .assignment hu hv hs⟩

theorem laysStatement_function {name : String} (hn : IsTextOf .identifier name) {ps : List Node}
    {e : Node} {k : TokenKind}
    (hps : ∀ p ∈ ps, Lays Closed p.render fun ts rest => Parameter outer ts p rest)
    (h : Shows Closed outer.expression e k) :
    LaysStatement (Statement outer) ⟨i, .functionDefinition name ps e⟩ := by
  obtain ⟨texts, htexts, ls, hps⟩ := lays_parens hps
  have htext := Except.ok.inj hps.text
  obtain ⟨ms, -, h⟩ := h
  refine ⟨word .function :: gap :: Lex.name name :: (ls ++ gap :: sign .assign :: gap ::
    (ms ++ [sign .semicolon])), ?_, fun _ => ?_, fun hs => ?_⟩
  · rw [Node.render, renderList_eq, htexts, h.text]
    exact ok_text (by simp [← htext, Keyword.text, Symbol.text])
  · simp [Meets, Symbol.text, hn, hps.spaced, h.spaced, ← htext, delimits_signs, ends_signs]
    rfl
  · simp only [spelled_word, spelled_gap, spelled_name, spelled_append, spelled_sign,
      spelled_nil] at hs
    obtain ⟨u, us, rfl, hu, -, v, vs, rfl, hv, rfl, mid, h1, w, ws, rfl, hw, -, next,
      h2, s, xs, rfl, hs, -, rfl⟩ := hs
    refine ⟨nearestElse_of_kind (by rw [hu]; decide), fun _ => ?_⟩
    exact .function hu hv (hps.reads h1) ⟨hw, h.reads h2⟩ hs

theorem laysStatement_module {name : String} (hn : IsTextOf .identifier name) {ps : List Node}
    {b : Node} (hps : ∀ p ∈ ps, Lays Closed p.render fun ts rest => Parameter outer ts p rest)
    (hb : LaysStatement (Statement outer) b) :
    LaysStatement (Statement outer) ⟨i, .moduleDefinition name ps b⟩ := by
  obtain ⟨texts, htexts, ls, hps⟩ := lays_parens hps
  have htext := Except.ok.inj hps.text
  obtain ⟨ms, hb⟩ := hb
  refine ⟨word .moduleDef :: gap :: Lex.name name :: (ls ++ gap :: ms), ?_, fun hcs => ?_,
    fun hs => ?_⟩
  · rw [Node.render, renderList_eq, htexts, hb.text]
    exact ok_text (by simp [← htext, Keyword.text])
  · simp [hn, hps.spaced, hb.spaced hcs, ← htext, delimits_signs]
    rfl
  · simp only [spelled_word, spelled_gap, spelled_name, spelled_append] at hs
    obtain ⟨u, us, rfl, hu, -, v, vs, rfl, hv, rfl, mid, h1, h2⟩ := hs
    refine ⟨nearestElse_of_kind (by rw [hu]; decide), fun hr => ?_⟩
    exact .module hu hv (hps.reads h1) ((hb.reads h2).2 hr)

/-- Statements with blanks between them. -/
theorem lays_statements {separator : Char} (hb : Piece.isBlank separator) {ss : List Node}
    (h : ∀ s ∈ ss, LaysStatement (Statement outer) s) :
    Lays Anything (renderAll Node.render (String.singleton separator).intercalate ss)
      fun ts rest => NearestElse rest → NearestElse ts ∧ Repeated (Statement outer) ts ss rest := by
  induction ss with
  | nil =>
      refine ⟨[], by rw [renderAll_nil]; rfl, fun _ => trivial, fun hs hr => ?_⟩
      cases spelled_nil.1 hs
      exact ⟨hr, .nil⟩
  | cons s ss ih =>
      obtain ⟨ls, hs⟩ := h s (List.mem_cons_self ..)
      cases ss with
      | nil =>
          refine ⟨ls, renderAll_one _ hs.text, hs.spaced, fun hsp hr => ?_⟩
          obtain ⟨helse, hread⟩ := hs.reads hsp
          exact ⟨helse, .cons (hread fun _ => hr) .nil⟩
      | cons t ss =>
          obtain ⟨ms, hms⟩ := ih fun u hu => h u (List.mem_cons_of_mem _ hu)
          refine ⟨ls ++ blank separator :: ms, ?_, fun hcs => ?_, fun hsp hr => ?_⟩
          · exact (renderAll_cons_cons hs.text hms.text).trans (ok_text (by simp [Lex.text]))
          · rw [spaced_append]
            exact ⟨hs.spaced trivial, hb, hms.spaced hcs⟩
          · rw [spelled_append] at hsp
            obtain ⟨mid, h1, h2⟩ := hsp
            obtain ⟨hmid, hrest⟩ := hms.reads (spelled_blank.1 h2) hr
            obtain ⟨helse, hread⟩ := hs.reads h1
            exact ⟨helse, .cons (hread fun _ => hmid) hrest⟩

end Layouts

end Scad
