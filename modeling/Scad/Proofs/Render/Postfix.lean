import Scad.Proofs.Render.Intact

/-! Which calls have the tokens of their target and of their suffixes, one behind the other, in
their text: those whose parts stay apart. -/
namespace Scad

open List (Forall₂)
open Lexeme (Delimited Digits IsNumeral)
open Passage (numeral foundAll_eq found_commas)

/-! ### The tokens of a text -/

/-- The kinds and texts of the tokens of a text that is scanned without a fault, the end
marker apart. -/
def spellings? (text : String) : Option (List (TokenKind × String)) :=
  let scanned := tokenize text ""
  if scanned.faults.isEmpty then some (scanned.tokens.dropLast.map Token.spelling) else none

theorem spellings?_iff {text : String} {found : List (TokenKind × String)} :
    spellings? text = some found ↔ Cuts none text.toList found := by
  constructor
  · intro h
    rw [spellings?] at h
    split at h
    · rename_i hfaults
      rw [← Option.some.inj h, tokenize, List.dropLast_concat]
      exact cuts_of_scanFrom "" none .start text.toList (List.isEmpty_iff.1 hfaults)
    · cases h
  · intro h
    obtain ⟨hfaults, ts, mark, htokens, rfl⟩ := tokenize_of_cuts h ""
    rw [spellings?, hfaults, htokens, List.dropLast_concat]
    rfl

namespace Node

def tokens? (n : Node) : Option (List (TokenKind × String)) := n.render.toOption.bind spellings?

def suffixTokens? (s : Node) : Option (List (TokenKind × String)) :=
  match s.form with
  | .callSuffix as => do
      let found ← as.mapM tokens?
      return (.symbol .leftParen, "(") :: ([(.symbol .comma, ",")].intercalate found ++
        [(.symbol .rightParen, ")")])
  | .indexSuffix e => do
      let found ← e.tokens?
      return (.symbol .leftBracket, "[") :: (found ++ [(.symbol .rightBracket, "]")])
  | .memberSuffix m => return [(.symbol .dot, "."), (.identifier, m)]
  | _ => none

/-- The tokens of the target of a call, and behind them those of each suffix. -/
def chainTokens? (n : Node) : Option (List (TokenKind × String)) :=
  match n.form with
  | .call t ss => do
      let found ← t.tokens?
      let more ← ss.mapM suffixTokens?
      return found ++ more.flatten
  | _ => none

/-- Whether the text of a call has the tokens of its target and its suffixes. -/
def keepsTokens (n : Node) : Bool := n.tokens?.any fun found => n.chainTokens? = some found

theorem keepsTokens_iff {n : Node} :
    n.keepsTokens ↔ ∃ found, n.tokens? = some found ∧ n.chainTokens? = some found := by
  simp [keepsTokens, Option.any_eq_true]

theorem tokens?_iff {n : Node} {found : List (TokenKind × String)} :
    n.tokens? = some found ↔ ∃ text, n.render = .ok text ∧ Cuts none text.toList found := by
  rw [tokens?]
  cases n.render with
  | error f => simp [Except.toOption]
  | ok text => simp [Except.toOption, spellings?_iff]

theorem chainTokens?_call {i : Info} {t : Node} {ss : List Node}
    {found : List (TokenKind × String)} :
    chainTokens? ⟨i, .call t ss⟩ = some found ↔ ∃ first more,
      t.tokens? = some first ∧ ss.mapM suffixTokens? = some more ∧
        found = first ++ more.flatten := by
  simp [chainTokens?, form, Option.bind_eq_some_iff, @eq_comm _ found]

theorem Writes.tokens? {n : Node} {p : Passage} (h : n.Writes p) (hk : n.kind ≠ .assignment) :
    n.tokens? = some p.found :=
  tokens?_iff.2 ⟨p.text, h.render hk, p.scans.cuts (h.closed closed_nil)⟩

end Node

/-! ### Suffixes -/

theorem mapM_found {f : Node → Option (List (TokenKind × String))} {ns : List Node}
    {ps : List Passage} (h : Forall₂ (fun n p => n.Writes p ∧ f n = some p.found) ns ps) :
    ns.mapM f = some (ps.map Passage.found) := by
  induction h with
  | nil => rfl
  | cons hn _ ih =>
      rw [List.mapM_cons, hn.2, ih]
      rfl

attribute [local simp] Form.children Form.fields Field.children

theorem Node.Intact.suffixTokens {s : Node} (h : s.Intact) (hk : s.kind.isSuffix)
    (hplain : s.startsPlain) :
    ∃ p, s.Writes p ∧ s.suffixTokens? = some p.found := by
  obtain ⟨i, f⟩ := s
  obtain ⟨hshape, hletters, -, -⟩ := h.self
  cases f with
  | callSuffix as =>
      have hka : ∀ a ∈ as, a.kind = .argument := fun a ha => (hshape a ha).kind
      have hargument : ∀ a ∈ as, ∃ p, a.Writes p ∧ a.tokens? = some p.found := by
        intro a ha
        obtain ⟨p, hp⟩ :=
          (h.child (show a ∈ (Form.callSuffix as).children by simpa using ha)).writes
          (hka a ha ▸ rfl)
        exact ⟨p, hp, hp.tokens? (by simp [hka a ha])⟩
      obtain ⟨ps, hps⟩ := exists_forall₂ hargument
      have hlist : WritesList as ps :=
        ⟨hps.imp fun _ _ ha => ha.1, fun a ha => by rw [hka a ha]; rfl⟩
      refine ⟨_, writes_arguments hlist hka, ?_⟩
      simp [Node.suffixTokens?, Node.form, mapM_found hps, Passage.join, found_commas, Symbol.text]
  | indexSuffix e =>
      have hke : e.kind.isExpression := hshape
      obtain ⟨p, hp⟩ := (h.child (show e ∈ (Form.indexSuffix e).children by simp)).writes
        (Kind.isPart_of_isElement (Kind.isElement_of_isExpression hke))
      refine ⟨_, writes_index hp hke, ?_⟩
      have htokens :=
        hp.tokens? (Kind.ne_assignment_of_isElement (Kind.isElement_of_isExpression hke))
      simp [Node.suffixTokens?, Node.form, htokens, Passage.join, Symbol.text]
  | memberSuffix m => exact ⟨_, writes_member hletters hplain, rfl⟩
  | _ => cases hk

/-- A point that is cut off alone stands before no digit. -/
theorem Cuts.point {last : Option TokenKind} (hlast : last.any TokenKind.expectsFile = false)
    {m cs : List Char} {t : String} {more : List (TokenKind × String)}
    (h : Cuts last ('.' :: (m ++ cs)) ((.symbol .dot, t) :: more)) :
    m.head?.any Text.isDecimalDigit = false := by
  cases m with
  | nil => rfl
  | cons d m =>
      refine Bool.eq_false_iff.2 fun hd => ?_
      obtain ⟨u, n, hfirst⟩ := Piece.first_point hd false (m ++ cs)
      rw [← hlast] at hfirst
      obtain ⟨_, heq, -⟩ := h.of_token hfirst
      cases heq

/-- Digits that are cut off alone do not stand before a point. -/
theorem Cuts.digits {ds cs : List Char} (hd : Digits ds) (hne : ds ≠ [])
    {more : List (TokenKind × String)} :
    ¬ Cuts none (ds ++ '.' :: cs) ((.number, String.ofList ds) :: more) := by
  intro h
  obtain ⟨c, es, n, rfl, hn, hfirst⟩ := Piece.first_digits hd hne false cs
  obtain ⟨_, heq, -⟩ := h.of_token hfirst
  have hlength := congrArg (fun e : TokenKind × String => e.2.toList.length) (List.cons.inj heq).1
  simp only [String.toList_ofList, List.length_take, List.length_append, List.length_cons]
    at hlength hn
  omega

/-- If the texts of suffixes are cut to the tokens of each, no digit begins the name of a member. -/
theorem plain_of_cuts {ss : List Node} (hs : ∀ s ∈ ss, s.Intact ∧ s.kind.isSuffix)
    {texts : List String} (htexts : renderList ss = .ok texts)
    {found : List (List (TokenKind × String))} (hfound : ss.mapM Node.suffixTokens? = some found)
    (h : Cuts none (String.join texts).toList found.flatten) :
    ∀ s ∈ ss, s.startsPlain := by
  induction ss generalizing texts found with
  | nil => exact fun s hs => nomatch hs
  | cons s ss ih =>
      obtain ⟨⟨hintact, hk⟩, hss⟩ := List.forall_mem_cons.1 hs
      obtain ⟨text, texts, hrender, hrest, rfl⟩ := renderList_cons.1 htexts
      simp only [List.mapM_cons, Option.bind_eq_bind, Option.bind_eq_some_iff] at hfound
      obtain ⟨first, hfirst, more, hmore, heq⟩ := hfound
      obtain rfl := Option.some.inj heq
      rw [String.join_cons, String.toList_append, List.flatten_cons] at h
      have hplain : s.startsPlain := by
        obtain ⟨i, f⟩ := s
        cases f with
        | memberSuffix m =>
            obtain rfl : "." ++ m = text := Except.ok.inj hrender
            obtain rfl : [(.symbol .dot, "."), (.identifier, m)] = first := Option.some.inj hfirst
            have hpoint : m.toList.head?.any Text.isDecimalDigit = false := by
              rw [String.toList_append, List.append_assoc] at h
              exact Cuts.point rfl h
            simp [Node.startsPlain, Node.form, hpoint]
        | _ => rfl
      obtain ⟨p, hp, htokens⟩ := hintact.suffixTokens hk hplain
      obtain ⟨hrendered, hmeets⟩ := hp.suffix hk
      obtain rfl := Except.ok.inj (hrender.symm.trans hrendered)
      obtain rfl := Option.some.inj (hfirst.symm.trans htokens)
      have hdelimited := (suffixes_begin hrest (fun s hs => (hss s hs).2) closed_nil).1
      rw [List.append_nil] at hdelimited
      have hcuts := (p.scans rfl (hp.follow hdelimited fun _ => hmeets)).1 h
      exact List.forall_mem_cons.2 ⟨hplain, ih hss hrest hmore hcuts⟩

/-! ### Calls -/

/-- The parts of a call are intact. -/
structure Node.Assembles (t : Node) (ss : List Node) : Prop where
  target : t.Intact
  tight : 9 ≤ t.kind.tightness
  suffixes : ∀ s ∈ ss, s.Intact ∧ s.kind.isSuffix

namespace Node.Assembles

variable {i : Info} {t : Node} {ss : List Node} (h : t.Assembles ss)

include h

theorem expression : t.kind.isExpression :=
  Kind.isExpression_of_tight (Nat.lt_of_lt_of_le (by decide) h.tight)

theorem writes : ∃ p, t.Writes p ∧ t.tokens? = some p.found := by
  have hk := Kind.isElement_of_isExpression h.expression
  obtain ⟨p, hp⟩ := h.target.writes (Kind.isPart_of_isElement hk)
  exact ⟨p, hp, hp.tokens? (Kind.ne_assignment_of_isElement hk)⟩

theorem keepsTokens (hapart : Node.isApart ⟨i, .call t ss⟩) : Node.keepsTokens ⟨i, .call t ss⟩ := by
  obtain ⟨p, hp, htokens⟩ := h.writes
  have hplain : ∀ s ∈ ss, s.startsPlain := List.all_eq_true.1 (Bool.and_eq_true_iff.1 hapart).2
  have hsuffix : ∀ s ∈ ss, ∃ q, s.Writes q ∧ s.suffixTokens? = some q.found := fun s hs =>
    (h.suffixes s hs).1.suffixTokens (h.suffixes s hs).2 (hplain s hs)
  obtain ⟨ps, hps⟩ := exists_forall₂ hsuffix
  have hcall := writes_call (i := i) hp (hps.imp fun _ _ hs => hs.1) h.tight
    (fun s hs => (h.suffixes s hs).2) hapart
  refine keepsTokens_iff.2 ⟨_, hcall.tokens? nofun,
    chainTokens?_call.2 ⟨_, _, htokens, mapM_found hps, ?_⟩⟩
  rw [← foundAll_eq]
  rfl

theorem text {p : Passage} (hp : t.Writes p) {text : String}
    (hrender : Node.render ⟨i, .call t ss⟩ = .ok text) :
    ∃ texts, renderList ss = .ok texts ∧ text = p.text ++ String.join texts := by
  rw [Node.render, hp.expression h.expression] at hrender
  cases hss : renderList ss with
  | error f => rw [hss] at hrender; cases hrender
  | ok texts =>
      rw [hss] at hrender
      exact ⟨texts, rfl, (Except.ok.inj hrender).symm⟩

/-- A target that no point may stand behind is one number. -/
theorem bare {p : Passage} (hp : t.Writes p) (hmeets : t.meetsPoint = false) :
    Digits p.text.toList ∧ p.text.toList ≠ [] ∧ p.found = [(.number, p.text)] := by
  have hdigits := digits_of_meetsPoint hp h.tight hmeets
  obtain ⟨c, cs, htext, -⟩ := hp.begins
  have hne : p.text.toList ≠ [] := by simp [htext]
  have hnumeral : IsNumeral p.text.toList := by simpa using IsNumeral.mk hne hdigits .none .none
  have hcuts := (numeral p.text hnumeral).scans.cuts (closed_nil.endsNumeral _)
  exact ⟨hdigits, hne, (p.scans.cuts (hp.closed closed_nil)).unique hcuts⟩

theorem isApart (hkeeps : Node.keepsTokens ⟨i, .call t ss⟩) : Node.isApart ⟨i, .call t ss⟩ := by
  obtain ⟨p, hp, htokens⟩ := h.writes
  obtain ⟨found, hwhole, hchain⟩ := keepsTokens_iff.1 hkeeps
  obtain ⟨text, hrender, hcuts⟩ := tokens?_iff.1 hwhole
  obtain ⟨first, more, hfirst, hmore, rfl⟩ := chainTokens?_call.1 hchain
  obtain rfl := Option.some.inj (htokens.symm.trans hfirst)
  obtain ⟨texts, htexts, rfl⟩ := h.text hp hrender
  obtain ⟨hdelimited, hpoint⟩ := suffixes_begin htexts (fun s hs => (h.suffixes s hs).2) closed_nil
  rw [List.append_nil] at hdelimited hpoint
  rw [String.toList_append] at hcuts
  have hfront : t.meetsPoint ∨ ss.head?.any (·.kind = .memberSuffix) = false := by
    by_contra hno
    rw [not_or, Bool.not_eq_true, Bool.not_eq_false] at hno
    obtain ⟨cs, hcs⟩ := List.head?_eq_some_iff.1 (hpoint.2 hno.2)
    obtain ⟨hdigits, hne, hfound⟩ := h.bare hp hno.1
    rw [hfound, hcs] at hcuts
    exact Cuts.digits hdigits hne (by simpa using hcuts)
  have hfollow : p.follow (String.join texts).toList :=
    hp.follow hdelimited fun hhead => hfront.resolve_right (Bool.not_eq_false _ ▸ hpoint.1 hhead)
  have hplain := plain_of_cuts h.suffixes htexts hmore ((p.scans rfl hfollow).1 hcuts)
  simp only [Node.isApart, Node.form, Bool.and_eq_true, Bool.or_eq_true, Bool.not_eq_true']
  exact ⟨hfront, List.all_eq_true.2 hplain⟩

end Node.Assembles

/-! ### Trees -/

theorem Node.isContained_of_isApart {n : Node} (h : n.isApart) : n.isContained := by
  unfold isContained
  split
  · rw [h, Bool.true_or]
  · rfl

/-- A call of parts that are intact keeps its tokens exactly if they stay apart. -/
theorem Node.keepsTokens_iff_isApart {n : Node} (hk : n.kind = .call)
    (hshape : n.form.Shaped .proper) (h : ∀ c ∈ n.children, c.Intact) :
    n.keepsTokens ↔ n.isApart := by
  obtain ⟨i, f⟩ := n
  cases f with
  | call t ss =>
      have hparts : t.Assembles ss :=
        ⟨h t (by simp [children, form]), hshape.1, fun s hs => ⟨h s (by simp [children, form, hs]),
          hshape.2.2 s hs⟩⟩
      exact ⟨hparts.isApart, hparts.keepsTokens⟩
  | _ => cases hk

/-- In a tree with finite numbers, whose calls all keep their tokens, the parts of every call
stay apart. -/
theorem Node.isApart_of_keepsTokens {n : Node}
    (h : ∀ m ∈ n.preorder, m.form.Shaped .proper ∧ Grammar.TextsScanned m.form ∧ m.isFinite)
    (hkeeps : ∀ m ∈ n.preorder, m.kind = .call → m.keepsTokens) : ∀ m ∈ n.preorder, m.isApart := by
  induction n using ofChildren with
  | h n ih =>
      have hsub : ∀ c ∈ n.children, c.preorder ⊆ n.preorder := fun c hc =>
        (sublist_preorder (child_mem_preorder n.mem_preorder_self hc)).subset
      have hbelow : ∀ c ∈ n.children, ∀ m ∈ c.preorder, m.isApart := fun c hc =>
        ih c hc (fun m hm => h m (hsub c hc hm)) fun m hm => hkeeps m (hsub c hc hm)
      intro m hm
      rw [preorder_eq] at hm
      rcases List.mem_cons.1 hm with rfl | hm
      · by_cases hk : m.kind = .call
        · have hintact : ∀ c ∈ m.children, c.Intact := by
            intro c hc d hd
            obtain ⟨hshape, hletters, hfinite⟩ := h d (hsub c hc hd)
            exact ⟨hshape, hletters, hfinite, isContained_of_isApart (hbelow c hc d hd)⟩
          have hself := m.mem_preorder_self
          exact (keepsTokens_iff_isApart hk (h m hself).1 hintact).1 (hkeeps m hself hk)
        · obtain ⟨i, f⟩ := m
          cases f with
          | call => exact absurd rfl hk
          | _ => rfl
      · obtain ⟨c, hc, hm⟩ := List.mem_flatMap.1 hm
        exact hbelow c hc m hm

/-- In what was parsed without errors, a call and all calls in it have the tokens of their targets
and of their suffixes in their texts exactly if every number below is finite and the parts of all
these calls stay apart.

A single call has them exactly if every number below is finite and its own parts stay apart, however
those of the calls in it run together, as long as no word comes about there that a file follows. -/
theorem call_keepsTokens {text name : String} {origin : Option String} {p : Parse.Parsed}
    (hp : parse (tokenize text name).tokens origin = .ok p) (hc : p.document.syntaxErrors = [])
    {c : Node} (hwalk : c ∈ p.document.walk) (hk : c.kind = .call) :
    ((∀ d ∈ c.preorder, d.kind = .call → d.keepsTokens) ↔
        ∀ d ∈ c.preorder, d.isFinite ∧ d.isApart) ∧
      ((∀ b ∈ c.children, ∀ d ∈ b.preorder, d.isContained) →
        (c.keepsTokens ↔ (∀ d ∈ c.preorder, d.isFinite) ∧ c.isApart)) := by
  obtain ⟨ts, -, hclean⟩ := Parse.clean_walk hp hc
  have hnodes : ∀ d ∈ c.preorder, d.form.Shaped .proper ∧ Grammar.TextsScanned d.form := fun d hd =>
    (hclean c hwalk d hd).imp_right fun hstems => hstems.textsScanned
  have hfinite : c.keepsTokens → ∀ d ∈ c.preorder, d.isFinite := by
    intro hkeeps
    obtain ⟨found, htokens, -⟩ := Node.keepsTokens_iff.1 hkeeps
    obtain ⟨whole, hrender, -⟩ := Node.tokens?_iff.1 htokens
    exact (Node.render_iff fun d hd => (hnodes d hd).1).1.1 ⟨whole, hrender⟩
  have hintact : ∀ {d}, d ∈ c.preorder → (∀ m ∈ d.preorder, m.isFinite ∧ m.isContained) →
      d.Intact := by
    intro d hd hparts m hm
    have hm' := (Node.sublist_preorder hd).subset hm
    exact ⟨(hnodes m hm').1, (hnodes m hm').2, hparts m hm⟩
  constructor
  · constructor
    · intro hkeeps
      have hfinite := hfinite (hkeeps c c.mem_preorder_self hk)
      have happart := Node.isApart_of_keepsTokens
        (fun d hd => ⟨(hnodes d hd).1, (hnodes d hd).2, hfinite d hd⟩) hkeeps
      exact fun d hd => ⟨hfinite d hd, happart d hd⟩
    · intro hparts d hd hkd
      have hchildren : ∀ b ∈ d.children, b.Intact := fun b hb =>
        hintact (Node.child_mem_preorder hd hb) fun m hm => by
          have hm := (Node.sublist_preorder (Node.child_mem_preorder hd hb)).subset hm
          exact ⟨(hparts m hm).1, Node.isContained_of_isApart (hparts m hm).2⟩
      exact (Node.keepsTokens_iff_isApart hkd (hnodes d hd).1 hchildren).2 (hparts d hd).2
  · intro hcontained
    have hchildren : (∀ d ∈ c.preorder, d.isFinite) → ∀ b ∈ c.children, b.Intact := by
      intro hfinite b hb
      have hb' := Node.child_mem_preorder c.mem_preorder_self hb
      exact hintact hb' fun m hm => ⟨hfinite m ((Node.sublist_preorder hb').subset hm),
        hcontained b hb m hm⟩
    have hshape := (hnodes c c.mem_preorder_self).1
    constructor
    · intro hkeeps
      have hfinite := hfinite hkeeps
      exact ⟨hfinite, (Node.keepsTokens_iff_isApart hk hshape (hchildren hfinite)).1 hkeeps⟩
    · rintro ⟨hfinite, happart⟩
      exact (Node.keepsTokens_iff_isApart hk hshape (hchildren hfinite)).2 happart

/-- Two calls, one of them with three suffixes and one with a member of a number that is not
digits only. -/
theorem call_keepsTokens_chains :
    ∃ p, parse (tokenize "x = [f(1, y = 2)[0].z, 1e30.w];" "").tokens none = .ok p ∧
    p.document.syntaxErrors = [] ∧ (p.document.walk.filter (·.kind = .call)).length = 2 ∧
    ∀ c ∈ p.document.walk, c.kind = .call → c.keepsTokens := by
  have hgood : (parse (tokenize "x = [f(1, y = 2)[0].z, 1e30.w];" "").tokens none).toOption.map
    (fun p =>
      (p.document.syntaxErrors.isEmpty, (p.document.walk.filter (·.kind = .call)).length,
        decide (∀ c ∈ p.document.walk, ∀ d ∈ c.preorder, d.isFinite ∧ d.isApart))) =
        some (true, 2, true) := by
    rw [tokens_ofList]
    decide +kernel
  obtain ⟨p, hp, hfacts⟩ := Parse.exists_of_map hgood
  obtain ⟨herrors, hfacts⟩ := Prod.mk.inj hfacts
  obtain ⟨hcalls, hparts⟩ := Prod.mk.inj hfacts
  have hc := List.isEmpty_iff.1 herrors
  exact ⟨p, hp, hc, hcalls, fun c hwalk hk =>
    (call_keepsTokens hp hc hwalk hk).1.2 (of_decide_eq_true hparts c hwalk) c
      c.mem_preorder_self hk⟩

/-- A word that a file follows takes what is behind the call that it comes about in. -/
example : (parse (tokenize "x = f(a. 5use < b);" "").tokens none).toOption.map (fun p =>
    (p.document.walk.filter (·.kind = .call)).map fun c =>
      (c.isApart, c.isContained, c.keepsTokens)) =
    some [(true, true, false), (false, false, false)] := by
  decide +kernel

/-- A number of digits only takes the point of a member behind it. -/
theorem call_keepsTokens_not : ¬ ∀ (text name : String) (origin : Option String) (p : Parse.Parsed),
    parse (tokenize text name).tokens origin = .ok p → (tokenize text name).faults = [] →
      p.document.syntaxErrors = [] → ∀ c ∈ p.document.walk, c.kind = .call → c.keepsTokens := by
  intro h
  have hfails : (parse (tokenize "x = 1 .y;" "").tokens none).toOption.map (fun p =>
      ((tokenize "x = 1 .y;" "").faults.isEmpty && p.document.syntaxErrors.isEmpty,
        decide (∀ c ∈ p.document.walk, c.kind = .call → c.keepsTokens))) = some (true, false) := by
    decide +kernel
  obtain ⟨p, hp, hfacts⟩ := Parse.exists_of_map hfails
  obtain ⟨hclean, hkeeps⟩ := Prod.mk.inj hfacts
  obtain ⟨hfaults, hc⟩ := Bool.and_eq_true_iff.1 hclean
  exact absurd (h _ _ _ p hp (List.isEmpty_iff.1 hfaults) (List.isEmpty_iff.1 hc))
    (of_decide_eq_false hkeeps)

end Scad
